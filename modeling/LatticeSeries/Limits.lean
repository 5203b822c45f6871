import LatticeSeries.Error

/-!
# Limits on header values

A caller may refuse files whose headers declare more than it is prepared to
handle. A limit is inclusive, none may be zero, and by default each is the
greatest value that the header can hold.
-/
namespace LatticeSeries

structure Limits where
  siteCount : UInt64 := 0xffffffffffffffff
  fieldCount : UInt32 := 0xffffffff
  fieldHeaderLength : UInt32 := 0xffffffff
  fieldLength : UInt32 := 0xffffffff
deriving DecidableEq, Repr

namespace Limits

def get (l : Limits) : LimitKey → Nat
  | .siteCount => l.siteCount.toNat
  | .fieldCount => l.fieldCount.toNat
  | .fieldHeaderLength => l.fieldHeaderLength.toNat
  | .fieldLength => l.fieldLength.toNat

/-- All keys, in the order in which they are declared and checked. -/
def keys : List LimitKey := [.siteCount, .fieldCount, .fieldHeaderLength, .fieldLength]

def firstZero? (l : Limits) : Option LimitKey := keys.find? fun key => l.get key = 0

def validate (l : Limits) : Except SettingsFault Unit :=
  match l.firstZero? with
  | some key => .error (.zeroLimit key)
  | none => .ok ()

/-- Refuses a value above its limit. -/
def check (quantity : String) (value limit : Nat) : Except Error Unit :=
  if limit < value then .error (.limitExceeded quantity value limit) else .ok ()

theorem check_eq_ok_iff {quantity : String} {value limit : Nat} {u : Unit} :
    check quantity value limit = .ok u ↔ value ≤ limit := by
  simp [check]

theorem check_eq_error_iff {quantity : String} {value limit : Nat} {e : Error} :
    check quantity value limit = .error e ↔
      limit < value ∧ e = .limitExceeded quantity value limit := by
  unfold check
  split
  · rename_i h
    simp [h, eq_comm]
  · rename_i h
    simp [h]

end Limits

end LatticeSeries
