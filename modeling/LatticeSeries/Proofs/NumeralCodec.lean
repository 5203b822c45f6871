import LatticeSeries.Numeral
import LatticeSeries.Proofs.Stages

/-!
# Reading numerals back

A numeral is accepted exactly when it spells a number of 64 bits, and it then
stands for that number: no digits are lost to an overflow on the way, because a
value that has left the range never comes back. The decimal text of a number
spells it.
-/
namespace LatticeSeries.Numeral

/-- The text consists of digits that spell the number, after at most one plus sign. -/
def Denotes (text : String) (n : UInt64) : Prop :=
  ∃ digits : List Char, (text.toList = digits ∨ text.toList = '+' :: digits) ∧
    digits ≠ [] ∧ (∀ c ∈ digits, c.isDigit = true) ∧
      Nat.ofDigitChars 10 digits 0 = n.toNat

/-- More digits never make a number smaller. -/
theorem le_ofDigitChars (n : Nat) (cs : List Char) : n ≤ Nat.ofDigitChars 10 cs n := by
  induction cs generalizing n with
  | nil => exact Nat.le_refl n
  | cons c cs ih =>
    rw [Nat.ofDigitChars_cons]
    have hrest := ih (10 * n + (c.toNat - '0'.toNat))
    omega

theorem extend_eq_ok_iff {n v : Nat} {cs : List Char} (hn : n < UInt64.size) :
    extend n cs = .ok v ↔
      (∀ c ∈ cs, c.isDigit = true) ∧ Nat.ofDigitChars 10 cs n = v ∧ v < UInt64.size := by
  induction cs generalizing n with
  | nil =>
    constructor
    · intro h
      cases h
      exact ⟨fun c hc => absurd hc List.not_mem_nil, rfl, hn⟩
    · rintro ⟨-, hv, -⟩
      exact congrArg Except.ok hv
  | cons c cs ih =>
    rw [List.forall_mem_cons, Nat.ofDigitChars_cons, extend]
    by_cases hdigit : c.isDigit = true
    · rw [if_pos hdigit]
      by_cases hnext : 10 * n + (c.toNat - '0'.toNat) < UInt64.size
      · rw [if_pos hnext, ih hnext]
        exact ⟨fun h => ⟨⟨hdigit, h.1⟩, h.2⟩, fun h => ⟨h.1.2, h.2⟩⟩
      · rw [if_neg hnext]
        constructor
        · intro h
          cases h
        · rintro ⟨-, hv, hlt⟩
          have hle := le_ofDigitChars (10 * n + (c.toNat - '0'.toNat)) cs
          omega
    · rw [if_neg hdigit]
      constructor
      · intro h
        cases h
      · rintro ⟨⟨hc, -⟩, -⟩
        exact absurd hc hdigit

theorem extend_plus (n : Nat) (cs : List Char) :
    extend n ('+' :: cs) = .error .invalidDigit := rfl

/-- At most one sign is taken off, and something has to follow it. -/
theorem parseChars_eq_ok_iff {cs : List Char} {v : Nat} :
    parseChars cs = .ok v ↔
      ∃ digits, (cs = digits ∨ cs = '+' :: digits) ∧ digits ≠ [] ∧ extend 0 digits = .ok v := by
  constructor
  · intro h
    unfold parseChars at h
    split at h
    case h_1 => cases h
    case h_2 => cases h
    case h_3 digits hne => exact ⟨digits, .inr rfl, hne, h⟩
    case h_4 hne _ _ => exact ⟨cs, .inl rfl, hne, h⟩
  · rintro ⟨digits, rfl | rfl, hne, h⟩
    · cases cs with
      | nil => exact absurd rfl hne
      | cons c cs =>
        have hplus : c ≠ '+' := by
          rintro rfl
          rw [extend_plus] at h
          cases h
        rw [parseChars]
        · exact h
        all_goals simp [hplus]
    · cases digits with
      | nil => exact absurd rfl hne
      | cons c cs => exact h

theorem parse_eq_ok_iff {text : String} {n : UInt64} : parse text = .ok n ↔ Denotes text n := by
  have hzero : 0 < UInt64.size := by decide
  rw [parse, map_eq_ok_iff]
  constructor
  · rintro ⟨v, hv, rfl⟩
    obtain ⟨digits, htext, hne, hdigits⟩ := parseChars_eq_ok_iff.mp hv
    obtain ⟨hall, hvalue, hlt⟩ := (extend_eq_ok_iff hzero).mp hdigits
    exact ⟨digits, htext, hne, hall, by rw [hvalue, UInt64.toNat_ofNat_of_lt' hlt]⟩
  · rintro ⟨digits, htext, hne, hall, hvalue⟩
    have hdigits : extend 0 digits = .ok n.toNat :=
      (extend_eq_ok_iff hzero).mpr ⟨hall, hvalue, n.toNat_lt⟩
    exact ⟨n.toNat, parseChars_eq_ok_iff.mpr ⟨digits, htext, hne, hdigits⟩, UInt64.ofNat_toNat⟩

/-- The decimal text of a number reads back as the number. -/
theorem denotes_toString (n : UInt64) : Denotes (toString n) n := by
  have htext : (toString n).toList = Nat.toDigits 10 n.toNat := by
    rw [show toString n = Nat.repr n.toNat from rfl, Nat.repr, String.toList_ofList]
  refine ⟨Nat.toDigits 10 n.toNat, .inl htext, Nat.toDigits_ne_nil, ?_, ?_⟩
  · intro c hc
    exact Nat.isDigit_of_mem_toDigits (by decide) (by decide) hc
  · exact Nat.ofDigitChars_ten_toDigits

theorem Denotes.unique {text : String} {n m : UInt64} (hn : Denotes text n) (hm : Denotes text m) :
    n = m := by
  have h := parse_eq_ok_iff.mpr hn
  rw [parse_eq_ok_iff.mpr hm] at h
  exact (Except.ok.inj h).symm

end LatticeSeries.Numeral
