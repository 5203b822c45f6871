import LatticeSeries.Xdr
import Mathlib.Data.List.Basic

/-!
# Readers as codecs

What a reader takes off the front of a cursor when it succeeds is the encoding
of the value that it returns, and it succeeds on every such encoding. Each item
has one lemma of this form, so a sequence of items is read exactly when the
encodings lie one after the other.
-/
namespace LatticeSeries.Xdr

/-- From the first cursor to the second, exactly these bytes were taken. -/
def Cursor.Took (c : Cursor) (bytes : Bytes) (c' : Cursor) : Prop :=
  c.rest = bytes ++ c'.rest ∧ c'.position = c.position + bytes.length

namespace Cursor

theorem took_nil {c c' : Cursor} : c.Took [] c' ↔ c' = c := by
  cases c
  cases c'
  simp [Took, eq_comm, and_comm]

theorem Took.append {c c₁ c₂ : Cursor} {a b : Bytes} (ha : c.Took a c₁) (hb : c₁.Took b c₂) :
    c.Took (a ++ b) c₂ := by
  refine ⟨?_, ?_⟩
  · rw [ha.1, hb.1, List.append_assoc]
  · rw [hb.2, ha.2, List.length_append]
    omega

/-- A cursor that took two encodings took the first and then the second. -/
theorem took_append_iff {c c₂ : Cursor} {a b : Bytes} :
    c.Took (a ++ b) c₂ ↔ ∃ c₁, c.Took a c₁ ∧ c₁.Took b c₂ := by
  constructor
  · intro h
    rcases h with ⟨hrest, hposition⟩
    refine ⟨⟨c.position + a.length, b ++ c₂.rest⟩, ⟨?_, rfl⟩, ⟨rfl, ?_⟩⟩
    · rw [hrest, List.append_assoc]
    · rw [hposition, List.length_append]
      exact (Nat.add_assoc _ _ _).symm
  · intro h
    rcases h with ⟨c₁, ha, hb⟩
    exact ha.append hb

/-- Moving on by the length of what comes next takes it. -/
theorem took_advance_iff {c c' : Cursor} {bytes : Bytes} :
    c.Took bytes c' ↔ bytes.length ≤ c.remaining ∧ c.rest.take bytes.length = bytes ∧
      c' = c.advance bytes.length := by
  constructor
  · intro h
    rcases h with ⟨hrest, hposition⟩
    refine ⟨?_, ?_, ?_⟩
    · rw [remaining, hrest, List.length_append]
      omega
    · rw [hrest, List.take_left]
    · rw [advance, hrest, List.drop_left, ← hposition]
  · intro h
    rcases h with ⟨_, htake, rfl⟩
    refine ⟨?_, rfl⟩
    calc c.rest = c.rest.take bytes.length ++ c.rest.drop bytes.length :=
          (List.take_append_drop _ _).symm
      _ = bytes ++ (c.advance bytes.length).rest := by rw [htake, advance]

end Cursor

variable {α β : Type}

theorem bind_eq_ok_iff {x : Reader α} {f : α → Reader β} {c c' : Cursor} {b : β} :
    (x >>= f) c = .ok b c' ↔ ∃ a c₁, x c = .ok a c₁ ∧ f a c₁ = .ok b c' := by
  change EStateM.bind x f c = _ ↔ _
  unfold EStateM.bind
  cases x c with
  | ok a c₁ => simp
  | error e c₁ => simp

theorem pure_eq_ok_iff {a b : α} {c c' : Cursor} :
    (pure a : Reader α) c = .ok b c' ↔ b = a ∧ c' = c := by
  change EStateM.Result.ok a c = .ok b c' ↔ _
  simp [eq_comm]

theorem liftExcept_eq_ok_iff {x : Except Error α} {a : α} {c c' : Cursor} :
    (liftExcept x : Reader α) c = .ok a c' ↔ x = .ok a ∧ c' = c := by
  cases x with
  | ok value => exact pure_eq_ok_iff.trans (by simp [eq_comm])
  | error e =>
    change EStateM.Result.error e c = .ok a c' ↔ _
    simp

theorem window_eq_ok_iff {item : String} {n : Nat}
    {read : Cursor → Bytes → Except HeaderFault α} {value : α} {c c' : Cursor} :
    window item n read c = .ok value c' ↔
      n ≤ c.remaining ∧ read c (c.rest.take n) = .ok value ∧ c' = c.advance n := by
  unfold window
  split
  · rename_i hlt
    simp only [reduceCtorEq, false_iff, not_and]
    omega
  · rename_i hge
    have hge : n ≤ c.remaining := Nat.le_of_not_lt hge
    cases read c (c.rest.take n) with
    | ok v => simp [hge, eq_comm]
    | error fault => simp

/-- A window that decodes its bytes reads exactly the encodings of that width. -/
theorem window_codec {item : String} {n : Nat} {decode : Bytes → α} {encode : α → Bytes}
    (length_encode : ∀ v, (encode v).length = n) (decode_encode : ∀ v, decode (encode v) = v)
    (encode_decode : ∀ bytes, bytes.length = n → encode (decode bytes) = bytes)
    {v : α} {c c' : Cursor} :
    window item n (fun _ bytes => .ok (decode bytes)) c = .ok v c' ↔ c.Took (encode v) c' := by
  rw [window_eq_ok_iff, Cursor.took_advance_iff, length_encode]
  constructor
  · intro h
    rcases h with ⟨hn, hread, hc⟩
    refine ⟨hn, ?_, hc⟩
    rw [← Except.ok.inj hread, encode_decode]
    rw [List.length_take]
    exact Nat.min_eq_left hn
  · intro h
    rcases h with ⟨hn, htake, hc⟩
    exact ⟨hn, by rw [htake, decode_encode], hc⟩

theorem readU32_eq_ok_iff {item : String} {n : UInt32} {c c' : Cursor} :
    readU32 item c = .ok n c' ↔ c.Took (bytesOfU32 n) c' :=
  window_codec length_bytesOfU32 u32OfBytes_bytesOfU32 fun _ => bytesOfU32_u32OfBytes

theorem readDouble_eq_ok_iff {item : String} {x : Double} {c c' : Cursor} :
    readDouble item c = .ok x c' ↔ c.Took x.toBytes c' :=
  window_codec Ieee.Number.length_toBytes Ieee.Number.ofBytes_toBytes_double
    fun _ => Ieee.Number.toBytes_ofBytes rfl

/-- A text is read only from its own bytes with nothing but zeros after them. -/
theorem textOf_eq_ok_iff {item text : String} {position length : Nat} {bytes : Bytes}
    (hlen : bytes.length = length + padding length) :
    textOf item position length bytes = .ok text ↔
      bytes = Utf8.encode text ++ List.replicate (padding length) 0 ∧
        (Utf8.encode text).length = length := by
  have hdrop : (bytes.drop length).length = padding length := by
    rw [List.length_drop, hlen]
    omega
  have htake : (bytes.take length).length = length := by
    rw [List.length_take, hlen]
    omega
  have hzero : (bytes.drop length).any (· ≠ 0) = false ↔
      bytes.drop length = List.replicate (padding length) 0 := by
    rw [List.eq_replicate_iff]
    simp [hdrop]
  unfold textOf
  constructor
  · intro h
    split at h
    · cases h
    · rename_i hany
      have hpad := hzero.mp (Bool.eq_false_iff.mpr hany)
      split at h
      · rename_i found hfound
        cases h
        have htext := Utf8.eq_encode_of_decode hfound
        refine ⟨?_, by rw [← htext, htake]⟩
        rw [← htext, ← hpad, List.take_append_drop]
      · cases h
  · intro h
    rcases h with ⟨rfl, hl⟩
    have hpad : ((Utf8.encode text ++ List.replicate (padding length) 0).drop length).any
        (· ≠ 0) = false := hzero.mpr (by rw [← hl, List.drop_left])
    have htext : (Utf8.encode text ++ List.replicate (padding length) 0).take length =
        Utf8.encode text := by rw [← hl, List.take_left]
    rw [if_neg (Bool.eq_false_iff.mp hpad), htext, Utf8.decode_encode]

theorem readText_eq_ok_iff {item text : String} {c c' : Cursor} :
    readText item c = .ok text c' ↔
      (Utf8.encode text).length < UInt32.size ∧ c.Took (encodeText text) c' := by
  unfold readText encodeText
  simp only [bind_eq_ok_iff, readU32_eq_ok_iff, window_eq_ok_iff, List.append_assoc,
    Cursor.took_append_iff (a := bytesOfU32 _)]
  constructor
  · intro h
    rcases h with ⟨n, c₁, hn, hfit, hread, hc⟩
    have hwindow : (c₁.rest.take (n.toNat + padding n.toNat)).length =
        n.toNat + padding n.toNat := List.length_take_of_le hfit
    obtain ⟨htake, hl⟩ := (textOf_eq_ok_iff hwindow).mp hread
    refine ⟨hl ▸ n.toNat_lt, c₁, ?_, ?_⟩
    · rwa [hl, UInt32.ofNat_toNat]
    · rw [hl, ← htake, Cursor.took_advance_iff, hwindow]
      exact ⟨hfit, rfl, hc⟩
  · intro h
    rcases h with ⟨hlt, c₁, hn, htook⟩
    have hword : (UInt32.ofNat (Utf8.encode text).length).toNat = (Utf8.encode text).length :=
      UInt32.toNat_ofNat_of_lt' hlt
    rw [Cursor.took_advance_iff, List.length_append, List.length_replicate] at htook
    rcases htook with ⟨hfit, htake, hc⟩
    refine ⟨_, c₁, hn, ?_⟩
    rw [hword]
    refine ⟨hfit, ?_, hc⟩
    exact (textOf_eq_ok_iff (List.length_take_of_le hfit)).mpr ⟨htake, rfl⟩

theorem four_le_length_encodeText (text : String) : 4 ≤ (encodeText text).length := by
  simp only [encodeText, List.length_append, length_bytesOfU32]
  omega

end LatticeSeries.Xdr
