import LatticeSeries.Header
import Mathlib.Data.List.Basic

/-!
# The main header as a codec

Decoding the main header and encoding it are inverse to each other: a byte
string decodes to a header exactly when it begins with the sixty bytes of that
header and the two magic numbers are right. Nothing is assumed about the bytes
that follow, and floating-point numbers are compared as words.
-/
namespace LatticeSeries

theorem Version.number_of_ofNumber? {n : UInt32} {v : Version}
    (h : Version.ofNumber? n = some v) : v.number = n := by
  unfold Version.ofNumber? at h
  split_ifs at h with h₃ h₄
  · cases h
    exact h₃.symm
  · cases h
    exact h₄.symm

namespace Header

theorem length_slice {bytes : Bytes} {start width : Nat}
    (h : start + width ≤ bytes.length) : (slice bytes start width).length = width := by
  simp only [slice, List.length_take, List.length_drop]
  omega

theorem take_append_slice (bytes : Bytes) (start width : Nat) :
    bytes.take start ++ slice bytes start width = bytes.take (start + width) := by
  rw [slice, List.take_add]

theorem decode_encode_append {h : Header} (magic : h.hasMagic) (rest : Bytes) :
    decode (h.encode ++ rest) = .ok h := by
  have hlen : ¬(h.encode ++ rest).length < length := by
    rw [List.length_append, length_encode]
    omega
  rcases h with ⟨application, extraction, version, voxel, ⟨x, y, z⟩, sites, fields, fieldBytes⟩
  simp only [hasMagic, Bool.and_eq_true, beq_iff_eq] at magic
  rcases magic with ⟨rfl, rfl⟩
  rw [decode, if_neg hlen]
  simp [encode, slice, List.drop_append, List.drop_eq_nil_of_le]

theorem take_eq_encode_of_decode {bytes : Bytes} {h : Header} (hd : decode bytes = .ok h) :
    h.hasMagic ∧ bytes.take length = h.encode := by
  unfold decode at hd
  split at hd
  · cases hd
  · rename_i hlen
    have hlen : 60 ≤ bytes.length := Nat.le_of_not_lt hlen
    have word : ∀ start, start + 4 ≤ 60 →
        bytesOfU32 (u32OfBytes (slice bytes start 4)) = slice bytes start 4 := fun start hs =>
      bytesOfU32_u32OfBytes (length_slice (by omega))
    have longWord : bytesOfU64 (u64OfBytes (slice bytes 44 8)) = slice bytes 44 8 :=
      bytesOfU64_u64OfBytes (length_slice (by omega))
    have number : ∀ start, start + 8 ≤ 60 →
        (Ieee.Number.ofBytes (slice bytes start 8) : Double).toBytes = slice bytes start 8 :=
      fun start hs => Ieee.Number.toBytes_ofBytes rfl (length_slice (by omega))
    dsimp only at hd
    split_ifs at hd with h₁ h₂
    split at hd
    · cases hd
    · rename_i version hv
      cases hd
      have hversion := Version.number_of_ofNumber? hv
      refine ⟨?_, ?_⟩
      · simp only [hasMagic, Bool.and_eq_true, beq_iff_eq]
        exact ⟨not_not.mp h₁, not_not.mp h₂⟩
      · -- The fields tile the sixty bytes in the order in which they are encoded.
        rw [encode, hversion, word 0 (by omega), word 4 (by omega), word 8 (by omega),
          number 12 (by omega), number 20 (by omega), number 28 (by omega), number 36 (by omega),
          longWord, word 52 (by omega), word 56 (by omega)]
        have first : slice bytes 0 4 = bytes.take 4 := rfl
        simp only [first, take_append_slice, length]

theorem decode_eq_ok_iff {bytes : Bytes} {h : Header} :
    decode bytes = .ok h ↔ h.hasMagic ∧ bytes.take length = h.encode := by
  constructor
  · exact take_eq_encode_of_decode
  · intro h
    rcases h with ⟨magic, htake⟩
    rw [← List.take_append_drop length bytes, htake]
    exact decode_encode_append magic _

end Header

end LatticeSeries
