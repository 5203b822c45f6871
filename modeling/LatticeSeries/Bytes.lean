/-!
# Byte strings and big-endian words

A file is a list of bytes. Every number in it is a big-endian word of fixed
width, so one encoder and one decoder over the naturals serve all of them; they
are inverse to each other on words of the right width.
-/
namespace LatticeSeries

-- Powers of numbers are those of core.
attribute [local instance (2000)] instPowNat

abbrev Bytes := List UInt8

namespace BigEndian

/-- The low `width` bytes of `n`, most significant first. -/
def encode : (width : Nat) → (n : Nat) → Bytes
  | 0, _ => []
  | width + 1, n => UInt8.ofNat (n / 256 ^ width) :: encode width n

/-- The natural number that the bytes spell, most significant first. -/
def decode : Bytes → Nat
  | [] => 0
  | b :: bytes => b.toNat * 256 ^ bytes.length + decode bytes

@[simp] theorem encode_zero (n : Nat) : encode 0 n = [] := rfl

@[simp] theorem decode_nil : decode [] = 0 := rfl

@[simp] theorem length_encode (width n : Nat) : (encode width n).length = width := by
  induction width with
  | zero => rfl
  | succ width ih => simp [encode, ih]

theorem decode_lt (bytes : Bytes) : decode bytes < 256 ^ bytes.length := by
  induction bytes with
  | nil => simp
  | cons b bytes ih =>
    have hb : b.toNat + 1 ≤ 256 := b.toNat_lt
    have := Nat.mul_le_mul_right (256 ^ bytes.length) hb
    simp only [decode, List.length_cons, Nat.pow_succ]
    rw [Nat.add_mul] at this
    omega

theorem decode_encode (width n : Nat) : decode (encode width n) = n % 256 ^ width := by
  induction width with
  | zero => simp [Nat.mod_one]
  | succ width ih =>
    rw [encode, decode, length_encode, ih, Nat.mod_pow_succ, Nat.mul_comm (256 ^ width),
      Nat.add_comm]
    simp

/-- Only the value below the word's range matters. -/
theorem encode_add_mul (width a n : Nat) : encode width (a * 256 ^ width + n) = encode width n := by
  suffices h : ∀ k a n, width ≤ k → encode width (a * 256 ^ k + n) = encode width n from
    h width a n (Nat.le_refl _)
  induction width with
  | zero => intros; rfl
  | succ width ih =>
    intro k a n hk
    have hpow : a * 256 ^ k = a * 256 ^ (k - width - 1) * 256 * 256 ^ width := by
      rw [Nat.mul_assoc, Nat.mul_assoc, Nat.mul_comm 256, ← Nat.pow_succ, ← Nat.pow_add]
      congr 2
      omega
    simp only [encode]
    rw [ih k a n (by omega), hpow, Nat.mul_comm _ (256 ^ width),
      Nat.mul_add_div (Nat.pow_pos (by decide))]
    congr 1
    apply UInt8.toNat.inj
    simp

theorem encode_decode (bytes : Bytes) : encode bytes.length (decode bytes) = bytes := by
  induction bytes with
  | nil => rfl
  | cons b bytes ih =>
    rw [List.length_cons, encode, decode, encode_add_mul, ih, Nat.mul_comm,
      Nat.mul_add_div (Nat.pow_pos (by decide)), Nat.div_eq_of_lt (decode_lt bytes)]
    simp

end BigEndian

def bytesOfU32 (n : UInt32) : Bytes := BigEndian.encode 4 n.toNat

def bytesOfU64 (n : UInt64) : Bytes := BigEndian.encode 8 n.toNat

def u32OfBytes (bytes : Bytes) : UInt32 := UInt32.ofNat (BigEndian.decode bytes)

def u64OfBytes (bytes : Bytes) : UInt64 := UInt64.ofNat (BigEndian.decode bytes)

@[simp] theorem length_bytesOfU32 (n : UInt32) : (bytesOfU32 n).length = 4 := by
  simp [bytesOfU32]

@[simp] theorem length_bytesOfU64 (n : UInt64) : (bytesOfU64 n).length = 8 := by
  simp [bytesOfU64]

@[simp] theorem u32OfBytes_bytesOfU32 (n : UInt32) : u32OfBytes (bytesOfU32 n) = n := by
  have h := n.toNat_lt
  rw [u32OfBytes, bytesOfU32, BigEndian.decode_encode, Nat.mod_eq_of_lt (by omega)]
  simp

@[simp] theorem u64OfBytes_bytesOfU64 (n : UInt64) : u64OfBytes (bytesOfU64 n) = n := by
  have h := n.toNat_lt
  rw [u64OfBytes, bytesOfU64, BigEndian.decode_encode, Nat.mod_eq_of_lt (by omega)]
  simp

theorem bytesOfU32_u32OfBytes {bytes : Bytes} (h : bytes.length = 4) :
    bytesOfU32 (u32OfBytes bytes) = bytes := by
  have hlt := BigEndian.decode_lt bytes
  rw [h] at hlt
  rw [bytesOfU32, u32OfBytes, UInt32.toNat_ofNat', Nat.mod_eq_of_lt (by omega), ← h,
    BigEndian.encode_decode]

theorem bytesOfU64_u64OfBytes {bytes : Bytes} (h : bytes.length = 8) :
    bytesOfU64 (u64OfBytes bytes) = bytes := by
  have hlt := BigEndian.decode_lt bytes
  rw [h] at hlt
  rw [bytesOfU64, u64OfBytes, UInt64.toNat_ofNat', Nat.mod_eq_of_lt (by omega), ← h,
    BigEndian.encode_decode]

end LatticeSeries
