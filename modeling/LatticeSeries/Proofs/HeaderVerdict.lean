import LatticeSeries.Proofs.HeaderCodec

/-!
# Verdicts on the main header

Bytes hold a main header or are refused for one of four reasons, which are judged in
a fixed order: they are too few, they do not open with the magic word of the
application, not with that of an extraction file behind it, or they name a version
that nobody reads. A refusal reports the word that was found, and its message spells
that word in eight hexadecimal digits, so that no two words have one message. Bytes
that are not refused begin with the encoding of the header that they decode to, and
every encoding is read back, whatever follows it.
-/
namespace LatticeSeries

-- Powers of numbers are those of core.
attribute [local instance (2000)] instPowNat

/-- The last digits of a number in hexadecimal notation, most significant first. -/
def hexDigits : (width n : Nat) → List Char
  | 0, _ => []
  | width + 1, n => hexDigits width (n / 16) ++ [(n % 16).digitChar]

theorem hexDigits_zero_right (width : Nat) :
    hexDigits width 0 = List.replicate width '0' := by
  induction width with
  | zero => rfl
  | succ width ih =>
    rw [hexDigits, Nat.zero_div, ih, List.replicate_succ']
    rfl

theorem digitChar_inj {a b : Nat} (ha : a < 16) (hb : b < 16) (h : a.digitChar = b.digitChar) :
    a = b := by
  have hall : ∀ a < 16, ∀ b < 16, Nat.digitChar a = Nat.digitChar b → a = b := by decide
  exact hall a ha b hb h

theorem hexDigits_inj {width m n : Nat} (hm : m < 16 ^ width) (hn : n < 16 ^ width)
    (h : hexDigits width m = hexDigits width n) : m = n := by
  induction width generalizing m n with
  | zero =>
    rw [Nat.pow_zero] at hm hn
    omega
  | succ width ih =>
    rw [Nat.pow_succ] at hm hn
    obtain ⟨hfront, hlast⟩ := List.append_inj' h rfl
    have hquotient : m / 16 = n / 16 := ih (by omega) (by omega) hfront
    have hremainder : m % 16 = n % 16 :=
      digitChar_inj (Nat.mod_lt m (by decide)) (Nat.mod_lt n (by decide)) (List.cons.inj hlast).1
    omega

/-- Padding with zeros completes the digits up to the width. -/
theorem replicate_append_toDigits {width n : Nat} (hn : n < 16 ^ (width + 1)) :
    List.replicate (width + 1 - (Nat.toDigits 16 n).length) '0' ++ Nat.toDigits 16 n =
      hexDigits (width + 1) n := by
  induction width generalizing n with
  | zero =>
    rw [Nat.pow_succ, Nat.pow_zero] at hn
    rw [Nat.toDigits_of_lt_base (by omega), hexDigits, Nat.mod_eq_of_lt (by omega)]
    rfl
  | succ width ih =>
    rw [Nat.pow_succ] at hn
    by_cases hsmall : n < 16
    · rw [Nat.toDigits_of_lt_base hsmall, hexDigits, Nat.div_eq_of_lt hsmall, hexDigits_zero_right,
        Nat.mod_eq_of_lt hsmall]
      rfl
    · rw [Nat.toDigits_of_base_le (by decide) (by omega), hexDigits, ← ih (n := n / 16) (by omega),
        List.length_append, List.length_singleton, Nat.add_sub_add_right, List.append_assoc]

theorem toNat_lt_pow (n : UInt32) : n.toNat < Nat.pow 16 8 :=
  n.toNat_lt

theorem hexadecimal_eq (n : UInt32) :
    hexadecimal n = "0x" ++ String.ofList (hexDigits 8 n.toNat) := by
  rw [hexadecimal, replicate_append_toDigits (toNat_lt_pow n)]

theorem hexadecimal_inj {m n : UInt32} (h : hexadecimal m = hexadecimal n) : m = n := by
  rw [hexadecimal_eq, hexadecimal_eq, String.append_right_inj, String.ofList_inj] at h
  exact UInt32.toNat.inj (hexDigits_inj (toNat_lt_pow m) (toNat_lt_pow n) h)

theorem Version.ofNumber?_eq_none_iff {n : UInt32} :
    Version.ofNumber? n = none ↔ n ≠ 3 ∧ n ≠ 4 := by
  unfold Version.ofNumber?
  split_ifs with h₃ h₄
  · simp [h₃]
  · simp [h₄]
  · simp [h₃, h₄]

namespace Header

/-- What is wrong with bytes that hold no main header. No reason holds where an
earlier one does, and a reason names the word that stands in the bytes. -/
inductive Refused (bytes : Bytes) : Error → Prop where
  | cut (short : bytes.length < 60) : Refused bytes (.truncated .mainHeader 60 bytes.length)
  | application {found : UInt32} (whole : 60 ≤ bytes.length)
      (read : slice bytes 0 4 = bytesOfU32 found) (wrong : found ≠ Magic.application) :
      Refused bytes (.corruptHeader (.applicationMagic found))
  | extraction {found : UInt32} (whole : 60 ≤ bytes.length)
      (application : slice bytes 0 4 = bytesOfU32 Magic.application)
      (read : slice bytes 4 4 = bytesOfU32 found) (wrong : found ≠ Magic.extraction) :
      Refused bytes (.corruptHeader (.extractionMagic found))
  | version {found : UInt32} (whole : 60 ≤ bytes.length)
      (application : slice bytes 0 4 = bytesOfU32 Magic.application)
      (extraction : slice bytes 4 4 = bytesOfU32 Magic.extraction)
      (read : slice bytes 8 4 = bytesOfU32 found) (unknown : found ≠ 3 ∧ found ≠ 4) :
      Refused bytes (.unsupportedVersion found)

variable {bytes : Bytes} {e : Error}

/-- Four bytes that are there are a word. -/
theorem slice_eq_bytesOfU32 {start : Nat} (h : start + 4 ≤ bytes.length) :
    slice bytes start 4 = bytesOfU32 (u32OfBytes (slice bytes start 4)) :=
  (bytesOfU32_u32OfBytes (length_slice h)).symm

theorem Refused.decode_eq (h : Refused bytes e) : decode bytes = .error e := by
  cases h with
  | cut short => exact if_pos short
  | application whole read wrong =>
    have hlen : ¬bytes.length < length := Nat.not_lt.mpr whole
    rw [decode, if_neg hlen]
    dsimp only
    rw [read, u32OfBytes_bytesOfU32, if_pos wrong]
  | extraction whole application read wrong =>
    have hlen : ¬bytes.length < length := Nat.not_lt.mpr whole
    rw [decode, if_neg hlen]
    dsimp only
    rw [application, read, u32OfBytes_bytesOfU32, u32OfBytes_bytesOfU32, if_neg (not_not.mpr rfl),
      if_pos wrong]
  | version whole application extraction read unknown =>
    have hlen : ¬bytes.length < length := Nat.not_lt.mpr whole
    rw [decode, if_neg hlen]
    dsimp only
    rw [application, extraction, read, u32OfBytes_bytesOfU32, u32OfBytes_bytesOfU32,
      u32OfBytes_bytesOfU32, if_neg (not_not.mpr rfl), if_neg (not_not.mpr rfl),
      Version.ofNumber?_eq_none_iff.mpr unknown]

theorem refused_of_decode (h : decode bytes = .error e) : Refused bytes e := by
  unfold decode at h
  split at h
  · rename_i short
    cases h
    exact .cut short
  · rename_i hlen
    have whole : 60 ≤ bytes.length := Nat.le_of_not_lt hlen
    have word : ∀ start, start + 4 ≤ 60 →
        slice bytes start 4 = bytesOfU32 (u32OfBytes (slice bytes start 4)) := fun start hs =>
      slice_eq_bytesOfU32 (Nat.le_trans hs whole)
    dsimp only at h
    split_ifs at h with happlication hextraction
    · cases h
      exact .application whole (word 0 (by decide)) happlication
    · cases h
      have application := word 0 (by decide)
      rw [not_not.mp happlication] at application
      exact .extraction whole application (word 4 (by decide)) hextraction
    · have application := word 0 (by decide)
      have extraction := word 4 (by decide)
      rw [not_not.mp happlication] at application
      rw [not_not.mp hextraction] at extraction
      split at h
      · rename_i hversion
        cases h
        exact .version whole application extraction (word 8 (by decide))
          (Version.ofNumber?_eq_none_iff.mp hversion)
      · cases h

theorem decode_eq_error_iff : decode bytes = .error e ↔ Refused bytes e :=
  ⟨refused_of_decode, Refused.decode_eq⟩

/-- No bytes are refused for two reasons. -/
theorem Refused.unique {e' : Error} (h : Refused bytes e) (h' : Refused bytes e') : e = e' :=
  Except.error.inj (h.decode_eq.symm.trans h'.decode_eq)

theorem hasMagic_iff {h : Header} :
    h.hasMagic ↔ h.applicationMagic = Magic.application ∧ h.extractionMagic = Magic.extraction := by
  rw [hasMagic, Bool.and_eq_true, beq_iff_eq, beq_iff_eq]

theorem exists_decode_iff : (∃ h, decode bytes = .ok h) ↔ ¬∃ e, Refused bytes e := by
  simp only [← decode_eq_error_iff]
  cases decode bytes with
  | ok h => simp
  | error e => simp

/-- What decoding bytes comes to: they are refused for exactly one reason, or they decode
to a header with both magic words whose encoding they begin with, and then to no other.
The message of a refusal tells which word was found in the place of a magic word. -/
structure Verdict (bytes : Bytes) : Prop where
  applicationMagic : bytesOfU32 Magic.application = [0x68, 0x6c, 0x62, 0x21]
  extractionMagic : bytesOfU32 Magic.extraction = [0x78, 0x74, 0x72, 0x04]
  hasMagic_iff : ∀ h : Header, h.hasMagic ↔
    h.applicationMagic = Magic.application ∧ h.extractionMagic = Magic.extraction
  error_iff : ∀ e, decode bytes = .error e ↔ Refused bytes e
  unique : ∀ e e', Refused bytes e → Refused bytes e' → e = e'
  exists_iff : (∃ h, decode bytes = .ok h) ↔ ¬∃ e, Refused bytes e
  ok_iff : ∀ h, decode bytes = .ok h ↔ h.hasMagic ∧ bytes.take 60 = h.encode
  encode : ∀ (h : Header) rest, h.hasMagic → decode (h.encode ++ rest) = .ok h
  message_application : ∀ found, (Error.corruptHeader (.applicationMagic found)).message =
    "Corrupt header: Incorrect application magic: expected 0x686c6221, got " ++ hexadecimal found
  message_extraction : ∀ found, (Error.corruptHeader (.extractionMagic found)).message =
    "Corrupt header: Incorrect extraction magic: expected 0x78747204, got " ++ hexadecimal found
  hexadecimal_inj : ∀ found other : UInt32, hexadecimal found = hexadecimal other → found = other

/-- The verdict on bytes is exact, and every header with both magic words is decoded from
its encoding, with anything behind it. -/
theorem decode_verdict (bytes : Bytes) : Verdict bytes where
  applicationMagic := by decide
  extractionMagic := by decide
  hasMagic_iff := fun _ => Header.hasMagic_iff
  error_iff := fun _ => decode_eq_error_iff
  unique := fun _ _ => Refused.unique
  exists_iff := exists_decode_iff
  ok_iff := fun _ => decode_eq_ok_iff
  encode := fun _ rest magic => decode_encode_append magic rest
  message_application := fun _ => rfl
  message_extraction := fun _ => rfl
  hexadecimal_inj := fun _ _ => LatticeSeries.hexadecimal_inj

/-- Two numbers of the header are NaNs with bits of their own. -/
def oddHeader : Header where
  applicationMagic := Magic.application
  extractionMagic := Magic.extraction
  version := .four
  voxelSize := .ofNatBits 0x7ff8000000000abc
  origin := ⟨.zero, .ofNatBits 0x8000000000000000, .ofNatBits 0xfff0000000000001⟩
  siteCount := 0xffffffffffffffff
  fieldCount := 0
  fieldHeaderLength := 0xffffffff

theorem decode_verdict_odd :
    oddHeader.hasMagic ∧ decode (oddHeader.encode ++ [1, 2, 3]) = .ok oddHeader ∧
      Refused (0x69 :: oddHeader.encode.tail.take 59)
        (.corruptHeader (.applicationMagic 0x696c6221)) ∧
      decode (0x69 :: oddHeader.encode.tail.take 59) =
        .error (.corruptHeader (.applicationMagic 0x696c6221)) ∧
      decode (oddHeader.encode.take 59) = .error (.truncated .mainHeader 60 59) := by
  have hmagic : oddHeader.hasMagic := rfl
  have hrefused : Refused (0x69 :: oddHeader.encode.tail.take 59)
      (.corruptHeader (.applicationMagic 0x696c6221)) :=
    .application (by decide) (by decide) (by decide)
  have hother := decode_verdict (0x69 :: oddHeader.encode.tail.take 59)
  have hcut := decode_verdict (oddHeader.encode.take 59)
  exact ⟨hmagic, (decode_verdict []).encode oddHeader [1, 2, 3] hmagic, hrefused,
    (hother.error_iff _).mpr hrefused, (hcut.error_iff _).mpr (.cut (by decide))⟩

end Header

end LatticeSeries
