import LatticeSeries.Utf8
import Mathlib.Data.List.Forall2
import Mathlib.Tactic.SplitIfs

/-!
# Where text stops being UTF-8

A character is spelled by one to four bytes: a first byte, and as many more in their
ranges as the first byte asks for. The scan for faults reads one spelling after the
other, so it finds none exactly in the encodings of texts, and every byte string
that is no encoding is refused with the fault that the scan finds.
-/
namespace LatticeSeries.Utf8

/-- These bytes lie in these ranges, one in each. -/
abbrev Follow (ranges : List (UInt8 × UInt8)) (bytes : Bytes) : Prop :=
  List.Forall₂ (fun range b => range.1 ≤ b ∧ b ≤ range.2) ranges bytes

def Tail (b : UInt8) : Prop := 0x80 ≤ b.toNat ∧ b.toNat ≤ 0xBF

/-- The bytes of a character, by their number. -/
inductive Spells (first : UInt8) : Bytes → Prop
  | one : first.toNat < 0x80 → Spells first []
  | two {a : UInt8} : 0xC2 ≤ first.toNat → first.toNat < 0xE0 → Tail a → Spells first [a]
  | three {a b : UInt8} :
      0xE0 ≤ first.toNat → first.toNat < 0xF0 → Tail a → Tail b →
      (first.toNat = 0xE0 → 0xA0 ≤ a.toNat) → (first.toNat = 0xED → a.toNat ≤ 0x9F) →
      Spells first [a, b]
  | four {a b c : UInt8} :
      0xF0 ≤ first.toNat → first.toNat < 0xF5 → Tail a → Tail b → Tail c →
      (first.toNat = 0xF0 → 0x90 ≤ a.toNat) → (first.toNat = 0xF4 → a.toNat ≤ 0x8F) →
      Spells first [a, b, c]

/-- The first byte, as a number, decides about the others. -/
theorem followers?_eq (first : UInt8) :
    followers? first =
      if first.toNat < 0x80 then some []
      else if first.toNat < 0xC2 then none
      else if first.toNat < 0xE0 then some [(0x80, 0xBF)]
      else if first.toNat < 0xF0 then
        some [(if first.toNat = 0xE0 then 0xA0 else 0x80,
          if first.toNat = 0xED then 0x9F else 0xBF), (0x80, 0xBF)]
      else if first.toNat < 0xF5 then
        some [(if first.toNat = 0xF0 then 0x90 else 0x80,
          if first.toNat = 0xF4 then 0x8F else 0xBF), (0x80, 0xBF), (0x80, 0xBF)]
      else none := by
  simp only [followers?, UInt8.lt_iff_toNat_lt, ← UInt8.toNat_inj, UInt8.reduceToNat]
  split_ifs <;> first | rfl | omega

/-- The range of a second byte is narrower behind some of the first bytes. -/
theorem between_ite_iff {p q : Prop} [Decidable p] [Decidable q] {low high a : UInt8}
    (hlow : 0x80 ≤ low.toNat) (hhigh : high.toNat ≤ 0xBF) :
    ((if p then low else 0x80) ≤ a ∧ a ≤ if q then high else 0xBF) ↔
      Tail a ∧ (p → low.toNat ≤ a.toNat) ∧ (q → a.toNat ≤ high.toNat) := by
  rw [UInt8.le_iff_toNat_le, UInt8.le_iff_toNat_le, Tail]
  split_ifs with hp hq hq <;> simp [hp, hq] <;> omega

theorem exists_followers?_of_spells {first : UInt8} {follow : Bytes} (h : Spells first follow) :
    ∃ ranges, followers? first = some ranges ∧ Follow ranges follow := by
  rw [followers?_eq]
  cases h with
  | one hfirst =>
    rw [if_pos hfirst]
    exact ⟨_, rfl, .nil⟩
  | two hfirst hlt ha =>
    rw [if_neg (by omega), if_neg (by omega), if_pos hlt]
    exact ⟨_, rfl, .cons ha .nil⟩
  | three hfirst hlt ha hb hleast hlast =>
    rw [if_neg (by omega), if_neg (by omega), if_neg (by omega), if_pos hlt]
    refine ⟨_, rfl, .cons ?_ (.cons hb .nil)⟩
    exact (between_ite_iff (by decide) (by decide)).mpr ⟨ha, hleast, hlast⟩
  | four hfirst hlt ha hb hc hleast hlast =>
    rw [if_neg (by omega), if_neg (by omega), if_neg (by omega), if_neg (by omega), if_pos hlt]
    refine ⟨_, rfl, .cons ?_ (.cons hb (.cons hc .nil))⟩
    exact (between_ite_iff (by decide) (by decide)).mpr ⟨ha, hleast, hlast⟩

theorem spells_of_followers? {first : UInt8} {follow : Bytes} {ranges : List (UInt8 × UInt8)}
    (hfirst : followers? first = some ranges) (hfollow : Follow ranges follow) :
    Spells first follow := by
  rw [followers?_eq] at hfirst
  by_cases h₁ : first.toNat < 0x80
  · rw [if_pos h₁] at hfirst
    cases hfirst
    cases hfollow
    exact .one h₁
  by_cases h₂ : first.toNat < 0xC2
  · rw [if_neg h₁, if_pos h₂] at hfirst
    cases hfirst
  by_cases h₃ : first.toNat < 0xE0
  · rw [if_neg h₁, if_neg h₂, if_pos h₃] at hfirst
    obtain rfl := Option.some.inj hfirst
    obtain _ | ⟨ha, hrest⟩ := hfollow
    cases hrest
    exact .two (Nat.le_of_not_lt h₂) h₃ ha
  by_cases h₄ : first.toNat < 0xF0
  · rw [if_neg h₁, if_neg h₂, if_neg h₃, if_pos h₄] at hfirst
    obtain rfl := Option.some.inj hfirst
    obtain _ | ⟨hsecond, hrest⟩ := hfollow
    obtain _ | ⟨hb, hrest⟩ := hrest
    cases hrest
    obtain ⟨ha, hleast, hlast⟩ := (between_ite_iff (by decide) (by decide)).mp hsecond
    exact .three (Nat.le_of_not_lt h₃) h₄ ha hb hleast hlast
  by_cases h₅ : first.toNat < 0xF5
  · rw [if_neg h₁, if_neg h₂, if_neg h₃, if_neg h₄, if_pos h₅] at hfirst
    obtain rfl := Option.some.inj hfirst
    obtain _ | ⟨hsecond, hrest⟩ := hfollow
    obtain _ | ⟨hb, hrest⟩ := hrest
    obtain _ | ⟨hc, hrest⟩ := hrest
    cases hrest
    obtain ⟨ha, hleast, hlast⟩ := (between_ite_iff (by decide) (by decide)).mp hsecond
    exact .four (Nat.le_of_not_lt h₄) h₅ ha hb hc hleast hlast
  · rw [if_neg h₁, if_neg h₂, if_neg h₃, if_neg h₄, if_neg h₅] at hfirst
    cases hfirst

theorem tail_ofNat (n : Nat) : Tail (UInt8.ofNat (n % 64 + 128)) := by
  rw [Tail, UInt8.toNat_ofNat']
  omega

theorem spells_utf8EncodeChar (c : Char) :
    ∃ first follow, String.utf8EncodeChar c = first :: follow ∧ Spells first follow := by
  have hvalid : c.val.toNat < 0xd800 ∨ 0xdfff < c.val.toNat ∧ c.val.toNat < 0x110000 := c.valid
  have hbyte : ∀ n, (UInt8.ofNat n).toNat = n % 256 := fun _ => UInt8.toNat_ofNat'
  unfold String.utf8EncodeChar
  dsimp only
  generalize c.val.toNat = v at *
  split_ifs with h₁ h₂ h₃
  · refine ⟨_, _, rfl, .one ?_⟩
    rw [hbyte]
    omega
  · refine ⟨_, _, rfl, .two ?_ ?_ (tail_ofNat v)⟩
    all_goals rw [hbyte]; omega
  · refine ⟨_, _, rfl, .three ?_ ?_ (tail_ofNat (v / 64)) (tail_ofNat v) ?_ ?_⟩
    all_goals simp only [hbyte]; omega
  · refine ⟨_, _, rfl,
      .four ?_ ?_ (tail_ofNat (v / 4096)) (tail_ofNat (v / 64)) (tail_ofNat v) ?_ ?_⟩
    all_goals simp only [hbyte]; omega

theorem exists_char_of_isValidChar {v : Nat} (h : v.isValidChar) : ∃ c : Char, c.val.toNat = v :=
  ⟨Char.ofNatAux v h, rfl⟩

theorem ofNat_eq {n : Nat} {b : UInt8} (h : n = b.toNat) : UInt8.ofNat n = b := by
  rw [h, UInt8.ofNat_toNat]

/-- The digits of a character, to the base of 64, are in its bytes. -/
theorem exists_utf8EncodeChar {first : UInt8} {follow : Bytes} (h : Spells first follow) :
    ∃ c, String.utf8EncodeChar c = first :: follow := by
  unfold String.utf8EncodeChar
  dsimp only
  cases h with
  | one hfirst =>
    obtain ⟨c, hc⟩ := exists_char_of_isValidChar (v := first.toNat) (.inl (by omega))
    refine ⟨c, ?_⟩
    rw [hc, if_pos (by omega), ofNat_eq rfl]
  | @two a hfirst hlt ha =>
    obtain ⟨hleast, hlast⟩ := ha
    obtain ⟨c, hc⟩ := exists_char_of_isValidChar
      (v := (first.toNat - 192) * 64 + (a.toNat - 128)) (.inl (by omega))
    refine ⟨c, ?_⟩
    rw [hc, if_neg (by omega), if_pos (by omega), ofNat_eq (b := first) (by omega),
      ofNat_eq (b := a) (by omega)]
  | @three a b hfirst hlt ha hb hleast hlast =>
    obtain ⟨haleast, halast⟩ := ha
    obtain ⟨hbleast, hblast⟩ := hb
    obtain ⟨c, hc⟩ := exists_char_of_isValidChar
      (v := (first.toNat - 224) * 4096 + (a.toNat - 128) * 64 + (b.toNat - 128))
      (by unfold Nat.isValidChar; omega)
    refine ⟨c, ?_⟩
    rw [hc, if_neg (by omega), if_neg (by omega), if_pos (by omega),
      ofNat_eq (b := first) (by omega), ofNat_eq (b := a) (by omega),
      ofNat_eq (b := b) (by omega)]
  | @four a b d hfirst hlt ha hb hd hleast hlast =>
    obtain ⟨haleast, halast⟩ := ha
    obtain ⟨hbleast, hblast⟩ := hb
    obtain ⟨hdleast, hdlast⟩ := hd
    obtain ⟨c, hc⟩ := exists_char_of_isValidChar
      (v := (first.toNat - 240) * 262144 + (a.toNat - 128) * 4096 + (b.toNat - 128) * 64 +
        (d.toNat - 128))
      (by unfold Nat.isValidChar; omega)
    refine ⟨c, ?_⟩
    rw [hc, if_neg (by omega), if_neg (by omega), if_neg (by omega),
      ofNat_eq (b := first) (by omega), ofNat_eq (b := a) (by omega),
      ofNat_eq (b := b) (by omega), ofNat_eq (b := d) (by omega)]

theorem matching_eq_length_iff {ranges : List (UInt8 × UInt8)} {bytes : Bytes} :
    matching ranges bytes = ranges.length ↔
      ∃ follow rest, bytes = follow ++ rest ∧ Follow ranges follow := by
  induction ranges generalizing bytes with
  | nil => simp [matching]
  | cons range ranges ih =>
    cases bytes with
    | nil => simp [matching]
    | cons b bytes =>
      rw [matching, List.length_cons]
      split_ifs with hb
      · rw [Nat.add_right_cancel_iff, ih]
        constructor
        · rintro ⟨follow, rest, rfl, hfollow⟩
          exact ⟨b :: follow, rest, rfl, .cons hb hfollow⟩
        · rintro ⟨follow, rest, hbytes, hfollow⟩
          obtain _ | ⟨-, hfollow⟩ := hfollow
          exact ⟨_, rest, (List.cons.inj hbytes).2, hfollow⟩
      · constructor
        · intro h
          cases h
        · rintro ⟨follow, rest, hbytes, hfollow⟩
          obtain _ | ⟨hfirst, hfollow⟩ := hfollow
          exact absurd ((List.cons.inj hbytes).1 ▸ hfirst) hb

/-- Bytes that characters are encoded to are those of the first one and of the others. -/
theorem exists_cons_eq_flatMap_iff {first : UInt8} {bytes : Bytes} :
    (∃ cs : List Char, first :: bytes = cs.flatMap String.utf8EncodeChar) ↔
      ∃ ranges follow rest, followers? first = some ranges ∧ Follow ranges follow ∧
        bytes = follow ++ rest ∧ ∃ cs : List Char, rest = cs.flatMap String.utf8EncodeChar := by
  constructor
  · rintro ⟨cs, hcs⟩
    cases cs with
    | nil => cases hcs
    | cons c cs =>
      obtain ⟨f, follow, hc, hspells⟩ := spells_utf8EncodeChar c
      rw [List.flatMap_cons, hc] at hcs
      obtain ⟨rfl, rfl⟩ := List.cons.inj hcs
      obtain ⟨ranges, hfirst, hfollow⟩ := exists_followers?_of_spells hspells
      exact ⟨ranges, follow, _, hfirst, hfollow, rfl, cs, rfl⟩
  · rintro ⟨ranges, follow, rest, hfirst, hfollow, rfl, cs, rfl⟩
    obtain ⟨c, hc⟩ := exists_utf8EncodeChar (spells_of_followers? hfirst hfollow)
    exact ⟨c :: cs, by rw [List.flatMap_cons, hc, List.cons_append]⟩

/-- In front of encoded characters no byte is missing that the first one asks for. -/
theorem matching_eq_length_of_flatMap {first : UInt8} {bytes : Bytes}
    {ranges : List (UInt8 × UInt8)} (hfirst : followers? first = some ranges)
    (h : ∃ cs : List Char, first :: bytes = cs.flatMap String.utf8EncodeChar) :
    matching ranges bytes = ranges.length := by
  obtain ⟨ranges', follow, rest, hfirst', hfollow, hbytes, -⟩ := exists_cons_eq_flatMap_iff.mp h
  obtain rfl := Option.some.inj (hfirst.symm.trans hfirst')
  exact matching_eq_length_iff.mpr ⟨follow, rest, hbytes, hfollow⟩

/-- The scan finds nothing exactly in what characters are encoded to. -/
theorem fault?_eq_none_iff {index : Nat} {bytes : Bytes} :
    fault? index bytes = none ↔ ∃ cs : List Char, bytes = cs.flatMap String.utf8EncodeChar := by
  fun_induction fault? index bytes with
  | case1 index => exact iff_of_true rfl ⟨[], rfl⟩
  | case2 index first bytes hfirst =>
    rw [exists_cons_eq_flatMap_iff]
    simp [hfirst]
  | case3 index first bytes ranges hfirst n hn ih =>
    obtain ⟨follow, rest, rfl, hfollow⟩ := matching_eq_length_iff.mp hn
    have hlength : follow.length = n := hfollow.length_eq.symm.trans hn.symm
    refine ih.trans ?_
    rw [exists_cons_eq_flatMap_iff, List.drop_left' hlength]
    constructor
    · intro hrest
      exact ⟨ranges, follow, rest, hfirst, hfollow, rfl, hrest⟩
    · rintro ⟨ranges', follow', rest', hfirst', hfollow', hbytes, hrest⟩
      obtain rfl := Option.some.inj (hfirst.symm.trans hfirst')
      have hsame : follow.length = follow'.length :=
        hfollow.length_eq.symm.trans hfollow'.length_eq
      obtain ⟨-, rfl⟩ := List.append_inj hbytes hsame
      exact hrest
  | case4 index first bytes ranges hfirst n hn hend =>
    exact iff_of_false (by simp) fun h => hn (matching_eq_length_of_flatMap hfirst h)
  | case5 index first bytes ranges hfirst n hn hend =>
    exact iff_of_false (by simp) fun h => hn (matching_eq_length_of_flatMap hfirst h)

/-- The number of bytes before the fault. -/
def Fault.index : Fault → Nat
  | .invalid _ index => index
  | .incomplete index => index

theorem not_isPrefix_of_matching_ne {first : UInt8} {bytes : Bytes}
    (h : ∀ ranges, followers? first = some ranges → matching ranges bytes ≠ ranges.length)
    (c : Char) : ¬String.utf8EncodeChar c <+: first :: bytes := by
  rintro ⟨rest, hrest⟩
  obtain ⟨f, follow, hc, hspells⟩ := spells_utf8EncodeChar c
  rw [hc, List.cons_append] at hrest
  obtain ⟨rfl, rfl⟩ := List.cons.inj hrest
  obtain ⟨ranges, hfirst, hfollow⟩ := exists_followers?_of_spells hspells
  exact h ranges hfirst (matching_eq_length_iff.mpr ⟨follow, rest, rfl, hfollow⟩)

/-- Before a fault that the scan finds there are characters, and none comes next. -/
theorem exists_chars_of_fault? {index : Nat} {bytes : Bytes} {fault : Fault}
    (h : fault? index bytes = some fault) :
    ∃ (cs : List Char) (rest : Bytes), bytes = cs.flatMap String.utf8EncodeChar ++ rest ∧
      fault.index = index + (cs.flatMap String.utf8EncodeChar).length ∧
      ∀ c, ¬String.utf8EncodeChar c <+: rest := by
  fun_induction fault? index bytes with
  | case1 index => cases h
  | case2 index first bytes hfirst =>
    obtain rfl := Option.some.inj h
    refine ⟨[], _, rfl, rfl, not_isPrefix_of_matching_ne fun ranges hranges => ?_⟩
    rw [hfirst] at hranges
    cases hranges
  | case3 index first bytes ranges hfirst n hn ih =>
    obtain ⟨follow, rest, rfl, hfollow⟩ := matching_eq_length_iff.mp hn
    have hlength : follow.length = n := hfollow.length_eq.symm.trans hn.symm
    obtain ⟨cs, tail, hrest, hindex, hnone⟩ := ih h
    obtain ⟨c, hc⟩ := exists_utf8EncodeChar (spells_of_followers? hfirst hfollow)
    rw [List.drop_left' hlength] at hrest
    refine ⟨c :: cs, tail, ?_, ?_, hnone⟩
    · rw [List.flatMap_cons, hc, List.cons_append, List.cons_append, List.append_assoc, hrest]
    · rw [hindex, List.flatMap_cons, hc, List.length_append, List.length_cons, hlength]
      omega
  | case4 index first bytes ranges hfirst n hn hend =>
    obtain rfl := Option.some.inj h
    refine ⟨[], _, rfl, rfl, not_isPrefix_of_matching_ne fun ranges' hranges => ?_⟩
    rwa [Option.some.inj (hranges.symm.trans hfirst)]
  | case5 index first bytes ranges hfirst n hn hend =>
    obtain rfl := Option.some.inj h
    refine ⟨[], _, rfl, rfl, not_isPrefix_of_matching_ne fun ranges' hranges => ?_⟩
    rwa [Option.some.inj (hranges.symm.trans hfirst)]

theorem encode_ofList (cs : List Char) :
    encode (String.ofList cs) = cs.flatMap String.utf8EncodeChar := by
  rw [encode, String.toByteArray_ofList, List.utf8Encode, List.toList_data_toByteArray]

theorem fault?_eq_none_iff_encode {bytes : Bytes} :
    fault? 0 bytes = none ↔ ∃ text, bytes = encode text := by
  rw [fault?_eq_none_iff]
  constructor
  · rintro ⟨cs, rfl⟩
    exact ⟨String.ofList cs, (encode_ofList cs).symm⟩
  · rintro ⟨text, rfl⟩
    exact ⟨text.toList, by rw [← encode_ofList, String.ofList_toList]⟩

theorem exists_text_of_fault? {bytes : Bytes} {fault : Fault} (h : fault? 0 bytes = some fault) :
    ∃ (text : String) (rest : Bytes), bytes = encode text ++ rest ∧
      fault.index = (encode text).length ∧ ∀ c, ¬String.utf8EncodeChar c <+: rest := by
  obtain ⟨cs, rest, hbytes, hindex, hnone⟩ := exists_chars_of_fault? h
  rw [← encode_ofList, Nat.zero_add] at hindex
  exact ⟨String.ofList cs, rest, by rw [encode_ofList, hbytes], hindex, hnone⟩

/-- Bytes are refused with the fault that the scan finds, and only if it finds one. -/
theorem decode_eq_error_iff {bytes : Bytes} {fault : Fault} :
    decode bytes = .error fault ↔ fault? 0 bytes = some fault := by
  cases hscan : fault? 0 bytes with
  | none =>
    obtain ⟨text, rfl⟩ := fault?_eq_none_iff_encode.mp hscan
    simp
  | some found =>
    have hnone : ∀ text, decode bytes ≠ .ok text := by
      intro text htext
      have hnot := fault?_eq_none_iff_encode.mpr ⟨text, eq_encode_of_decode htext⟩
      rw [hscan] at hnot
      cases hnot
    unfold decode at hnone ⊢
    split
    · rename_i text htext
      simp [htext] at hnone
    · simp [hscan]

end LatticeSeries.Utf8
