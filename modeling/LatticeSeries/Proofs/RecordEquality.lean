import LatticeSeries.Proofs.NotANumber
import LatticeSeries.Proofs.TimeStepLookup

/-!
# Equal records

Records are compared part by part, and numbers by value, so a record with a NaN
equals no record, not even itself. The time steps of a file are distinct. Two
lookups in one file therefore give equal records only where they give the same
record, and then exactly if this record has no NaN. A NaN in a record is one that
the file holds, or comes from infinities in it.
-/
namespace LatticeSeries

theorem isEqv_self_iff {α : Type} {p : α → α → Bool} {xs : List α} :
    xs.isEqv xs p ↔ ∀ x ∈ xs, p x x := by
  induction xs with
  | nil => simp [List.isEqv]
  | cons x xs ih => simp [List.isEqv, ih]

theorem array_isEqv_self_iff {α : Type} {p : α → α → Bool} {xs : Array α} :
    xs.isEqv xs p ↔ ∀ x ∈ xs, p x x := by
  simp [Array.isEqv_iff_rel, Array.forall_mem_iff_forall_getElem]

/-- Some element is a NaN. -/
def Values.hasNaN : Values → Bool
  | single elements => elements.toList.any (·.isNaN)
  | double elements => elements.toList.any (·.isNaN)

def Place.hasNaN (p : Place) : Bool := p.position.toList.any (·.isNaN)

/-- Some component of a position or some element of a column is a NaN. -/
def Record.hasNaN (r : Record) : Bool :=
  r.places.toList.any Place.hasNaN || r.columns.any fun c => c.data.hasNaN

theorem Values.sameValue_self (v : Values) : v.sameValue v = !v.hasNaN := by
  rw [Bool.eq_iff_iff]
  cases v with
  | single elements =>
    rw [sameValue, array_isEqv_self_iff]
    simp [hasNaN, Ieee.Number.sameValue_self, Array.forall_mem_iff_forall_getElem]
  | double elements =>
    rw [sameValue, array_isEqv_self_iff]
    simp [hasNaN, Ieee.Number.sameValue_self, Array.forall_mem_iff_forall_getElem]

theorem Place.sameValue_self (p : Place) : p.sameValue p = !p.hasNaN := by
  rw [Bool.eq_iff_iff]
  simp [sameValue, hasNaN, isEqv_self_iff, Ieee.Number.sameValue_self]

namespace Record

theorem sameValue_self (r : Record) : r.sameValue r = !r.hasNaN := by
  rw [Bool.eq_iff_iff]
  rw [sameValue, Bool.and_eq_true, Bool.and_eq_true, array_isEqv_self_iff, isEqv_self_iff]
  simp [hasNaN, Place.sameValue_self, Column.sameValue, Values.sameValue_self,
    Array.forall_mem_iff_forall_getElem]

theorem timeStep_eq_of_sameValue {r t : Record} (h : r.sameValue t) : r.timeStep = t.timeStep := by
  simp only [sameValue, Bool.and_eq_true, beq_iff_eq] at h
  exact h.1.1

end Record

/-- What keeps a site from having a position on an axis: the origin or the spacing
is no number, an infinite spacing is taken zero times, or the distance is infinite
and so is the origin, on the other side. -/
inductive Nowhere (voxelSize origin : Double) (i : UInt32) : Prop
  | origin : origin.isNaN → Nowhere voxelSize origin i
  | voxelSize : voxelSize.isNaN → Nowhere voxelSize origin i
  | product {negative : Bool} :
      voxelSize.datum = .infinite negative → i = 0 → Nowhere voxelSize origin i
  | sum : origin.Clash (voxelSize * .ofNat i.toNat) → Nowhere voxelSize origin i

/-- What makes a stored element no value: it is no number, or its baseline is none, or
both are infinite, on different sides. -/
inductive FieldEntry.Spoils (e : FieldEntry) (x : Scalar) : Prop
  | stored : x.toDouble.isNaN → e.Spoils x
  | baseline {b : Double} : e.baseline? = some b → b.isNaN → e.Spoils x
  | sum {b : Double} : e.baseline? = some b → x.toDouble.Clash b → e.Spoils x

/-- A site of the time step has no position. -/
def Frame.Displaced (header : Header) (f : Frame) : Prop :=
  ∃ row ∈ f.rows, ∃ axis ∈ (header.origin.zipWith Prod.mk row.grid).toList,
    Nowhere header.voxelSize axis.1 axis.2

/-- A stored element of the time step has no value. -/
def Frame.Spoiled (entries : List FieldEntry) (f : Frame) : Prop :=
  ∃ (e : FieldEntry) (index : Nat), entries[index]? = some e ∧
    ∃ row ∈ f.rows, ∃ x ∈ (row.cells[index]?).getD [], e.Spoils x

theorem isNaN_distance_iff (voxelSize : Double) (i : UInt32) :
    (voxelSize * .ofNat i.toNat).isNaN ↔
      voxelSize.isNaN ∨ (∃ negative, voxelSize.datum = .infinite negative) ∧ i = 0 := by
  obtain ⟨mantissa, exponent, hdatum, hzero⟩ := Ieee.Number.datum_ofNat_word i.toNat_lt
  have hnumber : ¬(Ieee.Number.ofNat i.toNat : Double).isNaN := by
    rw [Ieee.Number.isNaN_iff, hdatum]
    exact Ieee.Datum.noConfusion
  rw [Ieee.Number.isNaN_mul_iff (by decide), hdatum]
  simp [hnumber, hzero, ← UInt32.toNat_inj]

theorem isNaN_component_iff (voxelSize origin : Double) (i : UInt32) :
    ((origin + voxelSize * .ofNat i.toNat).convert : Single).isNaN ↔
      Nowhere voxelSize origin i := by
  rw [Ieee.Number.isNaN_convert (by decide), Ieee.Number.isNaN_add_iff (by decide),
    isNaN_distance_iff]
  constructor
  · rintro (horigin | (hvoxel | ⟨⟨negative, hinfinite⟩, hzero⟩) | hsum)
    · exact .origin horigin
    · exact .voxelSize hvoxel
    · exact .product hinfinite hzero
    · exact .sum hsum
  · intro h
    cases h with
    | origin horigin => exact .inl horigin
    | voxelSize hvoxel => exact .inr (.inl (.inl hvoxel))
    | product hinfinite hzero => exact .inr (.inl (.inr ⟨⟨_, hinfinite⟩, hzero⟩))
    | sum hsum => exact .inr (.inr hsum)

theorem Header.hasNaN_positionOf_iff (header : Header) (g : Grid) :
    (⟨g, header.positionOf g⟩ : Place).hasNaN ↔
      ∃ axis ∈ (header.origin.zipWith Prod.mk g).toList,
        Nowhere header.voxelSize axis.1 axis.2 := by
  have hcomponents : (header.positionOf g).toList =
      (header.origin.zipWith Prod.mk g).toList.map fun (origin, i) =>
        (origin + header.voxelSize * .ofNat i.toNat).convert := rfl
  simp only [Place.hasNaN, hcomponents, List.any_map, List.any_eq_true, Function.comp_apply,
    isNaN_component_iff]

theorem FieldEntry.spoils_iff_isNaN {e : FieldEntry} {x : Scalar} :
    e.Spoils x ↔
      match e.baseline? with
      | none => x.toDouble.isNaN
      | some b => ((x.toDouble + b).convert : Single).isNaN := by
  cases hbaseline : e.baseline? with
  | none =>
    constructor
    · intro h
      cases h with
      | stored hx => exact hx
      | baseline hb => simp [hbaseline] at hb
      | sum hb => simp [hbaseline] at hb
    · exact .stored
  | some b =>
    dsimp only
    rw [Ieee.Number.isNaN_convert (by decide), Ieee.Number.isNaN_add_iff (by decide)]
    constructor
    · intro h
      cases h with
      | stored hx => exact .inl hx
      | baseline hb hnan =>
        obtain rfl := Option.some.inj (hbaseline.symm.trans hb)
        exact .inr (.inl hnan)
      | sum hb hclash =>
        obtain rfl := Option.some.inj (hbaseline.symm.trans hb)
        exact .inr (.inr hclash)
    · rintro (hx | hnan | hclash)
      · exact .stored hx
      · exact .baseline hbaseline hnan
      · exact .sum hbaseline hclash

theorem FieldEntry.hasNaN_column_iff (e : FieldEntry) (cells : List (List Scalar)) :
    (e.column cells).data.hasNaN ↔ ∃ cell ∈ cells, ∃ x ∈ cell, e.Spoils x := by
  simp only [FieldEntry.spoils_iff_isNaN, FieldEntry.column]
  cases e.baseline? with
  | none => simp [Values.hasNaN]
  | some b => simp [Values.hasNaN]

theorem Frame.DecodesTo.hasNaN_iff {header : Header} {entries : List FieldEntry} {f : Frame}
    {r : Record} (h : f.DecodesTo header entries r) :
    r.hasNaN ↔ f.Displaced header ∨ f.Spoiled entries := by
  have hplaces : r.places.toList.any Place.hasNaN ↔ f.Displaced header := by
    simp only [h.places, List.any_map, List.any_eq_true, Function.comp_apply,
      Header.hasNaN_positionOf_iff, Displaced]
  have hcolumns : (r.columns.any fun c => c.data.hasNaN) ↔ f.Spoiled entries := by
    rw [h.columns, Spoiled]
    simp [FieldEntry.hasNaN_column_iff, List.mem_zipIdx_iff_getElem?]
  rw [Record.hasNaN, Bool.or_eq_true, hplaces, hcolumns]

namespace Series

variable {limits : Limits} {path : String} {content? : Option Bytes} {s : Series} {a b : Nat}

/-- Two lookups in an open file give equal records exactly if they ask for the same
time step and its record has no NaN. The record has one exactly if a site of the time
step has no position, or a stored element has no value. -/
theorem lookupByIndex_sameValue_iff (h : load limits path content? = .ok s)
    (ha : a < s.timeCount) (hb : b < s.timeCount) :
    ∃ r t, s.lookupByIndex a = .ok r ∧ s.lookupByIndex b = .ok t ∧
      (r.sameValue t ∧ r.ids = t.ids ↔ a = b ∧ ¬r.hasNaN) ∧
      (r.hasNaN ↔ (s.frameAt a).Displaced s.header ∨ (s.frameAt a).Spoiled s.entries) := by
  obtain ⟨bytes, hopened⟩ := exists_opened h
  obtain ⟨r, hr, hdecodes⟩ := hopened.decodesTo ha
  obtain ⟨t, ht, hdecodes'⟩ := hopened.decodesTo hb
  refine ⟨r, t, hr, ht, ⟨?same, ?equal⟩, hdecodes.hasNaN_iff⟩
  case same =>
    rintro ⟨hsame, -⟩
    have htimeStep : (s.frameAt a).timeStep = (s.frameAt b).timeStep := by
      rw [← hdecodes.timeStep, ← hdecodes'.timeStep]
      exact Record.timeStep_eq_of_sameValue hsame
    obtain rfl : a = b :=
      timeStepAt_inj (hopened.timeStepAt_eq ha) (htimeStep ▸ hopened.timeStepAt_eq hb)
    rw [hr] at ht
    obtain rfl := Except.ok.inj ht
    refine ⟨rfl, fun hnan => ?_⟩
    rw [Record.sameValue_self, hnan] at hsame
    cases hsame
  case equal =>
    rintro ⟨rfl, hnan⟩
    rw [hr] at ht
    obtain rfl := Except.ok.inj ht
    rw [Record.sameValue_self]
    exact ⟨by simpa using hnan, rfl⟩

end Series

/-- A recording without a spacing. -/
def Recording.unspaced : Recording := { sample .three with voxelSize := .ofDatum .nan }

theorem Recording.wellFormed_unspaced : unspaced.WellFormed :=
  have h := wellFormed_sample .three
  ⟨h.names_nodup, h.length_ne_zero, h.baseline, h.fieldHeader_lt, h.recordLength_lt, h.ascending,
    h.length_rows, h.cellsFit⟩

/-- A file whose time steps equal themselves only, and one whose time steps do not. -/
theorem Series.lookupByIndex_sameValue_iff_sample :
    (∃ s r t, load {} "flow.xtr" (some (Recording.sample .four).encode) = .ok s ∧
      s.lookupByIndex 0 = .ok r ∧ s.lookupByIndex 1 = .ok t ∧ t.sameValue t ∧
        ¬(r.sameValue t ∧ r.ids = t.ids)) ∧
    ∃ s r, load {} "flow.xtr" (some Recording.unspaced.encode) = .ok s ∧
      s.lookupByIndex 0 = .ok r ∧ ¬r.sameValue r := by
  constructor
  · have hwell := Recording.wellFormed_sample .four
    have hcount : (hwell.series "flow.xtr").timeCount = 2 := hwell.timeCount_series "flow.xtr"
    have hload := hwell.load_eq "flow.xtr"
    obtain ⟨r, t, hr, ht, hequal, -⟩ :=
      lookupByIndex_sameValue_iff hload (a := 0) (b := 1) (by omega) (by omega)
    obtain ⟨t₁, t₂, ht₁, ht₂, hself, -⟩ :=
      lookupByIndex_sameValue_iff hload (a := 1) (b := 1) (by omega) (by omega)
    obtain ⟨t₃, ht₃, hdecodes⟩ := hwell.lookupByIndex_series "flow.xtr"
      (Eq.refl (Recording.sample .four).frames[1]?)
    obtain rfl := Except.ok.inj (ht.symm.trans ht₁)
    obtain rfl := Except.ok.inj (ht.symm.trans ht₂)
    obtain rfl := Except.ok.inj (ht.symm.trans ht₃)
    have hnumbers : ¬t.hasNaN := by
      rw [Record.hasNaN, hdecodes.places, hdecodes.columns]
      decide +kernel
    refine ⟨_, r, t, hload, hr, ht, (hself.mpr ⟨rfl, hnumbers⟩).1, fun hsame => ?_⟩
    exact absurd (hequal.mp hsame).1 (by decide)
  · have hwell := Recording.wellFormed_unspaced
    have hcount : (hwell.series "flow.xtr").timeCount = 2 := hwell.timeCount_series "flow.xtr"
    have hload := hwell.load_eq "flow.xtr"
    obtain ⟨r, r', hr, hr', hself, hnan⟩ :=
      lookupByIndex_sameValue_iff hload (a := 0) (b := 0) (by omega) (by omega)
    obtain rfl := Except.ok.inj (hr.symm.trans hr')
    have hframe := hwell.frameAt_series "flow.xtr" (Eq.refl Recording.unspaced.frames[0]?)
    have hspacing : Recording.unspaced.voxelSize.isNaN := by decide +kernel
    have hdisplaced : ((hwell.series "flow.xtr").frameAt 0).Displaced
        (hwell.series "flow.xtr").header := by
      rw [hframe]
      exact ⟨_, .head _, _, .head _, .voxelSize hspacing⟩
    exact ⟨_, r, hload, hr, fun hsame => (hself.mp ⟨hsame, rfl⟩).2 (hnan.mpr (.inl hdisplaced))⟩

end LatticeSeries
