import LatticeSeries.Proofs.SiteViews

/-!
# Cuts of any column

A column need not come from a file, and it can be cut for any number, be there a site
with this number or not. With checked operations the cut is that of the site, or a
fault. Without checks the product of number and length goes beyond a word for large
numbers, and what is left of it can be a place in the data: such a cut is misplaced,
and begins with an element of another site. Columns of decoded records are not cut like
this for sites of their own, but almost every column is for some number.
-/
namespace LatticeSeries

namespace Column

variable {c : Column} {site i j p start stop : Nat} {v : Values}

/-- The data reach to the end of the site. -/
def Holds (c : Column) (site : Nat) : Prop := site * c.length + c.length ≤ c.data.size

/-- Words can count the elements of a site and those of all the data. -/
structure Counted (c : Column) : Prop where
  length_lt : c.length < UInt64.size
  size_lt : c.data.size < UInt64.size

/-- The place for the number is beyond all words, and yet a cut for it is in the data. -/
def Misplaced (c : Column) (site : Nat) : Prop :=
  UInt64.size ≤ site * c.length ∧ c.cutStart site + c.length ≤ c.data.size

/-- The cut for the number has the element at place `p` of the data. -/
def Cuts (c : Column) (site p : Nat) : Prop :=
  ∃ bounds ∈ c.cut? site, bounds.1 ≤ p ∧ p < bounds.2

instance (c : Column) (site : Nat) : Decidable (c.Holds site) :=
  inferInstanceAs (Decidable (_ ≤ _))

instance (c : Column) (site p : Nat) : Decidable (c.Cuts site p) :=
  inferInstanceAs (Decidable (∃ bounds ∈ c.cut? site, _))

theorem slice?_eq_some_iff : c.slice? site = some v ↔ c.Holds site ∧ v = c.slice site := by
  unfold slice?
  split_ifs with h
  · simp [Holds, h, eq_comm]
  · simp [Holds, h]

theorem Holds.mul_length_lt (hc : c.Counted) (h : c.Holds site) :
    site * c.length < UInt64.size := by
  have hsize := hc.size_lt
  unfold Holds at h
  omega

theorem cutStart_lt (c : Column) (site : Nat) : c.cutStart site < UInt64.size :=
  Nat.mod_lt _ (by decide)

theorem cutStart_eq (h : site * c.length < UInt64.size) : c.cutStart site = site * c.length :=
  Nat.mod_eq_of_lt h

/-- An end beyond all words comes out before the start. -/
theorem cut?_eq_some_iff (hc : c.Counted) :
    c.cut? site = some (start, stop) ↔
      start = c.cutStart site ∧ stop = start + c.length ∧ stop ≤ c.data.size := by
  have hstart := c.cutStart_lt site
  have hlength := hc.length_lt
  have hsize := hc.size_lt
  unfold cut?
  dsimp only
  rcases Nat.lt_or_ge (c.cutStart site + c.length) UInt64.size with hfits | hwraps
  · rw [Nat.mod_eq_of_lt hfits]
    split_ifs with hinside
    · rw [Option.some.injEq, Prod.mk.injEq]
      constructor
      · rintro ⟨rfl, rfl⟩
        exact ⟨rfl, rfl, hinside.2⟩
      · rintro ⟨rfl, rfl, -⟩
        exact ⟨rfl, rfl⟩
    · constructor
      · intro h
        cases h
      · rintro ⟨rfl, rfl, hstop⟩
        exact absurd ⟨Nat.le_add_right _ _, hstop⟩ hinside
  · have hstop : (c.cutStart site + c.length) % UInt64.size =
        c.cutStart site + c.length - UInt64.size := by
      rw [Nat.mod_eq_sub_mod hwraps, Nat.mod_eq_of_lt (by omega)]
    rw [hstop, if_neg (by omega)]
    constructor
    · intro h
      cases h
    · rintro ⟨rfl, rfl, hinside⟩
      omega

theorem valuesAt?_eq_some_iff (hc : c.Counted) :
    c.valuesAt? site = some v ↔
      c.cutStart site + c.length ≤ c.data.size ∧
        v = c.data.extract (c.cutStart site) (c.cutStart site + c.length) := by
  rw [valuesAt?, Option.map_eq_some_iff]
  constructor
  · rintro ⟨⟨start, stop⟩, hcut, rfl⟩
    obtain ⟨rfl, rfl, hstop⟩ := (cut?_eq_some_iff hc).mp hcut
    exact ⟨hstop, rfl⟩
  · rintro ⟨hstop, rfl⟩
    exact ⟨(_, _), (cut?_eq_some_iff hc).mpr ⟨rfl, rfl, hstop⟩, rfl⟩

theorem cuts_iff (hc : c.Counted) :
    c.Cuts site p ↔
      c.cutStart site + c.length ≤ c.data.size ∧
        c.cutStart site ≤ p ∧ p < c.cutStart site + c.length := by
  constructor
  · rintro ⟨⟨start, stop⟩, hcut, hle, hlt⟩
    obtain ⟨rfl, rfl, hstop⟩ := (cut?_eq_some_iff hc).mp hcut
    exact ⟨hstop, hle, hlt⟩
  · rintro ⟨hstop, hle, hlt⟩
    exact ⟨(_, _), (cut?_eq_some_iff hc).mpr ⟨rfl, rfl, hstop⟩, hle, hlt⟩

theorem valuesAt?_eq_slice?_of_lt (hc : c.Counted) (h : site * c.length < UInt64.size) :
    c.valuesAt? site = c.slice? site := by
  apply Option.ext
  intro v
  rw [valuesAt?_eq_some_iff hc, slice?_eq_some_iff, cutStart_eq h]
  rfl

/-- The data end before the site begins. -/
theorem slice?_eq_none_of_le (hc : c.Counted) (h : UInt64.size ≤ site * c.length) :
    c.slice? site = none :=
  if_neg fun hholds => Nat.not_lt.mpr h (Holds.mul_length_lt hc hholds)

theorem valuesAt?_eq_slice?_iff (hc : c.Counted) :
    c.valuesAt? site = c.slice? site ↔ ¬ c.Misplaced site := by
  constructor
  · rintro h ⟨hwraps, hstop⟩
    have hsome := (valuesAt?_eq_some_iff hc).mpr ⟨hstop, rfl⟩
    rw [h, slice?_eq_none_of_le hc hwraps] at hsome
    cases hsome
  · intro h
    rcases Nat.lt_or_ge (site * c.length) UInt64.size with hfits | hwraps
    · exact valuesAt?_eq_slice?_of_lt hc hfits
    · rw [slice?_eq_none_of_le hc hwraps, Option.eq_none_iff_forall_ne_some]
      intro v hv
      exact h ⟨hwraps, ((valuesAt?_eq_some_iff hc).mp hv).1⟩

/-- A place tells the number that it was cut for. -/
theorem Cuts.div_length_eq (hc : c.Counted) (h : ¬ c.Misplaced site) (hp : c.Cuts site p) :
    p / c.length = site := by
  obtain ⟨hstop, hle, hlt⟩ := (cuts_iff hc).mp hp
  have hfits : site * c.length < UInt64.size := Nat.lt_of_not_le fun hwraps => h ⟨hwraps, hstop⟩
  rw [cutStart_eq hfits] at hle hlt
  apply Nat.div_eq_of_lt_le hle
  rwa [Nat.succ_mul]

theorem Cuts.unique (hc : c.Counted) (hi : ¬ c.Misplaced i) (hj : ¬ c.Misplaced j)
    (hip : c.Cuts i p) (hjp : c.Cuts j p) : i = j :=
  (hip.div_length_eq hc hi).symm.trans (hjp.div_length_eq hc hj)

theorem not_misplaced_of_length_le_one (h : c.length ≤ 1) (hsite : site < UInt64.size) :
    ¬ c.Misplaced site := by
  rintro ⟨hwraps, -⟩
  have hproduct : site * c.length ≤ site * 1 := Nat.mul_le_mul_left site h
  omega

/-- A misplaced cut begins in a site that the data hold, and shares an element with it. -/
theorem Misplaced.exists_shared (hc : c.Counted) (h : c.Misplaced site) :
    ∃ i < site, c.Holds i ∧ c.Cuts i (c.cutStart site) ∧ c.Cuts site (c.cutStart site) := by
  obtain ⟨hwraps, hstop⟩ := h
  have hstart := c.cutStart_lt site
  have hpos : 0 < c.length := by
    apply Nat.pos_of_ne_zero
    intro hzero
    rw [hzero, Nat.mul_zero] at hwraps
    exact absurd hwraps (by decide)
  let i := c.cutStart site / c.length
  have hle : i * c.length ≤ c.cutStart site := Nat.div_mul_le_self _ _
  have hlt : c.cutStart site < i * c.length + c.length := by
    rw [← Nat.succ_mul]
    exact Nat.lt_mul_of_div_lt (Nat.lt_succ_self i) hpos
  have hholds : i * c.length + c.length ≤ c.data.size := by omega
  have hfits : i * c.length < UInt64.size := by omega
  have hbefore : i < site :=
    Nat.lt_of_mul_lt_mul_right (a := c.length) (Nat.lt_of_lt_of_le hfits hwraps)
  refine ⟨i, hbefore, hholds, (cuts_iff hc).mpr ?_, (cuts_iff hc).mpr ⟨hstop, Nat.le_refl _, ?_⟩⟩
  · rw [cutStart_eq hfits]
    exact ⟨hholds, hle, hlt⟩
  · exact Nat.lt_add_of_pos_right hpos

/-- A product that goes just beyond a word leaves no more than a length of it. -/
theorem exists_misplaced (hlength : 2 ≤ c.length) (hdata : 2 * c.length ≤ c.data.size)
    (hsize : c.data.size < UInt64.size) :
    ∃ site < UInt64.size, c.Misplaced site := by
  let quotient := UInt64.size / c.length
  have hrest : UInt64.size % c.length < c.length := Nat.mod_lt _ (by omega)
  have hwhole : quotient * c.length + UInt64.size % c.length = UInt64.size := by
    rw [Nat.mul_comm]
    exact Nat.div_add_mod _ _
  have hproduct : (quotient + 1) * c.length =
      UInt64.size + (c.length - UInt64.size % c.length) := by
    rw [Nat.succ_mul]
    omega
  have hstart : c.cutStart (quotient + 1) = c.length - UInt64.size % c.length := by
    rw [cutStart, hproduct, Nat.add_mod_left]
    exact Nat.mod_eq_of_lt (by omega)
  have hhalf : quotient ≤ UInt64.size / 2 := Nat.div_le_div_left hlength (by decide)
  have hword : UInt64.size / 2 + 1 < UInt64.size := by decide
  refine ⟨quotient + 1, by omega, ?_, ?_⟩
  · rw [hproduct]
    exact Nat.le_add_right _ _
  · rw [hstart]
    omega

end Column

/-- No site of a decoded record is cut out of place. -/
theorem Record.valuesAt?_of_ofBlock {coding : ValueCoding} {table : FieldTable} {header : Header}
    {timeStep : UInt64} {block : Bytes} {r : Record}
    (h : ofBlock coding table header timeStep block = .ok r) (hblock : block.length < UInt64.size)
    {c : Column} (hc : c ∈ r.columns) {site : Nat} (hsite : site < r.size) :
    c.valuesAt? site = some (c.slice site) := by
  obtain ⟨d, -, -, hlength⟩ := (matches_of_ofBlock h).exists_declared hc
  have hcounted : c.Counted := by
    constructor
    · rw [hlength]
      exact Nat.lt_trans d.length.toNat_lt (by decide)
    · exact Nat.lt_of_le_of_lt (size_data_le h hc) hblock
  have hholds : c.Holds site := r.le_size_data hc hsite
  rw [Column.valuesAt?_eq_slice?_of_lt hcounted (hholds.mul_length_lt hcounted)]
  exact Column.slice?_eq_some_iff.mpr ⟨hholds, rfl⟩

/-- Whatever an open file gives, its sites are cut in their places: the length of a record
was held against the words when the file was opened. -/
theorem Series.valuesAt?_of_lookupByIndex {limits : Limits} {path : String}
    {content? : Option Bytes} {s : Series} (h : load limits path content? = .ok s) {i : Nat}
    {r : Record} (hr : s.lookupByIndex i = .ok r) {c : Column} (hc : c ∈ r.columns) {site : Nat}
    (hsite : site < r.size) : c.valuesAt? site = some (c.slice site) := by
  obtain ⟨bytes, hopened⟩ := exists_opened h
  obtain ⟨entry, -, hentry⟩ := bind_eq_ok_iff.mp hr
  have hlength := hopened.recordLength_eq
  have hword := hopened.recordLength_lt
  apply Record.valuesAt?_of_ofBlock hentry _ hc hsite
  rw [(Record.ofBlock_eq_ok_iff.mp hentry).1]
  omega

namespace Checked

variable {c : Column} {site : Nat} {v : Values}

theorem mul_eq_ok_iff {a b n : Nat} : mul a b = .ok n ↔ a * b < UInt64.size ∧ n = a * b := by
  unfold mul
  split_ifs with h
  · simp [h, eq_comm]
  · simp [h]

theorem add_eq_ok_iff {a b n : Nat} : add a b = .ok n ↔ a + b < UInt64.size ∧ n = a + b := by
  unfold add
  split_ifs with h
  · simp [h, eq_comm]
  · simp [h]

theorem range_eq_ok_iff {data : Values} {start stop : Nat} :
    range data start stop = .ok v ↔
      (start ≤ stop ∧ stop ≤ data.size) ∧ v = data.extract start stop := by
  unfold range
  split_ifs with h
  · simp [h, eq_comm]
  · simp [h]

theorem valuesAt_eq_ok_iff (hsize : c.data.size < UInt64.size) :
    valuesAt c site = .ok v ↔ c.Holds site ∧ v = c.slice site := by
  constructor
  · intro h
    obtain ⟨start, hstart, h⟩ := bind_eq_ok_iff.mp h
    obtain ⟨stop, hstop, hrange⟩ := bind_eq_ok_iff.mp h
    obtain ⟨-, rfl⟩ := mul_eq_ok_iff.mp hstart
    obtain ⟨-, rfl⟩ := add_eq_ok_iff.mp hstop
    obtain ⟨⟨-, hinside⟩, rfl⟩ := range_eq_ok_iff.mp hrange
    exact ⟨hinside, rfl⟩
  · rintro ⟨hholds, rfl⟩
    exact valuesAt_eq_ok hholds hsize

theorem exists_valuesAt_eq_error_iff (hsize : c.data.size < UInt64.size) :
    (∃ fault, valuesAt c site = .error fault) ↔ ¬ c.Holds site := by
  constructor
  · rintro ⟨fault, hfault⟩ hholds
    rw [valuesAt_eq_ok hholds hsize] at hfault
    cases hfault
  · intro h
    cases hcut : valuesAt c site with
    | ok v => exact absurd ((valuesAt_eq_ok_iff hsize).mp hcut).1 h
    | error fault => exact ⟨fault, rfl⟩

end Checked

namespace Column

/-- Where the cuts of a column lie. With checked operations a column gives the elements of
every site that its data hold, and faults for all other numbers. Without checks it cuts
where the low word of the product points, if the data reach far enough from there, and
this is the cut of the site with the number exactly if the cut is not misplaced. -/
structure Located (c : Column) : Prop where
  checked_iff : ∀ site v, Checked.valuesAt c site = .ok v ↔ c.Holds site ∧ v = c.slice site
  faults_iff : ∀ site, (∃ fault, Checked.valuesAt c site = .error fault) ↔ ¬ c.Holds site
  cut_iff : ∀ site v, c.valuesAt? site = some v ↔
    c.cutStart site + c.length ≤ c.data.size ∧
      v = c.data.extract (c.cutStart site) (c.cutStart site + c.length)
  inPlace_iff : ∀ site, c.valuesAt? site = c.slice? site ↔ ¬ c.Misplaced site
  unique : ∀ i j p, ¬ c.Misplaced i → ¬ c.Misplaced j → c.Cuts i p → c.Cuts j p → i = j
  shared : ∀ site, c.Misplaced site → ¬ c.Holds site ∧
    ∃ i < site, c.Holds i ∧ c.Cuts i (c.cutStart site) ∧ c.Cuts site (c.cutStart site)
  none_misplaced : c.length ≤ 1 → ∀ site < UInt64.size, ¬ c.Misplaced site
  exists_misplaced : 2 ≤ c.length → 2 * c.length ≤ c.data.size →
    ∃ site < UInt64.size, c.Misplaced site

/-- Cuts in their places do not share elements for different numbers. A misplaced cut is
one for a site that the data do not hold, and it shares an element with a site before it
that they do hold. There are none for lengths of at most one element, and for all other
lengths there is one as soon as the data hold two sites. -/
theorem valuesAt?_exact {c : Column} (hc : c.Counted) : c.Located where
  checked_iff := fun _ _ => Checked.valuesAt_eq_ok_iff hc.size_lt
  faults_iff := fun _ => Checked.exists_valuesAt_eq_error_iff hc.size_lt
  cut_iff := fun _ _ => valuesAt?_eq_some_iff hc
  inPlace_iff := fun _ => valuesAt?_eq_slice?_iff hc
  unique := fun _ _ _ hi hj hip hjp => hip.unique hc hi hj hjp
  shared := fun _ h =>
    ⟨fun hholds => Nat.not_lt.mpr h.1 (hholds.mul_length_lt hc), h.exists_shared hc⟩
  none_misplaced := fun h _ => not_misplaced_of_length_le_one h
  exists_misplaced := fun hlength hdata => Column.exists_misplaced hlength hdata hc.size_lt

/-- Two sites of three elements: the numbers from one to six. -/
def twoTriples : Column where
  name := "c"
  length := 3
  data := .double #[.ofNat 1, .ofNat 2, .ofNat 3, .ofNat 4, .ofNat 5, .ofNat 6]

theorem valuesAt?_exact_twoTriples :
    twoTriples.Counted ∧ twoTriples.Holds 1 ∧
      Checked.valuesAt twoTriples 1 = .ok (twoTriples.slice 1) ∧
      ∃ site < UInt64.size, twoTriples.Misplaced site := by
  have hcounted : twoTriples.Counted := ⟨by decide, by decide⟩
  have hholds : twoTriples.Holds 1 := by decide
  have hlocated := valuesAt?_exact hcounted
  exact ⟨hcounted, hholds, (hlocated.checked_iff 1 _).mpr ⟨hholds, rfl⟩,
    hlocated.exists_misplaced (by decide) (by decide)⟩

/-- Three times this number is one more than a multiple of the number of words: the cut
has the last two elements of the first site and the first element of the second. -/
theorem valuesAt?_twoTriples_far :
    let far := 0xaaaaaaaaaaaaaaab
    far < UInt64.size ∧ ¬ twoTriples.Holds far ∧ twoTriples.slice? far = none ∧
      twoTriples.valuesAt? far = some (.double #[.ofNat 2, .ofNat 3, .ofNat 4]) ∧
      twoTriples.Cuts 0 1 ∧ twoTriples.Cuts far 1 ∧ twoTriples.Cuts 1 3 ∧
      twoTriples.Cuts far 3 := by
  decide

end Column

end LatticeSeries
