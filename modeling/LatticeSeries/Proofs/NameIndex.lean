import LatticeSeries.Proofs.FieldHeaderGrammar
import LatticeSeries.Registry
import Mathlib.Data.List.Induction
import Mathlib.Data.List.Nodup

/-!
# The names of a registry

A registry holds its fields in two lists and the positions of their names in a
third place. It represents a field table when both lists are those of the table
and the positions are those of the names of the table. Every append keeps this:
one that succeeds takes the table to the next one, and one that fails changes
nothing. What a run of appends leaves is therefore read off the table.
-/
namespace LatticeSeries

-- Sums of sizes are those of core.
attribute [local instance (2000)] Zero.ofOfNat0

theorem getElem?_concat_eq_some_iff {α : Type} {xs : List α} {x y : α} {i : Nat} :
    (xs ++ [x])[i]? = some y ↔ xs[i]? = some y ∨ i = xs.length ∧ x = y := by
  rcases Nat.lt_trichotomy i xs.length with hi | rfl | hi
  · simp [List.getElem?_append_left hi, Nat.ne_of_lt hi]
  · simp
  · have hlast : (xs ++ [x])[i]? = none :=
      List.getElem?_eq_none (by simpa using Nat.succ_le_of_lt hi)
    have hfront : xs[i]? = none := List.getElem?_eq_none (Nat.le_of_lt hi)
    simp [hlast, hfront, Nat.ne_of_gt hi]

/-- In a list without duplicate keys a key leads to the one element that has it. -/
theorem find?_eq_some_iff_of_nodup {α : Type} {key : α → String} {xs : List α}
    (h : (xs.map key).Nodup) {name : String} {x : α} :
    xs.find? (key · == name) = some x ↔ x ∈ xs ∧ key x = name := by
  constructor
  · intro hx
    exact ⟨List.mem_of_find?_eq_some hx, by simpa using List.find?_some hx⟩
  · rintro ⟨hx, rfl⟩
    obtain ⟨y, hy⟩ : ∃ y, xs.find? (key · == key x) = some y :=
      Option.isSome_iff_exists.mp (List.find?_isSome.mpr ⟨x, hx, by simp⟩)
    have hkey : key y = key x := by simpa using List.find?_some hy
    rw [hy, List.inj_on_of_nodup_map h (List.mem_of_find?_eq_some hy) hx hkey]

theorem Declaration.place_concat (start : Nat) (ds : List Declaration) (d : Declaration) :
    place start (ds ++ [d]) = place start ds ++ [(d, start + (ds.map diskSize).sum)] := by
  induction ds generalizing start with
  | nil => simp
  | cons e ds ih =>
    rw [List.cons_append, place_cons, place_cons, ih, List.map_cons, List.sum_cons,
      Nat.add_assoc, List.cons_append]

namespace FieldTable

theorem map_name_fields (t : FieldTable) : t.fields.map Field.name = t.names := by
  have hplaced : t.placed.map ((fun d => d.name) ∘ Prod.fst) = t.declared.map (·.name) := by
    rw [← List.map_map, placed, Declaration.map_fst_place]
  simpa [fields, stored, names, reservedNames, Function.comp_def, Declaration.placeAt]
    using hplaced

theorem getElem?_names (t : FieldTable) (i : Nat) :
    t.names[i]? = t.fields[i]?.map Field.name := by
  rw [← map_name_fields, List.getElem?_map]

/-- A declared field lies behind the row as it was. -/
theorem stored_of_concat {t u : FieldTable} {d : Declaration}
    (h : u.declared = t.declared ++ [d]) : u.stored = t.stored ++ [d.placeAt t.rowLength] := by
  have hend : Field.grid.diskSize + (t.declared.map Declaration.diskSize).sum = t.rowLength :=
    (rowLength_eq t).symm
  simp [stored, placed, h, Declaration.place_concat, hend]

theorem names_of_concat {t u : FieldTable} {d : Declaration}
    (h : u.declared = t.declared ++ [d]) : u.names = t.names ++ [d.name] := by
  simp [names, h]

/-- A name leads to the one field that has it. -/
theorem get?_eq_some_iff {t : FieldTable} {name : String} {f : Field} :
    t.get? name = some f ↔ f ∈ t.fields ∧ f.name = name :=
  find?_eq_some_iff_of_nodup (t.map_name_fields ▸ t.names_nodup)

/-- Every table comes about by the declarations that it holds. -/
theorem after_declared (t : FieldTable) : after t.declared = t := by
  induction hds : t.declared using List.reverseRecOn generalizing t with
  | nil => exact FieldTable.ext hds.symm
  | append_singleton ds d ih =>
    obtain ⟨u, hu⟩ := exists_declared_eq hds
    have hbefore : after ds = u := ih u hu
    have hdeclare : u.declare d = .ok t := declare_eq_ok_iff.mpr (by rw [hds, hu])
    have hstep : after (ds ++ [d]) = (after ds).attempt d := List.foldl_concat ..
    rw [hstep, hbefore, attempt, hdeclare]

end FieldTable

namespace Registry

theorem size_eq (r : Registry) : r.size = r.fields.length := List.length_append.symm

/-- The fields are those of a table, and the positions those of its names. -/
structure Represents (r : Registry) (t : FieldTable) : Prop where
  computed_eq : r.computed = [.identifier, .position]
  stored_eq : r.stored = t.stored
  positions_eq_some_iff : ∀ (name : String) (i : Nat),
    r.positions[name]? = some i ↔ t.names[i]? = some name

theorem represents_initial : initial.Represents .empty where
  computed_eq := rfl
  stored_eq := rfl
  positions_eq_some_iff := by
    intro name i
    have hpositions : initial.positions =
        (((∅ : Std.HashMap String Nat).insert "id" 0).insert "position" 1).insert "grid" 2 := rfl
    have hnames : FieldTable.empty.names = ["id", "position", "grid"] := rfl
    rw [hpositions, hnames]
    grind

/-- Why an append is refused. A name that is taken comes before a missing element. -/
inductive Refuses (r : Registry) (d : Declaration) : HeaderFault → Prop
  | taken (hname : d.name ∈ r.fields.map Field.name) : Refuses r d (.duplicateName d.name)
  | vacant (hname : d.name ∉ r.fields.map Field.name) (hlength : d.length = 0) :
    Refuses r d (.noElements d.name)

namespace Represents

variable {r : Registry} {t : FieldTable} {d : Declaration}

theorem fields_eq (h : r.Represents t) : r.fields = t.fields := by
  rw [fields, h.computed_eq, h.stored_eq]
  rfl

theorem declared_eq (h : r.Represents t) :
    r.declared = t.placed.map fun (d, offset) => d.placeAt offset := by
  rw [declared, h.stored_eq]
  rfl

theorem rowLength_eq (h : r.Represents t) : r.rowLength = t.rowLength := by
  rw [rowLength, h.stored_eq]
  rfl

theorem map_name_fields (h : r.Represents t) : r.fields.map Field.name = t.names := by
  rw [h.fields_eq, t.map_name_fields]

theorem mem_positions_iff (h : r.Represents t) {name : String} :
    name ∈ r.positions ↔ name ∈ t.names := by
  rw [Std.HashMap.mem_iff_isSome_getElem?, Option.isSome_iff_exists, List.mem_iff_getElem?]
  exact exists_congr fun i => h.positions_eq_some_iff name i

/-- The position of a name leads to its field, as the names stand where the fields do. -/
theorem get?_eq_some_iff (h : r.Represents t) {name : String} {f : Field} :
    r.get? name = some f ↔ f ∈ r.fields ∧ f.name = name := by
  have hfound : r.get? name = some f ↔
      ∃ i : Nat, t.names[i]? = some name ∧ t.fields[i]? = some f := by
    simp only [get?, Option.bind_eq_bind, Option.bind_eq_some_iff, h.positions_eq_some_iff,
      h.fields_eq]
  rw [hfound, h.fields_eq]
  constructor
  · rintro ⟨i, hname, hf⟩
    rw [t.getElem?_names, hf, Option.map_some, Option.some.injEq] at hname
    exact ⟨List.mem_of_getElem? hf, hname⟩
  · rintro ⟨hf, rfl⟩
    obtain ⟨i, hi⟩ := List.mem_iff_getElem?.mp hf
    exact ⟨i, by rw [t.getElem?_names, hi, Option.map_some], hi⟩

theorem get?_eq_none_iff (h : r.Represents t) {name : String} :
    r.get? name = none ↔ ∀ f ∈ r.fields, f.name ≠ name := by
  simp only [Option.eq_none_iff_forall_ne_some, ne_eq, h.get?_eq_some_iff, not_and]

theorem get?_eq (h : r.Represents t) (name : String) : r.get? name = t.get? name := by
  apply Option.ext
  intro f
  rw [h.get?_eq_some_iff, FieldTable.get?_eq_some_iff, h.fields_eq]

theorem refuses_iff (h : r.Represents t) {fault : HeaderFault} :
    r.Refuses d fault ↔ t.declare d = .error fault := by
  rw [FieldTable.declare_eq_error_iff, ← h.map_name_fields]
  constructor
  · rintro (hname | ⟨hname, hlength⟩)
    · exact .inl ⟨hname, rfl⟩
    · exact .inr ⟨hname, hlength, rfl⟩
  · rintro (⟨hname, rfl⟩ | ⟨hname, hlength, rfl⟩)
    · exact .taken hname
    · exact .vacant hname hlength

end Represents

theorem append_eq (r : Registry) (d : Declaration) :
    append d r =
      if d.name ∈ r.positions then .error (.duplicateName d.name) r
      else if d.length = 0 then .error (.noElements d.name) r
      else .ok () { r with
        stored := r.stored ++ [d.placeAt r.rowLength]
        positions := r.positions.insert d.name r.size } := by
  change (if d.name ∈ r.positions then _ else if d.length = 0 then _ else _ :
    EStateM HeaderFault Registry Unit) r = _
  split_ifs <;> rfl

namespace Represents

variable {r : Registry} {t : FieldTable} {d : Declaration}

/-- The position that the new name gets is the one at which its field comes to stand. -/
theorem extend {u : FieldTable} (h : r.Represents t) (hu : u.declared = t.declared ++ [d])
    (hfresh : d.name ∉ t.names) :
    Represents { r with
      stored := r.stored ++ [d.placeAt r.rowLength]
      positions := r.positions.insert d.name r.size } u where
  computed_eq := h.computed_eq
  stored_eq := by rw [FieldTable.stored_of_concat hu, h.stored_eq, h.rowLength_eq]
  positions_eq_some_iff := by
    intro name i
    have hsize : r.size = t.names.length := by
      rw [r.size_eq, ← h.map_name_fields, List.length_map]
    rw [FieldTable.names_of_concat hu, getElem?_concat_eq_some_iff, Std.HashMap.getElem?_insert,
      hsize]
    by_cases hname : d.name = name
    · have hnot : t.names[i]? ≠ some name := fun hi =>
        hfresh (hname ▸ List.mem_of_getElem? hi)
      simp [hname, hnot, eq_comm]
    · simp [hname, h.positions_eq_some_iff]

/-- An append does to the registry what the declaration does to the table. -/
theorem append_cases (h : r.Represents t) (d : Declaration) :
    (∃ fault, t.declare d = .error fault ∧ append d r = .error fault r) ∨
      ∃ u r', t.declare d = .ok u ∧ append d r = .ok () r' ∧ r'.Represents u := by
  simp only [append_eq, h.mem_positions_iff]
  cases hdeclare : t.declare d with
  | error fault =>
    rcases FieldTable.declare_eq_error_iff.mp hdeclare with ⟨hmem, rfl⟩ | ⟨hfresh, hlength, rfl⟩
    · exact .inl ⟨_, rfl, if_pos hmem⟩
    · exact .inl ⟨_, rfl, by rw [if_neg hfresh, if_pos hlength]⟩
  | ok u =>
    have haccepted : ∀ fault, t.declare d ≠ .error fault := by simp [hdeclare]
    simp only [ne_eq, FieldTable.declare_eq_error_iff, not_or, not_and] at haccepted
    have hfresh : d.name ∉ t.names := fun hmem => (haccepted _).1 hmem rfl
    have hlength : d.length ≠ 0 := fun hlength => (haccepted _).2 hfresh hlength rfl
    have hu : u.declared = t.declared ++ [d] := FieldTable.declare_eq_ok_iff.mp hdeclare
    exact .inr ⟨u, _, rfl, by rw [if_neg hfresh, if_neg hlength], h.extend hu hfresh⟩

theorem append_eq_error_iff (h : r.Represents t) {fault : HeaderFault} {r' : Registry} :
    append d r = .error fault r' ↔ r.Refuses d fault ∧ r' = r := by
  rw [h.refuses_iff]
  rcases h.append_cases d with ⟨_, hdeclare, happend⟩ | ⟨u, r₁, hdeclare, happend, -⟩
  · simp [hdeclare, happend, eq_comm]
  · simp [hdeclare, happend]

theorem exists_append_eq_ok_iff (h : r.Represents t) :
    (∃ r', append d r = .ok () r') ↔ d.name ∉ r.fields.map Field.name ∧ d.length ≠ 0 := by
  rw [h.map_name_fields, append_eq]
  simp only [h.mem_positions_iff]
  split_ifs with hname hlength
  · simp [hname]
  · simp [hlength]
  · simp [hname, hlength]

theorem attempt (h : r.Represents t) (d : Declaration) :
    (r.attempt d).Represents (t.attempt d) := by
  rcases h.append_cases d with ⟨fault, hdeclare, happend⟩ | ⟨u, r', hdeclare, happend, h'⟩
  · simpa only [Registry.attempt, FieldTable.attempt, hdeclare, happend] using h
  · simpa only [Registry.attempt, FieldTable.attempt, hdeclare, happend] using h'

theorem attempts (h : r.Represents t) (ds : List Declaration) :
    (r.attempts ds).Represents (t.attempts ds) := by
  induction ds generalizing r t with
  | nil => exact h
  | cons d ds ih => exact ih (h.attempt d)

/-- The table declares the accepted declarations behind those that it has. -/
theorem declared_attempts (h : r.Represents t) (ds : List Declaration) :
    (t.attempts ds).declared = t.declared ++ r.accepted ds := by
  induction ds generalizing r t with
  | nil => exact (List.append_nil _).symm
  | cons d ds ih =>
    have hstep : t.attempts (d :: ds) = (t.attempt d).attempts ds := rfl
    rcases h.append_cases d with ⟨fault, hdeclare, happend⟩ | ⟨u, r', hdeclare, happend, h'⟩
    · rw [hstep, accepted, happend, FieldTable.attempt, hdeclare, ih h]
    · rw [hstep, accepted, happend, FieldTable.attempt, hdeclare, ih h',
        FieldTable.declare_eq_ok_iff.mp hdeclare, List.append_assoc, List.singleton_append]

end Represents

theorem represents_after (ds : List Declaration) : (after ds).Represents (.after ds) :=
  represents_initial.attempts ds

/-- Each field table is represented by what its declarations make of the initial registry. -/
theorem represents_after_declared (t : FieldTable) : (after t.declared).Represents t := by
  have h := represents_after t.declared
  rwa [t.after_declared] at h

theorem declared_after (ds : List Declaration) :
    (FieldTable.after ds).declared = initial.accepted ds := by
  rw [FieldTable.after, represents_initial.declared_attempts]
  rfl

/-- What a registry says of its fields after these appends. The computed fields come first,
then the coordinate, and then what was accepted, in that order. The field table of the
same declarations has the same fields and finds the same by name. -/
structure KeepsNames (ds : List Declaration) : Prop where
  nodup : ((after ds).fields.map Field.name).Nodup
  get_iff : ∀ name f, (after ds).get? name = some f ↔ f ∈ (after ds).fields ∧ f.name = name
  get_none_iff : ∀ name, (after ds).get? name = none ↔ ∀ f ∈ (after ds).fields, f.name ≠ name
  fields_eq : (after ds).fields = .identifier :: .position :: (after ds).stored
  stored_eq : (after ds).stored = .grid :: (after ds).declared
  declared_eq : (after ds).declared =
    (Declaration.place Field.grid.diskSize (initial.accepted ds)).map
      fun (d, offset) => d.placeAt offset
  size_eq : (after ds).size = (after ds).fields.length
  error_iff : ∀ d fault r, append d (after ds) = .error fault r ↔
    (after ds).Refuses d fault ∧ r = after ds
  ok_iff : ∀ d, (∃ r, append d (after ds) = .ok () r) ↔
    d.name ∉ (after ds).fields.map Field.name ∧ d.length ≠ 0
  fields_table : (after ds).fields = (FieldTable.after ds).fields
  get_table : ∀ name, (after ds).get? name = (FieldTable.after ds).get? name

/-- Whatever is appended, the names are distinct and lead to the fields. An append is
refused for a name that is taken or for want of elements, and then it changes nothing. -/
theorem after_keeps_names (ds : List Declaration) : KeepsNames ds := by
  have h : (after ds).Represents (.after ds) := represents_after ds
  exact
    { nodup := by
        rw [h.map_name_fields]
        exact (FieldTable.after ds).names_nodup
      get_iff := fun _ _ => h.get?_eq_some_iff
      get_none_iff := fun _ => h.get?_eq_none_iff
      fields_eq := by
        rw [fields, h.computed_eq]
        rfl
      stored_eq := by
        rw [h.declared_eq, h.stored_eq]
        rfl
      declared_eq := by rw [h.declared_eq, FieldTable.placed, declared_after]
      size_eq := (after ds).size_eq
      error_iff := fun _ _ _ => h.append_eq_error_iff
      ok_iff := fun _ => h.exists_append_eq_ok_iff
      fields_table := h.fields_eq
      get_table := h.get?_eq }

end Registry

end LatticeSeries
