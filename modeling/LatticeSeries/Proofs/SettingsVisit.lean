import LatticeSeries.Proofs.DistinctKeys
import LatticeSeries.Proofs.SettingsKeys

/-!
# One pass finds each key

A visitor goes through the entries of a table in the order in which they stand there. If
no key occurs twice, what it finds for a key is what stands under that key, wherever that
is. Read in one pass, a document with distinct keys therefore gives the same settings as
read key by key; where it gives none, the two may name different keys.
-/
namespace LatticeSeries

open Toml (Value Document)

namespace Visitor

variable {κ : Type} {Kind : κ → Type} {visitor : Visitor κ Kind}

/-- What a visitor leaves behind that finds these values, on the slots it began with. -/
inductive Visits (visitor : Visitor κ Kind) (value? : κ → Option Value) (slots : Slots Kind) :
    Except SettingsFault (Slots Kind) → Prop
  | refused {key : κ} {v : Value} {e : SettingsFault} (hv : value? key = some v)
      (h : visitor.read key v = .error e) : Visits visitor value? slots (.error e)
  | filled {slots' : Slots Kind}
      (h : ∀ key, (slots' key).map Except.ok =
        ((value? key).map (visitor.read key)).or ((slots key).map Except.ok)) :
      Visits visitor value? slots (.ok slots')

theorem Visits.of_none {value? : κ → Option Value} (h : ∀ key, value? key = none)
    (slots : Slots Kind) : visitor.Visits value? slots (.ok slots) := by
  apply Visits.filled
  intro key
  rw [h key]
  rfl

/-- A slot that was empty at first is filled with what was read, if anything was there. -/
theorem slot_cases {α : Type} {read : Value → Except SettingsFault α} {value? : Option Value}
    {slot : Option α}
    (h : slot.map Except.ok = (value?.map read).or (Option.map Except.ok none)) :
    (value? = none ∧ slot = none) ∨
      ∃ v a, value? = some v ∧ slot = some a ∧ read v = .ok a := by
  rw [Option.map_none, Option.or_none] at h
  cases value? with
  | none => exact .inl ⟨rfl, Option.map_eq_none_iff.mp h⟩
  | some v =>
    obtain ⟨a, ha, hread⟩ := Option.map_eq_some_iff.mp h
    exact .inr ⟨v, a, rfl, ha, hread.symm⟩

theorem find?_keys_of_ne {name : String} (h : ∀ key, visitor.name key ≠ name) :
    visitor.keys.find? (visitor.name · = name) = none := by
  apply List.find?_eq_none.mpr
  intro key _
  simpa using h key

theorem find?_keys (key : κ) :
    visitor.keys.find? (visitor.name · = visitor.name key) = some key := by
  cases hfound : visitor.keys.find? (visitor.name · = visitor.name key) with
  | none =>
    have hnot := List.find?_eq_none.mp hfound key (visitor.mem_keys key)
    exact absurd (decide_eq_true rfl) hnot
  | some k =>
    have hname := List.find?_some hfound
    rw [visitor.name_injective (of_decide_eq_true hname)]

section
variable [DecidableEq κ]

/-- A visit that begins with one key goes on without it. -/
theorem Visits.cons {value? : κ → Option Value} {slots : Slots Kind} {key : κ} {v : Value}
    (rest? : κ → Option Value) (rest : Slots Kind → Except SettingsFault (Slots Kind))
    (hv : value? key = some v) (hrest? : rest? key = none)
    (hother : ∀ k, k ≠ key → value? k = rest? k)
    (hrest : ∀ found, visitor.Visits rest? (Function.update slots key (some found))
      (rest (Function.update slots key (some found)))) :
    visitor.Visits value? slots (do
      let found ← visitor.read key v
      rest (Function.update slots key (some found))) := by
  cases hread : visitor.read key v with
  | error e => exact .refused hv hread
  | ok found =>
    rw [ok_bind]
    have hvisits := hrest found
    generalize rest (Function.update slots key (some found)) = result at hvisits
    cases hvisits with
    | @refused k w e hw he =>
      have hk : k ≠ key := by
        intro hk
        rw [hk, hrest?] at hw
        cases hw
      exact .refused ((hother k hk).trans hw) he
    | filled h =>
      apply Visits.filled
      intro k
      rw [h k]
      by_cases hk : k = key
      · subst hk
        rw [hrest?, hv, Function.update_self, Option.map_some, Option.map_some, hread]
        rfl
      · rw [hother k hk, Function.update_of_ne hk]

/-- By induction on the entries: no key that is still to come has filled its slot yet. -/
theorem visits_visitEntries {entries : List (String × Value)}
    (hdistinct : (entries.map Prod.fst).Nodup) {slots : Slots Kind}
    (hempty : ∀ key, visitor.name key ∈ entries.map Prod.fst → slots key = none) :
    visitor.Visits (fun key => entries.lookup (visitor.name key)) slots
      (visitor.visitEntries slots entries) := by
  induction entries generalizing slots with
  | nil => exact .of_none (fun _ => rfl) slots
  | cons entry entries ih =>
    obtain ⟨name, value⟩ := entry
    rw [List.map_cons, List.nodup_cons] at hdistinct
    by_cases hknown : ∃ key, visitor.name key = name
    · obtain ⟨key, rfl⟩ := hknown
      have hslot : slots key = none := hempty key List.mem_cons_self
      rw [visitEntries, find?_keys]
      simp only [hslot, Option.isSome_none, Bool.false_eq_true, if_false]
      apply Visits.cons (fun key => entries.lookup (visitor.name key))
        (fun slots => visitor.visitEntries slots entries)
      · exact List.lookup_cons_self
      · exact Toml.lookup_eq_none hdistinct.1
      · intro k hk
        exact Toml.lookup_cons_of_ne fun h => hk (visitor.name_injective h)
      · intro found
        apply ih hdistinct.2
        intro k hk
        have hne : k ≠ key := by
          intro h
          exact hdistinct.1 (h ▸ hk)
        rw [Function.update_of_ne hne]
        exact hempty k (List.mem_cons_of_mem _ hk)
    · have hunknown : ∀ key, visitor.name key ≠ name := fun key h => hknown ⟨key, h⟩
      have hvalues : (fun key => ((name, value) :: entries).lookup (visitor.name key)) =
          fun key => entries.lookup (visitor.name key) :=
        funext fun key => Toml.lookup_cons_of_ne (hunknown key)
      rw [visitEntries, find?_keys_of_ne hunknown, hvalues]
      exact ih hdistinct.2 fun key hkey => hempty key (List.mem_cons_of_mem _ hkey)

/-- By induction on the keys, each of which takes the next element while there is one. -/
theorem visits_visitElements {keys : List κ} (hkeys : keys.Nodup) (slots : Slots Kind)
    (elements : List Value) :
    visitor.Visits (fun key => if key ∈ keys then elements[keys.idxOf key]? else none) slots
      (visitor.visitElements keys slots elements) := by
  induction keys generalizing slots elements with
  | nil => exact .of_none (fun _ => rfl) slots
  | cons key keys ih =>
    rw [List.nodup_cons] at hkeys
    cases elements with
    | nil => exact .of_none (fun _ => ite_self none) slots
    | cons value elements =>
      apply Visits.cons (fun key => if key ∈ keys then elements[keys.idxOf key]? else none)
        (fun slots => visitor.visitElements keys slots elements)
      · simp
      · exact if_neg hkeys.1
      · intro k hk
        simp [hk, List.idxOf_cons_ne _ (Ne.symm hk)]
      · intro found
        exact ih hkeys.2 _ _

end

end Visitor

namespace Settings

open Visitor

/-- The visitor knows the settings of a section, by their names and positions, and reads
from each place a value that suits its setting. -/
structure Serves {κ : Type} {Kind : κ → Type} (visitor : Visitor κ Kind) [DecidableEq κ]
    (key : SectionKey) (setting : κ → Setting) (embed : (k : κ) → Kind k → Value) : Prop where
  sectionKey : ∀ k, (setting k).sectionKey = key
  exists_eq : ∀ s : Setting, s.sectionKey = key → ∃ k, s = setting k
  name : ∀ k, visitor.name k = (setting k).name
  position : ∀ k, visitor.keys.idxOf k = (setting k).position
  read : ∀ k v, ∃ default, ReadsTo (setting k).Suits (embed k) default (visitor.name k) (some v)
    (visitor.read k v)

section
variable {κ : Type} [DecidableEq κ] {Kind : κ → Type} {visitor : Visitor κ Kind}
  {key : SectionKey} {setting : κ → Setting} {embed : (k : κ) → Kind k → Value}

/-- A table in the section has distinct keys. -/
def Orderly (v : Value) : Prop := ∀ entries, v = .table entries → (entries.map Prod.fst).Nodup

theorem Serves.visits (h : Serves visitor key setting embed) {v : Value} (hv : v.IsSection)
    (horderly : Orderly v) (name : String) :
    visitor.Visits (fun k => (setting k).within v) (fun _ => none) (visitor.visit name v) := by
  cases v with
  | table entries =>
    have hvalues : (fun k => (setting k).within (.table entries)) =
        fun k => entries.lookup (visitor.name k) :=
      funext fun k => by rw [h.name k]; rfl
    rw [hvalues]
    exact visits_visitEntries (horderly entries rfl) fun _ _ => rfl
  | array elements =>
    have hvalues : (fun k => (setting k).within (.array elements)) =
        fun k => if k ∈ visitor.keys then elements[visitor.keys.idxOf k]? else none :=
      funext fun k => by rw [if_pos (visitor.mem_keys k), h.position k]; rfl
    rw [hvalues]
    exact visits_visitElements visitor.nodup _ elements
  | dateTime t => exact .of_none (fun _ => rfl) _
  | _ => exact absurd hv id

/-- A slot is filled with what stands for its setting, which then suits it. -/
theorem Serves.found (h : Serves visitor key setting embed) {k : κ} {value? : Option Value}
    {slot : Option (Kind k)}
    (hslot : slot.map Except.ok = (value?.map (visitor.read k)).or (Option.map Except.ok none)) :
    slot.map (embed k) = value? ∧ ∀ w, value? = some w → (setting k).Suits w := by
  cases slot_cases hslot with
  | inl hempty =>
    obtain ⟨rfl, rfl⟩ := hempty
    exact ⟨rfl, fun _ hw => nomatch hw⟩
  | inr hfilled =>
    obtain ⟨w, a, rfl, rfl, hread⟩ := hfilled
    obtain ⟨_, hreads⟩ := h.read k w
    obtain ⟨ha, hsuits⟩ := hreads.of_ok hread
    exact ⟨congrArg some ha, hsuits⟩

theorem visit_of_not {v : Value} (hv : ¬v.IsSection) (name : String) :
    visitor.visit name v = .error (.unsuitableValue name) := by
  cases v with
  | table | array | dateTime => exact absurd trivial hv
  | _ => rfl

/-- What a visitor finds in a section is what the settings of the section say. -/
theorem Serves.reads (h : Serves visitor key setting embed) {α : Type}
    {valueOf : α → Setting → Value} {default : α} {build : Slots Kind → α}
    (hbuild : ∀ slots : Slots Kind, (∀ k a, slots k = some a → (setting k).Suits (embed k a)) →
      ∀ k, valueOf (build slots) (setting k) =
        ((slots k).map (embed k)).getD (valueOf default (setting k)))
    {v : Value} (horderly : Orderly v) :
    Reads key valueOf default (some v) ((visitor.visit key.text v).map build) := by
  by_cases hv : v.IsSection
  · have hvisits := h.visits hv horderly key.text
    generalize visitor.visit key.text v = result at hvisits
    cases hvisits with
    | @refused k w e hw hread =>
      obtain ⟨_, hreads⟩ := h.read k w
      obtain ⟨he, w', hw', hnot⟩ := hreads.of_error hread
      cases hw'
      rw [he, h.name k]
      exact .refused rfl (.value (h.sectionKey k) hw hnot)
    | @filled slots hslots =>
      have hfound : ∀ k, (slots k).map (embed k) = (setting k).within v ∧
          ∀ w, (setting k).within v = some w → (setting k).Suits w :=
        fun k => h.found (hslots k)
      apply Reads.read
      · intro v' name hv'
        cases hv'
        apply not_unsuitableSection hv
        intro s w hkey hw
        obtain ⟨k, rfl⟩ := h.exists_eq s hkey
        exact (hfound k).2 w hw
      · intro s hkey
        obtain ⟨k, rfl⟩ := h.exists_eq s hkey
        rw [Option.bind_some, ← (hfound k).1]
        apply hbuild
        intro k a ha
        apply (hfound k).2
        rw [← (hfound k).1, ha]
        rfl
  · rw [visit_of_not hv]
    exact .refused rfl (.shape hv)

theorem serves_limits : Serves limitsVisitor .limits .limit fun _ n => .integer (n : Nat) where
  sectionKey _ := rfl
  exists_eq s hkey := by
    cases s with
    | limit key => exact ⟨key, rfl⟩
    | output key => cases hkey
  name _ := rfl
  position k := by cases k <;> rfl
  read k v := by
    have h := readsTo_naturalBelow (limitBound k) k.text 0 (some v)
    exact ⟨0, by cases k <;> exact h⟩

theorem serves_output : Serves outputVisitor .output .output (fun
    | .delimiter, s => .text s
    | .precision, n => .integer (n : Nat)) where
  sectionKey _ := rfl
  exists_eq s hkey := by
    cases s with
    | limit key => cases hkey
    | output key => exact ⟨key, rfl⟩
  name _ := rfl
  position k := by cases k <;> rfl
  read k v := by
    cases k with
    | delimiter => exact ⟨"", readsTo_text "delimiter" "" (some v)⟩
    | precision => exact ⟨0, readsTo_naturalBelow _ "precision" 0 (some v)⟩

end

theorem getD_lt {slot : Option Nat} {bound size default : Nat}
    (hslot : ∀ n, slot = some n → Natural bound (.integer (n : Nat))) (hbound : bound ≤ size)
    (hdefault : default < size) : slot.getD default < size := by
  cases slot with
  | none => exact hdefault
  | some n =>
    obtain ⟨m, hm, hlt⟩ := hslot n rfl
    cases hm
    exact Nat.lt_of_lt_of_le hlt hbound

theorem get_limitsOfSlots {slots : Slots fun _ : LimitKey => Nat}
    (h : ∀ key n, slots key = some n → (Setting.limit key).Suits (.integer (n : Nat)))
    (key : LimitKey) :
    (limitsOfSlots slots).get key = (slots key).getD (({} : Limits).get key) := by
  have hslot := h key
  cases key with
  | siteCount => exact UInt64.toNat_ofNat_of_lt' (getD_lt hslot (by decide) (by decide))
  | fieldCount => exact UInt32.toNat_ofNat_of_lt' (getD_lt hslot (by decide) (by decide))
  | fieldHeaderLength => exact UInt32.toNat_ofNat_of_lt' (getD_lt hslot (by decide) (by decide))
  | fieldLength => exact UInt32.toNat_ofNat_of_lt' (getD_lt hslot (by decide) (by decide))

theorem reads_visit_limits {v : Value} (h : Orderly v) :
    Reads .limits (fun limits => valueOf { limits }) {} (some v)
      (documentVisitor.read .limits v) := by
  apply serves_limits.reads _ h
  intro slots hslots key
  rw [valueOf, get_limitsOfSlots hslots]
  cases slots key <;> rfl

theorem reads_visit_output {v : Value} (h : Orderly v) :
    Reads .output (fun output => valueOf { output }) {} (some v)
      (documentVisitor.read .output v) := by
  apply serves_output.reads _ h
  intro slots _ key
  cases key with
  | delimiter =>
    rw [valueOf, outputOfSlots]
    cases slots .delimiter <;> rfl
  | precision =>
    rw [valueOf, outputOfSlots]
    cases slots .precision <;> rfl

/-- A slot of the document holds its section, or the defaults without one. -/
theorem Reads.of_slot {key : SectionKey} {valueOf : SectionKind key → Setting → Value}
    {default : SectionKind key} {section? : Option Value} {slot : Option (SectionKind key)}
    (hread : ∀ v, section? = some v →
      Reads key valueOf default (some v) (documentVisitor.read key v))
    (hslot : slot.map Except.ok =
      (section?.map (documentVisitor.read key)).or (Option.map Except.ok none)) :
    Reads key valueOf default section? (.ok (slot.getD default)) := by
  cases slot_cases hslot with
  | inl hempty =>
    obtain ⟨rfl, rfl⟩ := hempty
    exact .read (fun _ _ hv => nomatch hv) fun _ _ => rfl
  | inr hfilled =>
    obtain ⟨v, a, rfl, rfl, hv⟩ := hfilled
    rw [Option.getD_some, ← hv]
    exact hread v rfl

theorem interprets_visitDocument {document : Document} (h : Toml.Keyed Orderly document) :
    Interprets document (visitDocument document) := by
  have horderly : ∀ (key : SectionKey) (v : Value), document.lookup key.text = some v →
      Orderly v := fun key v hv => h.forall_mem _ ((Toml.lookup_eq_some_iff h.distinct).mp hv)
  have hvisits : documentVisitor.Visits (fun key => document.lookup key.text) (fun _ => none)
      (documentVisitor.visitEntries (fun _ => none) document) :=
    visits_visitEntries h.distinct fun _ _ => rfl
  rw [visitDocument]
  generalize documentVisitor.visitEntries (fun _ => none) document = result at hvisits
  cases hvisits with
  | @refused key v e hv hread =>
    rw [error_bind]
    have hv' := horderly key v hv
    cases key with
    | limits =>
      have hreads := reads_visit_limits hv'
      rw [hread] at hreads
      cases hreads with
      | refused hsame hunsuitable =>
        cases hsame
        exact .refused ⟨.limits, v, hv, hunsuitable⟩
    | output =>
      have hreads := reads_visit_output hv'
      rw [hread] at hreads
      cases hreads with
      | refused hsame hunsuitable =>
        cases hsame
        exact .refused ⟨.output, v, hv, hunsuitable⟩
  | filled hslots =>
    apply interprets_of_reads
    · apply Reads.of_slot _ (hslots .limits)
      exact fun v hv => reads_visit_limits (horderly .limits v hv)
    · apply Reads.of_slot _ (hslots .output)
      exact fun v hv => reads_visit_output (horderly .output v hv)

end Settings

end LatticeSeries
