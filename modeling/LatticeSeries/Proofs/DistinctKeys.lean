import LatticeSeries.Toml.Document
import Mathlib.Data.List.Basic
import Mathlib.Data.List.Nodup

/-!
# Tables with distinct keys

No table of a document has a key twice. A statement changes one table, which keeps its
keys or gets one more that it did not have, and every table on the way there stays as it
was but for what is under one key. The scanners of values make tables in the same way.
-/
namespace LatticeSeries.Toml

section
variable {β : Type} {name : String} {entries : List (String × β)}

theorem lookup_cons_of_ne {key : String} {b : β} (h : name ≠ key) :
    ((key, b) :: entries).lookup name = entries.lookup name := by
  rw [List.lookup_cons, beq_false_of_ne h]

theorem lookup_eq_none (h : name ∉ entries.map Prod.fst) : entries.lookup name = none := by
  apply List.lookup_eq_none_iff.mpr
  intro entry hentry
  apply bne_iff_ne.mpr
  intro hname
  exact h (hname ▸ List.mem_map_of_mem hentry)

theorem lookup_of_mem (h : (entries.map Prod.fst).Nodup) {b : β} (hmem : (name, b) ∈ entries) :
    entries.lookup name = some b := by
  induction entries with
  | nil => cases hmem
  | cons entry entries ih =>
    obtain ⟨key, a⟩ := entry
    rw [List.map_cons, List.nodup_cons] at h
    cases List.mem_cons.mp hmem with
    | inl heq =>
      cases heq
      exact List.lookup_cons_self
    | inr hmem =>
      have hname : name ≠ key := fun heq => h.1 (List.mem_map.mpr ⟨(name, b), hmem, heq⟩)
      rw [lookup_cons_of_ne hname]
      exact ih h.2 hmem

/-- Under distinct keys an entry is found wherever it stands. -/
theorem lookup_eq_some_iff (h : (entries.map Prod.fst).Nodup) {b : β} :
    entries.lookup name = some b ↔ (name, b) ∈ entries := by
  constructor
  · intro hlookup
    obtain ⟨before, after, hentries, -⟩ := List.lookup_eq_some_iff.mp hlookup
    rw [hentries]
    exact List.mem_append_right before List.mem_cons_self
  · exact lookup_of_mem h

theorem lookup_eq_of_perm {entries' : List (String × β)} (h : (entries.map Prod.fst).Nodup)
    (hperm : entries.Perm entries') (name : String) :
    entries'.lookup name = entries.lookup name := by
  have h' : (entries'.map Prod.fst).Nodup := (hperm.map Prod.fst).nodup_iff.mp h
  apply Option.ext
  intro b
  rw [lookup_eq_some_iff h, lookup_eq_some_iff h', hperm.mem_iff]

end

/-- The keys are distinct, and what stands under each has a property. -/
structure Keyed {β : Type} (P : β → Prop) (entries : List (String × β)) : Prop where
  distinct : (entries.map Prod.fst).Nodup
  forall_mem : ∀ entry ∈ entries, P entry.2

namespace Keyed

variable {β : Type} {P : β → Prop} {key : String} {b : β} {entries : List (String × β)}

theorem nil : Keyed P [] :=
  ⟨List.nodup_nil, fun _ h => nomatch h⟩

theorem cons (hkey : key ∉ entries.map Prod.fst) (hb : P b) (h : Keyed P entries) :
    Keyed P ((key, b) :: entries) := by
  constructor
  · exact List.nodup_cons.mpr ⟨hkey, h.distinct⟩
  · exact List.forall_mem_cons.mpr ⟨hb, h.forall_mem⟩

theorem of_cons (h : Keyed P ((key, b) :: entries)) :
    key ∉ entries.map Prod.fst ∧ P b ∧ Keyed P entries := by
  have hdistinct := List.nodup_cons.mp h.distinct
  have hforall := List.forall_mem_cons.mp h.forall_mem
  exact ⟨hdistinct.1, hforall.1, hdistinct.2, hforall.2⟩

end Keyed

/-- All tables in a value have distinct keys. -/
inductive Value.DistinctKeys : Value → Prop
  | text (s : String) : DistinctKeys (.text s)
  | integer (n : Int) : DistinctKeys (.integer n)
  | float (x : Double) : DistinctKeys (.float x)
  | boolean (b : Bool) : DistinctKeys (.boolean b)
  | dateTime (t : DateTime) : DistinctKeys (.dateTime t)
  | array {elements : List Value} (h : ∀ v ∈ elements, v.DistinctKeys) :
      DistinctKeys (.array elements)
  | table {entries : List (String × Value)} (hdistinct : (entries.map Prod.fst).Nodup)
      (h : ∀ entry ∈ entries, entry.2.DistinctKeys) : DistinctKeys (.table entries)

/-- All tables in a part of a document under assembly have distinct keys. -/
inductive Node.DistinctKeys : Node → Prop
  | value {v : Value} (h : v.DistinctKeys) : DistinctKeys (.value v)
  | table {origin : Origin} {entries : Entries} (hdistinct : (entries.map Prod.fst).Nodup)
      (h : ∀ entry ∈ entries, entry.2.DistinctKeys) : DistinctKeys (.table origin entries)
  | tables {elements : List Entries}
      (hdistinct : ∀ entries ∈ elements, (entries.map Prod.fst).Nodup)
      (h : ∀ entries ∈ elements, ∀ entry ∈ entries, entry.2.DistinctKeys) :
      DistinctKeys (.tables elements)

theorem Value.DistinctKeys.of_keyed {entries : List (String × Value)}
    (h : Keyed Value.DistinctKeys entries) : (Value.table entries).DistinctKeys :=
  .table h.distinct h.forall_mem

namespace Node.DistinctKeys

theorem of_keyed {origin : Origin} {entries : Entries} (h : Keyed Node.DistinctKeys entries) :
    (Node.table origin entries).DistinctKeys :=
  .table h.distinct h.forall_mem

theorem tables_append {elements : List Entries} {last : Entries}
    (h : ∀ entries ∈ elements, Keyed Node.DistinctKeys entries)
    (hlast : Keyed Node.DistinctKeys last) : (Node.tables (elements ++ [last])).DistinctKeys := by
  have hall : ∀ entries ∈ elements ++ [last], Keyed Node.DistinctKeys entries :=
    List.forall_mem_append.mpr ⟨h, List.forall_mem_singleton.mpr hlast⟩
  exact .tables (fun entries hmem => (hall entries hmem).distinct) fun entries hmem =>
    (hall entries hmem).forall_mem

end Node.DistinctKeys

/-- A change under one key keeps the keys or adds this one. -/
theorem map_fst_alter {change : Option Node → Option Node} {key : String}
    {entries entries' : Entries} (h : alter change key entries = some entries') :
    entries'.map Prod.fst =
      if key ∈ entries.map Prod.fst then entries.map Prod.fst
      else entries.map Prod.fst ++ [key] := by
  induction entries generalizing entries' with
  | nil =>
    obtain ⟨node, -, rfl⟩ := Option.map_eq_some_iff.mp h
    rfl
  | cons entry entries ih =>
    obtain ⟨k, node⟩ := entry
    rw [alter] at h
    split_ifs at h with hk
    · obtain ⟨node', -, rfl⟩ := Option.map_eq_some_iff.mp h
      simp [hk]
    · obtain ⟨rest, hrest, rfl⟩ := Option.map_eq_some_iff.mp h
      rw [List.map_cons, ih hrest]
      simp only [List.map_cons, List.mem_cons, Ne.symm hk, false_or]
      split_ifs <;> rfl

theorem keyed_alter {P : Node → Prop} {change : Option Node → Option Node} {key : String}
    {entries entries' : Entries} (hentries : Keyed P entries)
    (hchange : ∀ node? node, (∀ n, node? = some n → P n) → change node? = some node → P node)
    (h : alter change key entries = some entries') : Keyed P entries' := by
  induction entries generalizing entries' with
  | nil =>
    obtain ⟨node, hnode, rfl⟩ := Option.map_eq_some_iff.mp h
    exact .cons List.not_mem_nil (hchange none node (fun _ hn => nomatch hn) hnode) .nil
  | cons entry entries ih =>
    obtain ⟨k, node⟩ := entry
    obtain ⟨hfresh, hnode, hrest⟩ := hentries.of_cons
    rw [alter] at h
    split_ifs at h with hk
    · obtain ⟨node', hnode', rfl⟩ := Option.map_eq_some_iff.mp h
      apply Keyed.cons hfresh _ hrest
      apply hchange (some node) node' _ hnode'
      intro n hn
      cases hn
      exact hnode
    · obtain ⟨rest, hrest', rfl⟩ := Option.map_eq_some_iff.mp h
      apply Keyed.cons _ hnode (ih hrest hrest')
      rw [map_fst_alter hrest']
      split_ifs
      · exact hfresh
      · simp [hfresh, hk]

/-- By induction on the path: on the way there only what is under its keys is changed. -/
theorem keyed_descend {viaKey : Bool} {change : Origin → Entries → Option Entries}
    (hchange : ∀ origin entries entries', Keyed Node.DistinctKeys entries →
      change origin entries = some entries' → Keyed Node.DistinctKeys entries')
    {path : List String} {origin : Origin} {entries entries' : Entries}
    (hentries : Keyed Node.DistinctKeys entries)
    (h : descend viaKey change path origin entries = some entries') :
    Keyed Node.DistinctKeys entries' := by
  induction path generalizing origin entries entries' with
  | nil => exact hchange origin entries entries' hentries h
  | cons key path ih =>
    apply keyed_alter hentries _ h
    intro node? node hnode? hnode
    cases node? with
    | none =>
      obtain ⟨inner, hinner, rfl⟩ := Option.map_eq_some_iff.mp hnode
      exact .of_keyed (ih .nil hinner)
    | some old =>
      cases hnode? old rfl with
      | value _ => cases hnode
      | table hdistinct hforall =>
        dsimp only at hnode
        split_ifs at hnode
        obtain ⟨inner, hinner, rfl⟩ := Option.map_eq_some_iff.mp hnode
        exact .of_keyed (ih ⟨hdistinct, hforall⟩ hinner)
      | @tables elements hdistinct hforall =>
        have helements : ∀ entries ∈ elements, Keyed Node.DistinctKeys entries :=
          fun entries hmem => ⟨hdistinct entries hmem, hforall entries hmem⟩
        dsimp only at hnode
        split at hnode
        · cases hnode
        · rename_i last hlast
          obtain ⟨inner, hinner, rfl⟩ := Option.map_eq_some_iff.mp hnode
          apply Node.DistinctKeys.tables_append
          · exact fun entries hmem => helements entries (List.dropLast_subset elements hmem)
          · exact ih (helements last (List.mem_of_getLast? hlast)) hinner

theorem keyed_assign {path : List String} {key : String} {v : Value} (hv : v.DistinctKeys)
    {origin : Origin} {entries entries' : Entries} (hentries : Keyed Node.DistinctKeys entries)
    (h : assign path key v origin entries = some entries') :
    Keyed Node.DistinctKeys entries' := by
  apply keyed_descend _ hentries h
  intro origin entries entries' hentries hchange
  split_ifs at hchange
  apply keyed_alter hentries _ hchange
  intro node? node _ hnode
  cases node? with
  | none =>
    cases hnode
    exact .value hv
  | some old => cases hnode

/-- The values that a statement brings have distinct keys. -/
def Statement.DistinctKeys : Statement → Prop
  | .assignment _ _ v => v.DistinctKeys
  | _ => True

/-- A statement adds no key to a table that has it. -/
theorem Assembly.keyed_add {a a' : Assembly} {statement : Statement}
    (hstatement : statement.DistinctKeys) (ha : Keyed Node.DistinctKeys a.root)
    (h : a.add statement = some a') : Keyed Node.DistinctKeys a'.root := by
  cases statement with
  | table path key =>
    obtain ⟨root, hroot, rfl⟩ := Option.map_eq_some_iff.mp h
    apply keyed_descend _ ha hroot
    intro _ entries entries' hentries hchange
    apply keyed_alter hentries _ hchange
    intro node? node hnode? hnode
    cases node? with
    | none =>
      cases hnode
      exact .of_keyed .nil
    | some old =>
      cases hnode? old rfl with
      | value _ => cases hnode
      | tables _ _ => cases hnode
      | @table origin inner hdistinct hforall =>
        cases origin with
        | passing =>
          cases hnode
          exact .table hdistinct hforall
        | header => cases hnode
        | dotted => cases hnode
  | element path key =>
    obtain ⟨root, hroot, rfl⟩ := Option.map_eq_some_iff.mp h
    apply keyed_descend _ ha hroot
    intro _ entries entries' hentries hchange
    apply keyed_alter hentries _ hchange
    intro node? node hnode? hnode
    cases node? with
    | none =>
      cases hnode
      exact .tables_append (List.forall_mem_nil _) .nil
    | some old =>
      cases hnode? old rfl with
      | value _ => cases hnode
      | table _ _ => cases hnode
      | @tables elements hdistinct hforall =>
        cases hnode
        apply Node.DistinctKeys.tables_append _ .nil
        exact fun entries hmem => ⟨hdistinct entries hmem, hforall entries hmem⟩
  | assignment path key v =>
    obtain ⟨root, hroot, rfl⟩ := Option.map_eq_some_iff.mp h
    exact keyed_descend (fun _ _ _ => keyed_assign hstatement) ha hroot

theorem toValues_eq (entries : Entries) :
    toValues entries = entries.map fun entry => (entry.1, entry.2.toValue) := by
  induction entries with
  | nil => rfl
  | cons entry entries ih =>
    rw [toValues, ih]
    rfl

theorem toTables_eq (elements : List Entries) :
    toTables elements = elements.map fun entries => .table (toValues entries) := by
  induction elements with
  | nil => rfl
  | cons entries elements ih =>
    rw [toTables, ih]
    rfl

theorem keyed_toValues {P : Value → Prop} {entries : Entries}
    (hdistinct : (entries.map Prod.fst).Nodup) (h : ∀ entry ∈ entries, P entry.2.toValue) :
    Keyed P (toValues entries) := by
  rw [toValues_eq]
  constructor
  · rwa [List.map_map]
  · intro entry hmem
    obtain ⟨source, hsource, rfl⟩ := List.mem_map.mp hmem
    exact h source hsource

theorem Node.DistinctKeys.toValue {node : Node} (h : node.DistinctKeys) :
    node.toValue.DistinctKeys := by
  induction h with
  | value h => exact h
  | @table origin entries hdistinct h ih =>
    exact .of_keyed (keyed_toValues hdistinct ih)
  | @tables elements hdistinct h ih =>
    rw [Node.toValue, toTables_eq]
    apply Value.DistinctKeys.array
    intro v hv
    obtain ⟨entries, hmem, rfl⟩ := List.mem_map.mp hv
    exact .of_keyed (keyed_toValues (hdistinct entries hmem) (ih entries hmem))

theorem distinctKeys_toValues {entries : Entries} (h : Keyed Node.DistinctKeys entries) :
    Keyed Value.DistinctKeys (toValues entries) :=
  keyed_toValues h.distinct fun entry hmem => (h.forall_mem entry hmem).toValue

/-- A run over a list of changes keeps what each change keeps. -/
theorem foldlM_induction {α σ : Type} {step : σ → α → Option σ} {I : σ → Prop} {P : α → Prop}
    (hstep : ∀ s a s', P a → I s → step s a = some s' → I s') {as : List α} (has : ∀ a ∈ as, P a)
    {s s' : σ} (hs : I s) (h : as.foldlM step s = some s') : I s' := by
  induction as generalizing s with
  | nil =>
    cases h
    exact hs
  | cons a as ih =>
    rw [List.foldlM_cons] at h
    obtain ⟨next, hnext, hrest⟩ := Option.bind_eq_some_iff.mp h
    have ha := List.forall_mem_cons.mp has
    exact ih ha.2 (hstep s a next ha.1 hs hnext) hrest

theorem Document.keyed_ofStatements {statements : List Statement}
    (hstatements : ∀ statement ∈ statements, statement.DistinctKeys) {document : Document}
    (h : Document.ofStatements? statements = some document) :
    Keyed Value.DistinctKeys document := by
  obtain ⟨a, ha, rfl⟩ := Option.map_eq_some_iff.mp h
  apply distinctKeys_toValues
  apply foldlM_induction (I := fun a => Keyed Node.DistinctKeys a.root) _ hstatements .nil ha
  intro a statement a' hstatement hkeyed hadd
  exact Assembly.keyed_add hstatement hkeyed hadd

theorem Value.distinctKeys_ofAssignments {assignments : List (List String × String × Value)}
    (hassignments : ∀ assignment ∈ assignments, assignment.2.2.DistinctKeys) {v : Value}
    (h : Value.ofAssignments? assignments = some v) : v.DistinctKeys := by
  obtain ⟨entries, hentries, rfl⟩ := Option.map_eq_some_iff.mp h
  have hkeyed : Keyed Node.DistinctKeys entries := by
    apply foldlM_induction (I := Keyed Node.DistinctKeys) _ hassignments .nil hentries
    intro entries assignment entries' hv hkeyed hassign
    exact keyed_assign hv hkeyed hassign
  exact .of_keyed (distinctKeys_toValues hkeyed)

namespace Scanner

variable {α β : Type} {P : α → Prop} {Q : β → Prop}

/-- All results of a scanner have a property. -/
structure Gives (P : α → Prop) (s : Scanner α) : Prop where
  results : ∀ text a rest, s text = some (a, rest) → P a

theorem Gives.of_forall (h : ∀ a, P a) (s : Scanner α) : Gives P s :=
  ⟨fun _ a _ _ => h a⟩

theorem Gives.of_pure {a : α} (h : P a) : Gives P (pure a) := by
  constructor
  intro text a' rest hrun
  cases hrun
  exact h

theorem Gives.of_failure : Gives P failure := by
  constructor
  intro text a rest hrun
  cases hrun

theorem Gives.bind {s : Scanner α} {f : α → Scanner β} (hs : Gives P s)
    (hf : ∀ a, P a → Gives Q (f a)) : Gives Q (s >>= f) := by
  constructor
  intro text b rest hrun
  obtain ⟨result, ha, hb⟩ := Option.bind_eq_some_iff.mp hrun
  exact (hf result.1 (hs.results text result.1 result.2 ha)).results result.2 b rest hb

/-- What the first scanner takes may be anything. -/
theorem Gives.then {s : Scanner α} {f : α → Scanner β} (hf : ∀ a, Gives Q (f a)) :
    Gives Q (s >>= f) :=
  Gives.bind (P := fun _ => True) (.of_forall (fun _ => trivial) s) fun a _ => hf a

theorem Gives.orElse {s t : Scanner α} (hs : Gives P s) (ht : Gives P t) : Gives P (s <|> t) := by
  constructor
  intro text a rest hrun
  change (s text <|> t text) = some (a, rest) at hrun
  cases hfirst : s text with
  | none =>
    rw [hfirst] at hrun
    exact ht.results text a rest hrun
  | some result =>
    rw [hfirst] at hrun
    cases hrun
    exact hs.results text a rest hfirst

theorem Gives.repeatedUpTo {s : Scanner α} (hs : Gives P s) (bound : Nat) :
    Gives (fun as => ∀ a ∈ as, P a) (repeatedUpTo s bound) := by
  induction bound with
  | zero => exact .of_pure (List.forall_mem_nil _)
  | succ bound ih =>
    apply Gives.orElse
    · apply Gives.bind hs
      intro a ha
      apply Gives.bind ih
      intro as has
      exact .of_pure (List.forall_mem_cons.mpr ⟨ha, has⟩)
    · exact .of_pure (List.forall_mem_nil _)

theorem Gives.repeated {s : Scanner α} (hs : Gives P s) :
    Gives (fun as => ∀ a ∈ as, P a) (repeated s) :=
  ⟨fun text => (hs.repeatedUpTo text.length).results text⟩

theorem Gives.separated {s : Scanner α} (hs : Gives P s) (separator : Char) :
    Gives (fun as => ∀ a ∈ as, P a) (separated s separator) := by
  apply Gives.bind hs
  intro first hfirst
  apply Gives.bind (Gives.repeated (Gives.then fun _ => hs))
  intro rest hrest
  exact .of_pure (List.forall_mem_cons.mpr ⟨hfirst, hrest⟩)

theorem Gives.map {s : Scanner α} {f : α → β} (hs : Gives P s) (hf : ∀ a, P a → Q (f a)) :
    Gives Q (f <$> s) := by
  rw [← bind_pure_comp]
  exact hs.bind fun a ha => .of_pure (hf a ha)

/-- What a constructor makes of any result has the property. -/
theorem Gives.map_of_forall {s : Scanner α} {f : α → β} (hf : ∀ a, Q (f a)) : Gives Q (f <$> s) :=
  Gives.map (P := fun _ => True) (.of_forall (fun _ => trivial) s) fun a _ => hf a

theorem gives_atom : Gives Value.DistinctKeys atom := by
  unfold atom
  apply Gives.orElse
  · exact .map_of_forall .text
  apply Gives.orElse
  · exact .map_of_forall .dateTime
  apply Gives.orElse
  · exact .map_of_forall .float
  apply Gives.orElse
  · exact .map_of_forall .integer
  apply Gives.orElse
  · exact Gives.then fun _ => .of_pure (.boolean true)
  · exact Gives.then fun _ => .of_pure (.boolean false)

theorem gives_array {element : Scanner Value} (h : Gives Value.DistinctKeys element) :
    Gives Value.DistinctKeys (array element) := by
  unfold array
  apply Gives.then
  intro _
  apply Gives.bind (P := fun vs => ∀ v ∈ vs, Value.DistinctKeys v)
  · apply Gives.orElse
    · apply Gives.bind
      · apply Gives.separated (P := Value.DistinctKeys)
        apply Gives.then
        intro _
        apply Gives.bind h
        intro v hv
        exact Gives.then fun _ => .of_pure hv
      · intro elements helements
        exact Gives.then fun _ => .of_pure helements
    · exact .of_pure (List.forall_mem_nil _)
  · intro elements helements
    apply Gives.then
    intro _
    exact Gives.then fun _ => .of_pure (.array helements)

theorem gives_inlineTable {element : Scanner Value} (h : Gives Value.DistinctKeys element) :
    Gives Value.DistinctKeys (inlineTable element) := by
  unfold inlineTable
  apply Gives.then
  intro _
  apply Gives.bind (P := fun assignments => ∀ assignment ∈ assignments,
    Value.DistinctKeys assignment.2.2)
  · apply Gives.orElse
    · apply Gives.separated (P := fun assignment : List String × String × Value =>
        assignment.2.2.DistinctKeys)
      apply Gives.then
      intro parts
      apply Gives.then
      intro _
      apply Gives.then
      intro _
      apply Gives.bind h
      intro v hv
      exact Gives.then fun _ => .of_pure hv
    · exact .of_pure (List.forall_mem_nil _)
  · intro assignments hassignments
    apply Gives.then
    intro _
    apply Gives.then
    intro _
    split
    · rename_i v hv
      exact .of_pure (Value.distinctKeys_ofAssignments hassignments hv)
    · exact .of_failure

theorem gives_value (levels : Nat) : Gives Value.DistinctKeys (value levels) := by
  induction levels with
  | zero => exact gives_atom
  | succ levels ih => exact gives_atom.orElse ((gives_array ih).orElse (gives_inlineTable ih))

theorem gives_header : Gives Statement.DistinctKeys header := by
  apply Gives.orElse
  · apply Gives.then
    intro _
    apply Gives.then
    intro parts
    apply Gives.then
    intro _
    exact Gives.then fun _ => .of_pure trivial
  · apply Gives.then
    intro _
    apply Gives.then
    intro parts
    apply Gives.then
    intro _
    exact Gives.then fun _ => .of_pure trivial

theorem gives_assignment : Gives Statement.DistinctKeys assignment := by
  apply Gives.then
  intro parts
  apply Gives.then
  intro _
  apply Gives.then
  intro _
  apply Gives.bind (gives_value levels)
  intro v hv
  exact Gives.then fun _ => .of_pure hv

/-- A line that says something gives a statement. -/
theorem gives_line : Gives (fun line => ∀ statement ∈ line, statement.DistinctKeys)
    (emptyLine <|> (some <$> header) <|> (some <$> assignment)) := by
  have hsome : ∀ statement : Statement, statement.DistinctKeys →
      ∀ statement' ∈ some statement, statement'.DistinctKeys := by
    intro statement hstatement statement' hmem
    cases hmem
    exact hstatement
  apply Gives.orElse
  · exact Gives.then fun _ => .of_pure fun _ hmem => nomatch hmem
  apply Gives.orElse
  · exact gives_header.map hsome
  · exact gives_assignment.map hsome

theorem gives_statements :
    Gives (fun statements => ∀ statement ∈ statements, statement.DistinctKeys) statements := by
  apply Gives.then
  intro _
  apply Gives.bind
  · apply Gives.repeated
    apply Gives.bind gives_line
    intro line hline
    exact Gives.then fun _ => .of_pure hline
  · intro lines hlines
    apply Gives.then
    intro _
    apply Gives.of_pure
    intro statement hmem
    obtain ⟨line, hline, hstatement⟩ := List.mem_filterMap.mp hmem
    exact hlines line hline statement hstatement

end Scanner

/-- What is read from a text has distinct keys, at its root and in every table. -/
theorem Document.keyed_parse {text : String} {document : Document}
    (h : Document.parse? text = some document) : Keyed Value.DistinctKeys document := by
  obtain ⟨result, hscan, hdocument⟩ := Option.bind_eq_some_iff.mp h
  have hstatements := Scanner.gives_statements.results _ _ _ hscan
  exact Document.keyed_ofStatements hstatements hdocument

end LatticeSeries.Toml
