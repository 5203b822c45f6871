import LatticeSeries.Proofs.HeaderVerdict
import LatticeSeries.Proofs.RecordLength
import LatticeSeries.Proofs.SettingsVisit
import Mathlib.Logic.Relation

/-!
# Loading settings

Settings are loaded in two stages. A document that is unsuitable is refused as one that
cannot be parsed. The settings of any other document are judged: the first limit that is
zero is named, then an empty delimiter, and all others are accepted. What the document
says elsewhere, and in which order it says it, has no part in this.
-/
namespace LatticeSeries

open Toml (Value Document)

namespace Settings

/-- What becomes of settings that are judged. The limits come first, in the order in
which they are declared. -/
inductive Judged (s : Settings) : Except SettingsFault Settings → Prop
  | zeroLimit {before after : List LimitKey} {key : LimitKey}
      (hkeys : Limits.keys = before ++ key :: after) (hbefore : ∀ k ∈ before, s.limits.get k ≠ 0)
      (hkey : s.limits.get key = 0) : Judged s (.error (.zeroLimit key))
  | emptyDelimiter (hlimits : ∀ key, s.limits.get key ≠ 0) (hdelimiter : s.output.delimiter = "") :
      Judged s (.error .emptyDelimiter)
  | valid (hlimits : ∀ key, s.limits.get key ≠ 0) (hdelimiter : s.output.delimiter ≠ "") :
      Judged s (.ok s)

variable {document : Document} {s : Settings}

theorem Judged.validate_eq {result : Except SettingsFault Settings} (h : Judged s result) :
    (s.validate >>= fun _ => .ok s) = result := by
  cases h with
  | @zeroLimit before after key hkeys hbefore hkey =>
    have hfirst : s.limits.firstZero? = some key := by
      apply List.find?_eq_some_iff_append.mpr
      exact ⟨decide_eq_true hkey, before, after, hkeys, fun k hk => by simpa using hbefore k hk⟩
    rw [validate, Limits.validate, hfirst]
    rfl
  | emptyDelimiter hlimits hdelimiter =>
    rw [validate, Limits.validate_eq_ok hlimits, ok_bind, hdelimiter]
    rfl
  | valid hlimits hdelimiter =>
    have hnot : ¬s.output.delimiter.isEmpty := fun h => hdelimiter (String.isEmpty_iff.mp h)
    rw [validate, Limits.validate_eq_ok hlimits, ok_bind, if_neg hnot]
    rfl

theorem exists_judged (s : Settings) : ∃ result, Judged s result := by
  by_cases hlimits : ∀ key, s.limits.get key ≠ 0
  · by_cases hdelimiter : s.output.delimiter = ""
    · exact ⟨_, .emptyDelimiter hlimits hdelimiter⟩
    · exact ⟨_, .valid hlimits hdelimiter⟩
  · push Not at hlimits
    obtain ⟨_, _, _, hkeys, hbefore, hkey, -⟩ := Limits.exists_first_zero hlimits
    exact ⟨_, .zeroLimit hkeys hbefore hkey⟩

theorem validate_eq_iff_judged {result : Except SettingsFault Settings} :
    (s.validate >>= fun _ => .ok s) = result ↔ Judged s result := by
  constructor
  · intro h
    obtain ⟨result', hresult'⟩ := exists_judged s
    rw [← h, hresult'.validate_eq]
    exact hresult'
  · exact Judged.validate_eq

/-- A document is refused as unsuitable, or its settings are judged. -/
theorem load_cases (document : Document) :
    (∃ name, Unsuitable document name ∧ load document = .error (.unsuitableValue name)) ∨
    ((∀ name, ¬Unsuitable document name) ∧ ∃ s : Settings,
      (∀ setting, s.valueOf setting = (valueAt document setting).getD (valueOf {} setting)) ∧
      ∀ result, load document = result ↔ Judged s result) := by
  have h := interprets_ofDocument document
  unfold load
  generalize ofDocument document = read at h
  cases h with
  | refused h => exact .inl ⟨_, h, rfl⟩
  | @read s h hs => exact .inr ⟨h, s, hs, fun result => validate_eq_iff_judged⟩

/-- One list of entries has an entry more, under a key that is not known, or the entries
stand in another order. -/
inductive Rewritten (Known : String → Prop) :
    List (String × Value) → List (String × Value) → Prop
  | unknown {before after : List (String × Value)} {name : String} {value : Value}
      (h : ¬Known name) : Rewritten Known (before ++ after) (before ++ (name, value) :: after)
  | order {entries entries' : List (String × Value)} (h : (entries.map Prod.fst).Nodup)
      (hperm : entries.Perm entries') : Rewritten Known entries entries'

/-- A table is rewritten, or an array has elements behind those of the settings. -/
inductive SectionRewritten (key : SectionKey) : Value → Value → Prop
  | table {entries entries' : List (String × Value)}
      (h : Rewritten (fun name => ∃ setting : Setting, setting.sectionKey = key ∧
        setting.name = name) entries entries') :
      SectionRewritten key (.table entries) (.table entries')
  | excess {elements : List Value}
      (h : ∀ setting : Setting, setting.sectionKey = key → setting.position < elements.length)
      (excess : List Value) : SectionRewritten key (.array elements) (.array (elements ++ excess))

/-- One of two documents says more than the other about what is not known, or the same
in another order, at its root or in one of the two sections. -/
inductive Rearranged : Document → Document → Prop
  | root {document document' : Document}
      (h : Rewritten (fun name => ∃ key : SectionKey, key.text = name) document document') :
      Rearranged document document'
  | inside {before after : Document} {key : SectionKey} {v v' : Value}
      (h : SectionRewritten key v v') :
      Rearranged (before ++ (key.text, v) :: after) (before ++ (key.text, v') :: after)

theorem Rewritten.lookup_eq {Known : String → Prop} {entries entries' : List (String × Value)}
    (h : Rewritten Known entries entries') {name : String} (hname : Known name) :
    entries'.lookup name = entries.lookup name := by
  cases h with
  | @unknown before after other value hunknown =>
    have hne : name ≠ other := fun heq => hunknown (heq ▸ hname)
    rw [List.lookup_append, List.lookup_append, Toml.lookup_cons_of_ne hne]
  | order hdistinct hperm => exact Toml.lookup_eq_of_perm hdistinct hperm name

theorem SectionRewritten.within_eq {key : SectionKey} {v v' : Value}
    (h : SectionRewritten key v v') {setting : Setting} (hkey : setting.sectionKey = key) :
    setting.within v' = setting.within v := by
  cases h with
  | table h => exact h.lookup_eq ⟨setting, hkey, rfl⟩
  | excess h excess => exact List.getElem?_append_left (h setting hkey)

theorem SectionRewritten.isSection {key : SectionKey} {v v' : Value}
    (h : SectionRewritten key v v') : v.IsSection ∧ v'.IsSection := by
  cases h with
  | table _ => exact ⟨trivial, trivial⟩
  | excess _ _ => exact ⟨trivial, trivial⟩

/-- Each of the two sections is the same in both documents or rewritten. -/
theorem Rearranged.lookup_cases {document' : Document} (h : Rearranged document document')
    (key : SectionKey) :
    document'.lookup key.text = document.lookup key.text ∨
    ∃ v v', document.lookup key.text = some v ∧ document'.lookup key.text = some v' ∧
      SectionRewritten key v v' := by
  cases h with
  | root h => exact .inl (h.lookup_eq ⟨key, rfl⟩)
  | @inside before after key' v v' h =>
    rw [List.lookup_append, List.lookup_append]
    cases hbefore : before.lookup key.text with
    | some w => exact .inl rfl
    | none =>
      by_cases hkey : key = key'
      · subst hkey
        rw [List.lookup_cons_self, List.lookup_cons_self]
        exact .inr ⟨v, v', rfl, rfl, h⟩
      · have hne : key.text ≠ key'.text := fun h => hkey (documentVisitor.name_injective h)
        rw [Toml.lookup_cons_of_ne hne, Toml.lookup_cons_of_ne hne]
        exact .inl rfl

/-- The two give the same to each setting of a section. -/
def SamePlaces (key : SectionKey) (value value' : Nat → String → Option Value) : Prop :=
  ∀ setting : Setting, setting.sectionKey = key →
    value' setting.position setting.name = value setting.position setting.name

theorem SamePlaces.limitsOf_eq {value value' : Nat → String → Option Value}
    (h : SamePlaces .limits value value') : limitsOf value' = limitsOf value := by
  have hsite := h (.limit .siteCount) rfl
  have hfield := h (.limit .fieldCount) rfl
  have hheader := h (.limit .fieldHeaderLength) rfl
  have hlength := h (.limit .fieldLength) rfl
  simp only [Setting.position, Setting.name] at hsite hfield hheader hlength
  simp only [limitsOf, hsite, hfield, hheader, hlength]

theorem SamePlaces.outputOf_eq {value value' : Nat → String → Option Value}
    (h : SamePlaces .output value value') : outputOf value' = outputOf value := by
  have hdelimiter := h (.output .delimiter) rfl
  have hprecision := h (.output .precision) rfl
  simp only [Setting.position, Setting.name, OutputKey.text] at hdelimiter hprecision
  simp only [outputOf, hdelimiter, hprecision]

/-- A section that is rewritten is read as before if only its settings are read. -/
theorem SectionRewritten.read_eq {α : Type} {key : SectionKey} {v v' : Value}
    (h : SectionRewritten key v v')
    {read : (Nat → String → Option Value) → Except SettingsFault α}
    (hread : ∀ {value value'}, SamePlaces key value value' → read value' = read value)
    (name : String) :
    (sectionValues name (some v') >>= read) = (sectionValues name (some v) >>= read) := by
  have hsection : ∀ w, some v = some w → w.IsSection :=
    fun w hw => Option.some.inj hw ▸ h.isSection.1
  have hsection' : ∀ w, some v' = some w → w.IsSection :=
    fun w hw => Option.some.inj hw ▸ h.isSection.2
  obtain ⟨value, hvalue, hplaces⟩ := exists_sectionValues hsection name
  obtain ⟨value', hvalue', hplaces'⟩ := exists_sectionValues hsection' name
  rw [hvalue, hvalue', ok_bind, ok_bind]
  apply hread
  intro setting hkey
  rw [hplaces, hplaces']
  exact h.within_eq hkey

theorem Rearranged.read_eq {α : Type} {document' : Document} (h : Rearranged document document')
    (key : SectionKey) {read : (Nat → String → Option Value) → Except SettingsFault α}
    (hread : ∀ {value value'}, SamePlaces key value value' → read value' = read value) :
    (sectionValues key.text (document'.lookup key.text) >>= read) =
      (sectionValues key.text (document.lookup key.text) >>= read) := by
  cases h.lookup_cases key with
  | inl hsame => rw [hsame]
  | inr hrewritten =>
    obtain ⟨v, v', hv, hv', hrewritten⟩ := hrewritten
    rw [hv, hv']
    exact hrewritten.read_eq hread key.text

theorem Rearranged.load_eq {document' : Document} (h : Rearranged document document') :
    load document' = load document := by
  have hlimits : (sectionValues "limits" (document'.lookup "limits") >>= limitsOf) =
      (sectionValues "limits" (document.lookup "limits") >>= limitsOf) :=
    h.read_eq .limits SamePlaces.limitsOf_eq
  have houtput : (sectionValues "output" (document'.lookup "output") >>= outputOf) =
      (sectionValues "output" (document.lookup "output") >>= outputOf) :=
    h.read_eq .output SamePlaces.outputOf_eq
  rw [load, load, ofDocument_eq, ofDocument_eq, hlimits, houtput]

/-- By induction on the steps from one document to the other, either way. -/
theorem load_eq_of_eqvGen {document' : Document}
    (h : Relation.EqvGen Rearranged document document') : load document' = load document := by
  induction h with
  | rel _ _ h => exact h.load_eq
  | refl _ => rfl
  | symm _ _ _ ih => exact ih.symm
  | trans _ _ _ _ _ ih ih' => exact ih'.trans ih

/-- The outcomes differ at most in the key that is named. -/
def SameOutcome (x y : Except SettingsFault Settings) : Prop :=
  x = y ∨ ∃ name name', x = .error (.unsuitableValue name) ∧ y = .error (.unsuitableValue name')

theorem get_injective : Function.Injective Limits.get := by
  intro l l' h
  cases l
  cases l'
  have hsite := congrFun h .siteCount
  have hfield := congrFun h .fieldCount
  have hheader := congrFun h .fieldHeaderLength
  have hlength := congrFun h .fieldLength
  rw [Limits.mk.injEq]
  exact ⟨UInt64.toNat_inj.mp hsite, UInt32.toNat_inj.mp hfield, UInt32.toNat_inj.mp hheader,
    UInt32.toNat_inj.mp hlength⟩

theorem valueOf_injective : Function.Injective valueOf := by
  intro s s' h
  cases s with
  | mk limits output =>
    cases s' with
    | mk limits' output' =>
      have hlimits : limits.get = limits'.get :=
        funext fun key => Int.ofNat.inj (Value.integer.inj (congrFun h (.limit key)))
      have hdelimiter : output.delimiter = output'.delimiter :=
        Value.text.inj (congrFun h (.output .delimiter))
      have hprecision : output.precision = output'.precision :=
        Int.ofNat.inj (Value.integer.inj (congrFun h (.output .precision)))
      rw [get_injective hlimits]
      cases output
      cases output'
      cases hdelimiter
      cases hprecision
      rfl

/-- One pass and the keys one by one interpret a document in the same way. -/
theorem Interprets.sameOutcome {x y : Except SettingsFault Settings}
    (hx : Interprets document x) (hy : Interprets document y) : SameOutcome x y := by
  cases hx with
  | refused h =>
    cases hy with
    | refused _ => exact .inr ⟨_, _, rfl, rfl⟩
    | read hnot _ => exact absurd h (hnot _)
  | read hnot hs =>
    cases hy with
    | refused h => exact absurd h (hnot _)
    | read _ hs' =>
      have hvalues := funext fun setting => (hs setting).trans (hs' setting).symm
      exact .inl (congrArg Except.ok (valueOf_injective hvalues))

theorem SameOutcome.bind {x y : Except SettingsFault Settings} (h : SameOutcome x y)
    (f : Settings → Except SettingsFault Settings) : SameOutcome (x >>= f) (y >>= f) := by
  cases h with
  | inl h => exact .inl (congrArg (· >>= f) h)
  | inr h =>
    obtain ⟨name, name', rfl, rfl⟩ := h
    exact .inr ⟨name, name', rfl, rfl⟩

theorem sameOutcome_loadByVisit (h : Toml.Keyed Orderly document) :
    SameOutcome (loadByVisit document) (load document) :=
  ((interprets_visitDocument h).sameOutcome (interprets_ofDocument document)).bind _

end Settings

theorem Preamble.ofBytes_ne_settings {limits : Limits} {bytes : Bytes} {fault : SettingsFault} :
    ofBytes limits bytes ≠ .error (.settings fault) := by
  intro h
  rcases bind_eq_error_iff.mp h with h | ⟨header, -, h⟩
  · cases Header.decode_eq_error_iff.mp h
  rcases bind_eq_error_iff.mp h with h | ⟨_, -, h⟩
  · simp [Series.checkLimits, bind_eq_error_iff, Limits.check_eq_error_iff] at h
  rcases bind_eq_error_iff.mp h with h | ⟨fields, -, h⟩
  · rcases (FieldHeader.decode_eq_error_iff.mp h).cause with ⟨_, hcause⟩ | ⟨_, hcause⟩
    · cases hcause
    · cases hcause
  rcases bind_eq_error_iff.mp h with h | ⟨_, -, h⟩
  · cases (Series.recordLengthOf_eq_error_iff.mp h).1
  · cases h

/-- Opening a file finds fault with the limits exactly if they are not valid. -/
theorem Series.load_eq_settings_iff {limits : Limits} {path : String} {content? : Option Bytes}
    {fault : SettingsFault} :
    load limits path content? = .error (.settings fault) ↔ limits.validate = .error fault := by
  cases hvalid : limits.validate with
  | error fault' =>
    have hload : load limits path content? = .error (.settings fault') := by
      unfold load
      rw [hvalid]
      rfl
    rw [hload, Except.error.injEq, Error.settings.injEq, Except.error.injEq]
  | ok u =>
    constructor
    · intro h
      rcases bind_eq_error_iff.mp h with h | ⟨_, -, h⟩
      · rw [hvalid] at h
        cases h
      cases content? with
      | none => cases h
      | some bytes =>
        change ofBytes limits path bytes = _ at h
        rw [ofBytes_eq] at h
        rcases bind_eq_error_iff.mp h with h | ⟨p, hp, h⟩
        · exact absurd h Preamble.ofBytes_ne_settings
        · cases Preamble.openBody_eq_error hp (Preamble.ofBytes_eq_ok hp).2.1 h
    · intro h
      cases h

namespace Settings

theorem message_unsuitableValue (name : String) :
    (SettingsFault.unsuitableValue name).message =
      "Failed to parse config: " ++ ("unsuitable value for " ++ name) := by
  change "Failed to parse config: unsuitable value for " ++ name = _
  rw [← String.append_assoc]
  rfl

/-- The faults of settings begin with another letter. -/
theorem Judged.message_ne {fault : SettingsFault} (h : Judged s (.error fault)) (reason : String) :
    fault.message ≠ "Failed to parse config: " ++ reason := by
  intro hmessage
  have hfirst := congrArg (fun text => text.toList.head?) hmessage
  cases h with
  | @zeroLimit _ _ key _ _ _ =>
    change ("limits." ++ key.text ++ " must be > 0").toList.head? = _ at hfirst
    simp only [String.toList_append] at hfirst
    exact absurd hfirst (by simp)
  | emptyDelimiter _ _ =>
    change "output.delimiter cannot be empty".toList.head? = _ at hfirst
    simp only [String.toList_append] at hfirst
    exact absurd hfirst (by simp)

theorem validate_of_load (h : load document = .ok s) : s.limits.validate = .ok () := by
  cases load_cases document with
  | inl hcase =>
    obtain ⟨name, -, hload⟩ := hcase
    cases h.symm.trans hload
  | inr hcase =>
    obtain ⟨-, s', -, hjudged⟩ := hcase
    cases (hjudged _).mp h with
    | valid hlimits _ => exact Limits.validate_eq_ok hlimits

theorem fails_to_parse_iff :
    (∃ fault, load document = .error fault ∧
      ∃ reason, fault.message = "Failed to parse config: " ++ reason) ↔
      ∃ name, Unsuitable document name := by
  cases load_cases document with
  | inl hcase =>
    obtain ⟨name, hunsuitable, hload⟩ := hcase
    constructor
    · intro _
      exact ⟨name, hunsuitable⟩
    · intro _
      exact ⟨_, hload, _, message_unsuitableValue name⟩
  | inr hcase =>
    obtain ⟨hsuitable, s, -, hjudged⟩ := hcase
    constructor
    · intro h
      obtain ⟨fault, hload, reason, hmessage⟩ := h
      exact absurd hmessage (((hjudged _).mp hload).message_ne reason)
    · intro h
      obtain ⟨name, hunsuitable⟩ := h
      exact absurd hunsuitable (hsuitable name)

theorem unsuitable_of_load {name : String} (h : load document = .error (.unsuitableValue name)) :
    Unsuitable document name := by
  cases load_cases document with
  | inl hcase =>
    obtain ⟨name', hunsuitable, hload⟩ := hcase
    cases h.symm.trans hload
    exact hunsuitable
  | inr hcase =>
    obtain ⟨-, s, -, hjudged⟩ := hcase
    cases (hjudged _).mp h

theorem exists_settings (h : ∀ name, ¬Unsuitable document name) :
    ∃ s : Settings,
      (∀ setting, s.valueOf setting = (valueAt document setting).getD (valueOf {} setting)) ∧
      ∀ result, load document = result ↔ Judged s result := by
  cases load_cases document with
  | inl hcase =>
    obtain ⟨name, hunsuitable, -⟩ := hcase
    exact absurd hunsuitable (h name)
  | inr hcase => exact hcase.2

theorem orderly_of_distinctKeys {v : Value} (h : v.DistinctKeys) : Orderly v := by
  intro entries hv
  subst hv
  cases h with
  | table hdistinct _ => exact hdistinct

theorem keyed_parse {text : String} (h : Document.parse? text = some document) :
    Toml.Keyed Orderly document := by
  have hkeyed := Document.keyed_parse h
  exact ⟨hkeyed.distinct, fun entry hmem => orderly_of_distinctKeys (hkeyed.forall_mem entry hmem)⟩

theorem ofFile_eq_load {parse : Toml.Parse} {bytes : Bytes} {text : String}
    (hbytes : Utf8.decode bytes = .ok text) (htext : parse text = some document) :
    ofFile (some bytes) parse = load document := by
  rw [ofFile, hbytes]
  simp only [htext]

/-- How a document is loaded. It is refused as one that cannot be parsed exactly if it is
unsuitable. From any other one each setting is taken from its own place or by default,
and the settings are judged. The outcome stays the same when entries that are not known
come or go and when entries change their order, and one pass over a document with distinct
keys has it as well. The document of a file decides the outcome, whatever reads its text,
and a text that is read in full gives distinct keys. Limits that were loaded are never
refused when a file is opened. -/
structure LoadsKeywise (document : Document) : Prop where
  fails_to_parse_iff : (∃ fault, load document = .error fault ∧
    ∃ reason, fault.message = "Failed to parse config: " ++ reason) ↔
      ∃ name, Unsuitable document name
  unsuitable : ∀ name, load document = .error (.unsuitableValue name) → Unsuitable document name
  settings : (∀ name, ¬Unsuitable document name) → ∃ s : Settings,
    (∀ setting, s.valueOf setting = (valueAt document setting).getD (valueOf {} setting)) ∧
    ∀ result, load document = result ↔ Judged s result
  rearranged : ∀ document', Relation.EqvGen Rearranged document document' →
    load document' = load document
  visited : Toml.Keyed Orderly document → SameOutcome (loadByVisit document) (load document)
  ofFile_eq : ∀ (parse : Toml.Parse) bytes text, Utf8.decode bytes = .ok text →
    parse text = some document → ofFile (some bytes) parse = load document
  keyed : ∀ text, Document.parse? text = some document → Toml.Keyed Orderly document
  limits_valid : ∀ s, load document = .ok s → ∀ path content? fault,
    Series.load s.limits path content? ≠ .error (.settings fault)

/-- Settings are loaded key by key. -/
theorem load_keywise (document : Document) : LoadsKeywise document where
  fails_to_parse_iff := Settings.fails_to_parse_iff
  unsuitable _ := unsuitable_of_load
  settings := exists_settings
  rearranged _ := load_eq_of_eqvGen
  visited := sameOutcome_loadByVisit
  ofFile_eq _ _ _ := ofFile_eq_load
  keyed _ := keyed_parse
  limits_valid := by
    intro s hs path content? fault h
    rw [Series.load_eq_settings_iff, validate_of_load hs] at h
    cases h

/-- A document with limits by position and an entry that is not known. -/
def oddDocument : Document :=
  [("title", .text "flow"), ("limits", .array [.integer 1000, .integer 0]),
    ("output", .table [("precision", .integer 3)])]

theorem not_unsuitable_oddDocument (name : String) : ¬Unsuitable oddDocument name := by
  intro h
  obtain ⟨key, v, hv, hunsuitable⟩ := h
  cases key with
  | limits =>
    cases hv
    revert hunsuitable
    apply not_unsuitableSection
    · trivial
    intro setting w hkey hw
    cases setting with
    | output key => cases hkey
    | limit key =>
      cases key with
      | siteCount =>
        cases hw
        exact ⟨1000, rfl, by decide⟩
      | fieldCount =>
        cases hw
        exact ⟨0, rfl, by decide⟩
      | fieldHeaderLength => cases hw
      | fieldLength => cases hw
  | output =>
    cases hv
    revert hunsuitable
    apply not_unsuitableSection
    · trivial
    intro setting w hkey hw
    cases setting with
    | limit key => cases hkey
    | output key =>
      cases key with
      | delimiter => cases hw
      | precision =>
        cases hw
        exact ⟨3, rfl, by decide⟩

theorem load_keywise_odd :
    load oddDocument = .error (.zeroLimit .fieldCount) ∧
    load oddDocument.tail = .error (.zeroLimit .fieldCount) ∧
    ofFile (some []) Document.parse? = load [] ∧
    ∀ path content? fault, Series.load {} path content? ≠ .error (.settings fault) := by
  have hodd := load_keywise oddDocument
  obtain ⟨s, hs, hjudged⟩ := hodd.settings not_unsuitable_oddDocument
  have hsite : s.limits.get .siteCount = 1000 :=
    Int.ofNat.inj (Value.integer.inj (hs (.limit .siteCount)))
  have hfield : s.limits.get .fieldCount = 0 :=
    Int.ofNat.inj (Value.integer.inj (hs (.limit .fieldCount)))
  have hload : load oddDocument = .error (.zeroLimit .fieldCount) := by
    apply (hjudged _).mpr
    have hkeys : Limits.keys = [.siteCount] ++ .fieldCount :: [.fieldHeaderLength, .fieldLength] :=
      rfl
    apply Judged.zeroLimit hkeys _ hfield
    intro key hkey
    rw [List.mem_singleton.mp hkey, hsite]
    decide
  have hempty := load_keywise []
  refine ⟨hload, ?_, hempty.ofFile_eq Document.parse? [] "" rfl rfl, hempty.limits_valid {} rfl⟩
  have hunknown : ¬∃ key : SectionKey, key.text = "title" := by
    intro h
    obtain ⟨key, hkey⟩ := h
    cases key with
    | limits => exact absurd hkey (by decide)
    | output => exact absurd hkey (by decide)
  have hstep : Rearranged ([] ++ oddDocument.tail)
      ([] ++ ("title", .text "flow") :: oddDocument.tail) := .root (.unknown hunknown)
  rw [← hload]
  exact hodd.rearranged _ (.symm _ _ (.rel _ _ hstep))

end Settings

end LatticeSeries
