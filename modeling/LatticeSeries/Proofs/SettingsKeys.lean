import LatticeSeries.Proofs.LimitFilter
import LatticeSeries.Settings.Visitor

/-!
# Settings, key by key

There are six settings, and each has one place in a document: a key of its section if
that is a table, a position if it is an array. A document is unsuitable if one of the
two sections cannot hold settings or what stands in one of the six places does not suit
its setting. From any other document each setting is taken from its own place, or by
default if nothing stands there, and nothing else in the document matters.
-/
namespace LatticeSeries

open Toml (Value Document)

inductive Setting where
  | limit (key : LimitKey)
  | output (key : Settings.OutputKey)
deriving DecidableEq, Repr

namespace Setting

def sectionKey : Setting → Settings.SectionKey
  | .limit _ => .limits
  | .output _ => .output

def name : Setting → String
  | .limit key => key.text
  | .output key => key.text

/-- The place of a setting among those of its section, as they are declared. -/
def position : Setting → Nat
  | .limit .siteCount | .output .delimiter => 0
  | .limit .fieldCount | .output .precision => 1
  | .limit .fieldHeaderLength => 2
  | .limit .fieldLength => 3

/-- The values that a setting may have. -/
def Suits : Setting → Value → Prop
  | .limit .siteCount, v | .output .precision, v =>
    ∃ n : Nat, v = .integer n ∧ n < 0x8000000000000000
  | .limit _, v => ∃ n : Nat, v = .integer n ∧ n < 0x100000000
  | .output .delimiter, v => ∃ s, v = .text s

/-- What stands for a setting in its section. -/
def within (setting : Setting) : Value → Option Value
  | .table entries => entries.lookup setting.name
  | .array elements => elements[setting.position]?
  | _ => none

end Setting

/-- Whether a value can hold settings. A date-time holds none. -/
def Toml.Value.IsSection : Value → Prop
  | .table _ | .array _ | .dateTime _ => True
  | _ => False

namespace Settings

def valueOf (s : Settings) : Setting → Value
  | .limit key => .integer (s.limits.get key)
  | .output .delimiter => .text s.output.delimiter
  | .output .precision => .integer s.output.precision

/-- What stands for a setting in a document. -/
def valueAt (document : Document) (setting : Setting) : Option Value :=
  (document.lookup setting.sectionKey.text).bind setting.within

/-- What stands under this name does not suit it, which is that of the section or of one
of its settings. -/
inductive UnsuitableSection (key : SectionKey) (v : Value) : (name : String) → Prop
  | shape (h : ¬v.IsSection) : UnsuitableSection key v key.text
  | value {setting : Setting} {w : Value} (hkey : setting.sectionKey = key)
      (hw : setting.within v = some w) (h : ¬setting.Suits w) :
      UnsuitableSection key v setting.name

/-- What the document says under this name does not suit it. -/
def Unsuitable (document : Document) (name : String) : Prop :=
  ∃ key v, document.lookup (SectionKey.text key) = some v ∧ UnsuitableSection key v name

/-- What is read for a setting whose values come from `embed`. -/
inductive ReadsTo {α : Type} (suits : Value → Prop) (embed : α → Value) (default : α)
    (key : String) : Option Value → Except SettingsFault α → Prop
  | absent : ReadsTo suits embed default key none (.ok default)
  | present {a : α} (h : suits (embed a)) : ReadsTo suits embed default key (some (embed a)) (.ok a)
  | unsuitable {v : Value} (h : ¬suits v) :
      ReadsTo suits embed default key (some v) (.error (.unsuitableValue key))

namespace ReadsTo

variable {α : Type} {suits : Value → Prop} {embed : α → Value} {default : α} {key : String}
  {value? : Option Value}

theorem of_ok {x : Except SettingsFault α} (h : ReadsTo suits embed default key value? x) {a : α}
    (hx : x = .ok a) :
    embed a = value?.getD (embed default) ∧ ∀ v, value? = some v → suits v := by
  cases h with
  | absent =>
    cases hx
    exact ⟨rfl, fun _ hv => nomatch hv⟩
  | present h =>
    cases hx
    refine ⟨rfl, ?_⟩
    intro v hv
    cases hv
    exact h
  | unsuitable h => cases hx

theorem of_error {x : Except SettingsFault α} (h : ReadsTo suits embed default key value? x)
    {e : SettingsFault} (hx : x = .error e) :
    e = .unsuitableValue key ∧ ∃ v, value? = some v ∧ ¬suits v := by
  cases h with
  | absent => cases hx
  | present h => cases hx
  | unsuitable h =>
    cases hx
    exact ⟨rfl, _, rfl, h⟩

end ReadsTo

/-- The integers below a bound, as values. -/
def Natural (bound : Nat) (v : Value) : Prop := ∃ n : Nat, v = .integer n ∧ n < bound

theorem readsTo_naturalBelow (bound : Nat) (key : String) (default : Nat) (value? : Option Value) :
    ReadsTo (Natural bound) (fun n : Nat => .integer n) default key value?
      (naturalBelow bound key default value?) := by
  cases value? with
  | none => exact .absent
  | some v =>
    cases v with
    | integer n =>
      rw [naturalBelow]
      split_ifs with h
      · obtain ⟨m, rfl⟩ := Int.eq_ofNat_of_zero_le h.1
        exact .present ⟨m, rfl, by omega⟩
      · apply ReadsTo.unsuitable
        intro hsuits
        obtain ⟨m, hm, hlt⟩ := hsuits
        cases hm
        omega
    | _ =>
      apply ReadsTo.unsuitable
      intro hsuits
      obtain ⟨m, hm, -⟩ := hsuits
      cases hm

theorem readsTo_text (key default : String) (value? : Option Value) :
    ReadsTo (fun v => ∃ s, v = .text s) .text default key value? (text key default value?) := by
  cases value? with
  | none => exact .absent
  | some v =>
    cases v with
    | text s => exact .present ⟨s, rfl⟩
    | _ =>
      apply ReadsTo.unsuitable
      intro hsuits
      obtain ⟨s, hs⟩ := hsuits
      cases hs

theorem naturalBelow_lt {bound size default n : Nat} {key : String} {value? : Option Value}
    (h : naturalBelow bound key default value? = .ok n) (hbound : bound ≤ size)
    (hdefault : default < size) : n < size := by
  obtain ⟨hn, hsuits⟩ := (readsTo_naturalBelow bound key default value?).of_ok h
  cases value? with
  | none =>
    cases hn
    exact hdefault
  | some v =>
    obtain ⟨m, rfl, hm⟩ := hsuits v rfl
    cases hn
    omega

/-- What is read from a section into a part of the settings, where nothing is read from
a section that is not there. -/
inductive Reads {α : Type} (key : SectionKey) (valueOf : α → Setting → Value) (default : α)
    (section? : Option Value) : Except SettingsFault α → Prop
  | refused {v : Value} {name : String} (hv : section? = some v)
      (h : UnsuitableSection key v name) :
      Reads key valueOf default section? (.error (.unsuitableValue name))
  | read {a : α} (h : ∀ v name, section? = some v → ¬UnsuitableSection key v name)
      (ha : ∀ setting, setting.sectionKey = key →
        valueOf a setting = (section?.bind setting.within).getD (valueOf default setting)) :
      Reads key valueOf default section? (.ok a)

variable {section? : Option Value}

theorem Reads.of_unsuitable {α : Type} {key : SectionKey} {valueOf : α → Setting → Value}
    {default : α} {setting : Setting} {w : Value} (hkey : setting.sectionKey = key)
    (hw : section?.bind setting.within = some w) (h : ¬setting.Suits w) :
    Reads key valueOf default section? (.error (.unsuitableValue setting.name)) := by
  obtain ⟨v, hv, hw⟩ := Option.bind_eq_some_iff.mp hw
  exact .refused hv (.value hkey hw h)

theorem not_unsuitableSection {key : SectionKey} {v : Value} (hshape : v.IsSection)
    (h : ∀ (setting : Setting) (w : Value), setting.sectionKey = key →
      setting.within v = some w → setting.Suits w) (name : String) :
    ¬UnsuitableSection key v name := by
  intro hv
  cases hv with
  | shape hnot => exact hnot hshape
  | value hkey hw hnot => exact hnot (h _ _ hkey hw)

theorem sectionValues_of_not {v : Value} (h : ¬v.IsSection) (name : String) :
    sectionValues name (some v) = .error (.unsuitableValue name) := by
  cases v with
  | table | array | dateTime => exact absurd trivial h
  | _ => rfl

/-- A section gives each setting what stands for it. -/
theorem exists_sectionValues (h : ∀ v, section? = some v → v.IsSection) (name : String) :
    ∃ value, sectionValues name section? = .ok value ∧
      ∀ setting : Setting, value setting.position setting.name = section?.bind setting.within := by
  cases section? with
  | none => exact ⟨fun _ _ => none, rfl, fun _ => rfl⟩
  | some v =>
    have hv := h v rfl
    cases v with
    | table entries => exact ⟨fun _ key => entries.lookup key, rfl, fun _ => rfl⟩
    | array elements => exact ⟨fun position _ => elements[position]?, rfl, fun _ => rfl⟩
    | dateTime t => exact ⟨fun _ _ => none, rfl, fun _ => rfl⟩
    | _ => exact absurd hv id

/-- What is read from a section, if it is read from the values that stand for its settings. -/
theorem reads_of_values {α : Type} {key : SectionKey} {valueOf : α → Setting → Value} {default : α}
    {read : (Nat → String → Option Value) → Except SettingsFault α}
    (hok : ∀ value a, read value = .ok a → ∀ setting : Setting, setting.sectionKey = key →
      valueOf a setting = (value setting.position setting.name).getD (valueOf default setting) ∧
      ∀ w, value setting.position setting.name = some w → setting.Suits w)
    (herror : ∀ value e, read value = .error e → ∃ (setting : Setting) (w : Value),
      setting.sectionKey = key ∧ e = .unsuitableValue setting.name ∧
      value setting.position setting.name = some w ∧ ¬setting.Suits w) :
    Reads key valueOf default section? (sectionValues key.text section? >>= read) := by
  by_cases hshape : ∀ v, section? = some v → v.IsSection
  · obtain ⟨value, hvalue, hplaces⟩ := exists_sectionValues hshape key.text
    rw [hvalue, ok_bind]
    cases hread : read value with
    | error e =>
      obtain ⟨setting, w, hkey, he, hw, hnot⟩ := herror value e hread
      rw [he]
      exact .of_unsuitable hkey ((hplaces setting).symm.trans hw) hnot
    | ok a =>
      have ha := hok value a hread
      apply Reads.read
      · intro v name hv
        apply not_unsuitableSection (hshape v hv)
        intro setting w hkey hw
        apply (ha setting hkey).2 w
        rw [hplaces, hv]
        exact hw
      · intro setting hkey
        rw [← hplaces]
        exact (ha setting hkey).1
  · push Not at hshape
    obtain ⟨v, hv, hnot⟩ := hshape
    subst hv
    rw [sectionValues_of_not hnot, error_bind]
    exact .refused rfl (.shape hnot)

/-- How a limit is read from what stands for it. -/
def readLimit (key : LimitKey) (value? : Option Value) : Except SettingsFault Nat :=
  naturalBelow (limitBound key) key.text (({} : Limits).get key) value?

theorem readsTo_readLimit (key : LimitKey) (value? : Option Value) :
    ReadsTo (Setting.limit key).Suits (fun n : Nat => .integer n) (({} : Limits).get key) key.text
      value? (readLimit key value?) := by
  have h := readsTo_naturalBelow (limitBound key) key.text (({} : Limits).get key) value?
  cases key <;> exact h

theorem get_of_limitsOf {value : Nat → String → Option Value} {limits : Limits}
    (h : limitsOf value = .ok limits) (key : LimitKey) :
    readLimit key (value (Setting.limit key).position key.text) = .ok (limits.get key) := by
  simp only [limitsOf, bind_eq_ok_iff] at h
  obtain ⟨siteCount, hsite, fieldCount, hfield, headerLength, hheader, length, hlength, h⟩ := h
  cases h
  cases key with
  | siteCount =>
    have hlt : siteCount < UInt64.size := naturalBelow_lt hsite (by decide) (by decide)
    rw [Limits.get, UInt64.toNat_ofNat_of_lt' hlt]
    exact hsite
  | fieldCount =>
    have hlt : fieldCount < UInt32.size := naturalBelow_lt hfield (by decide) (by decide)
    rw [Limits.get, UInt32.toNat_ofNat_of_lt' hlt]
    exact hfield
  | fieldHeaderLength =>
    have hlt : headerLength < UInt32.size := naturalBelow_lt hheader (by decide) (by decide)
    rw [Limits.get, UInt32.toNat_ofNat_of_lt' hlt]
    exact hheader
  | fieldLength =>
    have hlt : length < UInt32.size := naturalBelow_lt hlength (by decide) (by decide)
    rw [Limits.get, UInt32.toNat_ofNat_of_lt' hlt]
    exact hlength

theorem exists_of_limitsOf_eq_error {value : Nat → String → Option Value} {e : SettingsFault}
    (h : limitsOf value = .error e) :
    ∃ key, readLimit key (value (Setting.limit key).position key.text) = .error e := by
  simp only [limitsOf, bind_eq_error_iff] at h
  rcases h with hsite | ⟨_, -, hfield | ⟨_, -, hheader | ⟨_, -, hlength | ⟨_, -, h⟩⟩⟩⟩
  · exact ⟨.siteCount, hsite⟩
  · exact ⟨.fieldCount, hfield⟩
  · exact ⟨.fieldHeaderLength, hheader⟩
  · exact ⟨.fieldLength, hlength⟩
  · cases h

theorem reads_limits (section? : Option Value) :
    Reads .limits (fun limits => valueOf { limits }) {} section?
      (sectionValues "limits" section? >>= limitsOf) := by
  apply reads_of_values
  · intro value limits h setting hkey
    cases setting with
    | limit key => exact (readsTo_readLimit key _).of_ok (get_of_limitsOf h key)
    | output key => cases hkey
  · intro value e h
    obtain ⟨key, hread⟩ := exists_of_limitsOf_eq_error h
    obtain ⟨he, w, hw, hnot⟩ := (readsTo_readLimit key _).of_error hread
    exact ⟨.limit key, w, rfl, he, hw, hnot⟩

theorem reads_output (section? : Option Value) :
    Reads .output (fun output => valueOf { output }) {} section?
      (sectionValues "output" section? >>= outputOf) := by
  apply reads_of_values
  · intro value output h setting hkey
    simp only [outputOf, bind_eq_ok_iff] at h
    obtain ⟨delimiter, hdelimiter, precision, hprecision, h⟩ := h
    cases h
    cases setting with
    | limit key => cases hkey
    | output key =>
      cases key with
      | delimiter => exact (readsTo_text _ _ _).of_ok hdelimiter
      | precision => exact (readsTo_naturalBelow _ _ _ _).of_ok hprecision
  · intro value e h
    simp only [outputOf, bind_eq_error_iff] at h
    rcases h with hdelimiter | ⟨_, -, hprecision | ⟨_, -, h⟩⟩
    · obtain ⟨he, w, hw, hnot⟩ := (readsTo_text _ _ _).of_error hdelimiter
      exact ⟨.output .delimiter, w, rfl, he, hw, hnot⟩
    · obtain ⟨he, w, hw, hnot⟩ := (readsTo_naturalBelow _ _ _ _).of_error hprecision
      exact ⟨.output .precision, w, rfl, he, hw, hnot⟩
    · cases h

/-- What is read from a whole document. -/
inductive Interprets (document : Document) : Except SettingsFault Settings → Prop
  | refused {name : String} (h : Unsuitable document name) :
      Interprets document (.error (.unsuitableValue name))
  | read {s : Settings} (h : ∀ name, ¬Unsuitable document name)
      (hs : ∀ setting, s.valueOf setting =
        (valueAt document setting).getD (({} : Settings).valueOf setting)) :
      Interprets document (.ok s)

variable {document : Document}

/-- Two parts that are each read from their section make the settings of the document. -/
theorem interprets_of_reads {limits : Limits} {output : OutputForm}
    (hlimits : Reads .limits (fun limits => valueOf { limits }) {} (document.lookup "limits")
      (.ok limits))
    (houtput : Reads .output (fun output => valueOf { output }) {} (document.lookup "output")
      (.ok output)) : Interprets document (.ok { limits, output }) := by
  cases hlimits with
  | read hlimits hlimit =>
    cases houtput with
    | read houtput hform =>
      apply Interprets.read
      · intro name h
        obtain ⟨key, v, hv, hunsuitable⟩ := h
        cases key with
        | limits => exact hlimits v name hv hunsuitable
        | output => exact houtput v name hv hunsuitable
      · intro setting
        cases setting with
        | limit key => exact hlimit (.limit key) rfl
        | output key =>
          have hvalue := hform (.output key) rfl
          cases key <;> exact hvalue

theorem ofDocument_eq (document : Document) :
    ofDocument document =
      (sectionValues "limits" (document.lookup "limits") >>= limitsOf) >>= fun limits =>
        (sectionValues "output" (document.lookup "output") >>= outputOf) >>= fun output =>
          .ok { limits, output } := by
  simp only [ofDocument, bind_assoc]
  rfl

theorem interprets_ofDocument (document : Document) :
    Interprets document (ofDocument document) := by
  have hlimits := reads_limits (document.lookup "limits")
  have houtput := reads_output (document.lookup "output")
  rw [ofDocument_eq]
  generalize sectionValues "limits" (document.lookup "limits") >>= limitsOf = limits? at hlimits
  generalize sectionValues "output" (document.lookup "output") >>= outputOf = output? at houtput
  cases limits? with
  | error e =>
    cases hlimits with
    | refused hv h => exact .refused ⟨.limits, _, hv, h⟩
  | ok limits =>
    cases output? with
    | error e =>
      cases houtput with
      | refused hv h => exact .refused ⟨.output, _, hv, h⟩
    | ok output => exact interprets_of_reads hlimits houtput

end Settings

end LatticeSeries
