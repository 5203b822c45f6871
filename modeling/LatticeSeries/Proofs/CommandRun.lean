import LatticeSeries.Proofs.NumeralCodec
import LatticeSeries.Proofs.SessionRun
import LatticeSeries.Proofs.TimeStepLookup

/-!
# All or nothing

A command ends with a report and exit code zero, or without a report, with exit
code one and a message. It ends with a report exactly when its arguments name a
file that opens under the settings, and a report that the file has. Of the
arguments after these nothing is read.
-/
namespace LatticeSeries

/-- A time step that an open file lists can be decoded, with all of its sites. -/
theorem Series.exists_lookupByTimeStep {limits : Limits} {path : String} {content? : Option Bytes}
    {s : Series} (h : load limits path content? = .ok s) {timeStep : UInt64}
    (hmem : timeStep ∈ s.times) :
    ∃ record, s.lookupByTimeStep timeStep = .ok record ∧ record.timeStep = timeStep ∧
      record.size = s.header.siteCount.toNat := by
  obtain ⟨bytes, hopened⟩ := exists_opened h
  obtain ⟨i, hi⟩ := mem_times_iff.mp hmem
  obtain ⟨hlt, hat⟩ := indexOfTimeStep_eq_ok_iff.mp hi
  obtain ⟨record, hrecord, hdecodes⟩ := hopened.decodesTo hlt
  rw [hopened.timeStepAt_eq hlt] at hat
  refine ⟨record, (lookupByTimeStep_of_index hi).trans hrecord, ?_, ?_⟩
  · exact hdecodes.timeStep.trans (Except.ok.inj hat)
  · rw [hdecodes.size_eq, (s.fits_frameAt i).length_rows]

theorem CommandFault.lines_ne_nil (fault : CommandFault) : fault.lines ≠ [] := by
  cases fault <;> simp [lines, usageLines]

namespace Command

/-- The settings in the file at the path, or the defaults without a path. -/
inductive Supplies (files : Files) (parse : Toml.Parse) : Option String → Settings → Prop where
  | defaults : Supplies files parse none {}
  | file {path : String} {settings : Settings}
      (valid : Settings.ofFile (files path) parse = .ok settings) :
      Supplies files parse (some path) settings

/-- The arguments ask for a report on a file, under these settings. -/
def Asks (files : Files) (parse : Toml.Parse) (args : List String) (settings : Settings)
    (name path : String) (more : List String) : Prop :=
  ∃ path?, Splits args path? (name :: path :: more) ∧ Supplies files parse path? settings

/-- An open file has the report that a name and further arguments stand for. -/
inductive Reports (s : Series) : (name : String) → (more : List String) → Prop where
  | info {more : List String} : Reports s "info" more
  | times {more : List String} : Reports s "times" more
  | dump {text : String} {more : List String} {timeStep : UInt64}
      (spelled : Numeral.Denotes text timeStep) (listed : timeStep ∈ s.times) :
      Reports s "dump" (text :: more)

variable {files : Files} {parse : Toml.Parse} {args : List String}

theorem settingsAt_eq_ok_iff {path? : Option String} {settings : Settings} :
    settingsAt files parse path? = .ok settings ↔ Supplies files parse path? settings := by
  constructor
  · intro h
    cases path? with
    | none =>
      cases h
      exact .defaults
    | some path => exact .file (mapError_eq_ok_iff.mp h)
  · intro h
    cases h with
    | defaults => rfl
    | file valid => exact mapError_eq_ok_iff.mpr valid

theorem seriesAt_eq_ok_iff {limits : Limits} {path : String} {s : Series} :
    seriesAt files limits path = .ok s ↔
      ∃ bytes, files path = some bytes ∧ Series.load limits path (some bytes) = .ok s := by
  unfold seriesAt
  cases files path with
  | none => simp
  | some bytes => simp [mapError_eq_ok_iff]

section Dump

variable {form : OutputForm} {s : Series} {text : String} {more : List String}
  {timeStep : UInt64}

theorem report_dump_of_ok (spelled : Numeral.Denotes text timeStep) {record : Record}
    (h : s.lookupByTimeStep timeStep = .ok record) :
    report form s "dump" (text :: more) = .ok (Report.table form record) := by
  change (Numeral.parse text).mapError _ >>= _ = _
  rw [Numeral.parse_eq_ok_iff.mpr spelled]
  change (s.lookupByTimeStep timeStep).mapError _ >>= _ = _
  rw [h]
  rfl

theorem report_dump_of_error (spelled : Numeral.Denotes text timeStep) {fault : Error}
    (h : s.lookupByTimeStep timeStep = .error fault) :
    report form s "dump" (text :: more) = .error (.lookup fault) := by
  change (Numeral.parse text).mapError _ >>= _ = _
  rw [Numeral.parse_eq_ok_iff.mpr spelled]
  change (s.lookupByTimeStep timeStep).mapError _ >>= _ = _
  rw [h]
  rfl

end Dump

/-- An open file gives the reports that it has. -/
theorem exists_report_iff {limits : Limits} {path : String} {content? : Option Bytes} {s : Series}
    (h : Series.load limits path content? = .ok s) {form : OutputForm} {name : String}
    {more : List String} :
    (∃ lines, report form s name more = .ok lines) ↔ Reports s name more := by
  constructor
  · rintro ⟨lines, hlines⟩
    unfold report at hlines
    split_ifs at hlines with hinfo htimes hdump
    · exact hinfo ▸ .info
    · exact htimes ▸ .times
    · cases more with
      | nil => cases hlines
      | cons text more =>
        simp only [bind_eq_ok_iff, mapError_eq_ok_iff] at hlines
        obtain ⟨timeStep, hparse, record, hlookup, -⟩ := hlines
        refine hdump ▸ .dump (Numeral.parse_eq_ok_iff.mp hparse) ?_
        by_contra hnot
        rw [Series.lookupByTimeStep_eq_error hnot] at hlookup
        cases hlookup
  · intro hreports
    cases hreports with
    | info => exact ⟨_, rfl⟩
    | times => exact ⟨_, rfl⟩
    | dump spelled listed =>
      obtain ⟨record, hrecord, -⟩ := Series.exists_lookupByTimeStep h listed
      exact ⟨_, report_dump_of_ok spelled hrecord⟩

theorem lines_of_splits {path? : Option String} {name path : String} {more : List String}
    (h : Splits args path? (name :: path :: more)) :
    lines files args parse = (do
      let settings ← settingsAt files parse path?
      let s ← seriesAt files settings.limits path
      report settings.output s name more) := by
  rw [lines, h.splitSettings_eq]
  rfl

theorem lines_of_asks {settings : Settings} {name path : String} {more : List String}
    (h : Asks files parse args settings name path more) :
    lines files args parse =
      (seriesAt files settings.limits path >>= fun s => report settings.output s name more) := by
  rcases h with ⟨path?, hsplits, hsupplies⟩
  rw [lines_of_splits hsplits, settingsAt_eq_ok_iff.mpr hsupplies, ok_bind]

theorem lines_of_load {settings : Settings} {name path : String} {more : List String}
    {bytes : Bytes} {s : Series} (h : Asks files parse args settings name path more)
    (hbytes : files path = some bytes)
    (hload : Series.load settings.limits path (some bytes) = .ok s) :
    lines files args parse = report settings.output s name more := by
  rw [lines_of_asks h, seriesAt_eq_ok_iff.mpr ⟨bytes, hbytes, hload⟩, ok_bind]

theorem asks_of_lines_eq_ok {ls : List String} (h : lines files args parse = .ok ls) :
    ∃ settings name path more, Asks files parse args settings name path more := by
  obtain ⟨⟨path?, rest⟩, hsplit, h⟩ := bind_eq_ok_iff.mp h
  obtain ⟨settings, hsettings, h⟩ := bind_eq_ok_iff.mp h
  have hsplits := splitSettings_eq_ok_iff.mp hsplit
  have hsupplies := settingsAt_eq_ok_iff.mp hsettings
  rcases rest with _ | ⟨name, _ | ⟨path, more⟩⟩
  · cases h
  · cases h
  · exact ⟨settings, name, path, more, path?, hsplits, hsupplies⟩

theorem exists_lines_iff :
    (∃ ls, lines files args parse = .ok ls) ↔
      ∃ settings name path more bytes s, Asks files parse args settings name path more ∧
        files path = some bytes ∧ Series.load settings.limits path (some bytes) = .ok s ∧
        Reports s name more := by
  constructor
  · rintro ⟨ls, hls⟩
    obtain ⟨settings, name, path, more, hasks⟩ := asks_of_lines_eq_ok hls
    rw [lines_of_asks hasks] at hls
    obtain ⟨s, hs, hreport⟩ := bind_eq_ok_iff.mp hls
    obtain ⟨bytes, hbytes, hload⟩ := seriesAt_eq_ok_iff.mp hs
    exact ⟨settings, name, path, more, bytes, s, hasks, hbytes, hload,
      (exists_report_iff hload).mp ⟨ls, hreport⟩⟩
  · rintro ⟨settings, name, path, more, bytes, s, hasks, hbytes, hload, hreports⟩
    rw [lines_of_load hasks hbytes hload]
    exact (exists_report_iff hload).mpr hreports

theorem run_of_ok {ls : List String} (h : lines files args parse = .ok ls) :
    run files args parse = ⟨0, Report.unlines ls, ""⟩ := by
  rw [run, h]

theorem run_of_error {fault : CommandFault} (h : lines files args parse = .error fault) :
    run files args parse = ⟨1, "", Report.unlines fault.lines⟩ := by
  rw [run, h]

theorem exitCode_run_eq_zero_iff :
    (run files args parse).exitCode = 0 ↔ ∃ ls, lines files args parse = .ok ls := by
  constructor
  · intro h
    cases hlines : lines files args parse with
    | error fault =>
      rw [run_of_error hlines] at h
      cases h
    | ok ls => exact ⟨ls, rfl⟩
  · rintro ⟨ls, hls⟩
    rw [run_of_ok hls]

/-- Of the arguments after the file a table reads one and the other reports none. -/
theorem report_congr {form : OutputForm} {s : Series} {name : String} {more more' : List String}
    (h : name = "dump" → more.head? = more'.head?) :
    report form s name more = report form s name more' := by
  unfold report
  by_cases hdump : name = "dump"
  · have hhead := h hdump
    rcases more with _ | ⟨text, more⟩ <;> rcases more' with _ | ⟨text', more'⟩
    · rfl
    · cases hhead
    · cases hhead
    · cases hhead
      rfl
  · rw [if_neg hdump, if_neg hdump]

/-- What a session with these arguments leaves: a report with exit code zero or a message
with exit code one, never a part of a report. The arguments behind those that a command
reads make no difference. -/
structure AllOrNothing (files : Files) (parse : Toml.Parse) (args : List String) : Prop where
  outcome_eq : Session.outcome (Session.run files args parse) = run files args parse
  ended : (run files args parse).exitCode = 0 ∧ (run files args parse).errors = "" ∨
    (run files args parse).exitCode = 1 ∧ (run files args parse).output = "" ∧
      (run files args parse).errors ≠ ""
  succeeds_iff : (run files args parse).exitCode = 0 ↔
    ∃ settings name path more bytes s, Asks files parse args settings name path more ∧
      files path = some bytes ∧ Series.load settings.limits path (some bytes) = .ok s ∧
      Reports s name more
  congr : ∀ args' path? name path more more', Splits args path? (name :: path :: more) →
    Splits args' path? (name :: path :: more') → (name = "dump" → more.head? = more'.head?) →
      run files args' parse = run files args parse
  unopened : ∀ settings name path more bytes fault, Asks files parse args settings name path more →
    files path = some bytes → Series.load settings.limits path (some bytes) = .error fault →
      run files args parse =
        ⟨1, "", "error: opening " ++ path ++ ": " ++ fault.message ++ "\n"⟩

theorem run_ended (files : Files) (args : List String) (parse : Toml.Parse) :
    (run files args parse).exitCode = 0 ∧ (run files args parse).errors = "" ∨
      (run files args parse).exitCode = 1 ∧ (run files args parse).output = "" ∧
        (run files args parse).errors ≠ "" := by
  cases hlines : lines files args parse with
  | error fault =>
    rw [run_of_error hlines]
    exact .inr ⟨rfl, rfl, Report.unlines_ne_empty fault.lines_ne_nil⟩
  | ok ls =>
    rw [run_of_ok hlines]
    exact .inl ⟨rfl, rfl⟩

theorem run_of_unopened {files : Files} {parse : Toml.Parse} {args : List String}
    {settings : Settings} {name path : String} {more : List String} {bytes : Bytes} {fault : Error}
    (hasks : Asks files parse args settings name path more) (hbytes : files path = some bytes)
    (hload : Series.load settings.limits path (some bytes) = .error fault) :
    run files args parse =
      ⟨1, "", "error: opening " ++ path ++ ": " ++ fault.message ++ "\n"⟩ := by
  have hs : seriesAt files settings.limits path = .error (.opening path fault) := by
    rw [seriesAt, hbytes]
    dsimp only
    rw [hload]
    rfl
  have hlines : lines files args parse = .error (.opening path fault) := by
    rw [lines_of_asks hasks, hs, error_bind]
  rw [run_of_error hlines, CommandFault.lines, Report.unlines_singleton]
  rfl

/-- It is decided by the arguments and the files which of the two a session leaves. -/
theorem run_all_or_nothing (files : Files) (parse : Toml.Parse) (args : List String) :
    AllOrNothing files parse args where
  outcome_eq := Session.outcome_run files args parse
  ended := run_ended files args parse
  succeeds_iff := by rw [exitCode_run_eq_zero_iff, exists_lines_iff]
  congr := by
    intro args' path? name path more more' hsplits hsplits' hhead
    have hlines : lines files args' parse = lines files args parse := by
      rw [lines_of_splits hsplits, lines_of_splits hsplits']
      simp only [report_congr hhead]
    rw [run, run, hlines]
  unopened := fun _ _ _ _ _ _ => run_of_unopened

/-- The sample is the only file. -/
def sampleFiles : Files := fun path =>
  if path = "flow.xtr" then some (Recording.sample .four).encode else none

theorem run_all_or_nothing_sample :
    (run sampleFiles ["dump", "flow.xtr", "+009", "8"] Toml.Document.parse?).exitCode = 0 ∧
      (run sampleFiles ["dump", "flow.xtr", "8"] Toml.Document.parse?).exitCode = 1 ∧
      (run sampleFiles ["dump", "flow.xtr", "8"] Toml.Document.parse?).output = "" := by
  have hwell := Recording.wellFormed_sample .four
  have hload := hwell.load_eq "flow.xtr"
  have hbytes : sampleFiles "flow.xtr" = some (Recording.sample .four).encode := if_pos rfl
  constructor
  · have hsession := run_all_or_nothing sampleFiles Toml.Document.parse?
      ["dump", "flow.xtr", "+009", "8"]
    have hasks : Asks sampleFiles Toml.Document.parse? ["dump", "flow.xtr", "+009", "8"] {} "dump"
        "flow.xtr" ["+009", "8"] := ⟨none, .without (by decide), .defaults⟩
    have hspelled : Numeral.Denotes "+009" 9 := Numeral.parse_eq_ok_iff.mp rfl
    have hlisted : (9 : UInt64) ∈ (hwell.series "flow.xtr").times := by
      rw [hwell.times_series]
      decide
    exact hsession.succeeds_iff.mpr ⟨_, _, _, _, _, _, hasks, hbytes, hload, .dump hspelled hlisted⟩
  · have hsession := run_all_or_nothing sampleFiles Toml.Document.parse? ["dump", "flow.xtr", "8"]
    have hfails :
        (run sampleFiles ["dump", "flow.xtr", "8"] Toml.Document.parse?).exitCode ≠ 0 := by
      intro hzero
      obtain ⟨settings, name, path, more, bytes, s, ⟨path?, hsplits, hsupplies⟩, hbytes', hload',
        hreports⟩ := hsession.succeeds_iff.mp hzero
      cases hsplits.splitSettings_eq
      cases hsupplies
      rw [hbytes] at hbytes'
      cases hbytes'
      rw [hload] at hload'
      cases hload'
      generalize hname : "dump" = name at hreports
      cases hreports with
      | info => exact absurd hname (by decide)
      | times => exact absurd hname (by decide)
      | dump spelled listed =>
        have hspelled : Numeral.Denotes "8" 8 := Numeral.denotes_toString 8
        rw [spelled.unique hspelled, hwell.times_series] at listed
        exact absurd listed (by decide)
    rcases hsession.ended with ⟨hzero, -⟩ | ⟨hone, houtput, -⟩
    · exact absurd hzero hfails
    · exact ⟨hone, houtput⟩

end Command

end LatticeSeries
