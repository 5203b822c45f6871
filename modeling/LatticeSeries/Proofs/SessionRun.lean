import Mathlib.Tactic.SplitIfs
import LatticeSeries.Session
import LatticeSeries.Proofs.Arguments
import LatticeSeries.Proofs.TableText

/-!
# What a session leaves behind

Whatever can go wrong in a session goes wrong before its first line of output.
Each part of a session that comes before is a computation that may fail, wrapped
by `Session.ofExcept`; after it only lines are printed. So a session leaves behind
either a whole report or a message, and it is what `Command.run` says.
-/
namespace LatticeSeries

open Command (Files)

namespace Streams

@[simp] theorem append_empty (s : Streams) (channel : Channel) : s.append "" channel = s := by
  cases channel <;> simp [append]

theorem append_append (s : Streams) (a b : String) (channel : Channel) :
    (s.append a channel).append b channel = s.append (a ++ b) channel := by
  cases channel <;> simp [append, String.append_assoc]

end Streams

namespace Session

variable {α β : Type}

/-- Lines that are written one by one come behind what was there. -/
theorem forM_writeLine (channel : Channel) (lines : List String) (s : Streams) :
    forM lines (writeLine channel) s = .ok () (s.append (Report.unlines lines) channel) := by
  induction lines generalizing s with
  | nil =>
    rw [Report.unlines_nil, Streams.append_empty]
    rfl
  | cons line lines ih =>
    rw [List.forM_cons, Report.unlines_cons, ← Streams.append_append]
    exact ih (s.append (line ++ "\n") channel)

theorem refuse_eq (fault : CommandFault) (s : Streams) :
    (refuse fault : Session α) s = .error 1 (s.append (Report.unlines fault.lines) .errors) := by
  change EStateM.bind (forM fault.lines (writeLine .errors)) (fun _ => throw 1) s = _
  rw [EStateM.bind, forM_writeLine]
  rfl

/-- Nothing follows a refusal. -/
theorem refuse_bind (fault : CommandFault) (f : α → Session β) :
    (refuse fault >>= f) = refuse fault := by
  funext s
  change EStateM.bind (refuse fault) f s = _
  rw [EStateM.bind, refuse_eq, refuse_eq]

@[simp] theorem ofExcept_ok (a : α) : ofExcept (.ok a) = (pure a : Session α) := rfl

@[simp] theorem ofExcept_error (fault : CommandFault) :
    ofExcept (.error fault) = (refuse fault : Session α) := rfl

theorem ofExcept_bind (x : Except CommandFault α) (f : α → Except CommandFault β) :
    ofExcept (x >>= f) = (ofExcept x >>= fun a => ofExcept (f a)) := by
  cases x with
  | error fault => exact (refuse_bind fault _).symm
  | ok a => exact (pure_bind a fun a => ofExcept (f a)).symm

theorem findIdx?_eq_none {args : List String} (h : "--config" ∉ args) :
    args.findIdx? (· = "--config") = none := by
  rw [List.findIdx?_eq_none_iff]
  intro arg harg
  exact decide_eq_false fun heq => h (heq ▸ harg)

theorem findIdx?_eq_some {before : List String} (h : "--config" ∉ before) (after : List String) :
    (before ++ "--config" :: after).findIdx? (· = "--config") = some before.length := by
  rw [List.findIdx?_append, findIdx?_eq_none h]
  simp [List.findIdx?_cons]

/-- Finding the option and removing two arguments is splitting the arguments. -/
theorem readSettings_eq (files : Files) (args : List String) (parse : Toml.Parse) :
    readSettings files args parse = ofExcept (do
      let (path?, rest) ← Command.splitSettings args
      let settings ← Command.settingsAt files parse path?
      return (settings, rest)) := by
  rcases Command.splits_or_dangling args with ⟨path?, rest, hsplits⟩ | hdangling
  · rw [hsplits.splitSettings_eq, ok_bind]
    cases hsplits with
    | without absent =>
      rw [readSettings, findIdx?_eq_none absent]
      rfl
    | @option before after path first =>
      have hpath : (before ++ "--config" :: path :: after)[before.length + 1]? = some path := by
        simp
      have herase : ((before ++ "--config" :: path :: after).eraseIdx
          (before.length + 1)).eraseIdx before.length = before ++ after := by
        rw [List.eraseIdx_append_of_length_le (Nat.le_succ _),
          List.eraseIdx_append_of_length_le (Nat.le_refl _)]
        simp
      simp only [readSettings, findIdx?_eq_some first, hpath, herase, ofExcept_bind]
      rfl
  · rw [hdangling.splitSettings_eq]
    rcases hdangling with ⟨before, rfl, first⟩
    have hend : (before ++ ["--config"])[before.length + 1]? = none := by simp
    simp only [readSettings, findIdx?_eq_some first, hend]
    rfl

theorem openFile_eq (files : Files) (limits : Limits) (path : String) :
    openFile files limits path = ofExcept (Command.seriesAt files limits path) := by
  unfold openFile Command.seriesAt
  cases files path <;> rfl

/-- The columns of a record hold the elements of every site. -/
theorem siteValues_eq (site : Site) : siteValues site = pure (site.values.map Prod.snd) := by
  rw [Site.values, List.map_map]
  apply mapM_eq_pure
  intro c hc
  rw [Column.slice?, if_pos (site.record.le_size_data hc site.index.isLt)]
  rfl

/-- Cells that are put to the end of a line one after the other are joined with it. -/
theorem foldl_pushCell (delimiter line : String) (cells : List String) :
    cells.foldl (pushCell delimiter) line = delimiter.intercalate (line :: cells) := by
  induction cells generalizing line with
  | nil => exact String.intercalate_singleton.symm
  | cons cell cells ih =>
    rw [List.foldl_cons, ih]
    rfl

theorem pushNames_eq (delimiter line : String) (c : Column) :
    pushNames delimiter line c = (Report.columnNames c).foldl (pushCell delimiter) line := by
  unfold pushNames Report.columnNames
  split
  · rfl
  · rw [List.foldl_map]

theorem headLine_eq (delimiter : String) (r : Record) :
    headLine delimiter r = delimiter.intercalate (Report.tableHead r) := by
  have hnames : pushNames delimiter =
      fun line c => (Report.columnNames c).foldl (pushCell delimiter) line := by
    funext line c
    exact pushNames_eq delimiter line c
  have hfirst : s!"id{delimiter}x{delimiter}y{delimiter}z{delimiter}i{delimiter}j{delimiter}k" =
      ["x", "y", "z", "i", "j", "k"].foldl (pushCell delimiter) "id" := rfl
  rw [headLine, hnames, ← List.foldl_flatMap, hfirst, ← List.foldl_append, foldl_pushCell,
    Report.tableHead, ← List.cons_append]

theorem pushValues_eq (form : OutputForm) (line : String) (v : Values) :
    pushValues form line v =
      (v.toDoubles.map (·.toFixed form.precision)).foldl (pushCell form.delimiter) line := by
  rw [pushValues, List.foldl_map]

/-- The cells of a site behind its identifier, up to its lattice coordinate. -/
def placeCells (form : OutputForm) (site : Site) : List String :=
  site.place.position.toList.map (·.toFixed form.precision) ++ site.place.grid.toList.map toString

theorem placeLine_eq (form : OutputForm) (site : Site) :
    placeLine form site =
      (placeCells form site).foldl (pushCell form.delimiter) (toString site.id) := by
  rcases hplace : site.place with ⟨⟨i, j, k⟩, ⟨x, y, z⟩⟩
  simp only [placeLine, placeCells, hplace]
  rfl

theorem siteLine_eq (form : OutputForm) (site : Site) :
    siteLine form site =
      pure (form.delimiter.intercalate (Report.tableRow form.precision site)) := by
  have hvalues : pushValues form = fun line v =>
      (v.toDoubles.map (·.toFixed form.precision)).foldl (pushCell form.delimiter) line := by
    funext line v
    exact pushValues_eq form line v
  have hrow : Report.tableRow form.precision site = toString site.id :: (placeCells form site ++
      (site.values.map Prod.snd).flatMap fun v => v.toDoubles.map (·.toFixed form.precision)) := by
    rw [List.flatMap_map, placeCells, List.append_assoc]
    rfl
  rw [siteLine, siteValues_eq, pure_bind, hvalues, ← List.foldl_flatMap, placeLine_eq,
    ← List.foldl_append, foldl_pushCell, hrow]

/-- Lines that grow cell by cell are the lines of the table. -/
theorem dump_eq (form : OutputForm) (series : Series) (timeStep : UInt64) :
    dump form series timeStep =
      (ofExcept ((series.lookupByTimeStep timeStep).mapError CommandFault.lookup) >>=
        fun record => forM (Report.table form record) (writeLine .output)) := by
  rw [dump]
  congr 1
  funext record
  rw [Report.table, List.map_cons, List.forM_cons, List.forM_map, List.forM_map, headLine_eq]
  simp only [siteLine_eq, pure_bind]

theorem outcome_dump {form : OutputForm} {series : Series} {timeStep : UInt64} {r : Record}
    (h : series.lookupByTimeStep timeStep = .ok r) :
    outcome (dump form series timeStep) = ⟨0, Report.unlines (Report.table form r), ""⟩ := by
  have hlookup : (series.lookupByTimeStep timeStep).mapError CommandFault.lookup = .ok r :=
    mapError_eq_ok_iff.mpr h
  rw [dump_eq, hlookup, ofExcept_ok, pure_bind, outcome, forM_writeLine]
  simp [Streams.append]

theorem perform_eq (form : OutputForm) (series : Series) (name : String) (args : List String) :
    perform form series name args =
      (ofExcept (Command.report form series name args) >>=
        fun lines => forM lines (writeLine .output)) := by
  unfold perform Command.report
  split_ifs
  · rfl
  · rw [Report.times, ofExcept_ok, pure_bind, List.forM_map]
  · cases args with
    | nil => exact (refuse_bind _ _).symm
    | cons text more =>
      simp only [dump_eq, ofExcept_bind, bind_assoc]
      rfl
  · exact (refuse_bind _ _).symm

theorem run_eq (files : Files) (args : List String) (parse : Toml.Parse) :
    run files args parse =
      (ofExcept (Command.lines files args parse) >>= fun lines =>
        forM lines (writeLine .output)) := by
  rw [run, readSettings_eq, Command.lines]
  simp only [ofExcept_bind, bind_assoc]
  congr 1
  funext parts
  congr 1
  funext settings
  rcases parts with ⟨path?, _ | ⟨name, _ | ⟨path, more⟩⟩⟩
  · exact (refuse_bind CommandFault.usage fun lines => forM lines (writeLine .output)).symm
  · exact (refuse_bind CommandFault.usage fun lines => forM lines (writeLine .output)).symm
  · simp only [ofExcept_bind, bind_assoc, openFile_eq, perform_eq]
    rfl

/-- A session ends with everything in place or without any output. -/
theorem outcome_run (files : Files) (args : List String) (parse : Toml.Parse) :
    outcome (run files args parse) = Command.run files args parse := by
  rw [run_eq, Command.run]
  cases Command.lines files args parse with
  | error fault =>
    rw [ofExcept_error, refuse_bind, outcome, refuse_eq]
    simp [Streams.append]
  | ok lines =>
    rw [ofExcept_ok, pure_bind, outcome, forM_writeLine]
    simp [Streams.append]

end Session

end LatticeSeries
