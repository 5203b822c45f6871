import LatticeSeries.Proofs.CommandRun

/-!
# The place of the settings option

A session takes the settings option and its path out of the arguments before it looks
at any of them, so where among the other arguments the two stand makes no difference,
not even when they are the last ones or when there are too few others. A session
learns nothing from the option but the settings: if these are the defaults, it is the
session without the option.
-/
namespace LatticeSeries.Command

/-- The arguments with the settings option and its path at a place among them. -/
def insertOption (args : List String) (place : Nat) (path : String) : List String :=
  args.take place ++ "--config" :: path :: args.drop place

variable {files : Files} {parse : Toml.Parse} {args args' rest : List String} {path : String}

theorem splits_insertOption (absent : "--config" ∉ args) (place : Nat) (path : String) :
    Splits (insertOption args place path) (some path) args := by
  have first : "--config" ∉ args.take place := fun h => absent (List.mem_of_mem_take h)
  have hsplits : Splits (insertOption args place path) (some path)
      (args.take place ++ args.drop place) := .option first
  rwa [List.take_append_drop] at hsplits

/-- Finding the option and removing its path and itself, in this order, leaves the
arguments among which the two were put. -/
theorem readSettings_insertOption (absent : "--config" ∉ args) (place : Nat) (path : String) :
    Session.readSettings files (insertOption args place path) parse =
      Session.ofExcept
        ((settingsAt files parse (some path)).map fun settings => (settings, args)) := by
  rw [Session.readSettings_eq, (splits_insertOption absent place path).splitSettings_eq, ok_bind]
  rfl

theorem readSettings_of_notMem (absent : "--config" ∉ args) :
    Session.readSettings files args parse = Session.ofExcept (.ok ({}, args)) := by
  rw [Session.readSettings_eq, (Splits.without absent).splitSettings_eq, ok_bind]
  rfl

/-- What a session does after it has read its settings depends on nothing but the
settings and the other arguments. -/
theorem run_congr
    (h : Session.readSettings files args parse = Session.readSettings files args' parse) :
    Session.run files args parse = Session.run files args' parse := by
  rw [Session.run, Session.run, h]

/-- The option has no place of its own: under default settings it might as well be absent,
and a session that has ended leaves what the command comes to. -/
structure PlaceFree (files : Files) (parse : Toml.Parse) (args : List String) (path : String) :
    Prop where
  session_eq : ∀ i j, Session.run files (insertOption args i path) parse =
    Session.run files (insertOption args j path) parse
  session_default : Settings.ofFile (files path) parse = .ok {} →
    ∀ i, Session.run files (insertOption args i path) parse = Session.run files args parse
  run_eq : ∀ i j, run files (insertOption args i path) parse =
    run files (insertOption args j path) parse
  run_default : Settings.ofFile (files path) parse = .ok {} →
    ∀ i, run files (insertOption args i path) parse = run files args parse
  outcome_eq : ∀ args', Session.outcome (Session.run files args' parse) = run files args' parse

/-- For every place of the option a session is the same, and under default settings it
is the session without the option. -/
theorem run_insertOption (files : Files) (parse : Toml.Parse) (absent : "--config" ∉ args)
    (path : String) : PlaceFree files parse args path := by
  have hplace : ∀ i j, Session.run files (insertOption args i path) parse =
      Session.run files (insertOption args j path) parse := by
    intro i j
    apply run_congr
    rw [readSettings_insertOption absent, readSettings_insertOption absent]
  have hdefault : Settings.ofFile (files path) parse = .ok {} →
      ∀ i, Session.run files (insertOption args i path) parse = Session.run files args parse := by
    intro hsettings i
    apply run_congr
    rw [readSettings_insertOption absent, readSettings_of_notMem absent, settingsAt, hsettings]
    rfl
  refine ⟨hplace, hdefault, ?_, ?_, fun _ => Session.outcome_run files _ parse⟩
  · intro i j
    rw [← Session.outcome_run, ← Session.outcome_run, hplace i j]
  · intro hsettings i
    rw [← Session.outcome_run, ← Session.outcome_run, hdefault hsettings i]

/-- The sample, and an empty settings file under the name of the option. -/
def oddFiles : Files := fun path => if path = "--config" then some [] else sampleFiles path

theorem run_insertOption_odd :
    let parse := Toml.Document.parse?
    "--config" ∉ ["times", "flow.xtr"] ∧ Settings.ofFile (oddFiles "--config") parse = .ok {} ∧
      run oddFiles ["--config", "--config", "times", "flow.xtr"] parse =
        run oddFiles ["times", "--config", "--config", "flow.xtr"] parse ∧
      run oddFiles ["times", "flow.xtr", "--config", "--config"] parse =
        run oddFiles ["times", "flow.xtr"] parse := by
  intro parse
  have habsent : "--config" ∉ ["times", "flow.xtr"] := by decide
  have hsettings : Settings.ofFile (oddFiles "--config") parse = .ok {} := rfl
  have hfree := run_insertOption oddFiles parse habsent "--config"
  exact ⟨habsent, hsettings, hfree.run_eq 0 1, hfree.run_default hsettings 2⟩

end LatticeSeries.Command
