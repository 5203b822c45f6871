import LatticeSeries.Proofs.TableAlignment

/-!
# Listing and printing agree

Whenever the time steps of a file can be listed, each line of the list names a time
step that can be printed: the number is read back as it was written, it is found in
the index, and all sites of its record come out in the order of their identifiers.
Every other number is reported as missing.
-/
namespace LatticeSeries

theorem Record.map_id_sites (r : Record) : r.sites.map Site.id = r.ids := by
  apply List.ext_getElem
  · simp [sites, ids]
  · intro i hi hi'
    simp [sites, ids, Site.id]

namespace Report

/-- The first cells of the rows are the identifiers, counted from zero. -/
theorem map_head?_tableRow {r : Record} (h : r.size < UInt64.size) (precision : Nat) :
    (r.sites.map (tableRow precision)).map List.head? =
      (List.range r.size).map fun i => some (toString i) := by
  have hcell : ∀ site : Site, (tableRow precision site).head? = some (toString site.id.toNat) :=
    fun site => rfl
  rw [← Record.map_toNat_ids h, ← Record.map_id_sites, List.map_map, List.map_map, List.map_map]
  apply List.map_congr_left
  intro site hsite
  exact hcell site

/-- The text is a table of the record: a line of column names, then a line for each
of so many sites, led by the identifiers in their order, with every element of the site
under its name. A delimiter or a name may bring line feeds of its own; otherwise these
are all lines of the text. -/
structure Tabulates (form : OutputForm) (t : FieldTable) (r : Record) (siteCount : Nat)
    (text : String) : Prop where
  text_eq : text = unlines ((tableHead r :: r.sites.map (tableRow form.precision)).map
    form.delimiter.intercalate)
  length_rows : (r.sites.map (tableRow form.precision)).length = siteCount
  identifiers : (r.sites.map (tableRow form.precision)).map List.head? =
    (List.range siteCount).map fun i => some (toString i)
  aligned : Aligned form t r (tableHead r) (r.sites.map (tableRow form.precision))
  lines_eq : OneLine form.delimiter → (∀ c ∈ r.columns, OneLine c.name) →
    lines text = (tableHead r :: r.sites.map (tableRow form.precision)).map
      form.delimiter.intercalate

theorem tabulates_table (form : OutputForm) {t : FieldTable} {r : Record} (hmatches : r.Matches t)
    (h : r.size < UInt64.size) : Tabulates form t r r.size (unlines (table form r)) where
  text_eq := rfl
  length_rows := by rw [List.length_map, Record.sites, List.length_ofFn]
  identifiers := map_head?_tableRow h form.precision
  aligned := aligned_table form hmatches h
  lines_eq := fun hdelimiter hnames => lines_unlines (oneLine_table hdelimiter hnames)

theorem toString_inj {t u : UInt64} (h : toString t = toString u) : t = u :=
  Numeral.Denotes.unique (Numeral.denotes_toString t) (h ▸ Numeral.denotes_toString u)

theorem toString_mem_times_iff {s : Series} {timeStep : UInt64} :
    toString timeStep ∈ times s ↔ timeStep ∈ s.times := by
  rw [times, List.mem_map]
  constructor
  · rintro ⟨t, ht, heq⟩
    exact toString_inj heq ▸ ht
  · intro h
    exact ⟨timeStep, h, rfl⟩

end Report

theorem CommandFault.unlines_lookup_timeStepNotFound (timeStep : UInt64) :
    Report.unlines (lookup (.timeStepNotFound timeStep)).lines =
      "error: Timestep " ++ toString timeStep ++ " not present in extraction file\n" := by
  change Report.unlines ["error: " ++ ("Timestep " ++ toString timeStep ++
    " not present in extraction file")] = _
  rw [Report.unlines_singleton, ← String.append_assoc, ← String.append_assoc,
    @String.append_assoc _ _ "\n"]
  rfl

namespace Command

section Reports

variable {files : Files} {parse : Toml.Parse} {args : List String} {settings : Settings}
  {path : String} {more : List String} {bytes : Bytes} {s : Series}

theorem run_times (h : Asks files parse args settings "times" path more)
    (hbytes : files path = some bytes)
    (hload : Series.load settings.limits path (some bytes) = .ok s) :
    run files args parse = ⟨0, Report.unlines (Report.times s), ""⟩ :=
  run_of_ok (lines_of_load h hbytes hload)

variable {timeStep : UInt64}

theorem run_dump (h : Asks files parse args settings "dump" path (toString timeStep :: more))
    (hbytes : files path = some bytes)
    (hload : Series.load settings.limits path (some bytes) = .ok s) {record : Record}
    (hrecord : s.lookupByTimeStep timeStep = .ok record) :
    run files args parse = ⟨0, Report.unlines (Report.table settings.output record), ""⟩ := by
  apply run_of_ok
  rw [lines_of_load h hbytes hload]
  exact report_dump_of_ok (Numeral.denotes_toString timeStep) hrecord

theorem run_dump_missing
    (h : Asks files parse args settings "dump" path (toString timeStep :: more))
    (hbytes : files path = some bytes)
    (hload : Series.load settings.limits path (some bytes) = .ok s)
    (hmissing : timeStep ∉ s.times) :
    run files args parse = ⟨1, "", "error: Timestep " ++ toString timeStep ++
      " not present in extraction file\n"⟩ := by
  have hlines : lines files args parse = .error (.lookup (.timeStepNotFound timeStep)) := by
    rw [lines_of_load h hbytes hload]
    exact report_dump_of_error (Numeral.denotes_toString timeStep)
      (Series.lookupByTimeStep_eq_error hmissing)
  rw [run_of_error hlines, CommandFault.unlines_lookup_timeStepNotFound]

end Reports

variable {files : Files} {parse : Toml.Parse} {args : List String}

/-- Where a command succeeds, the file that its arguments name is open. -/
theorem exists_load_of_exitCode {config? : Option String} {name path : String} {more : List String}
    (hsplits : Splits args config? (name :: path :: more))
    (h : (run files args parse).exitCode = 0) :
    ∃ settings bytes s, Supplies files parse config? settings ∧ files path = some bytes ∧
      Series.load settings.limits path (some bytes) = .ok s := by
  obtain ⟨settings, name', path', more', bytes, s, ⟨config?', hsplits', hsupplies⟩, hbytes, hload,
    -⟩ := exists_lines_iff.mp (exitCode_run_eq_zero_iff.mp h)
  have heq := hsplits'.splitSettings_eq
  rw [hsplits.splitSettings_eq] at heq
  cases heq
  exact ⟨settings, bytes, s, hsupplies, hbytes, hload⟩

/-- The arguments list the time steps of the open file, one of them in each line. With the
same settings there is a table for every number of the list, that of the record which the
number leads to, and every other number is reported as missing. -/
structure Agrees (files : Files) (parse : Toml.Parse) (config? : Option String) (path : String)
    (args : List String) (settings : Settings) (s : Series) : Prop where
  listing : run files args parse = ⟨0, Report.unlines (s.times.map toString), ""⟩
  lines_eq : Report.lines (run files args parse).output = s.times.map toString
  ascending : s.times.Pairwise (· < ·)
  printed : ∀ (timeStep : UInt64) {args' more' : List String},
    Splits args' config? ("dump" :: path :: toString timeStep :: more') →
    toString timeStep ∈ Report.lines (run files args parse).output →
    ∃ record text, s.lookupByTimeStep timeStep = .ok record ∧ record.timeStep = timeStep ∧
      run files args' parse = ⟨0, text, ""⟩ ∧
      Report.Tabulates settings.output s.table record s.header.siteCount.toNat text
  missing : ∀ (timeStep : UInt64) {args' more' : List String},
    Splits args' config? ("dump" :: path :: toString timeStep :: more') →
    toString timeStep ∉ Report.lines (run files args parse).output →
    run files args' parse = ⟨1, "", "error: Timestep " ++ toString timeStep ++
      " not present in extraction file\n"⟩

/-- Where the time steps of a file can be listed, listing and printing agree. -/
theorem run_times_dump {config? : Option String} {path : String} {more : List String}
    (hsplits : Splits args config? ("times" :: path :: more))
    (hlisted : (run files args parse).exitCode = 0) :
    ∃ settings bytes s, Supplies files parse config? settings ∧ files path = some bytes ∧
      Series.load settings.limits path (some bytes) = .ok s ∧
      Agrees files parse config? path args settings s := by
  obtain ⟨settings, bytes, s, hsupplies, hbytes, hload⟩ := exists_load_of_exitCode hsplits hlisted
  have hrun : run files args parse = ⟨0, Report.unlines (Report.times s), ""⟩ :=
    run_times ⟨config?, hsplits, hsupplies⟩ hbytes hload
  have hlines : Report.lines (run files args parse).output = Report.times s := by
    rw [hrun]
    exact Report.lines_unlines (Report.oneLine_times s)
  refine ⟨settings, bytes, s, hsupplies, hbytes, hload,
    { listing := hrun, lines_eq := hlines, ascending := s.index.ascending, printed := ?_,
      missing := ?_ }⟩
  · intro timeStep args' more' hsplits' hmem
    rw [hlines, Report.toString_mem_times_iff] at hmem
    obtain ⟨record, hrecord, htimeStep, hsize⟩ := Series.exists_lookupByTimeStep hload hmem
    have htable := Report.tabulates_table settings.output
      (Series.matches_of_lookupByTimeStep hrecord) (hsize ▸ s.header.siteCount.toNat_lt)
    exact ⟨record, _, hrecord, htimeStep,
      run_dump ⟨config?, hsplits', hsupplies⟩ hbytes hload hrecord, hsize ▸ htable⟩
  · intro timeStep args' more' hsplits' hmissing
    rw [hlines, Report.toString_mem_times_iff] at hmissing
    exact run_dump_missing ⟨config?, hsplits', hsupplies⟩ hbytes hload hmissing

theorem run_times_dump_sample :
    run sampleFiles ["times", "flow.xtr"] Toml.Document.parse? = ⟨0, "5\n9\n", ""⟩ ∧
      run sampleFiles ["dump", "flow.xtr", "9"] Toml.Document.parse? = ⟨0,
        "id,x,y,z,i,j,k,velocity[0],velocity[1]\n" ++
          "0,0.000000,0.000000,0.000000,0,0,0,1005.000000,1006.000000\n" ++
          "1,0.000000,0.000000,1.000000,0,0,1,1007.000000,1008.000000\n", ""⟩ ∧
      run sampleFiles ["dump", "flow.xtr", "8"] Toml.Document.parse? =
        ⟨1, "", "error: Timestep 8 not present in extraction file\n"⟩ := by
  have hwell := Recording.wellFormed_sample .four
  have hload := hwell.load_eq "flow.xtr"
  have htimes : (hwell.series "flow.xtr").times = [5, 9] := hwell.times_series _
  have hbytes : sampleFiles "flow.xtr" = some (Recording.sample .four).encode := if_pos rfl
  have hsplits : ∀ name more, name ≠ "--config" → "--config" ∉ more →
      Splits (name :: "flow.xtr" :: more) none (name :: "flow.xtr" :: more) := by
    intro name more hname hmore
    exact .without (by simp [hname.symm, hmore])
  have hasks : Asks sampleFiles Toml.Document.parse? ["times", "flow.xtr"] {} "times" "flow.xtr"
      [] := ⟨none, hsplits "times" [] (by decide) (by decide), .defaults⟩
  have hlisted : (run sampleFiles ["times", "flow.xtr"] Toml.Document.parse?).exitCode = 0 := by
    rw [run_times hasks hbytes hload]
  obtain ⟨settings, bytes, s, hsupplies, hbytes', hload', hagrees⟩ :=
    run_times_dump (hsplits "times" [] (by decide) (by decide)) hlisted
  cases hsupplies
  rw [hbytes] at hbytes'
  cases hbytes'
  rw [hload] at hload'
  cases hload'
  have hrun := hagrees.listing
  have hlines := hagrees.lines_eq
  rw [htimes] at hrun hlines
  have hpresent : toString (9 : UInt64) ∈ ["5", "9"] := by decide
  have habsent : toString (8 : UInt64) ∉ ["5", "9"] := by decide
  refine ⟨hrun, ?_, hagrees.missing 8 (hsplits "dump" ["8"] (by decide) (by decide)) ?_⟩
  · obtain ⟨record, text, hrecord, -, hprinted, htable⟩ :=
      hagrees.printed 9 (hsplits "dump" ["9"] (by decide) (by decide)) (hlines ▸ hpresent)
    have hsample := (Recording.lookup_sampleRecord "flow.xtr" (i := 1) rfl).2
    obtain rfl := Except.ok.inj (hsample.symm.trans hrecord)
    rw [hprinted, htable.text_eq]
    decide +kernel
  · rw [hlines]
    exact habsent

end Command

end LatticeSeries
