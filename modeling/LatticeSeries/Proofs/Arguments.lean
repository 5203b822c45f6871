import LatticeSeries.Command
import LatticeSeries.Proofs.Stages

/-!
# Arguments

Only the first settings option counts, and it takes the argument after it. What
remains keeps its order, whatever the place of the option was. Arguments that end
with that option have no reading.
-/
namespace LatticeSeries.Command

/-- The arguments consist of the path that the first settings option names, if there
is one, and of the remaining arguments. -/
inductive Splits : List String → Option String → List String → Prop where
  | without {args : List String} (absent : "--config" ∉ args) : Splits args none args
  | option {before after : List String} {path : String} (first : "--config" ∉ before) :
      Splits (before ++ "--config" :: path :: after) (some path) (before ++ after)

/-- The first settings option is the last argument. -/
def Dangling (args : List String) : Prop :=
  ∃ before, args = before ++ ["--config"] ∧ "--config" ∉ before

variable {args rest : List String} {path? : Option String}

theorem splitSettings_cons_of_ne {arg : String} (h : arg ≠ "--config") (args : List String) :
    splitSettings (arg :: args) =
      (splitSettings args).map fun (path?, args) => (path?, arg :: args) := by
  conv => lhs; unfold splitSettings
  exact if_neg h

/-- Arguments before the first option stay in front of what remains. -/
theorem splitSettings_append {before : List String} (h : "--config" ∉ before)
    (args : List String) :
    splitSettings (before ++ args) =
      (splitSettings args).map fun (path?, args) => (path?, before ++ args) := by
  induction before with
  | nil =>
    rw [List.nil_append]
    cases splitSettings args <;> rfl
  | cons arg before ih =>
    have hne : arg ≠ "--config" := fun heq => h (heq ▸ List.mem_cons_self)
    have hnot : "--config" ∉ before := fun hmem => h (List.mem_cons_of_mem arg hmem)
    rw [List.cons_append, splitSettings_cons_of_ne hne, ih hnot]
    cases splitSettings args <;> rfl

theorem Splits.splitSettings_eq (h : Splits args path? rest) :
    splitSettings args = .ok (path?, rest) := by
  cases h with
  | without absent =>
    have hsplit : splitSettings (args ++ []) = .ok (none, args ++ []) :=
      splitSettings_append absent []
    rwa [List.append_nil] at hsplit
  | option first =>
    rw [splitSettings_append first]
    rfl

theorem Dangling.splitSettings_eq (h : Dangling args) : splitSettings args = .error .usage := by
  rcases h with ⟨before, rfl, first⟩
  rw [splitSettings_append first]
  rfl

/-- Every list of arguments has a reading or ends with the option. -/
theorem splits_or_dangling (args : List String) :
    (∃ path? rest, Splits args path? rest) ∨ Dangling args := by
  by_cases hmem : "--config" ∈ args
  · obtain ⟨before, after, rfl, first⟩ := List.eq_append_cons_of_mem hmem
    cases after with
    | nil => exact .inr ⟨before, rfl, first⟩
    | cons path after => exact .inl ⟨some path, before ++ after, .option first⟩
  · exact .inl ⟨none, args, .without hmem⟩

theorem splitSettings_eq_ok_iff :
    splitSettings args = .ok (path?, rest) ↔ Splits args path? rest := by
  constructor
  · intro h
    rcases splits_or_dangling args with ⟨path?', rest', hsplits⟩ | hdangling
    · have heq := hsplits.splitSettings_eq
      rw [h] at heq
      cases heq
      exact hsplits
    · rw [hdangling.splitSettings_eq] at h
      cases h
  · exact Splits.splitSettings_eq

end LatticeSeries.Command
