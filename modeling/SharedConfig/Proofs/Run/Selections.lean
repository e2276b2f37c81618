import SharedConfig.Proofs.Run

/-!
# SharedConfig.Proofs.Run.Selections

No selection dangles along a run: what is selected is the name of a record that is there.

Updates rename nothing and drop nothing, so the names in a collection only grow with them; a
selection is made only of a name that was found; and a removal drops the selections of its name
together with the records.

* `SelectionsResolve.step`: one step.
* `selections_resolve_along_runs`: the law for every run.
-/

namespace SharedConfig

open Node

/-- Every selection is of a record that is there. -/
structure SelectionsResolve (root : Node) : Prop where
  keyed : root.WellKeyed
  resolve : ∀ (sel : Selection) (name : String), sel.read root = some name →
    name ∈ sel.kind.names root

namespace SelectionsResolve

variable {a b : Node}

/-- A change under a key that neither the selections nor their records are under. -/
theorem of_onlyUnder {key : String} (h : SelectionsResolve a) (hu : OnlyUnder key a b)
    (hkey : key ∉ ["contexts", "servers", "currentContext", "currentServer"]) :
    SelectionsResolve b := by
  simp only [List.mem_cons, List.not_mem_nil, or_false, not_or] at hkey
  refine ⟨h.keyed.of_onlyUnder hu (Ne.symm hkey.2.2.1), fun sel name hsel => ?_⟩
  have hread : sel.topKey ≠ key := by
    cases sel <;> simp [Selection.topKey, Ne.symm hkey.2.2.1, Ne.symm hkey.2.2.2]
  have hnames : sel.kind.topKey ≠ key := by
    cases sel <;> simp [Selection.kind, RecordKind.topKey, Ne.symm hkey.1, Ne.symm hkey.2.1]
  rw [hu.names hnames]
  exact h.resolve sel name (hu.read hread ▸ hsel)

/-- An update moves no selection, and takes no name away. -/
theorem of_upserted {k : RecordKind} {r : k.Record} {table : StrategyTable}
    (h : SelectionsResolve a) (hu : Upserted k r table a b) : SelectionsResolve b := by
  refine ⟨h.keyed.of_onlyUnder hu.frame (by cases k <;> simp [RecordKind.topKey]),
    fun sel name hsel => ?_⟩
  rw [hu.read sel] at hsel
  have hname := h.resolve sel name hsel
  by_cases hk : sel.kind = k
  · subst hk
    exact hu.mem_names_iff.2 (.inl hname)
  · have htop : sel.kind.topKey ≠ k.topKey := by
      cases sel <;> cases k <;> simp [Selection.kind, RecordKind.topKey] at hk ⊢
    rw [hu.frame.names htop]
    exact hname

theorem of_onlySelection {sel : Selection} (h : SelectionsResolve a) (hs : OnlySelection sel a b)
    (hsel : ∀ name, sel.read b = some name → name ∈ sel.kind.names a) : SelectionsResolve b := by
  refine ⟨hs.keyed h.keyed, fun other name hname => ?_⟩
  rw [hs.names]
  by_cases ho : other = sel
  · subst ho
    exact hsel name hname
  · exact h.resolve other name (hs.others other ho ▸ hname)

/-- The selections of a name go with its records. -/
theorem of_removed {name : String} (h : SelectionsResolve a) (hr : Removed name a b) :
    SelectionsResolve b := by
  refine ⟨hr.document ▸ without_keyed h.keyed name, fun sel other hsel => ?_⟩
  rw [hr.selections] at hsel
  split at hsel
  · cases hsel
  · rename_i hne
    have hplain : sel.kind.isPlain = false := by cases sel <;> rfl
    have hmem := h.resolve sel other hsel
    rw [RecordKind.names, hr.items _ hplain]
    rw [RecordKind.names] at hmem
    cases hc : a.collection sel.kind with
    | none => simp [hc, Entity.names] at hmem
    | some items =>
      rw [hc] at hmem
      simp only [Option.map_some, Option.getD_some, Entity.names_erase, List.mem_filter,
        decide_eq_true_eq]
      exact ⟨hmem, fun he => hne (he ▸ hsel)⟩

theorem step {table : StrategyTable} {m : Mutation} (hs : Step table m a b)
    (h : SelectionsResolve a) : SelectionsResolve b := by
  cases hs with
  | options _ hu => exact h.of_onlyUnder hu (by simp)
  | context _ hc => exact h.of_upserted hc
  | cluster _ hc hserver => exact (h.of_upserted hc).of_upserted hserver
  | server hserver hc => exact (h.of_upserted hserver).of_upserted hc
  | removeContext _ =>
    rw [dropContext_eq h.keyed]
    exact h.of_removed (removed_without h.keyed _)
  | removeServer _ =>
    rw [dropServer_eq h.keyed]
    exact h.of_removed (removed_without h.keyed _)
  | select hname honly hread =>
    refine h.of_onlySelection honly fun other hother => ?_
    rw [hread] at hother
    cases hother
    exact hname.mem_names
  | unselect =>
    refine h.of_onlySelection (dropSelection_onlySelection _ a) fun other hother => ?_
    rw [read_dropSelection h.keyed] at hother
    cases hother

end SelectionsResolve

theorem selectionsResolve_empty : SelectionsResolve (.mapping []) where
  keyed := wellKeyed_empty
  resolve sel name h := by cases sel <;> cases h

/-- No selection dangles along a run. -/
theorem selections_resolve_along_runs {ms : List (StrategyTable × Mutation)}
    (hms : ∀ m ∈ ms, m.2.IsOperation) {root : Node} (h : SelectionsResolve root) :
    SelectionsResolve (Mutation.nextAll ms root) :=
  Mutation.nextAll_induction SelectionsResolve.step hms h

/-- A selected context that is replaced and then removed leaves no selection behind. -/
theorem selections_resolve_after_removal :
    let document : Node := .mapping [
      (.string "contexts", .sequence [.mapping [(.string "name", .string "a")]]),
      (.string "currentContext", .mapping [(.string "kubernetes", .string "a")])]
    let operations : List (StrategyTable × Mutation) :=
      [(.empty, .setContext (.new "a" .tanzu) true), (.empty, .removeContext "a"),
        (.empty, .setEnv "KEY" "value")]
    (∀ m ∈ operations, m.2.IsOperation) ∧ SelectionsResolve document ∧
      SelectionsResolve (Mutation.nextAll operations document) := by
  intro document operations
  have hoperations : ∀ m ∈ operations, m.2.IsOperation := by
    simp [operations, Mutation.IsOperation]
  have hresolve : SelectionsResolve document := by
    refine ⟨⟨?_, ?_⟩, ?_⟩
    · intro m hm
      cases hm
      decide
    · intro c hc m hm
      cases hc
      cases hm
      decide
    · intro sel name hsel
      cases sel with
      | server => cases hsel
      | context t =>
        cases t with
        | kubernetes =>
          have hread : (Selection.context .kubernetes).read document = some "a" := by decide
          rw [hread] at hsel
          cases hsel
          decide
        | missionControl => cases hsel
        | tanzu => cases hsel
  exact ⟨hoperations, hresolve, selections_resolve_along_runs hoperations hresolve⟩

end SharedConfig
