import SharedConfig.Proofs.Run.Pairing
import SharedConfig.Proofs.Run.Selections

/-!
# SharedConfig.Proofs.Run.Targets

The context that is selected for a target is one for that target, until it is set for another one.

A selection is made of a context for its target (`Selection.Admits`), and a removal drops the
selections of what it removes; but an update moves no selection, so a context that is selected when
it is set for another target stays selected for the old one.

* `ForTarget.next`: one operation.
* `current_context_for_target`: the law for runs.
* `current_context_for_other_target`: a context that is set for another target while it is selected.
-/

namespace SharedConfig

open Node

/-- No operation of a run that succeeds sets the context that is selected for a target for another
one. -/
def Mutation.AllKeepTarget (t : Target) : List (StrategyTable × Mutation) → Node → Prop :=
  Along fun m root => ∀ c, m.writtenContext = some c →
    (Selection.context t).read root = some c.name → c.target = t

theorem currentContext_eq_ok_iff {t : Target} {root : Node} {c : Context} :
    currentContext t root = .ok c ↔ ∃ name, (Selection.context t).read root = some name ∧
      RecordKind.context.find name root = .ok c := by
  unfold currentContext Selection.read Selection.path
  cases root.getScalar (currentContextPath t) with
  | none => simp
  | some name =>
    cases hfind : RecordKind.context.find name root with
    | ok c' => simp [hfind]
    | error e => cases he : e.isNotFound <;> simp [hfind, he]

/-- The context that is selected for a target, if it can be read, is for that target. -/
structure ForTarget (t : Target) (root : Node) : Prop where
  keyed : root.WellKeyed
  apart : DistinctItems root
  target : ∀ c, currentContext t root = .ok c → c.target = t

namespace ForTarget

variable {t : Target} {a b : Node} {table : StrategyTable}

theorem of_same (h : ForTarget t a) (hkeyed : b.WellKeyed)
    (hc : b.collection .context = a.collection .context)
    (hread : (Selection.context t).read b = (Selection.context t).read a) : ForTarget t b := by
  refine ⟨hkeyed, ?_, fun c hcurrent => ?_⟩
  · rw [DistinctItems, contextItems_eq_of_collection hc]
    exact h.apart
  · obtain ⟨name, hname, hfind⟩ := currentContext_eq_ok_iff.1 hcurrent
    rw [hread] at hname
    rw [RecordKind.find_of_collection hc] at hfind
    exact h.target c (currentContext_eq_ok_iff.2 ⟨name, hname, hfind⟩)

/-- A context that was written: if it is the selected one, it has to be for the target. -/
theorem of_context {c : Context} (h : ForTarget t a) (hc : Upserted .context c table a b)
    (htarget : (Selection.context t).read a = some c.name → c.target = t) : ForTarget t b := by
  refine ⟨h.keyed.of_onlyUnder hc.frame (by decide), fun item hitem => ?_, fun c' hcurrent => ?_⟩
  · rcases hc.items h.apart hitem with hold | ⟨-, hdistinct, -⟩
    · exact h.apart item hold
    · exact hdistinct
  · obtain ⟨name, hname, hfind⟩ := currentContext_eq_ok_iff.1 hcurrent
    rw [hc.read] at hname
    by_cases hne : name = c.name
    · subst hne
      rw [hc.target_of_find h.apart hfind]
      exact htarget hname
    · rw [RecordKind.find_congr (hc.entity?_of_ne hne)] at hfind
      exact h.target c' (currentContext_eq_ok_iff.2 ⟨name, hname, hfind⟩)

theorem of_server {s : Server} (h : ForTarget t a) (hs : Upserted .server s table a b) :
    ForTarget t b :=
  h.of_same (h.keyed.of_onlyUnder hs.frame (by decide)) (hs.frame.collection (by decide))
    (hs.read _)

/-- A selection that is left after a removal is of a context that is left. -/
theorem of_removed {name : String} (h : ForTarget t a) (hr : Removed name a b) : ForTarget t b := by
  have hitems := hr.items .context rfl
  refine ⟨hr.document ▸ without_keyed h.keyed name, fun item hitem => ?_, fun c hcurrent => ?_⟩
  · refine h.apart item ?_
    rw [contextItems, hitems] at hitem
    rw [contextItems]
    cases hc : a.collection .context with
    | none => rw [hc] at hitem; cases hitem
    | some items =>
      rw [hc] at hitem
      exact (Entity.mem_erase.1 hitem).1
  · obtain ⟨other, hother, hfind⟩ := currentContext_eq_ok_iff.1 hcurrent
    rw [hr.selections] at hother
    split at hother
    · cases hother
    · rename_i hne
      have hname : other ≠ name := fun he => hne (he ▸ hother)
      have hfound : RecordKind.context.entity? other b = RecordKind.context.entity? other a := by
        rw [RecordKind.entity?_of_erase hitems, if_neg hname]
      rw [RecordKind.find_congr hfound] at hfind
      exact h.target c (currentContext_eq_ok_iff.2 ⟨other, hother, hfind⟩)

theorem of_onlySelection {sel : Selection} (h : ForTarget t a) (hs : OnlySelection sel a b)
    (hsel : sel = .context t → ∀ name, sel.read b = some name →
      ∃ c, RecordKind.context.find name a = .ok c ∧ c.target = t) : ForTarget t b := by
  by_cases ho : sel = .context t
  · subst ho
    refine ⟨hs.keyed h.keyed, ?_, fun c hcurrent => ?_⟩
    · rw [DistinctItems, contextItems_eq_of_collection (hs.collection _)]
      exact h.apart
    · obtain ⟨name, hname, hfind⟩ := currentContext_eq_ok_iff.1 hcurrent
      obtain ⟨c', hfind', ht⟩ := hsel rfl name hname
      rw [RecordKind.find_of_collection (hs.collection _), hfind'] at hfind
      cases hfind
      exact ht
  · exact h.of_same (hs.keyed h.keyed) (hs.collection _) (hs.others _ (Ne.symm ho))

theorem step {m : Mutation} (hs : Step table m a b)
    (hm : ∀ c, m.writtenContext = some c → (Selection.context t).read a = some c.name →
      c.target = t)
    (h : ForTarget t a) : ForTarget t b := by
  cases hs with
  | options _ hu =>
    exact h.of_same (h.keyed.of_onlyUnder hu (by decide)) (hu.collection (by decide))
      (hu.read (by simp [Selection.topKey]))
  | context _ hc => exact h.of_context hc (hm _ rfl)
  | cluster _ hc hserver => exact (h.of_context hc (hm _ rfl)).of_server hserver
  | server hserver hc =>
    refine (h.of_server hserver).of_context hc fun hread => hm _ rfl ?_
    rw [hserver.read] at hread
    exact hread
  | removeContext _ =>
    rw [dropContext_eq h.keyed]
    exact h.of_removed (removed_without h.keyed _)
  | removeServer _ =>
    rw [dropServer_eq h.keyed]
    exact h.of_removed (removed_without h.keyed _)
  | select hname honly hread =>
    refine h.of_onlySelection honly fun ho other hother => ?_
    subst ho
    rw [hread] at hother
    cases hother
    exact hname
  | unselect =>
    refine h.of_onlySelection (dropSelection_onlySelection _ a) fun _ other hother => ?_
    rw [read_dropSelection h.keyed] at hother
    cases hother

theorem steps {m : Mutation} (hs : Steps table m a b) (hm : m.writtenContext = none)
    (h : ForTarget t a) : ForTarget t b := by
  refine hs.keeps (fun hstep ha => ha.step hstep fun c hc => ?_) h
  rw [hm] at hc
  cases hc

theorem setContext {c : Context} {current : Bool} {report : Report} {s s' : Session}
    (hrun : (ChangeSet.setContext c current).run s = (.ok report, s')) (h : ForTarget t s.root)
    (htarget : (Selection.context t).read s.root = some c.name → c.target = t) :
    ForTarget t s'.root := by
  obtain ⟨u, hwritten, hselected⟩ := setContext_eq_ok hrun
  have hu : ForTarget t u.root := by
    rcases hwritten with ⟨-, hc⟩ | ⟨-, written, hc, hserver⟩
    · exact h.of_context hc htarget
    · exact (h.of_context hc htarget).of_server hserver
  -- from here on nothing is written but selections, and those are made of what is there
  rcases hselected with ⟨-, rfl⟩ | ⟨-, changed, hselect⟩
  · exact hu
  · have hsteps : Steps s.strategies (.setCurrentContext c.name) u.root s'.root :=
      setCurrentContext_steps c.name u changed s' hselect .refl
    exact hu.steps hsteps rfl

theorem setServer {server : Server} {current : Bool} {report : Report} {s s' : Session}
    (hrun : (ChangeSet.setServer server current).run s = (.ok report, s')) (h : ForTarget t s.root)
    (htarget : (Selection.context t).read s.root = some server.name →
      (Context.ofServer server).target = t) :
    ForTarget t s'.root := by
  obtain ⟨u, written, hserver, hc, hselected⟩ := setServer_eq_ok hrun
  have hu : ForTarget t u.root := by
    refine (h.of_server hserver).of_context hc fun hread => htarget ?_
    rw [hserver.read] at hread
    exact hread
  rcases hselected with ⟨-, rfl⟩ | ⟨-, changed, hselect⟩
  · exact hu
  · have hsteps : Steps s.strategies (.setCurrentServer server.name) u.root s'.root :=
      setCurrentServer_steps server.name u changed s' hselect .refl
    exact hu.steps hsteps rfl

theorem next {m : Mutation} (hm : m.IsOperation) {root : Node}
    (hwritten : (m.applyTo table root).isOk = true → ∀ c, m.writtenContext = some c →
      (Selection.context t).read root = some c.name → c.target = t)
    (h : ForTarget t root) : ForTarget t (m.next table root) := by
  rcases m.next_cases table root with hnext | ⟨answer, s, hrun, happly, hnext⟩
  · rw [hnext]
    exact h
  · rw [hnext]
    have hok : (m.applyTo table root).isOk = true := by rw [happly]; rfl
    cases hw : m.writtenContext with
    | none => exact h.steps (Mutation.run_steps hm hrun) hw
    | some c =>
      have htarget := hwritten hok c hw
      cases m with
      | setContext c' current =>
        cases hw
        obtain ⟨report, hset, -⟩ := Action.map_eq_ok.1 hrun
        exact ForTarget.setContext hset h htarget
      | setServer server current =>
        cases hw
        obtain ⟨report, hset, -⟩ := Action.map_eq_ok.1 hrun
        exact ForTarget.setServer hset h htarget
      | _ => cases hw

theorem nextAll {ms : List (StrategyTable × Mutation)} (hms : ∀ m ∈ ms, m.2.IsOperation)
    {root : Node} (hkeep : Mutation.AllKeepTarget t ms root) (h : ForTarget t root) :
    ForTarget t (Mutation.nextAll ms root) :=
  Mutation.nextAll_along (fun m hm _ hwritten ha => ha.next (hms m hm) hwritten) hkeep h

end ForTarget

/-- The context that is selected for a target is for that target, from any point of a run from the
empty document where that is so, as long as it is set for no other one. -/
theorem current_context_for_target {before after : List (StrategyTable × Mutation)}
    (hbefore : ∀ m ∈ before, m.2.IsOperation) (hafter : ∀ m ∈ after, m.2.IsOperation) {t : Target}
    (hstart : ∀ c, currentContext t (Mutation.nextAll before (.mapping [])) = .ok c → c.target = t)
    (hkeep : Mutation.AllKeepTarget t after (Mutation.nextAll before (.mapping []))) {c : Context}
    (h : currentContext t (Mutation.nextAll (before ++ after) (.mapping [])) = .ok c) :
    c.target = t := by
  have hkeyed : (Mutation.nextAll before (.mapping [])).WellKeyed :=
    (Mutation.nextAll_induction SelectionsResolve.step hbefore selectionsResolve_empty).keyed
  have hapart : DistinctItems (Mutation.nextAll before (.mapping [])) :=
    (Mutation.nextAll_induction PairedApart.step hbefore pairedApart_empty).apart
  have hend := ForTarget.nextAll hafter hkeep ⟨hkeyed, hapart, hstart⟩
  rw [Mutation.nextAll_append] at h
  exact hend.target c h

/-- A selected context that is set for another target stays selected, until it is set for the first
one again. -/
theorem current_context_for_target_again :
    let before : List (StrategyTable × Mutation) :=
      [(.empty, .setContext (.new "a" .kubernetes) true),
        (.empty, .setContext (.new "a" .tanzu) false),
        (.empty, .setContext (.new "a" .kubernetes) false)]
    let after : List (StrategyTable × Mutation) :=
      [(.empty, .setServer (.new "a" .managementCluster) false),
        (.empty, .setContext (.new "b" .tanzu) true)]
    let document := Mutation.nextAll before (.mapping [])
    (∀ m ∈ before, m.2.IsOperation) ∧ (∀ m ∈ after, m.2.IsOperation) ∧
      (∀ c, currentContext .kubernetes document = .ok c → c.target = .kubernetes) ∧
      Mutation.AllKeepTarget .kubernetes after document ∧
      ∃ c, currentContext .kubernetes (Mutation.nextAll (before ++ after) (.mapping [])) = .ok c ∧
        c.target = .kubernetes := by
  intro before after document
  have hbefore : ∀ m ∈ before, m.2.IsOperation := by simp [before, Mutation.IsOperation]
  have hafter : ∀ m ∈ after, m.2.IsOperation := by simp [after, Mutation.IsOperation]
  have hstart : ∀ c, currentContext .kubernetes document = .ok c → c.target = .kubernetes := by
    intro c hc
    cases hc
    rfl
  have hkeep : Mutation.AllKeepTarget .kubernetes after document := by
    refine ⟨?_, ?_, trivial⟩
    · rintro - c ⟨⟩ -
      rfl
    · rintro - c ⟨⟩ hread
      exact absurd hread (by decide)
  obtain ⟨c, hc⟩ : ∃ c, currentContext .kubernetes
      (Mutation.nextAll (before ++ after) (.mapping [])) = .ok c := ⟨_, rfl⟩
  exact ⟨hbefore, hafter, hstart, hkeep, c, hc,
    current_context_for_target hbefore hafter hstart hkeep hc⟩

theorem current_context_for_other_target :
    let operations : List (StrategyTable × Mutation) :=
      [(.empty, .setContext (.new "a" .kubernetes) true),
        (.empty, .setContext (.new "a" .tanzu) false)]
    (∀ m ∈ operations, m.2.IsOperation) ∧
      ∃ c, currentContext .kubernetes (Mutation.nextAll operations (.mapping [])) = .ok c ∧
        c.target = .tanzu := by
  intro operations
  exact ⟨by simp [operations, Mutation.IsOperation], _, rfl, rfl⟩

end SharedConfig
