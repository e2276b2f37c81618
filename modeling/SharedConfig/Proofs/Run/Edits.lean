import SharedConfig.Proofs.Report

/-!
# SharedConfig.Proofs.Run.Edits

Runs of edits on a session, which go on after one that fails.

* `Session.after_of_clean`: a session that is left clean was not changed, neither by the edits that
  answered nothing nor by those that failed.
* `edits_are_marked`: no edit of a run, and no list of changes, changes a session without marking it.
-/

namespace SharedConfig

open SharedConfig.Action

inductive Edit where
  | upsert (k : RecordKind) (r : k.Record)
  | remove (k : RecordKind) (name : String)
  | setScalar (path : KeyPath) (value : String)
  | removeKey (path : KeyPath)
  | prune (path : KeyPath)

namespace Edit

def run : Edit → Action Bool
  | upsert k r => Action.upsert k r
  | remove k name => Action.remove k name
  | setScalar path value => Action.setScalar path value
  | removeKey path => Action.removeKey path
  | prune path => Action.prune path

def IsNamed : Edit → Prop
  | upsert k r => k.recordName r ≠ ""
  | _ => True

theorem run_truthful {e : Edit} (h : e.IsNamed) (s : Session) : Truthful e.run s := by
  cases e with
  | upsert k r => exact upsert_truthful h s
  | remove k name => exact remove_truthful k name s
  | setScalar path value => exact setScalar_truthful path value s
  | removeKey path => exact removeKey_truthful path s
  | prune path => exact prune_truthful path s

end Edit

theorem Action.Truthful.same_or_dirty {a : Action Bool} {s : Session} (h : Truthful a s) :
    (a s).2 = s ∨ (a s).2.dirty = true := by
  by_cases ha : (a s).1 = .ok true
  · exact .inr (h.marked ha)
  · exact .inl (h.unchanged ha)

namespace Session

/-- A session after some edits, whatever they answer. -/
def after (edits : List Edit) (s : Session) : Session := edits.foldl (fun t e => (e.run t).2) s

@[simp] theorem after_cons (e : Edit) (edits : List Edit) (s : Session) :
    s.after (e :: edits) = (e.run s).2.after edits := rfl

variable {edits : List Edit}

theorem after_dirty (hnamed : ∀ e ∈ edits, e.IsNamed) {s : Session} (hs : s.dirty = true) :
    (s.after edits).dirty = true := by
  induction edits generalizing s with
  | nil => exact hs
  | cons e edits ih =>
    obtain ⟨he, hrest⟩ := List.forall_mem_cons.1 hnamed
    rw [after_cons]
    rcases (Edit.run_truthful he s).same_or_dirty with hsame | hdirty
    · rw [hsame]
      exact ih hrest hs
    · exact ih hrest hdirty

theorem after_of_clean (hnamed : ∀ e ∈ edits, e.IsNamed) {s : Session}
    (hclean : (s.after edits).dirty = false) : s.after edits = s := by
  induction edits generalizing s with
  | nil => rfl
  | cons e edits ih =>
    obtain ⟨he, hrest⟩ := List.forall_mem_cons.1 hnamed
    rw [after_cons] at hclean ⊢
    rcases (Edit.run_truthful he s).same_or_dirty with hsame | hdirty
    · rw [hsame] at hclean ⊢
      exact ih hrest hclean
    · rw [after_dirty hrest hdirty] at hclean
      cases hclean

end Session

/-- Every edit of a run leaves the session as it was unless it answers that it changed something,
and then it leaves it marked; so a session that is left clean is the one that the run began with.
The same goes for changes that are made on a clean session: the report, its count and the mark
agree. -/
theorem edits_are_marked {edits : List Edit} (hnamed : ∀ e ∈ edits, e.IsNamed) (s : Session) :
    (∀ before e after, edits = before ++ e :: after → Truthful e.run (s.after before)) ∧
      ((s.after edits).dirty = false → s.after edits = s) ∧
      ∀ (cs : ChangeSet) report s', s.dirty = false → cs.run s = (.ok report, s') →
        (report.changed = true ↔ 0 < report.stepsApplied) ∧
          (report.changed = true ↔ s'.dirty = true) := by
  refine ⟨fun before e after h => ?_, Session.after_of_clean hnamed, ?_⟩
  · refine Edit.run_truthful (hnamed e ?_) _
    rw [h]
    exact List.mem_append_right before List.mem_cons_self
  · intro cs report s' hclean hrun
    refine ⟨ChangeSet.runAfter_counts (by simp) hrun, ?_⟩
    have hdirty := cs.run_tracks false s report s' (by rw [hclean, Bool.or_false]) hrun
    rw [hdirty, Bool.false_or]

/-- Edits that write what is there, fail at what is in the way, and remove and prune nothing; and a
server that is then set. -/
theorem edits_are_marked_where_nothing_changes :
    let document : Node := .mapping [
      (.string "servers", .sequence
        [.mapping [(.string "name", .string "a"), (.string "type", .string "global")]]),
      (.string "currentServer", .string "a")]
    let edits : List Edit := [.upsert .server (.new "a" .global),
      .setScalar (KeyPath.of ["currentServer", "key"] .scalar) "value", .remove .server "b",
      .setScalar currentServerPath "a", .prune (KeyPath.of ["servers"] .sequence)]
    let session : Session := .new document .empty
    (∀ e ∈ edits, e.IsNamed) ∧ session.dirty = false ∧
      Truthful (Action.remove .server "b") (session.after (edits.take 2)) ∧
      session.after edits = session ∧
      ∃ report s', ChangeSet.run [.upsertServer (.new "b" .global)] session = (.ok report, s') ∧
        report = ⟨true, 1⟩ ∧ s'.dirty = true := by
  intro document edits session
  have hnamed : ∀ e ∈ edits, e.IsNamed := by
    simp [edits, Edit.IsNamed, RecordKind.recordName, Server.new]
  have hclean : (session.after edits).dirty = false := by decide
  obtain ⟨heach, hsame, hchanges⟩ := edits_are_marked hnamed session
  refine ⟨hnamed, rfl, heach (edits.take 2) (.remove .server "b") (edits.drop 3) rfl, hsame hclean, ?_⟩
  obtain ⟨report, s', hrun, hreport⟩ : ∃ report s',
      ChangeSet.run [.upsertServer (.new "b" .global)] session = (.ok report, s') ∧
        report = ⟨true, 1⟩ := ⟨_, _, rfl, by decide⟩
  exact ⟨report, s', hrun, hreport, (hchanges _ report s' rfl hrun).2.1 (by rw [hreport])⟩

end SharedConfig
