import SharedConfig.Proofs.Action
import SharedConfig.Proofs.Collection
import SharedConfig.Store.Mutation

/-!
# SharedConfig.Proofs.Report

What edits answer, and what they have done.  An edit that fails or answers that it changed nothing
has changed nothing: neither on the way to the place that it is made at, nor there (`Truthful`).
What is answered is what the session is marked by (`Tracks`), through all changes and operations.

* `setScalar_unchanged`, `removeKey_unchanged`, `pruneEmpty_unchanged`: edits of a tree.
* `upsert_truthful`: an update of a collection.  It makes a collection that is absent before it looks
  at the record, so the record needs a name.
* `ChangeSet.run_tracks`, `Mutation.run_tracks`: changes, and operations.
-/

namespace SharedConfig

open Node

/-! ## Edits of a tree -/

namespace Node

theorem throughMappings_of_splitLeaf {path above : KeyPath} {key : String}
    (h : path.splitLeaf = some (above, key)) : ∀ s ∈ above, s.kind = .mapping := by
  unfold KeyPath.splitLeaf at h
  split at h
  · cases h
    intro s hs
    obtain ⟨t, -, rfl⟩ := List.mem_map.1 hs
    rfl
  · cases h

theorem writeKey_unchanged {key value : String} {n : Node}
    (h : (writeKey key value n).2 = false) : (writeKey key value n).1 = n := by
  cases hm : n.asMapping with
  | none => rw [writeKey, hm]
  | some m =>
    rw [writeKey_of_asMapping hm] at h ⊢
    split at h
    · rename_i hsame
      rw [if_pos hsame]
    · cases h

theorem dropKey_unchanged {key : String} {n : Node} (h : (dropKey key n).2 = false) :
    (dropKey key n).1 = n := by
  unfold dropKey at h ⊢
  cases hm : n.asMapping with
  | none => rfl
  | some m =>
    rw [hm] at h
    have hget : m.get? key = none := Option.isNone_iff_eq_none.1 (Option.isSome_eq_false_iff.1 h)
    dsimp only
    rw [Mapping.erase_of_absent (Mapping.get?_eq_none_iff.1 hget), setCore_asMapping hm]

theorem setScalar_unchanged {path : KeyPath} {value : String} {root : Node}
    (h : (root.setScalar path value).2 = false) : (root.setScalar path value).1 = root := by
  unfold setScalar at h ⊢
  cases hp : path.splitLeaf with
  | none => rfl
  | some p =>
    obtain ⟨above, key⟩ := p
    have habove := throughMappings_of_splitLeaf hp
    obtain ⟨after, answer, he⟩ : ∃ after answer,
        editAt true (writeKey key value) above root = (after, answer) := ⟨_, _, rfl⟩
    rw [hp] at h
    dsimp only at h ⊢
    rw [he] at h ⊢
    refine editAt_unchanged (· = false) (fun x => writeKey_unchanged)
      (KeyPath.throughMappings_of_forall habove) (fun _ s hs hidle => ?_) he fun b hb => ?_
    · -- a mapping that was made has no keys, so the text is written
      rw [habove s (List.mem_of_getLast? hs)] at hidle
      cases hidle
    · rw [hb] at h
      exact h

theorem removeKey_unchanged {path : KeyPath} {root : Node} (h : (root.removeKey path).2 = false) :
    (root.removeKey path).1 = root := by
  unfold removeKey at h ⊢
  cases hp : path.splitLeaf with
  | none => rfl
  | some p =>
    obtain ⟨above, key⟩ := p
    obtain ⟨after, answer, he⟩ : ∃ after answer,
        editAt false (dropKey key) above root = (after, answer) := ⟨_, _, rfl⟩
    rw [hp] at h
    dsimp only at h ⊢
    rw [he] at h ⊢
    refine editAt_unchanged (· = false) (fun x => dropKey_unchanged)
      (KeyPath.throughMappings_of_forall (throughMappings_of_splitLeaf hp))
      (fun hcreate => by cases hcreate) he fun b hb => ?_
    rw [hb] at h
    exact h

theorem pruneFrom_unchanged {steps : List PathStep} {root : Node}
    (h : (pruneFrom steps root).2 = false) : (pruneFrom steps root).1 = root := by
  induction steps generalizing root with
  | nil => rfl
  | cons leaf above ih =>
    rw [pruneFrom] at h ⊢
    dsimp only at h ⊢
    split at h
    · rename_i hempty
      rw [if_pos hempty]
      rw [Bool.or_eq_false_iff] at h
      rw [ih h.2]
      exact removeKey_unchanged h.1
    · rename_i hempty
      rw [if_neg hempty]

theorem pruneEmpty_unchanged {path : KeyPath} {root : Node} (h : (root.pruneEmpty path).2 = false) :
    (root.pruneEmpty path).1 = root :=
  pruneFrom_unchanged h

end Node

/-! ## Edits of a collection -/

theorem upsertInto_unchanged {table : StrategyTable} {path : String} {candidate x : Node}
    (h : (upsertInto table path candidate x).2 ≠ .ok true) :
    (upsertInto table path candidate x).1 = x := by
  unfold upsertInto at h ⊢
  cases hi : x.asSequence with
  | none => rfl
  | some items =>
    rw [hi] at h
    dsimp only at h ⊢
    cases hname : candidate.entityName with
    | none => rw [upsertEntity_of_none hname]
    | some name =>
      rw [upsertEntity_eq hname] at h ⊢
      have hchanged := Bool.eq_false_iff.2 fun hc => h (congrArg Except.ok hc)
      dsimp only
      rw [Entity.put_find? (reconcile_unchanged hchanged), setCore_asSequence hi]

theorem removeFrom_unchanged {name : String} {x : Node} (h : (removeFrom name x).2 = false) :
    (removeFrom name x).1 = x := by
  rw [removeFrom_eq] at h ⊢
  have habsent : name ∉ Entity.names (x.asSequence.getD []) := of_decide_eq_false h
  unfold eraseItems
  cases hi : x.asSequence with
  | none => rfl
  | some items =>
    rw [hi] at habsent
    dsimp only [Option.getD_some] at habsent ⊢
    rw [Entity.erase_of_absent habsent, setCore_asSequence hi]

theorem RecordKind.throughMappings_collection (k : RecordKind) : k.collection.ThroughMappings := by
  intro s hs
  cases k <;> revert s hs <;> decide

/-! ## Actions -/

theorem Session.edited_root (s : Session) : s.edited s.root false = s := by
  simp [Session.edited]

namespace Action

variable {β γ : Type}

/-- An action that fails or answers that it changed nothing leaves the session as it was, and one
that answers that it changed something leaves it marked. -/
structure Truthful (a : Action Bool) (s : Session) : Prop where
  unchanged : (a s).1 ≠ .ok true → (a s).2 = s
  marked : (a s).1 = .ok true → (a s).2.dirty = true

/-- What an action answers is what it marks the session by. -/
def Marks (a : Action Bool) : Prop := ∀ s x s', a s = (.ok x, s') → s'.dirty = (s.dirty || x)

theorem Marks.marked {a : Action Bool} (h : Marks a) {s : Session} (ha : (a s).1 = .ok true) :
    (a s).2.dirty = true := by
  rw [h s true (a s).2 (Prod.ext ha rfl), Bool.or_true]

variable {k : RecordKind}

theorem upsert_marks (r : k.Record) : Marks (upsert k r) := by
  intro s x s' h
  obtain ⟨candidate, root, -, -, rfl⟩ := exists_edit_of_upsert h
  rfl

theorem remove_marks (k : RecordKind) (name : String) : Marks (remove k name) := by
  intro s x s' h
  cases h
  rfl

theorem setScalar_marks (path : KeyPath) (value : String) : Marks (setScalar path value) := by
  intro s x s' h
  simp only [setScalar] at h
  split at h
  · rename_i hwritten
    cases h
    rw [Session.edited, hwritten]
  · rename_i hwritten
    split at h
    · cases h
      rw [Session.edited, Bool.eq_false_iff.2 hwritten]
    · cases h

theorem removeKey_marks (path : KeyPath) : Marks (removeKey path) := by
  intro s x s' h
  cases h
  rfl

theorem prune_marks (path : KeyPath) : Marks (prune path) := by
  intro s x s' h
  cases h
  rfl

/-- A record without a name is refused after its collection was made. -/
theorem upsert_truthful {r : k.Record} (hr : k.recordName r ≠ "") (s : Session) :
    Truthful (upsert k r) s := by
  refine ⟨fun h => ?_, (upsert_marks r).marked⟩
  unfold upsert at h ⊢
  cases hencode : k.encode r with
  | error e => rfl
  | ok candidate =>
    rw [hencode] at h
    dsimp only at h ⊢
    obtain ⟨after, answer, he⟩ : ∃ after answer, s.root.editAt true
        (upsertInto s.strategies k.collection.dotted candidate) k.collection = (after, answer) :=
      ⟨_, _, rfl⟩
    rw [he] at h ⊢
    have hname := RecordKind.entityName_of_encode hencode hr
    have hsame : after = s.root := by
      refine editAt_unchanged (· ≠ .ok true) (fun x => upsertInto_unchanged)
        k.throughMappings_collection (fun _ step hstep hidle => hidle ?_) he fun b hb hok => ?_
      · -- a collection that was made is empty, so the record comes in
        rw [RecordKind.kind_of_getLast?_collection hstep]
        simp [upsertInto, asSequence, upsertEntity_eq hname, Entity.find?, reconcile, Node.empty]
      · rw [hb, hok] at h
        exact h rfl
    rw [hsame]
    rcases answer with _ | (e | changed)
    · exact s.edited_root
    · exact s.edited_root
    · cases changed with
      | false => exact s.edited_root
      | true => exact absurd rfl h

theorem remove_truthful (k : RecordKind) (name : String) (s : Session) :
    Truthful (remove k name) s := by
  refine ⟨fun h => ?_, (remove_marks k name).marked⟩
  obtain ⟨after, answer, he⟩ : ∃ after answer,
      s.root.editAt false (removeFrom name) k.collection = (after, answer) := ⟨_, _, rfl⟩
  simp only [remove, he] at h ⊢
  have hidle : answer.getD false = false := Bool.eq_false_iff.2 fun hc => h (congrArg Except.ok hc)
  have hsame : after = s.root := by
    refine editAt_unchanged (· = false) (fun x => removeFrom_unchanged)
      k.throughMappings_collection (fun hcreate => by cases hcreate) he fun b hb => ?_
    rw [hb] at hidle
    exact hidle
  rw [hsame, hidle]
  exact s.edited_root

theorem setScalar_truthful (path : KeyPath) (value : String) (s : Session) :
    Truthful (setScalar path value) s := by
  refine ⟨fun h => ?_, (setScalar_marks path value).marked⟩
  cases hwritten : (s.root.setScalar path value).2 with
  | true => simp [setScalar, hwritten] at h
  | false =>
    have hsame := setScalar_unchanged hwritten
    simp only [setScalar, hwritten, hsame, s.edited_root]
    split
    · contradiction
    · split <;> rfl

theorem removeKey_truthful (path : KeyPath) (s : Session) : Truthful (removeKey path) s := by
  refine ⟨fun h => ?_, (removeKey_marks path).marked⟩
  have hidle : (s.root.removeKey path).2 = false :=
    Bool.eq_false_iff.2 fun hc => h (congrArg Except.ok hc)
  simp only [removeKey, hidle, removeKey_unchanged hidle, s.edited_root]

theorem prune_truthful (path : KeyPath) (s : Session) : Truthful (prune path) s := by
  refine ⟨fun h => ?_, (prune_marks path).marked⟩
  have hidle : (s.root.pruneEmpty path).2 = false :=
    Bool.eq_false_iff.2 fun hc => h (congrArg Except.ok hc)
  simp only [prune, hidle, pruneEmpty_unchanged hidle, s.edited_root]

/-! ## Actions made of actions -/

/-- Begun on a session in which something was changed or not so far (`done`), an action that
succeeds leaves it marked by what it answers. -/
def Tracks (changed : β → Bool) (done : Bool) (a : Action β) : Prop :=
  ∀ before s y s', s.dirty = (before || done) → a s = (.ok y, s') →
    s'.dirty = (before || changed y)

variable {changed : β → Bool} {done : Bool}

theorem Marks.tracks {a : Action Bool} (h : Marks a) : Tracks id false a := by
  intro before s y s' hs ha
  rw [h s y s' ha, hs, Bool.or_false]
  rfl

theorem Tracks.marks {a : Action Bool} (h : Tracks id false a) : Marks a :=
  fun s x s' ha => h s.dirty s x s' (Bool.or_false _).symm ha

theorem Tracks.pure {x : β} (h : changed x = done) : Tracks changed done (Pure.pure x) := by
  intro before s y s' hs hp
  obtain ⟨rfl, rfl⟩ := pure_eq_ok.1 hp
  rw [hs, h]

theorem Tracks.fail (e : StoreError) : Tracks changed done (Action.fail e : Action β) :=
  fun _ _ _ _ _ h => absurd h fail_ne_ok

/-- After an action that marks, what it answers counts as done. -/
theorem Marks.bind {a : Action Bool} (ha : Marks a) {f : Bool → Action β}
    (hf : ∀ x, Tracks changed (done || x) (f x)) : Tracks changed done (a >>= f) := by
  intro before s y s' hs h
  obtain ⟨x, u, hx, hy⟩ := bind_eq_ok.1 h
  refine hf x before u y s' ?_ hy
  rw [ha s x u hx, hs, Bool.or_assoc]

theorem Tracks.root_bind {f : Node → Action β} (hf : ∀ n, Tracks changed done (f n)) :
    Tracks changed done (Action.root >>= f) := by
  intro before s y s' hs h
  obtain ⟨n, u, hn, hy⟩ := bind_eq_ok.1 h
  obtain ⟨-, rfl⟩ := root_eq_ok.1 hn
  exact hf n before s y s' hs hy

theorem Tracks.ask_bind {query : Node → Except StoreError γ} {f : γ → Action β}
    (hf : ∀ x, Tracks changed done (f x)) : Tracks changed done (Action.ask query >>= f) := by
  intro before s y s' hs h
  obtain ⟨x, u, hx, hy⟩ := bind_eq_ok.1 h
  obtain ⟨-, rfl⟩ := ask_eq_ok.1 hx
  exact hf x before s y s' hs hy

theorem Tracks.map {a : Action β} {f : β → γ} {changed' : γ → Bool}
    (ha : Tracks changed done a) (hf : ∀ x, changed' (f x) = changed x) :
    Tracks changed' done (f <$> a) := by
  intro before s y s' hs h
  obtain ⟨x, hx, rfl⟩ := map_eq_ok.1 h
  rw [hf]
  exact ha before s x s' hs hx

theorem removeRecord_marks (k : RecordKind) (name : String) (required : Bool) :
    Marks (removeRecord k name required) := by
  refine Tracks.marks ((remove_marks k name).bind fun removed => ?_)
  split
  · exact .fail _
  · exact .pure rfl

theorem setCurrentContext_marks (name : String) : Marks (setCurrentContext name) := by
  refine Tracks.marks (.ask_bind fun c => (setScalar_marks _ name).bind fun changed =>
    .root_bind fun root => ?_)
  split
  · exact (setScalar_marks _ name).bind fun more => .pure rfl
  · exact .pure rfl

theorem setCurrentServer_marks (name : String) : Marks (setCurrentServer name) := by
  refine Tracks.marks (.root_bind fun root => ?_)
  split
  · refine (setScalar_marks _ name).bind fun changed => .root_bind fun root => ?_
    split
    · exact .ask_bind fun c => (setScalar_marks _ name).bind fun more => .pure rfl
    · exact .pure rfl
  · exact .fail _

theorem clearTargets_marks (ts : List Target) : Marks (clearTargets ts) := by
  induction ts with
  | nil => exact Tracks.marks (.pure rfl)
  | cons t ts ih =>
    exact Tracks.marks ((removeKey_marks _).bind fun removed => ih.bind fun more => .pure rfl)

theorem clearCurrentContext_marks (name : String) : Marks (clearCurrentContext name) :=
  Tracks.marks (.root_bind fun _ => (clearTargets_marks _).tracks)

theorem clearCurrentServer_marks (name : String) : Marks (clearCurrentServer name) := by
  refine Tracks.marks (.root_bind fun root => ?_)
  split
  · exact (removeKey_marks _).tracks
  · exact .pure rfl

theorem clearCurrentTarget_marks (t : Target) : Marks (clearCurrentTarget t) := by
  refine Tracks.marks (.root_bind fun root => (removeKey_marks _).bind fun removed => ?_)
  split
  · split
    · exact (clearCurrentServer_marks _).bind fun more => .pure rfl
    · exact .pure rfl
  · exact .pure rfl

theorem deleteFeature_marks (plugin key : String) : Marks (deleteFeature plugin key) := by
  refine Tracks.marks ((removeKey_marks _).bind fun removed => ?_)
  cases removed with
  | true => exact (prune_marks _).bind fun pruned => .pure rfl
  | false => exact .pure rfl

end Action

/-! ## Changes and operations -/

open SharedConfig.Action

theorem Change.run_marks (c : Change) : Marks c.run := by
  cases c with
  | upsertContext c => exact upsert_marks (k := .context) c
  | upsertServer s => exact upsert_marks (k := .server) s
  | removeContext name required => exact removeRecord_marks .context name required
  | removeServer name required => exact removeRecord_marks .server name required
  | setCurrentContext name => exact setCurrentContext_marks name
  | setCurrentServer name => exact setCurrentServer_marks name
  | clearCurrentContext name => exact clearCurrentContext_marks name
  | clearCurrentTarget t => exact clearCurrentTarget_marks t
  | clearCurrentServer name => exact clearCurrentServer_marks name

theorem ChangeSet.runAfter_tracks (cs : ChangeSet) (done : Report) :
    Tracks Report.changed done.changed (ChangeSet.runAfter done cs) := by
  induction cs generalizing done with
  | nil => exact .pure rfl
  | cons c rest ih =>
    refine c.run_marks.bind fun changed => ?_
    have hdone : (done.changed || changed) =
        (if changed then ⟨true, done.stepsApplied + 1⟩ else done : Report).changed := by
      cases changed <;> simp
    rw [hdone]
    exact ih _

theorem ChangeSet.run_tracks (cs : ChangeSet) : Tracks Report.changed false cs.run :=
  cs.runAfter_tracks ⟨false, 0⟩

/-- A report says that something was changed exactly if it counts a step. -/
theorem ChangeSet.runAfter_counts {cs : ChangeSet} {done report : Report} {s s' : Session}
    (hdone : done.changed = true ↔ 0 < done.stepsApplied)
    (h : ChangeSet.runAfter done cs s = (.ok report, s')) :
    report.changed = true ↔ 0 < report.stepsApplied := by
  induction cs generalizing done s with
  | nil =>
    obtain ⟨rfl, -⟩ := pure_eq_ok.1 h
    exact hdone
  | cons c rest ih =>
    obtain ⟨changed, u, -, hrest⟩ := bind_eq_ok.1 h
    refine ih ?_ hrest
    cases changed with
    | true => simp
    | false => exact hdone

theorem removeRecord_required {k : RecordKind} {name : String} {s s' : Session} {removed : Bool}
    (h : Action.removeRecord k name true s = (.ok removed, s')) : removed = true := by
  obtain ⟨x, u, -, h⟩ := bind_eq_ok.1 h
  cases x with
  | true => exact (pure_eq_ok.1 h).1.symm
  | false => exact absurd h fail_ne_ok

theorem Mutation.run_tracks (m : Mutation) : Tracks Outcome.isChange false m.run := by
  have hchanges : ∀ cs : ChangeSet, Tracks Outcome.isChange false (ofChanges cs) := fun cs =>
    cs.run_tracks.map fun _ => rfl
  have hanswer : ∀ {a : Action Bool}, Marks a →
      Tracks Outcome.isChange false (Outcome.changed <$> a) := fun ha =>
    ha.tracks.map fun _ => rfl
  cases m with
  | set k r => exact hanswer (upsert_marks r)
  | delete k name =>
    intro before s y s' hs h
    obtain ⟨removed, u, hremove, hdone⟩ := bind_eq_ok.1 h
    obtain ⟨rfl, rfl⟩ := pure_eq_ok.1 hdone
    rw [removeRecord_marks _ _ _ s removed u hremove, removeRecord_required hremove, hs,
      Bool.or_false]
    rfl
  | setFeature plugin key value => exact hanswer (setScalar_marks _ value)
  | deleteFeature plugin key => exact hanswer (deleteFeature_marks plugin key)
  | setEnv key value => exact hanswer (setScalar_marks _ value)
  | deleteEnv key => exact hanswer (removeKey_marks _)
  | _ => exact hchanges _

end SharedConfig
