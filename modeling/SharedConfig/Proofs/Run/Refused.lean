import SharedConfig.Proofs.Edit.Making
import SharedConfig.Proofs.Store

/-!
# SharedConfig.Proofs.Run.Refused

Updates that fail, and closures that go on after one.

The collection is made before the record is looked at.  So a record without a name leaves an empty
collection where there was none, and the session does not say that anything was changed.  Every
other update that fails leaves the session as it was, and whoever handles the failure and goes on
writes what he would have written without the update.

* `upsert_eq_error`: what has become of a session when an update fails.
* `Store.withLock_bind_congr`: what is written depends on what a closure does from where it arrives.
* `refused_upsert`: a session after an update that failed, and a closure around it.
-/

namespace SharedConfig

open Node

/-- A collection was made where there was none: it has no items, and nothing else has changed. -/
structure MadeEmpty (k : RecordKind) (before after : Node) : Prop where
  absent : before.collection k = none
  empty : after.collection k = some []
  accessed : Accessed k.collection before after (.empty .sequence)

/-- Access to a collection finds its items, or makes it without any. -/
theorem access_collection {k : RecordKind} {root after x : Node}
    (h : access true k.collection root = (after, some x)) :
    (∃ items, x.asSequence = some items) ∧ (after = root ∨ MadeEmpty k root after) := by
  obtain ⟨y, -, rfl, hfound⟩ := editAt_some h
  obtain ⟨items, hi, -⟩ := exists_asSequence_of_found hfound
  refine ⟨⟨items, hi⟩, ?_⟩
  rcases hfound with hl | ⟨-, hl, last, hlast, rfl⟩
  · have hfixed : access true k.collection root = (root, some x) := editAt_of_fixed hl rfl
    rw [hfixed] at h
    cases h
    exact .inl rfl
  · rw [RecordKind.kind_of_getLast?_collection hlast] at h
    have haccessed := access_eq_some h
    exact .inr ⟨by rw [Node.collection, hl], collection_eq_some_iff.2 ⟨_, haccessed.found, rfl⟩,
      haccessed⟩

namespace Action

variable {β γ : Type}

/-- What an action answers or fails with, as an answer: whoever runs it goes on either way. -/
def attempt (a : Action β) : Action (Except StoreError β) := fun s => (.ok (a s).1, (a s).2)

theorem attempt_bind_of_error {a : Action β} {s u : Session} {e : StoreError}
    (h : a s = (.error e, u)) (f : Except StoreError β → Action γ) :
    (attempt a >>= f) s = f (.error e) u := by
  rw [bind_apply, attempt, h]

end Action

open SharedConfig.Action

section Refusal

variable {k : RecordKind} {r : k.Record} {s u : Session} {e : StoreError}

theorem upsertInto_of_unnamed {candidate : Node} (hname : candidate.entityName = none)
    (table : StrategyTable) (path : String) (x : Node) :
    upsertInto table path candidate x = (x, .error (match x.asSequence with
      | none => .malformed (.notSequence path)
      | some _ => .invalidArgument (.unnamed (.missingName path)))) := by
  simp only [upsertInto, upsertEntity_of_none hname]
  cases x.asSequence <;> rfl

/-- An update that fails leaves the session as it was, unless its record has no name: then it may
have made the collection. -/
theorem upsert_eq_error (h : upsert k r s = (.error e, u)) :
    u = s ∨ k.recordName r = "" ∧
      e = .invalidArgument (.unnamed (.missingName k.collection.dotted)) ∧
      MadeEmpty k s.root u.root ∧ u.dirty = s.dirty ∧ u.strategies = s.strategies := by
  by_cases hr : k.recordName r = ""
  case neg =>
    have hkept := (upsert_truthful hr s).unchanged
    rw [h] at hkept
    exact .inl (hkept (by simp))
  unfold upsert at h
  cases hencode : k.encode r with
  | error cause =>
    rw [hencode] at h
    cases h
    exact .inl rfl
  | ok candidate =>
    have hname : candidate.entityName = none := by
      rw [RecordKind.entityName_encode hencode, if_pos hr]
    have hinto := upsertInto_of_unnamed hname s.strategies k.collection.dotted
    obtain ⟨after, found, haccess⟩ : ∃ after found,
        access true k.collection s.root = (after, found) := ⟨_, _, rfl⟩
    rw [hencode] at h
    dsimp only at h
    rw [editAt_eq_access true fun x => congrArg Prod.fst (hinto x), haccess] at h
    cases found with
    | none =>
      cases h
      rw [editAt_blocked k.throughMappings_collection haccess, s.edited_root]
      exact .inl rfl
    | some x =>
      obtain ⟨⟨items, hi⟩, hafter⟩ := access_collection haccess
      simp only [Option.map_some, hinto, hi] at h
      cases h
      rcases hafter with rfl | hmade
      · exact .inl s.edited_root
      · exact .inr ⟨hr, rfl, hmade, Bool.or_false _, rfl⟩

end Refusal

/-! ## Closures -/

namespace Store

variable {β γ : Type}

/-- Under the lock of a store, an edit of its document succeeds with an answer, and leaves a
session. -/
def EditsTo (store : Store) (v : Volume) (edit : Action β) (x : β) (s : Session) : Prop :=
  ∃ id w root, v.lock store.settings.lockPath = (.ok id, w) ∧ store.read w = .ok root ∧
    edit (.new root store.strategies) = (.ok x, s)

/-- What is written depends on what a closure does from where it arrives. -/
theorem withLock_bind_congr {store : Store} {v : Volume} {before : Action β} {x : β} {s : Session}
    (h : store.EditsTo v before x s) {f g : β → Action γ} (hfg : f x s = g x s) :
    store.withLock (before >>= f) v = store.withLock (before >>= g) v := by
  obtain ⟨id, w, root, hlock, hread, hbefore⟩ := h
  have hupdate : store.update (before >>= f) w = store.update (before >>= g) w := by
    simp only [update, hread, bind_of_ok hbefore, hfg]
  simp only [withLock, hlock, hupdate]

end Store

/-- An update that fails leaves the session as it was, except that one of a record without a name
makes the collection where there was none; and the mark stays as it was.  A closure that runs under
the lock and goes on after the failure does what it does without the update. -/
theorem refused_upsert {k : RecordKind} {r : k.Record} {s u : Session} {e : StoreError}
    (h : upsert k r s = (.error e, u)) :
    u.dirty = s.dirty ∧ u.strategies = s.strategies ∧
      (u = s ∨ k.recordName r = "" ∧
        e = .invalidArgument (.unnamed (.missingName k.collection.dotted)) ∧
        MadeEmpty k s.root u.root) ∧
      (k.recordName r ≠ "" ∨ s.root.collection k ≠ none → u = s ∧
        ∀ {β γ : Type} (store : Store) (v : Volume) (before : Action β) (x : β)
          (next : β → Except StoreError Bool → Action γ), store.EditsTo v before x s →
          store.withLock (before >>= fun x => attempt (upsert k r) >>= next x) v =
            store.withLock (before >>= fun x => next x (.error e)) v) := by
  have hstays : k.recordName r ≠ "" ∨ s.root.collection k ≠ none → u = s := by
    intro hkept
    rcases upsert_eq_error h with rfl | ⟨hr, -, hmade, -⟩
    · rfl
    · exact hkept.elim (absurd hr) (absurd hmade.absent)
  refine ⟨?_, ?_, ?_, fun hkept => ⟨hstays hkept, fun store v before x next hs => ?_⟩⟩
  · rcases upsert_eq_error h with rfl | ⟨-, -, -, hdirty, -⟩
    · rfl
    · exact hdirty
  · have hstrategies := upsert_strategies r s
    rwa [h] at hstrategies
  · exact (upsert_eq_error h).imp_right fun ⟨hr, he, hmade, _⟩ => ⟨hr, he, hmade⟩
  · refine Store.withLock_bind_congr hs ?_
    rw [attempt_bind_of_error h, hstays hkept]

/-- A server does not go where a text is; the variable that is set next is written alone. -/
theorem refused_upsert_over_text :
    let store : Store := ⟨.default, .empty⟩
    let volume : Volume := ⟨[(["config.yaml"], .file 7 (.text "servers: x\n"))], 8, []⟩
    let server : Server := ⟨"s", .managementCluster, none, none, []⟩
    let s : Session := .new (.mapping [(.string "servers", .string "x")]) .empty
    let e : StoreError := .malformed (.notSequence "servers")
    let next : Except StoreError Bool → Action Bool := fun _ =>
      Action.setScalar (KeyPath.of ["a"] .scalar) "b"
    let before : Action Unit := pure ()
    upsert .server server s = (.error e, s) ∧ RecordKind.server.recordName server ≠ "" ∧
      store.EditsTo volume before () s ∧
      store.withLock (before >>= fun _ => attempt (upsert .server server) >>= next) volume =
        store.withLock (before >>= fun _ => next (.error e)) volume := by
  intro store volume server s e next before
  have hfails : upsert .server server s = (.error e, s) := rfl
  have hnamed : RecordKind.server.recordName server ≠ "" := by decide
  have hreached : store.EditsTo volume before () s :=
    ⟨8, (volume.lock ".config.yaml.lock").2, s.root, Prod.ext (by decide +kernel) rfl,
      by decide +kernel, rfl⟩
  obtain ⟨-, -, -, hkept⟩ := refused_upsert hfails
  exact ⟨hfails, hnamed, hreached,
    (hkept (.inl hnamed)).2 store volume before () (fun _ => next) hreached⟩

/-- An update with a record without a name fails and is not marked, but makes a collection that is
written with the next change. -/
theorem refused_upsert_makes_collection :
    let store : Store := ⟨.default, .empty⟩
    let volume : Volume := ⟨[(["config.yaml"], .file 7 (.text "x: y\n"))], 8, []⟩
    let group : PluginGroup := ⟨"", none, none, []⟩
    let s : Session := .new (.mapping [(.string "x", .string "y")]) .empty
    let refused := upsert .pluginGroup group s
    let next : Action Bool := Action.setScalar (KeyPath.of ["a"] .scalar) "b"
    let written := fun edit : Action Bool =>
      (store.withLock edit volume).2.textAt (.ofText "config.yaml")
    refused.1 = .error (.invalidArgument (.unnamed (.missingName "clientOptions.cli.pluginGroups"))) ∧
      refused.2.root ≠ s.root ∧ refused.2.dirty = s.dirty ∧
      written next = .ok "x: y\na: b\n" ∧
      written (attempt (upsert .pluginGroup group) >>= fun _ => next) =
        .ok "x: y\nclientOptions:\n  cli:\n    pluginGroups: []\na: b\n" := by
  decide +kernel

end SharedConfig
