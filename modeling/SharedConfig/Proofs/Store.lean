import SharedConfig.Proofs.Report
import SharedConfig.Proofs.Settings
import SharedConfig.Store

/-!
# SharedConfig.Proofs.Store

What the operations of a store do to the files.  The document is written last and as a whole, and
only if the session is dirty; so whatever fails before leaves all files as they were, and a dirty
session is one that the answer owns up to (`Mutation.run_tracks`).

* `Store.update_cases`: an edit under the lock either leaves the files or writes the document.
* `files_as_answered`: the law for every request.
-/

namespace SharedConfig

open Volume (Extends ExtendsBare LeadThrough)

/-! ## Writing the document -/

section Commit

variable {path : String} {root : Node} {v v' : Volume}

theorem commitDocument_cases {answer : Except StoreError Unit}
    (h : commitDocument path root v = (answer, v')) :
    (∃ e, answer = .error e) ∧ (v' = v ∨ v' = (v.makeParent (.ofText path)).2) ∨
      answer = .ok () ∧ ∃ text, root.print = .text text ∧
        (v.makeParent (.ofText path)).2.replace (.ofText path) text = .ok v' := by
  unfold commitDocument at h
  split at h
  · cases h
    exact .inl ⟨⟨_, rfl⟩, .inl rfl⟩
  · cases h
    exact .inl ⟨⟨_, rfl⟩, .inl rfl⟩
  · rename_i text hprint
    dsimp only at h
    split at h
    · rename_i hmake
      cases h
      exact .inl ⟨⟨_, rfl⟩, .inr (congrArg Prod.snd hmake).symm⟩
    · rename_i w hmake
      split at h
      · cases h
        exact .inl ⟨⟨_, rfl⟩, .inr (congrArg Prod.snd hmake).symm⟩
      · rename_i hreplace
        cases h
        exact .inr ⟨rfl, text, hprint, by rw [hmake]; exact hreplace⟩

theorem commitDocument_extends {e : StoreError} (h : commitDocument path root v = (.error e, v')) :
    ExtendsBare (LeadThrough (PathName.ofText path).names.dropLast) v v' := by
  rcases commitDocument_cases h with ⟨-, rfl | rfl⟩ | ⟨hok, -⟩
  · exact .refl _ _ _
  · exact v.makeParent_extends _
  · cases hok

theorem commitDocument_isTree {answer : Except StoreError Unit} (htree : v.IsTree)
    (h : commitDocument path root v = (answer, v')) : v'.IsTree := by
  rcases commitDocument_cases h with ⟨-, rfl | rfl⟩ | ⟨-, text, -, hreplace⟩
  · exact htree
  · exact htree.makeParent _
  · exact (htree.makeParent _).replace hreplace

theorem commitDocument_eq_ok (h : commitDocument path root v = (.ok (), v')) :
    ∃ text, root.print = .text text ∧ v'.textAt (.ofText path) = .ok text := by
  rcases commitDocument_cases h with ⟨⟨e, he⟩, -⟩ | ⟨-, text, hprint, hreplace⟩
  · cases he
  · exact ⟨text, hprint, Volume.textAt_replace hreplace⟩

end Commit

namespace Store

section Update

variable {β : Type} {s : Store} {edit : Action β} {v v' : Volume} {answer : Except StoreError β}

/-- An edit of the document makes no file, unless it succeeds and leaves the session dirty; then the
document that it ends with is written. -/
theorem update_cases (h : s.update edit v = (answer, v')) :
    (ExtendsBare (LeadThrough (PathName.ofText s.settings.documentPath).names.dropLast) v v' ∧
      ∀ x, answer = .ok x →
        ∃ root session, edit (.new root s.strategies) = (.ok x, session) ∧ session.dirty = false) ∨
    ∃ x root session text, answer = .ok x ∧ s.read v = .ok root ∧
      edit (.new root s.strategies) = (.ok x, session) ∧ session.dirty = true ∧
      session.root.print = .text text ∧
      v'.textAt (.ofText s.settings.documentPath) = .ok text := by
  unfold update at h
  cases hread : s.read v with
  | error e =>
    rw [hread] at h
    cases h
    exact .inl ⟨.refl _ _ v, fun x hx => nomatch hx⟩
  | ok root =>
    rw [hread] at h
    dsimp only at h
    rcases hedit : edit (.new root s.strategies) with ⟨e | x, session⟩
    · rw [hedit] at h
      cases h
      exact .inl ⟨.refl _ _ v, fun x hx => nomatch hx⟩
    · rw [hedit] at h
      dsimp only at h
      cases hdirty : session.dirty with
      | false =>
        rw [hdirty] at h
        cases h
        refine .inl ⟨.refl _ _ v, fun y hy => ?_⟩
        cases hy
        exact ⟨root, session, hedit, hdirty⟩
      | true =>
        rw [hdirty, if_pos rfl] at h
        rcases hcommit : commitDocument s.settings.documentPath session.root v with ⟨e | _, w⟩
        · rw [hcommit] at h
          cases h
          exact .inl ⟨commitDocument_extends hcommit, fun x hx => nomatch hx⟩
        · rw [hcommit] at h
          cases h
          obtain ⟨text, hprint, htext⟩ := commitDocument_eq_ok hcommit
          exact .inr ⟨x, root, session, text, rfl, rfl, hedit, hdirty, hprint, htext⟩

theorem withLock_cases (h : s.withLock edit v = (answer, v')) :
    (∃ e, answer = .error e ∧ v' = (v.lock s.settings.lockPath).2) ∨
      ∃ id u, s.update edit (v.lock s.settings.lockPath).2 = (answer, u) ∧ v' = u.unlock id := by
  unfold withLock at h
  rcases hlock : v.lock s.settings.lockPath with ⟨e | id, w⟩
  · rw [hlock] at h
    cases h
    exact .inl ⟨e, rfl, rfl⟩
  · rw [hlock] at h
    cases h
    exact .inr ⟨id, _, rfl, rfl⟩

end Update

/-- What is asked of a store: a change of the document, or an answer from it. -/
inductive Request where
  | mutation (m : Mutation)
  | query {β : Type} (check : Except StoreError Unit) (ask : Node → Except StoreError β)

/-- Serve a request.  The answer says whether the document is another one now. -/
def serve (s : Store) : Request → Volume → Except StoreError Bool × Volume
  | .mutation m, v => ((s.mutate m v).1.map Outcome.isChange, (s.mutate m v).2)
  | .query check ask, v => ((s.query check ask v).map fun _ => false, v)

/-- Where the lock file of a store is, once the directories that it is in are made. -/
def lockPlace (s : Store) (v : Volume) : Except FileError Place :=
  (v.makeParent (.ofText s.settings.lockPath)).2.follow (.ofText s.settings.lockPath)

/-- The directories that a request makes where they are missing. -/
def MakesDirectory (s : Store) (p : Place) : Prop :=
  LeadThrough (PathName.ofText s.settings.lockPath).names.dropLast p ∨
    LeadThrough (PathName.ofText s.settings.documentPath).names.dropLast p

/-- A mutation was made on the document that was there, and what came of it was written. -/
def Wrote (s : Store) (m : Mutation) (v v' : Volume) : Prop :=
  ∃ root answer session text, s.read v = .ok root ∧
    m.run (.new root s.strategies) = (.ok answer, session) ∧ session.root.print = .text text ∧
    v'.textAt (.ofText s.settings.documentPath) = .ok text

variable {s : Store} {m : Mutation} {v v' : Volume}

/-- What a mutation answers is whether the document was written. -/
theorem mutate_cases {answer : Except StoreError Outcome} (h : s.mutate m v = (answer, v')) :
    (Extends s.MakesDirectory (fun p => s.lockPlace v = .ok p) v v' ∧
      ∀ o, answer = .ok o → o.isChange = false ∧
        ∃ root session, m.run (.new root s.strategies) = (.ok o, session)) ∨
    ∃ o, answer = .ok o ∧ o.isChange = true ∧ Wrote s m (v.lock s.settings.lockPath).2 v' := by
  have hdirty : ∀ root o session, m.run (.new root s.strategies) = (.ok o, session) →
      session.dirty = o.isChange := fun root o session hrun => by
    rw [m.run_tracks false _ o session rfl hrun, Bool.false_or]
  have hlock : Extends s.MakesDirectory (fun p => s.lockPlace v = .ok p) v
      (v.lock s.settings.lockPath).2 :=
    (v.lock_extends s.settings.lockPath).mono (fun _ => .inl) fun _ hp => hp
  unfold mutate at h
  cases hcheck : m.check with
  | error e =>
    rw [hcheck] at h
    cases h
    exact .inl ⟨.refl _ _ v, fun o ho => nomatch ho⟩
  | ok _ =>
    rw [hcheck] at h
    rcases withLock_cases h with ⟨e, rfl, rfl⟩ | ⟨id, u, hupdate, rfl⟩
    · exact .inl ⟨hlock, fun o ho => nomatch ho⟩
    · rcases update_cases hupdate with ⟨hkept, hidle⟩ |
        ⟨o, root, session, text, rfl, hread, hrun, hsession, hprint, htext⟩
      · have hupdated : Extends s.MakesDirectory (fun p => s.lockPlace v = .ok p) _ u :=
          hkept.mono (fun _ => .inr) fun _ hp => hp.elim
        refine .inl ⟨hlock.trans hupdated, fun o ho => ?_⟩
        obtain ⟨root, session, hrun, hclean⟩ := hidle o ho
        exact ⟨(hdirty root o session hrun).symm.trans hclean, root, session, hrun⟩
      · refine .inr ⟨o, rfl, (hdirty root o session hrun).symm.trans hsession, ?_⟩
        exact ⟨root, o, session, text, hread, hrun, hprint,
          (Volume.textAt_unlock u id _).trans htext⟩

theorem update_isTree {β : Type} {edit : Action β} {answer : Except StoreError β}
    (htree : v.IsTree) (h : s.update edit v = (answer, v')) : v'.IsTree := by
  unfold update at h
  split at h
  · cases h
    exact htree
  · split at h
    · cases h
      exact htree
    · split at h
      · split at h
        · rename_i hcommit
          cases h
          exact commitDocument_isTree htree hcommit
        · rename_i hcommit
          cases h
          exact commitDocument_isTree htree hcommit
      · cases h
        exact htree

/-- Whatever is asked of a store, the files are a tree afterwards if they were one before. -/
theorem serve_isTree (r : Request) (htree : v.IsTree) : (s.serve r v).2.IsTree := by
  cases r with
  | query check ask => exact htree
  | mutation m =>
    rcases hmutate : s.mutate m v with ⟨answer, w⟩
    simp only [serve, hmutate]
    unfold mutate at hmutate
    split at hmutate
    · cases hmutate
      exact htree
    · rcases withLock_cases hmutate with ⟨e, -, rfl⟩ | ⟨id, u, hupdate, rfl⟩
      · exact htree.lock _
      · have hu : u.IsTree := update_isTree (htree.lock _) hupdate
        exact hu

theorem isChange_of_delete {k : PlainKind} {name : String} {o : Outcome}
    (h : s.mutate (.delete k name) v = (.ok o, v')) : o.isChange = true := by
  rcases mutate_cases h with ⟨-, hidle⟩ | ⟨o', ho', hchange, -⟩
  · obtain ⟨-, root, session, hrun⟩ := hidle o rfl
    obtain ⟨removed, u, -, hdone⟩ := Action.bind_eq_ok.1 hrun
    obtain ⟨rfl, -⟩ := Action.pure_eq_ok.1 hdone
    rfl
  · cases ho'
    exact hchange

/-- Where no document is, nothing that a request makes is one. -/
theorem missing_of_extends (hs : s.settings.IsApart) (htree : v.IsTree)
    (h : Extends s.MakesDirectory (fun p => s.lockPlace v = .ok p) v v')
    (hmissing : v.entry (.ofText s.settings.documentPath) = .error .missing) :
    v'.entry (.ofText s.settings.documentPath) = .error .missing := by
  refine h.missing htree hs.plain (fun hfree hmade => ?_) (fun q hq hle => ?_) hmissing
  · rcases hmade with hlock | hdocument
    · exact hs.document (hlock.mono ((List.dropLast_prefix _).trans (PathName.names_prefix_way _)))
    · exact hs.plain.not_leadThrough hfree.ne_nil hdocument
  · rw [Volume.follow_eq_ok hq] at hle
    exact hs.lock hle

/-- Unless it answers that the document is another one now, a request leaves every file as it was
and makes none but the lock file, with the directories on the way; so the path of the document leads
to what it led to, and to nothing if it led to nothing.  If it does answer so, then it was a
mutation, and the document that it ended with is written.  A removal that succeeds always answers
so, and what only asks something leaves all as it was. -/
theorem files_as_answered {r : Request} {answer : Except StoreError Bool}
    (h : s.serve r v = (answer, v')) :
    (answer ≠ .ok true → Extends s.MakesDirectory (fun p => s.lockPlace v = .ok p) v v' ∧
        (∀ e, v.entry (.ofText s.settings.documentPath) = .ok e →
          v'.entry (.ofText s.settings.documentPath) = .ok e) ∧
        (s.settings.IsApart → v.IsTree →
          v.entry (.ofText s.settings.documentPath) = .error .missing →
          v'.entry (.ofText s.settings.documentPath) = .error .missing)) ∧
      (answer = .ok true → ∃ m, r = .mutation m ∧ Wrote s m (v.lock s.settings.lockPath).2 v') ∧
      (∀ k name, r = .mutation (.delete k name) → answer ≠ .ok false) ∧
      ((∀ m, r ≠ .mutation m) → v' = v) := by
  cases r with
  | query check ask =>
    cases h
    refine ⟨fun _ => ⟨.refl _ _ v, fun e he => he, fun _ _ hmissing => hmissing⟩, fun htrue => ?_,
      fun k name hr => (nomatch hr), fun _ => rfl⟩
    cases hquery : s.query check ask v with
    | error e => rw [hquery] at htrue; cases htrue
    | ok x => rw [hquery] at htrue; cases htrue
  | mutation m =>
    rcases hmutate : s.mutate m v with ⟨outcome, w⟩
    simp only [serve, hmutate] at h
    cases h
    refine ⟨fun hidle => ?_, fun hchange => ?_, fun k name hr hfalse => ?_,
      fun hr => absurd rfl (hr m)⟩
    · rcases mutate_cases hmutate with ⟨hkept, -⟩ | ⟨o, rfl, hchange, -⟩
      · exact ⟨hkept, fun e he => hkept.entry he, fun hs htree => missing_of_extends hs htree hkept⟩
      · exact absurd (congrArg Except.ok hchange) hidle
    · rcases mutate_cases hmutate with ⟨-, hnone⟩ | ⟨o, rfl, -, hwrote⟩
      · cases outcome with
        | error e => cases hchange
        | ok o =>
          have htrue : o.isChange = true := Except.ok.inj hchange
          rw [(hnone o rfl).1] at htrue
          cases htrue
      · exact ⟨m, rfl, hwrote⟩
    · cases hr
      cases outcome with
      | error e => cases hfalse
      | ok o =>
        have hno : o.isChange = false := Except.ok.inj hfalse
        rw [isChange_of_delete hmutate] at hno
        cases hno

/-- A context that is not there cannot be removed, which leaves the document, and makes none where
none is; a variable is written. -/
theorem files_as_answered_for_variable :
    let store : Store := ⟨.inDirectory "cli", .empty⟩
    let document := PathName.ofText "cli/config.yaml"
    let volume : Volume :=
      ⟨[(["cli"], .directory), (["cli", "config.yaml"], .file 7 (.text "a: b\n"))], 8, []⟩
    let bare : Volume := ⟨[(["notes"], .file 3 .binary)], 4, []⟩
    let failing : Request := .mutation (.removeContext "a")
    let writing : Request := .mutation (.setEnv "k" "v")
    (store.serve failing volume).1 ≠ .ok true ∧
      (store.serve failing volume).2.entry document = .ok (.file 7 (.text "a: b\n")) ∧
      store.settings.IsApart ∧ bare.IsTree ∧ bare.entry document = .error .missing ∧
      (store.serve failing bare).1 ≠ .ok true ∧
      (store.serve failing bare).2.entry document = .error .missing ∧
      (store.serve failing bare).2.at? ["cli"] = some .directory ∧
      (store.serve writing volume).1 = .ok true ∧ ∃ m, writing = .mutation m ∧
        Wrote store m (volume.lock "cli/.config.yaml.lock").2 (store.serve writing volume).2 := by
  intro store document volume bare failing writing
  have hfailing : (store.serve failing volume).1 ≠ .ok true := by decide +kernel
  have hbare : (store.serve failing bare).1 ≠ .ok true := by decide +kernel
  have hwriting : (store.serve writing volume).1 = .ok true := by decide +kernel
  have hthere : volume.entry document = .ok (.file 7 (.text "a: b\n")) := by decide +kernel
  have hmissing : bare.entry document = .error .missing := by decide +kernel
  have hmade : (store.serve failing bare).2.at? ["cli"] = some .directory := by decide +kernel
  have hapart : store.settings.IsApart := Settings.isApart_inDirectory (by decide +kernel)
  have htree : bare.IsTree := by decide
  obtain ⟨hkept, -⟩ := files_as_answered (Prod.eta (store.serve failing volume)).symm
  obtain ⟨hkeptBare, -⟩ := files_as_answered (Prod.eta (store.serve failing bare)).symm
  obtain ⟨-, hwrote, -⟩ := files_as_answered (Prod.eta (store.serve writing volume)).symm
  exact ⟨hfailing, (hkept hfailing).2.1 _ hthere, hapart, htree, hmissing, hbare,
    (hkeptBare hbare).2.2 hapart htree hmissing, hmade, hwriting, hwrote hwriting⟩

end Store

end SharedConfig
