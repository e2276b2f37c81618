import SharedConfig.Proofs.Form.Plain
import SharedConfig.Proofs.Run.Edits
import SharedConfig.Proofs.Run.Survival
import SharedConfig.Proofs.Store

/-!
# SharedConfig.Proofs.Run.Canonical

What is written after some edits is what the session held.

Each edit leaves a tree that comes back from its value one that does, of the same shape and under the
same tags (`StaysCanonical`), also where it fails halfway: what is written on the way to a place are
untagged texts as keys, with empty collections under them.  So the root of a document stays one, and
whoever reads the text that is committed has the tree that was committed.

* `editAt_staysCanonical`: an edit at a path, made of one of the node there.
* `Edit.run_staysCanonical`: one edit of a session, whether it fails or not.
* `canonical_along_edits`: a run of them, and what is read from the file after a commit.
-/

namespace SharedConfig

open Node Yaml

namespace Node

/-- One tree in place of another: it comes back if the other did, and has its shape and its tags. -/
structure StaysCanonical (n n' : Node) : Prop where
  canonical : n.IsCanonical → n'.IsCanonical
  kind : n'.kind = n.kind
  tags : n'.tags = n.tags

namespace StaysCanonical

theorem refl (n : Node) : StaysCanonical n n := ⟨id, rfl, rfl⟩

theorem trans {a b c : Node} (h : StaysCanonical a b) (h' : StaysCanonical b c) :
    StaysCanonical a c :=
  ⟨h'.canonical ∘ h.canonical, h'.kind.trans h.kind, h'.tags.trans h.tags⟩

theorem of_mapping {n : Node} {m m' : Mapping} (hm : n.asMapping = some m)
    (h : (Node.mapping m).IsCanonical → (Node.mapping m').IsCanonical) :
    StaysCanonical n (n.setCore (.mapping m')) where
  canonical hn := hn.setMapping (h (hn.asMapping hm))
  kind := by rw [kind_setCore, kind_eq_mapping_iff.2 ⟨m, hm⟩]; rfl
  tags := by rw [tags_setCore]; exact List.append_nil _

theorem of_sequence {n : Node} {items items' : List Node} (hitems : n.asSequence = some items)
    (h : (∀ x ∈ items, x.IsCanonical) → ∀ x ∈ items', x.IsCanonical) :
    StaysCanonical n (n.setCore (.sequence items')) where
  canonical hn := hn.setSequence (h (isCanonical_sequence_iff.1 (hn.asSequence hitems)))
  kind := by rw [kind_setCore, kind_eq_sequence_iff.2 ⟨items, hitems⟩]; rfl
  tags := by rw [tags_setCore]; exact List.append_nil _

end StaysCanonical

/-! ## Edits of a tree -/

theorem writeKey_staysCanonical (key value : String) (n : Node) :
    StaysCanonical n (writeKey key value n).1 := by
  cases hm : n.asMapping with
  | none => rw [writeKey, hm]; exact .refl n
  | some m =>
    rw [writeKey_of_asMapping hm]
    split
    · exact .refl n
    · exact .of_mapping hm fun h => h.insert key (isCanonical_string value)

theorem dropKey_staysCanonical (key : String) (n : Node) : StaysCanonical n (dropKey key n).1 := by
  unfold dropKey
  cases hm : n.asMapping with
  | none => exact .refl n
  | some m => exact .of_mapping hm fun h => h.erase key

theorem upsertInto_staysCanonical (table : StrategyTable) (path : String) {candidate : Node}
    (hc : candidate.IsPlain) (n : Node) :
    StaysCanonical n (upsertInto table path candidate n).1 := by
  unfold upsertInto
  cases hitems : n.asSequence with
  | none => exact .refl n
  | some items =>
    dsimp only
    cases hname : candidate.entityName with
    | none => rw [upsertEntity_of_none hname]; exact .refl n
    | some name =>
      rw [upsertEntity_eq hname]
      refine .of_sequence hitems fun h x hx => ?_
      rcases Entity.mem_put hx with rfl | hx
      · refine isCanonical_reconcile hc.canonical (fun e he => isCanonical_mergeNode _ _ hc he) ?_
        intro e he
        exact h e (List.mem_of_find?_eq_some he)
      · exact h x hx

theorem removeFrom_staysCanonical (name : String) (n : Node) :
    StaysCanonical n (removeFrom name n).1 := by
  unfold removeFrom
  cases hitems : n.asSequence with
  | none => exact .refl n
  | some items => exact .of_sequence hitems fun h x hx => h x (Entity.mem_erase.1 hx).1

section Edit

variable {β : Type} {edit : Node → Node × β}

/-- The nodes that are made on the way are empty, and their keys are untagged texts. -/
theorem editAt_staysCanonical (hedit : ∀ n, StaysCanonical n (edit n).1) (create : Bool)
    (path : KeyPath) (n : Node) : StaysCanonical n (editAt create edit path n).1 := by
  induction path generalizing n with
  | nil => exact hedit n
  | cons s rest ih =>
    rcases editAt_cons_cases create edit s rest n with ⟨he, -⟩ | ⟨m, c, hm, hc, he⟩
    · rw [he]
      exact .refl n
    · rw [he]
      refine .of_mapping hm fun h => h.insert s.name ((ih c).canonical ?_)
      rcases editedChild_eq_some hc with ⟨hget, -⟩ | ⟨-, rfl, -⟩
      · exact h.get? hget
      · exact isCanonical_empty s.kind

end Edit

theorem setScalar_staysCanonical (path : KeyPath) (value : String) (root : Node) :
    StaysCanonical root (root.setScalar path value).1 := by
  unfold setScalar
  split
  · exact .refl root
  · exact editAt_staysCanonical (writeKey_staysCanonical _ _) _ _ _

theorem removeKey_staysCanonical (path : KeyPath) (root : Node) :
    StaysCanonical root (root.removeKey path).1 := by
  unfold removeKey
  split
  · exact .refl root
  · exact editAt_staysCanonical (dropKey_staysCanonical _) _ _ _

theorem pruneEmpty_staysCanonical (path : KeyPath) (root : Node) :
    StaysCanonical root (root.pruneEmpty path).1 :=
  pruneFrom_induction (fun _ _ _ n _ hn => hn.trans (removeKey_staysCanonical _ n)) (.refl root)

end Node

/-! ## Edits of a session -/

namespace Edit

/-- The metadata of the record that an edit writes has texts as keys and no tags. -/
def WritesPlain : Edit → Prop
  | upsert k r => k.HasPlainMetadata r
  | _ => True

theorem run_staysCanonical {e : Edit} (h : e.WritesPlain) (s : Session) :
    StaysCanonical s.root (e.run s).2.root := by
  cases e with
  | upsert k r =>
    simp only [run, Action.upsert]
    cases hencode : k.encode r with
    | error e => exact .refl _
    | ok candidate =>
      have hstays := editAt_staysCanonical (upsertInto_staysCanonical s.strategies
        k.collection.dotted (RecordKind.plain_encode h hencode)) true k.collection s.root
      dsimp only
      split
      all_goals
        rename_i he
        rw [he] at hstays
        exact hstays
  | remove k name => exact editAt_staysCanonical (removeFrom_staysCanonical name) _ _ _
  | setScalar path value =>
    have hstays := setScalar_staysCanonical path value s.root
    simp only [run, Action.setScalar]
    split
    · exact hstays
    · split <;> exact hstays
  | removeKey path => exact removeKey_staysCanonical path s.root
  | prune path => exact pruneEmpty_staysCanonical path s.root

end Edit

theorem Session.after_staysCanonical {edits : List Edit} (h : ∀ e ∈ edits, e.WritesPlain)
    (s : Session) : StaysCanonical s.root (s.after edits).root := by
  induction edits generalizing s with
  | nil => exact .refl _
  | cons e edits ih =>
    obtain ⟨he, hrest⟩ := List.forall_mem_cons.1 h
    exact (e.run_staysCanonical he s).trans (ih hrest _)

/-! ## Reading what was committed -/

theorem Node.eq_mapping_of_untagged {n : Node} (hkind : n.kind = .mapping) (htags : n.tags = []) :
    ∃ m, n = .mapping m := by
  cases n with
  | mapping m => exact ⟨m, rfl⟩
  | scalar s => cases hkind
  | sequence items => cases hkind
  | tagged t n => cases htags

/-- A tree that comes back from its value comes back from its text, if the value does. -/
theorem loadDocument_of_commit {path : String} {root : Node} {v v' : Volume}
    (hcanonical : root.IsCanonical) (hkind : root.kind = .mapping) (htags : root.tags = [])
    (hcommit : commitDocument path root v = (.ok (), v'))
    (hagain : ∀ w text, root.toValue? = some w → w.print = .ok text → Value.ofText text = .ok w) :
    loadDocument path v' = .ok root := by
  obtain ⟨text, hprint, htext⟩ := commitDocument_eq_ok hcommit
  obtain ⟨w, hw, hback⟩ := hcanonical
  obtain ⟨m, rfl⟩ := eq_mapping_of_untagged hkind htags
  have hwritten : w.print = .ok text := by
    rw [Node.print, hw] at hprint
    dsimp only at hprint
    split at hprint
    · rename_i hs
      cases hprint
      exact hs
    · cases hprint
  have hread := parseDocument_of_print hw hwritten (hagain w text hw hwritten) hback
  rw [loadDocument, htext]
  dsimp only
  rw [hread]

/-- Edits of a session leave a root that is a mapping and comes back from its value as another one,
under the same tags, whatever the strategies are and wherever the edits are made.  Without tags
around it the root is what is read after it is committed, if its value is read from the text that is
written for it. -/
theorem canonical_along_edits {edits : List Edit} (hplain : ∀ e ∈ edits, e.WritesPlain) {s : Session}
    (hcanonical : s.root.IsCanonical) (hkind : s.root.kind = .mapping) :
    (s.after edits).root.IsCanonical ∧ (s.after edits).root.kind = .mapping ∧
      (s.after edits).root.tags = s.root.tags ∧
      ∀ path v v', s.root.tags = [] →
        commitDocument path (s.after edits).root v = (.ok (), v') →
        (∀ w text, (s.after edits).root.toValue? = some w → w.print = .ok text →
          Value.ofText text = .ok w) →
        loadDocument path v' = .ok (s.after edits).root := by
  have hstays := Session.after_staysCanonical hplain s
  have hroot := hstays.canonical hcanonical
  have hmapping := hstays.kind.trans hkind
  refine ⟨hroot, hmapping, hstays.tags, fun path v v' htags hcommit hagain => ?_⟩
  exact loadDocument_of_commit hroot hmapping (hstays.tags.trans htags) hcommit hagain

/-- Two keys of one text, and a context whose metadata has a number as a key. -/
def Session.canonicalSample : Session := .new (.mapping [
  (⟨"1", .int, none⟩, .scalar ⟨"0.5", .float, none⟩),
  (.string "1", .tagged "t" (.sequence [.scalar .null])),
  (.string "contexts", .sequence [.mapping [(.string "name", .string "a"),
    (.string "additionalMetadata", .mapping [(⟨"1", .int, none⟩, .string "x")])]])]) .empty

/-- A context is written whose metadata has the number as a text, and all contexts are dropped. -/
def canonicalSampleEdits : List Edit :=
  [.upsert .context ⟨"a", .kubernetes, none, none, [], [("1", .mapping [(.string "1", .null)])]⟩,
    .setScalar (KeyPath.of ["1"] .scalar) "b", .remove .context "a",
    .prune (KeyPath.of ["contexts"] .sequence), .removeKey (KeyPath.of ["servers"] .scalar)]

def canonicalSampleValue : Value :=
  .mapping [(.number (.int 1), .string "b"), (.string "1", .tagged "t" (.sequence [.null]))]

theorem canonical_along_edits_with_two_keys :
    let root := (Session.canonicalSample.after canonicalSampleEdits).root
    root = .mapping [(⟨"1", .int, none⟩, .string "b"),
      (.string "1", .tagged "t" (.sequence [.scalar .null]))] ∧ root.IsCanonical ∧
      loadDocument "config.yaml" (commitDocument "config.yaml" root ⟨[], 0, []⟩).2 = .ok root := by
  intro root
  have hplain : ∀ e ∈ canonicalSampleEdits, e.WritesPlain := by
    have hmetadata : RecordKind.context.HasPlainMetadata
        ⟨"a", .kubernetes, none, none, [], [("1", .mapping [(.string "1", .null)])]⟩ :=
      ⟨⟨by decide, by decide⟩, by decide⟩
    simp [canonicalSampleEdits, Edit.WritesPlain, hmetadata]
  have hdocument : Session.canonicalSample.root.IsCanonical := by decide +kernel
  have hresult : root = .mapping [(⟨"1", .int, none⟩, .string "b"),
      (.string "1", .tagged "t" (.sequence [.scalar .null]))] := by decide +kernel
  obtain ⟨hroot, -, -, hload⟩ := canonical_along_edits hplain hdocument rfl
  have hcommit : (commitDocument "config.yaml" root ⟨[], 0, []⟩).1 = .ok () := by decide +kernel
  have hvalue : root.toValue? = some canonicalSampleValue := by decide +kernel
  have htext : canonicalSampleValue.print = .ok "1: b\n'1': !t\n- null\n" := by decide +kernel
  refine ⟨hresult, hroot, hload "config.yaml" _ _ rfl (Prod.ext hcommit rfl) ?_⟩
  intro w text hw hprint
  cases hvalue.symm.trans hw
  cases htext.symm.trans hprint
  decide +kernel

end SharedConfig
