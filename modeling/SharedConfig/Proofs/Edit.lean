import SharedConfig.Node.Locate
import SharedConfig.Proofs.Tree

/-!
# SharedConfig.Proofs.Edit

Reads and edits at paths, in terms of the lists of keys that the paths follow.

* `locate_of_eq_some_iff`: a typed path finds what its keys lead to, if that has the shape of the last
  step.
* `editAt_some`, `editAt_none`: an edit that answers was made on what the path finds, or on the empty
  node made for it; one that does not answer found nothing.
* `editAt_of_fixed`: an edit that leaves alone what is found changes nothing.
* `editAt_blocked`: one that does not answer has made nothing, on a path through mappings.
* `editAt_unchanged`: one that is idle on what it finds changes nothing either.
* `at?_editAt`: an edit at a place leaves alone what it leaves alone below that place.
* `at?_editAt_apart`: it leaves alone all that is neither above nor below the place.
-/

namespace SharedConfig

namespace KeyPath

theorem of_append_singleton (keys : List String) (key : String) (kind : NodeKind) :
    of (keys ++ [key]) kind = of keys .mapping ++ [⟨key, kind⟩] := by
  induction keys with
  | nil => rfl
  | cons k rest ih =>
    cases rest with
    | nil => rfl
    | cons k' rest => exact congrArg (_ :: ·) ih

theorem asMappings_of (keys : List String) : asMappings (of keys .mapping) = of keys .mapping := by
  induction keys with
  | nil => rfl
  | cons k rest ih =>
    cases rest with
    | nil => rfl
    | cons k' rest => exact congrArg (_ :: ·) ih

@[simp] theorem names_of (keys : List String) (kind : NodeKind) : names (of keys kind) = keys := by
  induction keys with
  | nil => rfl
  | cons k rest ih =>
    cases rest with
    | nil => rfl
    | cons k' rest => exact congrArg (_ :: ·) ih

theorem splitLeaf_of (keys : List String) (key : String) (kind : NodeKind) :
    splitLeaf (of (keys ++ [key]) kind) = some (of keys .mapping, key) := by
  have hparent : parent? (of (keys ++ [key]) kind) = some (of keys .mapping) := by
    rw [of_append_singleton]
    cases h : of keys .mapping ++ [(⟨key, kind⟩ : PathStep)] with
    | nil => simp at h
    | cons s rest => rw [parent?, ← h, List.dropLast_concat]
  have hlast : (of (keys ++ [key]) kind).getLast? = some ⟨key, kind⟩ := by
    simp [of_append_singleton]
  rw [splitLeaf, hlast, hparent]
  simp only [asMappings_of]

/-- Every step of a path but the last one is to a mapping. -/
def ThroughMappings (p : KeyPath) : Prop := ∀ s ∈ p.dropLast, s.kind = .mapping

instance (p : KeyPath) : Decidable p.ThroughMappings :=
  inferInstanceAs (Decidable (∀ s ∈ p.dropLast, s.kind = .mapping))

theorem throughMappings_cons {s : PathStep} {rest : KeyPath} :
    ThroughMappings (s :: rest) ↔ (rest ≠ [] → s.kind = .mapping) ∧ ThroughMappings rest := by
  cases rest with
  | nil => simp [ThroughMappings]
  | cons t rest => simp [ThroughMappings, List.dropLast_cons_of_ne_nil]

theorem throughMappings_of_forall {p : KeyPath} (h : ∀ s ∈ p, s.kind = .mapping) :
    p.ThroughMappings :=
  fun s hs => h s ((List.dropLast_sublist p).subset hs)

end KeyPath

namespace Node

/-! ## Reads -/

theorem asText_eq_none {n : Node} (h : n.kind ≠ .scalar) : n.asText = none := by
  cases n with
  | scalar s => exact absurd rfl h
  | _ => rfl

theorem eq_scalar_of_isVacant {n : Node} {k : NodeKind} (h : n.isVacant k = true) :
    k ≠ .scalar ∧ ∃ s, n = .scalar s := by
  cases n with
  | scalar s =>
    simp only [isVacant, Bool.and_eq_true, decide_eq_true_eq] at h
    exact ⟨h.1, s, rfl⟩
  | _ => simp [isVacant, asScalar] at h

theorem kind_ne_of_isVacant {n : Node} {k : NodeKind} (h : n.isVacant k = true) : n.kind ≠ k := by
  obtain ⟨hk, s, rfl⟩ := eq_scalar_of_isVacant h
  exact hk.symm

theorem lookupStep_eq_present_iff {m : Mapping} {s : PathStep} {c : Node} :
    lookupStep m s = .present c ↔ m.get? s.name = some c ∧ c.kind = s.kind := by
  unfold lookupStep
  cases m.get? s.name with
  | none => simp
  | some n =>
    cases hv : n.isVacant s.kind with
    | true =>
      simp only [hv, if_true, Option.some.injEq]
      exact ⟨fun h => (by cases h), fun h => absurd (h.1 ▸ h.2) (kind_ne_of_isVacant hv)⟩
    | false =>
      simp only [hv, Bool.false_eq_true, if_false, Option.some.injEq]
      by_cases hk : n.kind = s.kind
      · simp only [hk, if_true, Lookup.present.injEq]
        exact ⟨fun h => ⟨h, h ▸ hk⟩, fun h => h.1⟩
      · simp only [hk, if_false]
        exact ⟨fun h => (by cases h), fun h => absurd (h.1 ▸ h.2) hk⟩

theorem lookupStep_eq_absent {m : Mapping} {s : PathStep} (h : lookupStep m s = .absent) {c : Node}
    (hc : m.get? s.name = some c) : c.isVacant s.kind = true := by
  cases hv : c.isVacant s.kind with
  | true => rfl
  | false =>
    simp only [lookupStep, hc, hv, Bool.false_eq_true, if_false] at h
    split at h <;> cases h

theorem locate_cons_eq_some_iff {s : PathStep} {rest : KeyPath} {n x : Node} :
    locate (s :: rest) n = some x ↔
      ∃ c, n.child? s.name = some c ∧ c.kind = s.kind ∧ locate rest c = some x := by
  rw [locate]
  cases hm : n.asMapping with
  | none => simp [child?, hm]
  | some m =>
    simp only [child?_of_asMapping hm]
    constructor
    · intro h
      cases hl : lookupStep m s with
      | present c =>
        rw [hl] at h
        obtain ⟨hc, hk⟩ := lookupStep_eq_present_iff.1 hl
        exact ⟨c, hc, hk, h⟩
      | absent => rw [hl] at h; cases h
      | mistyped => rw [hl] at h; cases h
    · rintro ⟨c, hc, hk, hx⟩
      rw [lookupStep_eq_present_iff.2 ⟨hc, hk⟩]
      exact hx

/-- A typed path finds what its keys lead to, if it has the shape of the last step. -/
theorem locate_of_eq_some_iff {keys : List String} (h : keys ≠ []) {kind : NodeKind} {n x : Node} :
    locate (KeyPath.of keys kind) n = some x ↔ n.at? keys = some x ∧ x.kind = kind := by
  induction keys generalizing n with
  | nil => exact absurd rfl h
  | cons k rest ih =>
    cases rest with
    | nil =>
      rw [KeyPath.of, locate_cons_eq_some_iff, at?_cons]
      simp only [locate_root, Option.some.injEq]
      constructor
      · rintro ⟨c, hc, hk, rfl⟩
        exact ⟨by rw [hc]; rfl, hk⟩
      · rintro ⟨hx, hk⟩
        obtain ⟨c, hc, hcx⟩ := Option.bind_eq_some_iff.1 hx
        cases hcx
        exact ⟨x, hc, hk, rfl⟩
    | cons k' rest =>
      rw [KeyPath.of, locate_cons_eq_some_iff, at?_cons, Option.bind_eq_some_iff]
      · constructor
        · rintro ⟨c, hc, hk, hx⟩
          obtain ⟨hx, hkind⟩ := (ih (by simp)).1 hx
          exact ⟨⟨c, hc, hx⟩, hkind⟩
        · rintro ⟨⟨c, hc, hx⟩, hkind⟩
          refine ⟨c, hc, ?_, (ih (by simp)).2 ⟨hx, hkind⟩⟩
          rw [at?_cons, child?] at hx
          cases hm : c.asMapping with
          | none => simp [hm] at hx
          | some m => exact kind_eq_mapping_iff.2 ⟨m, hm⟩
      · simp

/-- What is read only off nodes of the expected shape is read off what the keys lead to. -/
theorem locate_of_bind {α : Type} {keys : List String} (h : keys ≠ []) {kind : NodeKind}
    {read : Node → Option α} (hread : ∀ x, x.kind ≠ kind → read x = none) (n : Node) :
    (n.locate (KeyPath.of keys kind)).bind read = (n.at? keys).bind read := by
  cases ha : n.at? keys with
  | none =>
    cases hx : n.locate (KeyPath.of keys kind) with
    | none => rfl
    | some x =>
      rw [((locate_of_eq_some_iff h).1 hx).1] at ha
      cases ha
  | some y =>
    by_cases hk : y.kind = kind
    · rw [(locate_of_eq_some_iff h).2 ⟨ha, hk⟩]
    · rw [Option.bind_some, hread y hk]
      cases hx : n.locate (KeyPath.of keys kind) with
      | none => rfl
      | some x =>
        obtain ⟨hat, hkind⟩ := (locate_of_eq_some_iff h).1 hx
        rw [hat] at ha
        cases ha
        exact absurd hkind hk

theorem getScalar_of {keys : List String} (h : keys ≠ []) (n : Node) :
    n.getScalar (KeyPath.of keys .scalar) = (n.at? keys).bind asText := by
  rw [← locate_of_bind h fun _ hk => asText_eq_none hk]
  unfold getScalar
  cases n.locate (KeyPath.of keys .scalar) <;> rfl

/-! ## Edits -/

section Edit

variable {β : Type} {create : Bool} {edit : Node → Node × β}

theorem editedChild_eq_some {m : Mapping} {s : PathStep} {c : Node}
    (h : editedChild create m s = some c) :
    (m.get? s.name = some c ∧ c.kind = s.kind) ∨
      (create = true ∧ c = .empty s.kind ∧
        ∀ c', m.get? s.name = some c' → c'.isVacant s.kind = true) := by
  unfold editedChild at h
  cases hl : lookupStep m s with
  | present c' =>
    rw [hl] at h
    cases h
    exact .inl (lookupStep_eq_present_iff.1 hl)
  | absent =>
    rw [hl] at h
    cases create with
    | false => cases h
    | true =>
      cases h
      exact .inr ⟨rfl, rfl, fun c' hc' => lookupStep_eq_absent hl hc'⟩
  | mistyped => rw [hl] at h; cases h

theorem editedChild_eq_none {m : Mapping} {s : PathStep} (h : editedChild create m s = none) :
    ∀ c, m.get? s.name = some c → c.kind ≠ s.kind := by
  intro c hc hk
  rw [editedChild, lookupStep_eq_present_iff.2 ⟨hc, hk⟩] at h
  cases h

theorem at?_of_childless {c : Node} (h : ∀ key, c.child? key = none) {keys : List String}
    (hne : keys ≠ []) : c.at? keys = none := by
  cases keys with
  | nil => exact absurd rfl hne
  | cons key rest => rw [at?_cons, h key]; rfl

theorem child?_empty (kind : NodeKind) (key : String) : (Node.empty kind).child? key = none := by
  cases kind <;> rfl

/-- What was below the child that an edit goes into was below its key; a child that is made is
empty, and so is the null that it may replace. -/
theorem at?_editedChild {m : Mapping} {s : PathStep} {c : Node}
    (h : editedChild create m s = some c) {below : List String} (hne : below ≠ []) :
    c.at? below = (m.get? s.name).bind (at? below) := by
  rcases editedChild_eq_some h with ⟨hget, -⟩ | ⟨-, rfl, hno⟩
  · rw [hget, Option.bind_some]
  · rw [at?_of_childless (child?_empty s.kind) hne]
    cases hget : m.get? s.name with
    | none => rfl
    | some c' =>
      obtain ⟨-, t, rfl⟩ := eq_scalar_of_isVacant (hno c' hget)
      exact (at?_of_childless (fun _ => rfl) hne).symm

/-- An edit below a key either finds no way, or puts an edited child under that key. -/
theorem editAt_cons_cases (create : Bool) (edit : Node → Node × β) (s : PathStep) (rest : KeyPath)
    (n : Node) :
    (editAt create edit (s :: rest) n = (n, none) ∧ locate (s :: rest) n = none) ∨
    ∃ m c, n.asMapping = some m ∧ editedChild create m s = some c ∧
      editAt create edit (s :: rest) n =
        (n.setCore (.mapping (m.insert (.string s.name) (editAt create edit rest c).1)),
          (editAt create edit rest c).2) := by
  cases hm : n.asMapping with
  | none => exact .inl ⟨by simp [editAt, hm], by simp [locate, hm]⟩
  | some m =>
    cases hc : editedChild create m s with
    | some c => exact .inr ⟨m, c, rfl, hc, by simp [editAt, hm, hc]⟩
    | none =>
      refine .inl ⟨by simp [editAt, hm, hc], ?_⟩
      cases hl : locate (s :: rest) n with
      | none => rfl
      | some x =>
        obtain ⟨c, hc', hk, -⟩ := locate_cons_eq_some_iff.1 hl
        rw [child?_of_asMapping hm] at hc'
        exact absurd hk (editedChild_eq_none hc c hc')

/-- An edit that answers was made on what its path finds, or on the empty node made for it. -/
theorem editAt_some {path : KeyPath} {n n' : Node} {b : β}
    (h : editAt create edit path n = (n', some b)) :
    ∃ x, n'.at? path.names = some (edit x).1 ∧ b = (edit x).2 ∧
      (locate path n = some x ∨
        create = true ∧ locate path n = none ∧ ∃ s, path.getLast? = some s ∧ x = .empty s.kind) := by
  induction path generalizing n n' b with
  | nil =>
    rw [editAt_root] at h
    cases h
    exact ⟨n, rfl, rfl, .inl rfl⟩
  | cons s rest ih =>
    rcases editAt_cons_cases create edit s rest n with ⟨he, -⟩ | ⟨m, c, hm, hc, he⟩
    · rw [he] at h; cases h
    · rw [he] at h
      obtain ⟨rfl, hb⟩ := Prod.mk.inj h
      obtain ⟨x, hx, hbx, hfound⟩ := ih (Prod.ext rfl hb)
      refine ⟨x, ?_, hbx, ?_⟩
      · rw [KeyPath.names, List.map_cons, at?_cons, child?_setCore_insert]
        exact hx
      · rcases editedChild_eq_some hc with ⟨hget, hk⟩ | ⟨hcreate, hempty, hno⟩
        · rw [← child?_of_asMapping hm] at hget
          rcases hfound with hl | ⟨hcr, hl, t, ht, hxt⟩
          · exact .inl (locate_cons_eq_some_iff.2 ⟨c, hget, hk, hl⟩)
          · refine .inr ⟨hcr, ?_, t, ?_, hxt⟩
            · cases hl' : locate (s :: rest) n with
              | none => rfl
              | some y =>
                obtain ⟨c', hc', -, hy⟩ := locate_cons_eq_some_iff.1 hl'
                rw [hget] at hc'
                cases hc'
                rw [hl] at hy
                cases hy
            · rw [List.getLast?_cons, ht]; rfl
        · have hnone : locate (s :: rest) n = none := by
            cases hl' : locate (s :: rest) n with
            | none => rfl
            | some y =>
              obtain ⟨c', hc', hk', -⟩ := locate_cons_eq_some_iff.1 hl'
              rw [child?_of_asMapping hm] at hc'
              exact absurd hk' (kind_ne_of_isVacant (hno c' hc'))
          refine .inr ⟨hcreate, hnone, ?_⟩
          subst hempty
          cases rest with
          | nil =>
            rcases hfound with hl | ⟨-, hl, -⟩
            · cases hl; exact ⟨s, rfl, rfl⟩
            · cases hl
          | cons t rest =>
            rcases hfound with hl | ⟨-, -, u, hu, hxu⟩
            · obtain ⟨c', hc', -⟩ := locate_cons_eq_some_iff.1 hl
              rw [child?_empty] at hc'
              cases hc'
            · exact ⟨u, by rw [List.getLast?_cons_cons]; exact hu, hxu⟩

/-- An edit that leaves alone what its path finds leaves the tree alone. -/
theorem editAt_of_fixed {path : KeyPath} {n x : Node} {b : β} (hl : locate path n = some x)
    (hx : edit x = (x, b)) : editAt create edit path n = (n, some b) := by
  induction path generalizing n with
  | nil =>
    cases hl
    rw [editAt_root, hx]
  | cons s rest ih =>
    obtain ⟨c, hc, hk, hl⟩ := locate_cons_eq_some_iff.1 hl
    cases hm : n.asMapping with
    | none => simp [child?, hm] at hc
    | some m =>
      rw [child?_of_asMapping hm] at hc
      have hchild : editedChild create m s = some c := by
        rw [editedChild, lookupStep_eq_present_iff.2 ⟨hc, hk⟩]
      rw [editAt, hm]
      dsimp only
      rw [hchild]
      dsimp only
      rw [ih hl, Mapping.insert_get? (.string s.name) hc, setCore_asMapping hm]

/-- An edit that does not answer found nothing; if it made nothing on its way, it changed nothing.
-/
theorem editAt_none {path : KeyPath} {n n' : Node}
    (h : editAt false edit path n = (n', none)) : n' = n ∧ locate path n = none := by
  induction path generalizing n n' with
  | nil => rw [editAt_root] at h; cases h
  | cons s rest ih =>
    rcases editAt_cons_cases false edit s rest n with ⟨he, hl⟩ | ⟨m, c, hm, hc, he⟩
    · rw [he] at h
      cases h
      exact ⟨rfl, hl⟩
    · rw [he] at h
      obtain ⟨rfl, hb⟩ := Prod.mk.inj h
      have hrest : editAt false edit rest c = ((editAt false edit rest c).1, none) := Prod.ext rfl hb
      obtain ⟨hsame, hl⟩ := ih hrest
      rcases editedChild_eq_some hc with ⟨hget, -⟩ | ⟨hf, -⟩
      · constructor
        · rw [hsame, Mapping.insert_get? (.string s.name) hget, setCore_asMapping hm]
        · cases hl' : locate (s :: rest) n with
          | none => rfl
          | some y =>
            obtain ⟨c', hc', -, hy⟩ := locate_cons_eq_some_iff.1 hl'
            rw [child?_of_asMapping hm, hget] at hc'
            cases hc'
            rw [hl] at hy
            cases hy
      · cases hf

/-- What an edit leaves alone below the node that it is made on, it leaves alone in the tree. -/
theorem at?_editAt {below : List String} (hne : below ≠ [])
    (hkeep : ∀ x, (edit x).1.at? below = x.at? below) (path : KeyPath) (n : Node) :
    (editAt create edit path n).1.at? (path.names ++ below) = n.at? (path.names ++ below) := by
  induction path generalizing n with
  | nil => exact hkeep n
  | cons s rest ih =>
    rcases editAt_cons_cases create edit s rest n with ⟨he, -⟩ | ⟨m, c, hm, hc, he⟩
    · rw [he]
    · have hnames : KeyPath.names (s :: rest) ++ below = s.name :: (KeyPath.names rest ++ below) := rfl
      rw [he, hnames, at?_cons, at?_cons, child?_setCore_insert, child?_of_asMapping hm,
        Option.bind_some, ih c]
      exact at?_editedChild hc (by simp [hne])

/-- An edit at a path leaves alone what other lists of keys lead to. -/
theorem at?_editAt_apart {path : KeyPath} {keys : List String} (hpath : ¬ path.names <+: keys)
    (hkeys : ¬ keys <+: path.names) (n : Node) :
    (editAt create edit path n).1.at? keys = n.at? keys := by
  induction path generalizing keys n with
  | nil => exact absurd List.nil_prefix hpath
  | cons s rest ih =>
    cases keys with
    | nil => exact absurd List.nil_prefix hkeys
    | cons key below =>
      rcases editAt_cons_cases create edit s rest n with ⟨he, -⟩ | ⟨m, c, hm, hc, he⟩
      · rw [he]
      · rw [he, at?_cons, at?_cons, child?_of_asMapping hm]
        by_cases hkey : s.name = key
        · subst hkey
          have hrest : ¬ KeyPath.names rest <+: below := fun h =>
            hpath (List.cons_prefix_cons.2 ⟨rfl, h⟩)
          have hbelow : ¬ below <+: KeyPath.names rest := fun h =>
            hkeys (List.cons_prefix_cons.2 ⟨rfl, h⟩)
          rw [child?_setCore_insert, Option.bind_some, ih hrest hbelow]
          exact at?_editedChild hc fun hnil => hbelow (hnil ▸ List.nil_prefix)
        · rw [child?_setCore, Mapping.get?_insert_of_ne m (.string s.name) _ hkey]

/-- An edit finds its way into an empty node that is made for it. -/
theorem editAt_empty {path : KeyPath} (hpath : path.ThroughMappings) {kind : NodeKind}
    (hkind : path ≠ [] → kind = .mapping) :
    (editAt true edit path (.empty kind)).2.isSome = true := by
  induction path generalizing kind with
  | nil => rfl
  | cons s rest ih =>
    obtain ⟨hs, hrest⟩ := KeyPath.throughMappings_cons.1 hpath
    rw [hkind (List.cons_ne_nil s rest)]
    exact ih hrest hs

/-- On a path through mappings, an edit that does not answer has made nothing on its way. -/
theorem editAt_blocked {path : KeyPath} (hpath : path.ThroughMappings) {n n' : Node}
    (h : editAt create edit path n = (n', none)) : n' = n := by
  induction path generalizing n n' with
  | nil => rw [editAt_root] at h; cases h
  | cons s rest ih =>
    rcases editAt_cons_cases create edit s rest n with ⟨he, -⟩ | ⟨m, c, hm, hc, he⟩
    · rw [he] at h
      cases h
      rfl
    · rw [he] at h
      obtain ⟨rfl, hb⟩ := Prod.mk.inj h
      obtain ⟨hs, hrest⟩ := KeyPath.throughMappings_cons.1 hpath
      rcases editedChild_eq_some hc with ⟨hget, -⟩ | ⟨rfl, rfl, -⟩
      · have hsame : (editAt create edit rest c).1 = c := ih hrest (Prod.ext rfl hb)
        rw [hsame, Mapping.insert_get? (.string s.name) hget, setCore_asMapping hm]
      · have hsome : (editAt true edit rest (.empty s.kind)).2.isSome = true :=
          editAt_empty hrest hs
        rw [hb] at hsome
        cases hsome

/-- An edit that is idle where it leaves alone what it is made on, and never on an empty node that
was made for it, leaves the tree alone where it is idle or does not answer. -/
theorem editAt_unchanged (idle : β → Prop) (hedit : ∀ x, idle (edit x).2 → (edit x).1 = x)
    {path : KeyPath} (hpath : path.ThroughMappings)
    (hmade : create = true → ∀ s, path.getLast? = some s → ¬ idle (edit (.empty s.kind)).2)
    {n n' : Node} {answer : Option β} (h : editAt create edit path n = (n', answer))
    (hidle : ∀ b, answer = some b → idle b) : n' = n := by
  cases answer with
  | none => exact editAt_blocked hpath h
  | some b =>
    have hb := hidle b rfl
    obtain ⟨x, -, rfl, hl | ⟨hcreate, -, s, hs, rfl⟩⟩ := editAt_some h
    · rw [editAt_of_fixed hl (Prod.ext (hedit x hb) rfl)] at h
      cases h
      rfl
    · exact absurd hb (hmade hcreate s hs)

end Edit

end Node
end SharedConfig
