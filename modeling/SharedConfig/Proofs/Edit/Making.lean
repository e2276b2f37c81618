import SharedConfig.Proofs.Edit.Access

/-!
# SharedConfig.Proofs.Edit.Making

Access that makes what is absent on its way.

On a path through mappings only a node of another shape can be in the way, and an untagged null is
none where a collection is expected (`IsBlocked`).  Whether one is there is known before anything is
made, for below the first node that is made there is nothing to be in the way.

* `reaches_eq_false_iff`: access is blocked exactly by a node of another shape.
* `editAt_keepsKeys`: an edit that moves no key of the node that it is made on moves none at all.
* `absent_nodes_are_made`: what access makes, and what it leaves alone.
-/

namespace SharedConfig
namespace Node

/-! ## What is in the way -/

/-- A step of a path leads to a node that has not the shape it expects, and that does not count as
absent. -/
def IsBlocked (path : KeyPath) (root : Node) : Prop :=
  ∃ (above : KeyPath) (s : PathStep) (rest : KeyPath) (c : Node), path = above ++ s :: rest ∧
    root.at? (above.names ++ [s.name]) = some c ∧ c.kind ≠ s.kind ∧ c.isVacant s.kind = false

theorem isBlocked_cons {s : PathStep} {rest : KeyPath} {n : Node} :
    IsBlocked (s :: rest) n ↔ ∃ c, n.child? s.name = some c ∧
      (c.kind ≠ s.kind ∧ c.isVacant s.kind = false ∨ IsBlocked rest c) := by
  constructor
  · rintro ⟨above, t, below, d, hpath, hd, hne, hvacant⟩
    cases above with
    | nil =>
      obtain ⟨rfl, rfl⟩ := List.cons.inj hpath
      exact ⟨d, by rw [← at?_singleton]; exact hd, .inl ⟨hne, hvacant⟩⟩
    | cons u above =>
      obtain ⟨rfl, rfl⟩ := List.cons.inj hpath
      obtain ⟨c, hc, hd⟩ := Option.bind_eq_some_iff.1 ((at?_cons _ _ n).symm.trans hd)
      exact ⟨c, hc, .inr ⟨above, t, below, d, rfl, hd, hne, hvacant⟩⟩
  · rintro ⟨c, hc, ⟨hne, hvacant⟩ | ⟨above, t, below, d, rfl, hd, hne, hvacant⟩⟩
    · exact ⟨[], s, rest, c, rfl, by rw [← hc]; exact at?_singleton s.name n, hne, hvacant⟩
    · refine ⟨s :: above, t, below, d, rfl, ?_, hne, hvacant⟩
      exact (at?_cons _ _ n).trans (by rw [hc]; exact hd)

theorem not_isBlocked_nil (n : Node) : ¬ IsBlocked [] n := by
  rintro ⟨above, s, rest, c, hpath, -⟩
  simp at hpath

theorem not_isBlocked_of_childless {c : Node} (h : ∀ key, c.child? key = none) (path : KeyPath) :
    ¬ IsBlocked path c := by
  rintro ⟨above, s, rest, d, -, hd, -⟩
  rw [at?_of_childless h (by simp)] at hd
  cases hd

theorem editedChild_true_eq_none_iff {m : Mapping} {s : PathStep} :
    editedChild true m s = none ↔
      ∃ c, m.get? s.name = some c ∧ c.kind ≠ s.kind ∧ c.isVacant s.kind = false := by
  unfold editedChild lookupStep
  cases m.get? s.name with
  | none => simp
  | some c =>
    cases hv : c.isVacant s.kind <;> by_cases hk : c.kind = s.kind <;> simp [hv, hk]

theorem reaches_empty {path : KeyPath} (hpath : path.ThroughMappings) {kind : NodeKind}
    (hkind : path ≠ [] → kind = .mapping) : (Node.empty kind).reaches path = true := by
  rw [← isSome_editAt (fun n => (n, n))]
  exact editAt_empty hpath hkind

/-- An edit that makes absent nodes finds its way through a mapping unless something is in it. -/
theorem reaches_eq_false_iff {path : KeyPath} (hpath : path.ThroughMappings) {n : Node}
    (hn : path ≠ [] → n.kind = .mapping) : n.reaches path = false ↔ IsBlocked path n := by
  induction path generalizing n with
  | nil => simp [reaches, not_isBlocked_nil]
  | cons s rest ih =>
    obtain ⟨hs, hrest⟩ := KeyPath.throughMappings_cons.1 hpath
    obtain ⟨m, hm⟩ := kind_eq_mapping_iff.1 (hn (List.cons_ne_nil s rest))
    rw [isBlocked_cons, child?_of_asMapping hm]
    cases hc : editedChild true m s with
    | none =>
      obtain ⟨c, hget, hblocked⟩ := editedChild_true_eq_none_iff.1 hc
      simp only [reaches, hm, hc, true_iff]
      exact ⟨c, hget, .inl hblocked⟩
    | some c =>
      rw [reaches_cons rest hm hc]
      rcases editedChild_eq_some hc with ⟨hget, hk⟩ | ⟨-, rfl, hno⟩
      · rw [ih hrest fun hne => hk.trans (hs hne), hget]
        simp [hk]
      -- a null that counts as absent is not in the way, and has nothing below it
      · rw [reaches_empty hrest hs]
        simp only [Bool.true_eq_false, false_iff]
        rintro ⟨d, hd, ⟨-, hvacant⟩ | hblocked⟩
        · rw [hno d hd] at hvacant
          cases hvacant
        · obtain ⟨-, u, rfl⟩ := eq_scalar_of_isVacant (hno d hd)
          exact not_isBlocked_of_childless (fun _ => rfl) rest hblocked

/-! ## Where the keys are -/

/-- The nodes right below a node, in their order: the values of its entries, or its items. -/
def contents (n : Node) : List Node :=
  match n.core with
  | .mapping m => m.map Prod.snd
  | .sequence items => items
  | _ => []

/-- The node at a place, given by the number of the entry or the item at each level. -/
def descend? : List Nat → Node → Option Node
  | [], n => some n
  | i :: rest, n =>
    match n.contents[i]? with
    | some c => descend? rest c
    | none => none

/-- Every mapping of a tree is where it was, with its keys where they were; new ones come last. -/
def KeepsKeys (before after : Node) : Prop :=
  ∀ place n m, before.descend? place = some n → n.asMapping = some m →
    ∃ n' m', after.descend? place = some n' ∧ n'.asMapping = some m' ∧
      m.map Prod.fst <+: m'.map Prod.fst

theorem KeepsKeys.refl (n : Node) : KeepsKeys n n :=
  fun _ x m hx hm => ⟨x, m, hx, hm, List.prefix_rfl⟩

theorem contents_of_asMapping {n : Node} {m : Mapping} (h : n.asMapping = some m) :
    n.contents = m.map Prod.snd := by
  rw [contents, asMapping_eq_some_iff.1 h]

theorem descend?_cons (i : Nat) (rest : List Nat) (n : Node) :
    n.descend? (i :: rest) = n.contents[i]?.bind (descend? rest) := by
  rw [descend?]
  cases n.contents[i]? <;> rfl

theorem keepsKeys_scalar (s : Scalar) (n : Node) : KeepsKeys (.scalar s) n := by
  intro place x m hx hm
  cases place with
  | nil =>
    cases hx
    cases hm
  | cons i rest => cases hx

/-- An insertion leaves every value in its place but the first one of its key. -/
theorem exists_getElem?_insert {P : Node → Node → Prop} (hrefl : ∀ x, P x x) {m : Mapping}
    {key : Scalar} {v : Node} (h : ∀ d, m.get? key.text = some d → P d v) {i : Nat} {d : Node}
    (hd : (m.map Prod.snd)[i]? = some d) :
    ∃ d', ((m.insert key v).map Prod.snd)[i]? = some d' ∧ P d d' := by
  induction m generalizing i with
  | nil => simp at hd
  | cons e m ih =>
    obtain ⟨k, w⟩ := e
    rw [Mapping.insert]
    split
    · rename_i hk
      cases i with
      | zero =>
        cases hd
        exact ⟨v, rfl, h w (by rw [Mapping.get?_cons, if_pos hk])⟩
      | succ i => exact ⟨d, hd, hrefl d⟩
    · rename_i hk
      cases i with
      | zero =>
        cases hd
        exact ⟨w, rfl, hrefl w⟩
      | succ i => exact ih (fun d hd => h d (by rw [Mapping.get?_cons, if_neg hk, hd])) hd

theorem insert_keepsKeys {n : Node} {m : Mapping} (hm : n.asMapping = some m) (key : Scalar)
    {v : Node} (h : ∀ d, m.get? key.text = some d → KeepsKeys d v) :
    KeepsKeys n (n.setCore (.mapping (m.insert key v))) := by
  intro place x old hx hold
  cases place with
  | nil =>
    cases hx
    cases hm.symm.trans hold
    refine ⟨_, m.insert key v, rfl, asMapping_setCore n _, ?_⟩
    rw [Mapping.map_fst_insert]
    split
    · exact List.prefix_rfl
    · exact List.prefix_append _ _
  | cons i rest =>
    rw [descend?_cons, contents_of_asMapping hm, Option.bind_eq_some_iff] at hx
    obtain ⟨d, hd, hx⟩ := hx
    obtain ⟨d', hd', hkeeps⟩ := exists_getElem?_insert KeepsKeys.refl h hd
    obtain ⟨x', m', hx', hm', hkeys⟩ := hkeeps rest x old hx hold
    refine ⟨x', m', ?_, hm', hkeys⟩
    rw [descend?_cons, contents_of_asMapping (asMapping_setCore n _), hd']
    exact hx'

/-- An edit that moves no key of the node that it is made on moves none at all. -/
theorem editAt_keepsKeys {β : Type} {create : Bool} {edit : Node → Node × β}
    (hedit : ∀ x, KeepsKeys x (edit x).1) (path : KeyPath) (n : Node) :
    KeepsKeys n (editAt create edit path n).1 := by
  induction path generalizing n with
  | nil => exact hedit n
  | cons s rest ih =>
    rcases editAt_cons_cases create edit s rest n with ⟨he, -⟩ | ⟨m, c, hm, hc, he⟩
    · rw [he]
      exact .refl n
    · rw [he]
      refine insert_keepsKeys hm (.string s.name) fun d hd => ?_
      rcases editedChild_eq_some hc with ⟨hget, -⟩ | ⟨-, -, hno⟩
      · cases hget.symm.trans hd
        exact ih c
      · obtain ⟨-, u, rfl⟩ := eq_scalar_of_isVacant (hno d hd)
        exact keepsKeys_scalar u _

/-! ## Access -/

/-- A node was found at a path, in a tree where it is; another access finds it without a change, and
nothing else has changed: other paths lead where they led, and no key has moved. -/
structure Accessed (path : KeyPath) (before after x : Node) : Prop where
  found : locate path after = some x
  again : access true path after = (after, some x)
  others : ∀ q : KeyPath, ¬ q.names <+: path.names → locate q after = locate q before
  keys : KeepsKeys before after

theorem access_eq_some {path : KeyPath} {before after x : Node}
    (h : access true path before = (after, some x)) : Accessed path before after x := by
  obtain ⟨y, hy, rfl⟩ := locate_editAt (fun _ _ _ hx => hx) h
  obtain rfl : (access true path before).1 = after := congrArg Prod.fst h
  exact ⟨hy, editAt_of_fixed hy rfl,
    fun q hq => locate_editAt_of_not_prefix hq (fun _ _ => rfl) before,
    editAt_keepsKeys KeepsKeys.refl path before⟩

/-- On a path through mappings access that makes absent nodes finds a node unless another one is in
the way, and then changes nothing; nor does it where the path leads to a node already. -/
theorem absent_nodes_are_made {path : KeyPath} (hpath : path.ThroughMappings) {root : Node}
    (hroot : root.kind = .mapping) :
    ((access true path root).2 = none ↔ IsBlocked path root) ∧
      ((access true path root).2 = none → (access true path root).1 = root) ∧
      (∀ x, locate path root = some x → access true path root = (root, some x)) ∧
      ∀ x, (access true path root).2 = some x →
        Accessed path root (access true path root).1 x := by
  refine ⟨?_, fun h => editAt_blocked hpath (Prod.ext rfl h), fun x hx => editAt_of_fixed hx rfl,
    fun x hx => access_eq_some (Prod.ext rfl hx)⟩
  rw [← reaches_eq_false_iff hpath fun _ => hroot, ← isSome_editAt (fun n => (n, n)),
    Option.isSome_eq_false_iff, Option.isNone_iff_eq_none]
  rfl

/-- Below a tagged mapping a null is filled where it stands, and a tagged null is in the way. -/
theorem absent_nodes_are_made_below_tag :
    let kept : Scalar × Node := (⟨"1", .int, none⟩, .sequence [.mapping [(.string "k", .string "v")]])
    let blocking : Scalar × Node := (.string "c", .scalar ⟨"", .null, some "t"⟩)
    let root : Node := .mapping [(.string "a", .tagged "t" (.mapping
      [kept, (.string "b", .scalar .null), blocking])), (.string "z", .scalar .null)]
    let after : Node := .mapping [(.string "a", .tagged "t" (.mapping
      [kept, (.string "b", .mapping [(.string "d", .sequence [])]), blocking])),
      (.string "z", .scalar .null)]
    let path : KeyPath := KeyPath.of ["a", "b", "d"] .sequence
    let blocked : KeyPath := KeyPath.of ["a", "c", "d"] .sequence
    path.ThroughMappings ∧ blocked.ThroughMappings ∧ root.kind = .mapping ∧
      access true path root = (after, some (.sequence [])) ∧
      Accessed path root after (.sequence []) ∧
      IsBlocked blocked root ∧ access true blocked root = (root, none) := by
  intro kept blocking root after path blocked
  have hpath : path.ThroughMappings := by decide
  have hblocked : blocked.ThroughMappings := by decide
  have hroot : root.kind = .mapping := rfl
  have hmade : access true path root = (after, some (.sequence [])) := by decide
  have hnone : (access true blocked root).2 = none := by decide
  obtain ⟨-, -, -, hfound⟩ := absent_nodes_are_made hpath hroot
  obtain ⟨hiff, hsame, -, -⟩ := absent_nodes_are_made hblocked hroot
  have haccessed := hfound (.sequence []) (by rw [hmade])
  rw [hmade] at haccessed
  exact ⟨hpath, hblocked, hroot, hmade, haccessed, hiff.1 hnone, Prod.ext (hsame hnone) hnone⟩

end Node
end SharedConfig
