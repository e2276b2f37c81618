import SharedConfig.Proofs.Edit

/-!
# SharedConfig.Proofs.Edit.Order

Two edits of one tree, one after the other.  Their paths part before either ends, or are the same
(`KeyPath.Beside`), so neither edit is made on a node that the other one passes through.

* `isSome_editAt`: whether an edit answers depends on the tree alone (`Node.reaches`).
* `reaches_editAt`: an edit opens no way and blocks none, the nodes that it makes included.
* `editAt_swap`: edits of nodes that are there come to the same tree in either order.
-/

namespace SharedConfig

/-- Two paths part before either ends, or are the same, and expect the same shapes up to there. -/
def KeyPath.Beside : KeyPath → KeyPath → Prop
  | [], [] => True
  | s :: p, t :: q => s.name = t.name → s.kind = t.kind ∧ Beside p q
  | _, _ => False

instance KeyPath.decidableBeside : (p q : KeyPath) → Decidable (p.Beside q)
  | [], [] => inferInstanceAs (Decidable True)
  | s :: p, t :: q =>
    have := decidableBeside p q
    inferInstanceAs (Decidable (s.name = t.name → s.kind = t.kind ∧ Beside p q))
  | [], _ :: _ => inferInstanceAs (Decidable False)
  | _ :: _, [] => inferInstanceAs (Decidable False)

theorem PathStep.eq_of_beside {s t : PathStep} {p q : KeyPath}
    (h : KeyPath.Beside (s :: p) (t :: q)) (hname : s.name = t.name) : s = t ∧ p.Beside q := by
  obtain ⟨hkind, hrest⟩ := h hname
  cases s
  cases t
  cases hname
  cases hkind
  exact ⟨rfl, hrest⟩

namespace Node

/-- Whether an edit that makes absent nodes finds its way along a path. -/
def reaches : KeyPath → Node → Bool
  | [], _ => true
  | s :: rest, n =>
    match n.asMapping with
    | none => false
    | some m =>
      match editedChild true m s with
      | none => false
      | some c => reaches rest c

section Edit

variable {β γ : Type} {create : Bool} {edit : Node → Node × β} {other : Node → Node × γ}

theorem isSome_editAt (edit : Node → Node × β) (path : KeyPath) (n : Node) :
    (editAt true edit path n).2.isSome = n.reaches path := by
  induction path generalizing n with
  | nil => rfl
  | cons s rest ih =>
    rw [editAt, reaches]
    cases n.asMapping with
    | none => rfl
    | some m =>
      dsimp only
      cases editedChild true m s with
      | none => rfl
      | some c => exact ih c

theorem kind_editAt_cons (create : Bool) (edit : Node → Node × β) (s : PathStep) (rest : KeyPath)
    (n : Node) : (editAt create edit (s :: rest) n).1.kind = n.kind := by
  rcases editAt_cons_cases create edit s rest n with ⟨he, -⟩ | ⟨m, c, hm, -, he⟩
  · rw [he]
  · rw [he, kind_setCore, kind_eq_mapping_iff.2 ⟨m, hm⟩]
    rfl

theorem kind_editAt (hedit : ∀ x, (edit x).1.kind = x.kind) (path : KeyPath) (n : Node) :
    (editAt create edit path n).1.kind = n.kind := by
  cases path with
  | nil => exact hedit n
  | cons s rest => exact kind_editAt_cons create edit s rest n

theorem kind_editedChild {m : Mapping} {s : PathStep} {c : Node}
    (h : editedChild create m s = some c) : c.kind = s.kind := by
  rcases editedChild_eq_some h with ⟨-, hk⟩ | ⟨-, rfl, -⟩
  · exact hk
  · exact kind_empty s.kind

theorem editedChild_of_present (create : Bool) {m : Mapping} {s : PathStep} {c : Node}
    (h : m.get? s.name = some c) (hk : c.kind = s.kind) : editedChild create m s = some c := by
  rw [editedChild, lookupStep_eq_present_iff.2 ⟨h, hk⟩]

theorem editedChild_congr {m m' : Mapping} {s : PathStep} (h : m'.get? s.name = m.get? s.name) :
    editedChild create m' s = editedChild create m s := by
  rw [editedChild, lookupStep, h, editedChild, lookupStep]

theorem reaches_cons {n : Node} {m : Mapping} {s : PathStep} {c : Node} (rest : KeyPath)
    (hm : n.asMapping = some m) (hc : editedChild true m s = some c) :
    n.reaches (s :: rest) = c.reaches rest := by
  simp only [reaches, hm, hc]

theorem reaches_editAt (hedit : ∀ x, (edit x).1.kind = x.kind) {p q : KeyPath} (h : q.Beside p)
    (n : Node) : (editAt true edit p n).1.reaches q = n.reaches q := by
  induction p generalizing q n with
  | nil =>
    cases q with
    | nil => rfl
    | cons t q => exact h.elim
  | cons s p ih =>
    cases q with
    | nil => rfl
    | cons t q =>
      rcases editAt_cons_cases true edit s p n with ⟨he, -⟩ | ⟨m, c, hm, hc, he⟩
      · rw [he]
      · rw [he]
        by_cases hname : t.name = s.name
        · -- both go into the child that the edit finds or makes
          obtain ⟨rfl, hrest⟩ := PathStep.eq_of_beside h hname
          have hchild := editedChild_of_present true (s := t)
            (Mapping.get?_insert_self m (.string t.name) (editAt true edit p c).1)
            ((kind_editAt hedit p c).trans (kind_editedChild hc))
          rw [reaches_cons q (asMapping_setCore n _) hchild, reaches_cons q hm hc, ih hrest]
        · have hsame : (m.insert (.string s.name) (editAt true edit p c).1).get? t.name =
              m.get? t.name := Mapping.get?_insert_of_ne m _ _ (Ne.symm hname)
          simp only [reaches, asMapping_setCore, asMapping, hm, editedChild_congr hsame]

theorem editAt_cons_of_present {n c : Node} {m : Mapping} {s : PathStep}
    (hm : n.asMapping = some m) (hc : m.get? s.name = some c) (hk : c.kind = s.kind)
    (rest : KeyPath) :
    editAt create edit (s :: rest) n =
      (n.setCore (.mapping (m.insert (.string s.name) (editAt create edit rest c).1)),
        (editAt create edit rest c).2) := by
  rw [editAt, hm]
  dsimp only
  rw [editedChild_of_present create hc hk]

/-- Edits of nodes that are there come to the same tree in either order, and the later one answers
what it answers by itself, if that is so of edits of one node. -/
theorem editAt_swap (hedit : ∀ x, (edit x).1.kind = x.kind)
    (hother : ∀ x, (other x).1.kind = x.kind) {p q : KeyPath} (h : p.Beside q) {n x y : Node}
    (hp : locate p n = some x) (hq : locate q n = some y)
    (hsame : p = q → other (edit x).1 = ((edit (other x).1).1, (other x).2)) :
    editAt create other q (editAt create edit p n).1 =
      ((editAt create edit p (editAt create other q n).1).1, (editAt create other q n).2) := by
  induction p generalizing q n with
  | nil =>
    cases q with
    | nil =>
      cases hp
      simp only [editAt_root]
      rw [hsame rfl]
    | cons t q => exact h.elim
  | cons s p ih =>
    cases q with
    | nil => exact h.elim
    | cons t q =>
      obtain ⟨c, hc, hck, hx⟩ := locate_cons_eq_some_iff.1 hp
      obtain ⟨d, hd, hdk, hy⟩ := locate_cons_eq_some_iff.1 hq
      obtain ⟨m, hm⟩ := exists_asMapping_of_child? hc
      rw [child?_of_asMapping hm] at hc hd
      rw [editAt_cons_of_present hm hc hck, editAt_cons_of_present hm hd hdk]
      dsimp only
      by_cases hname : s.name = t.name
      · -- both edits go into one child, and what the second one inserts replaces what the first did
        obtain ⟨rfl, hrest⟩ := PathStep.eq_of_beside h hname
        obtain rfl : c = d := Option.some.inj (hc.symm.trans hd)
        have hpast : ∀ v, (m.insert (.string s.name) v).get? s.name = some v :=
          Mapping.get?_insert_self m (.string s.name)
        rw [editAt_cons_of_present (asMapping_setCore n _) (hpast _)
            ((kind_editAt hedit p c).trans hck),
          editAt_cons_of_present (asMapping_setCore n _) (hpast _)
            ((kind_editAt hother q c).trans hck),
          ih hrest hx hy fun hpq => hsame (hpq ▸ rfl)]
        simp only [setCore_setCore, setCore_mapping, Mapping.insert_insert]
      · -- of two children each is still there after the edit of the other
        have hd' : (m.insert (.string s.name) (editAt create edit p c).1).get? t.name = some d :=
          (Mapping.get?_insert_of_ne m _ _ hname).trans hd
        have hc' : (m.insert (.string t.name) (editAt create other q d).1).get? s.name = some c :=
          (Mapping.get?_insert_of_ne m _ _ (Ne.symm hname)).trans hc
        rw [editAt_cons_of_present (asMapping_setCore n _) hd' hdk,
          editAt_cons_of_present (asMapping_setCore n _) hc' hck]
        simp only [setCore_setCore, setCore_mapping]
        rw [Mapping.insert_comm hname (Mapping.mem_keys_of_get? hc)]

end Edit

end Node
end SharedConfig
