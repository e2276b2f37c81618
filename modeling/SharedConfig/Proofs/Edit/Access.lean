import SharedConfig.Proofs.Edit.Order

/-!
# SharedConfig.Proofs.Edit.Access

The two ways to a node: a look along a path, and an edit at it.

An edit is given the node that its path leads to, so what it is given is what is found by way of an
edit (`access`).  Both ways take the same branch at every step, and the look still finds its way
after the edit, at every path that does not end above the edited node.

* `access_false`: where nothing is made, both find the same node.
* `editAt_eq_access`: an edit that leaves alone what it is made on does what access does.
* `locate_editAt`: after an edit its path leads to the edited node.
* `locate_editAt_of_not_prefix`: an edit leaves alone what is found at other paths.
* `locators_agree`: the two ways, and a node that is put in the place of the one found.
-/

namespace SharedConfig
namespace Node

/-- The node at a path as an edit finds it, and the tree that it is in then; `create` makes absent
nodes on the way. -/
def access (create : Bool) (path : KeyPath) (root : Node) : Node × Option Node :=
  editAt create (fun n => (n, n)) path root

/-- Put a node in the place of the one at a path, if there is one.  The answer is the one that was
there. -/
def overwrite (path : KeyPath) (new root : Node) : Node × Option Node :=
  editAt false (fun n => (new, n)) path root

/-! ## What is found -/

theorem locate_of_childless {c : Node} (h : ∀ key, c.child? key = none) {path : KeyPath}
    (hne : path ≠ []) : locate path c = none := by
  cases path with
  | nil => exact absurd rfl hne
  | cons s rest =>
    refine Option.eq_none_iff_forall_ne_some.2 fun x hx => ?_
    obtain ⟨d, hd, -⟩ := locate_cons_eq_some_iff.1 hx
    rw [h] at hd
    cases hd

/-- What is found below a key depends on what is under that key alone. -/
theorem locate_cons_congr {n n' : Node} {s : PathStep} (h : n'.child? s.name = n.child? s.name)
    (rest : KeyPath) : locate (s :: rest) n' = locate (s :: rest) n := by
  refine Option.ext fun x => ?_
  rw [locate_cons_eq_some_iff, locate_cons_eq_some_iff, h]

theorem locate_editedChild {create : Bool} {m : Mapping} {s : PathStep} {c : Node}
    (h : editedChild create m s = some c) {n : Node} (hm : n.asMapping = some m) {t : PathStep}
    (ht : t.name = s.name) {rest : KeyPath} (hne : rest ≠ []) (x : Node) :
    locate (t :: rest) n = some x ↔ c.kind = t.kind ∧ locate rest c = some x := by
  rw [locate_cons_eq_some_iff, child?_of_asMapping hm, ht]
  rcases editedChild_eq_some h with ⟨hget, -⟩ | ⟨-, rfl, hno⟩
  · rw [hget]
    simp
  -- neither an empty node nor the null that it may replace has anything below it
  · rw [locate_of_childless (child?_empty s.kind) hne]
    refine ⟨?_, fun hx => nomatch hx.2⟩
    rintro ⟨d, hd, -, hx⟩
    obtain ⟨-, u, rfl⟩ := eq_scalar_of_isVacant (hno d hd)
    rw [locate_of_childless (fun _ => rfl) hne] at hx
    cases hx

section Edit

variable {β : Type} {create : Bool} {edit : Node → Node × β}

theorem locate_editAt {path : KeyPath}
    (hkind : ∀ s, path.getLast? = some s → ∀ x, x.kind = s.kind → (edit x).1.kind = s.kind)
    {n n' : Node} {b : β} (h : editAt create edit path n = (n', some b)) :
    ∃ x, locate path n' = some (edit x).1 ∧ b = (edit x).2 := by
  induction path generalizing n n' b with
  | nil =>
    rw [editAt_root] at h
    cases h
    exact ⟨n, rfl, rfl⟩
  | cons s rest ih =>
    rcases editAt_cons_cases create edit s rest n with ⟨he, -⟩ | ⟨m, c, hm, hc, he⟩
    · rw [he] at h
      cases h
    · rw [he] at h
      obtain ⟨rfl, hb⟩ := Prod.mk.inj h
      have hlast : ∀ t, rest.getLast? = some t → ∀ x, x.kind = t.kind → (edit x).1.kind = t.kind :=
        fun t ht => hkind t (by rw [List.getLast?_cons, ht]; rfl)
      obtain ⟨x, hx, hbx⟩ := ih hlast (Prod.ext rfl hb)
      refine ⟨x, locate_cons_eq_some_iff.2 ⟨_, child?_setCore_insert n m s.name _, ?_, hx⟩, hbx⟩
      have hck : c.kind = s.kind := kind_editedChild hc
      cases rest with
      | nil => exact hkind s rfl c hck
      | cons t rest => rw [kind_editAt_cons, hck]

/-- An edit leaves alone what is found at the paths that do not end on its way, unless they lead
through the edited node; and these too, if it changes nothing. -/
theorem locate_editAt_of_not_prefix {path q : KeyPath} (hq : ¬ q.names <+: path.names)
    (hpath : path.names <+: q.names → ∀ x, (edit x).1 = x) (n : Node) :
    locate q (editAt create edit path n).1 = locate q n := by
  induction path generalizing q n with
  | nil => rw [editAt_root, hpath List.nil_prefix]
  | cons s rest ih =>
    cases q with
    | nil => exact absurd List.nil_prefix hq
    | cons t q =>
      rcases editAt_cons_cases create edit s rest n with ⟨he, -⟩ | ⟨m, c, hm, hc, he⟩
      · rw [he]
      · rw [he]
        by_cases hname : t.name = s.name
        · have hrest : ¬ KeyPath.names q <+: KeyPath.names rest := fun h =>
            hq (List.cons_prefix_cons.2 ⟨hname, h⟩)
          have hbelow : KeyPath.names rest <+: KeyPath.names q → ∀ x, (edit x).1 = x := fun h =>
            hpath (List.cons_prefix_cons.2 ⟨hname.symm, h⟩)
          have hne : q ≠ [] := fun hnil => hrest (hnil ▸ List.nil_prefix)
          have hkind : (editAt create edit rest c).1.kind = c.kind := by
            cases rest with
            | nil => rw [editAt_root, hbelow List.nil_prefix]
            | cons u rest => exact kind_editAt_cons create edit u rest c
          refine Option.ext fun x => ?_
          rw [locate_editedChild hc hm hname hne, locate_cons_eq_some_iff, hname,
            child?_setCore_insert, ← hkind, ← ih hrest hbelow c]
          simp
        · refine locate_cons_congr ?_ q
          rw [child?_setCore, child?_of_asMapping hm,
            Mapping.get?_insert_of_ne m _ _ (Ne.symm hname)]

end Edit

/-! ## The two ways -/

/-- An edit that leaves alone what it is made on does what access does. -/
theorem editAt_eq_access {β : Type} (create : Bool) {edit : Node → Node × β}
    (hedit : ∀ x, (edit x).1 = x) (path : KeyPath) (n : Node) :
    editAt create edit path n =
      ((access create path n).1, (access create path n).2.map fun x => (edit x).2) := by
  induction path generalizing n with
  | nil => exact Prod.ext (hedit n) rfl
  | cons s rest ih =>
    rw [access, editAt, editAt]
    cases n.asMapping with
    | none => rfl
    | some m =>
      dsimp only
      cases editedChild create m s with
      | none => rfl
      | some c =>
        dsimp only
        rw [ih c]
        rfl

theorem access_false (path : KeyPath) (root : Node) :
    access false path root = (root, locate path root) := by
  cases hl : locate path root with
  | some x => exact editAt_of_fixed hl rfl
  | none =>
    obtain ⟨after, answer, he⟩ : ∃ after answer, access false path root = (after, answer) :=
      ⟨_, _, rfl⟩
    cases answer with
    | none =>
      obtain ⟨rfl, -⟩ := editAt_none he
      exact he
    | some x =>
      obtain ⟨y, -, -, hfound | ⟨hcreate, -⟩⟩ := editAt_some he
      · rw [hl] at hfound
        cases hfound
      · cases hcreate

theorem overwrite_of_locate {path : KeyPath} {root found : Node} (hl : locate path root = some found)
    {last : PathStep} (hlast : path.getLast? = some last) {new : Node} (hkind : new.kind = last.kind) :
    (overwrite path new root).2 = some found ∧
      locate path (overwrite path new root).1 = some new := by
  obtain ⟨after, answer, he⟩ : ∃ after answer, overwrite path new root = (after, answer) :=
    ⟨_, _, rfl⟩
  rw [he]
  cases answer with
  | none =>
    rw [(editAt_none he).2] at hl
    cases hl
  | some b =>
    obtain ⟨x, -, rfl, hx | ⟨hcreate, -⟩⟩ := editAt_some he
    · rw [hl] at hx
      cases hx
      obtain ⟨_, hnew, -⟩ := locate_editAt
        (fun s hs _ _ => by rw [hlast] at hs; cases hs; exact hkind) he
      exact ⟨rfl, hnew⟩
    · cases hcreate

/-- A look and an edit find the same node at every path, whatever shapes its steps expect, and it is
found without a change.  A node of the expected shape that is put in its place is found there, and
at paths that part from this one everything is found as before. -/
theorem locators_agree (path : KeyPath) (root : Node) :
    access false path root = (root, locate path root) ∧
    ∀ (last : PathStep) (found new : Node), path.getLast? = some last →
      access false path root = (root, some found) → new.kind = last.kind →
      (overwrite path new root).2 = some found ∧
      locate path (overwrite path new root).1 = some new ∧
      ∀ q : KeyPath, ¬ q.names <+: path.names → ¬ path.names <+: q.names →
        locate q (overwrite path new root).1 = locate q root := by
  refine ⟨access_false path root, fun last found new hlast hfound hkind => ?_⟩
  have hl : locate path root = some found := by
    rw [access_false] at hfound
    exact (Prod.mk.inj hfound).2
  obtain ⟨hanswer, hnew⟩ := overwrite_of_locate hl hlast hkind
  exact ⟨hanswer, hnew,
    fun q hq hpath => locate_editAt_of_not_prefix hq (fun h => absurd h hpath) root⟩

/-- Through a tagged mapping with a key that stands twice, a sequence under a tag is replaced by one
without; next to it are a null, a number and a tagged null. -/
theorem locators_agree_through_tag :
    let root : Node := .mapping [
      (.string "a", .tagged "t" (.mapping [(.string "b", .tagged "u" (.sequence [.string "x"])),
        (.string "c", .scalar .null), (⟨"b", .str, some "t"⟩, .string "second")])),
      (.string "a", .mapping []), (⟨"1", .int, none⟩, .scalar ⟨"2", .int, none⟩),
      (.string "d", .scalar ⟨"", .null, some "t"⟩)]
    let path : KeyPath := [⟨"a", .mapping⟩, ⟨"b", .sequence⟩]
    let q : KeyPath := [⟨"a", .mapping⟩, ⟨"c", .scalar⟩]
    let new : Node := .sequence []
    path.getLast? = some ⟨"b", .sequence⟩ ∧ new.kind = .sequence ∧
      access false path root = (root, some (.tagged "u" (.sequence [.string "x"]))) ∧
      (overwrite path new root).2 = some (.tagged "u" (.sequence [.string "x"])) ∧
      locate path (overwrite path new root).1 = some new ∧
      ¬ q.names <+: path.names ∧ ¬ path.names <+: q.names ∧
      locate q (overwrite path new root).1 = some (.scalar .null) := by
  intro root path q new
  have hfound : access false path root = (root, some (.tagged "u" (.sequence [.string "x"]))) := by
    rw [(locators_agree path root).1]
    decide
  have hq : ¬ q.names <+: path.names := by decide
  have hpath : ¬ path.names <+: q.names := by decide
  obtain ⟨hanswer, hnew, hothers⟩ :=
    (locators_agree path root).2 ⟨"b", .sequence⟩ _ new rfl hfound rfl
  exact ⟨rfl, rfl, hfound, hanswer, hnew, hq, hpath, (hothers q hq hpath).trans (by decide)⟩

end Node
end SharedConfig
