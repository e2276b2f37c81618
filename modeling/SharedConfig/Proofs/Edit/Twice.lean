import Mathlib.Data.List.Induction
import Mathlib.Data.List.Infix
import SharedConfig.Proofs.Edit.Writing

/-!
# SharedConfig.Proofs.Edit.Twice

One edit after another at one place, and edits in parts of their way.

An entry that is dropped right after it was added leaves the tree that access alone would have made.
What access makes hangs on one mapping that was absent, and each level of it is empty once the level
below is dropped; so pruning takes all of it and stops at the first node that was there before, if
that holds something (`IsFull`).

* `editAt_append`: an edit along a path is an edit, along its first part, that goes on along the rest.
* `editAt_editAt`: two edits at one place are one.
* `editAt_congr`: an edit depends on what it does to the node that it is made on.
* `dropKey_editAt`: an entry that an edit adds is dropped, and what was made on the way stays.
* `pruneEmpty_access`: what was made on the way is dropped.
* `exists_removeKey_of_setScalar`: a text that is written where no entry was is dropped, and then so
  is all that was made on the way to it.
-/

namespace SharedConfig

theorem Mapping.erase_insert_of_absent {m : Mapping} {key : String} (h : key ∉ m.keys) (v : Node) :
    (m.insert (.string key) v).erase key = m := by
  induction m with
  | nil => simp [insert, erase]
  | cons e m ih =>
    obtain ⟨k, w⟩ := e
    rw [keys_cons, List.mem_cons, not_or] at h
    have hk : k.text ≠ key := Ne.symm h.1
    simp [insert, erase, hk, ih h.2]

namespace Node

section Edit

variable {β γ : Type} {create : Bool}

theorem editAt_append (create : Bool) (edit : Node → Node × β) (p q : KeyPath) (n : Node) :
    editAt create edit (p ++ q) n =
      ((editAt create (editAt create edit q) p n).1,
        (editAt create (editAt create edit q) p n).2.join) := by
  induction p generalizing n with
  | nil => rfl
  | cons s p ih =>
    rw [List.cons_append, editAt, editAt]
    cases n.asMapping with
    | none => rfl
    | some m =>
      dsimp only
      cases editedChild create m s with
      | none => rfl
      | some c =>
        dsimp only
        rw [ih c]

/-- An edit at the place of one that answered is made on what that left there. -/
theorem editAt_editAt {f : Node → Node × β} (g : Node → Node × γ)
    (hkind : ∀ x, (f x).1.kind = x.kind) (again : Bool) {path : KeyPath} {n n' : Node} {b : β}
    (h : editAt create f path n = (n', some b)) :
    editAt again g path n' = editAt create (fun x => g (f x).1) path n := by
  induction path generalizing n n' b with
  | nil =>
    cases h
    rfl
  | cons s rest ih =>
    rcases editAt_cons_cases create f s rest n with ⟨he, -⟩ | ⟨m, c, hm, hc, he⟩
    · rw [he] at h
      cases h
    · rw [he] at h
      obtain ⟨rfl, hb⟩ := Prod.mk.inj h
      have hrest := ih (Prod.ext rfl hb)
      have hget := Mapping.get?_insert_self m (.string s.name) (editAt create f rest c).1
      rw [editAt_cons_of_present (asMapping_setCore n _) hget
        ((kind_editAt hkind rest c).trans (kind_editedChild hc)), hrest, editAt, hm]
      dsimp only
      rw [hc]
      simp only [setCore_setCore, setCore_mapping, Mapping.insert_insert]

theorem editAt_congr {f g : Node → Node × β} {path : KeyPath} {n : Node}
    (h : ∀ x, (access create path n).2 = some x → f x = g x) :
    editAt create f path n = editAt create g path n := by
  induction path generalizing n with
  | nil => rw [editAt_root, editAt_root, h n rfl]
  | cons s rest ih =>
    rw [access, editAt] at h
    rw [editAt, editAt]
    cases hm : n.asMapping with
    | none => rfl
    | some m =>
      rw [hm] at h
      dsimp only at h ⊢
      cases hc : editedChild create m s with
      | none => rfl
      | some c =>
        rw [hc] at h
        dsimp only at h ⊢
        rw [ih h]

end Edit

/-! ## Entries that are added and dropped -/

section Restore

variable {above : List String} {key : String} {root made x : Node}

theorem child?_of_access (h : access true (KeyPath.of above .mapping) root = (made, some x))
    (key : String) : x.child? key = root.at? (above ++ [key]) := by
  obtain ⟨y, hy, rfl, -⟩ := editAt_some h
  have hkept := @at?_editAt _ true (fun n => (n, n)) [key] (List.cons_ne_nil _ _) (fun _ => rfl)
    (KeyPath.of above .mapping) root
  have hmade : (editAt true (fun n => (n, n)) (KeyPath.of above .mapping) root).1 = made :=
    congrArg Prod.fst h
  rw [hmade, KeyPath.names_of, at?_append] at hkept
  rw [KeyPath.names_of] at hy
  rw [← hkept, hy, Option.bind_some, at?_singleton]

/-- Of two edits at a place through mappings that make absent nodes, one answers if the other does.
-/
theorem exists_editAt_eq_some {β γ : Type} {f : Node → Node × β} (g : Node → Node × γ)
    (hroot : root.kind = .mapping) {after : Node} {b : β}
    (h : editAt true f (KeyPath.of above .mapping) root = (after, some b)) :
    ∃ after' b', editAt true g (KeyPath.of above .mapping) root = (after', some b') := by
  obtain ⟨after', answer, he⟩ : ∃ after' answer,
      editAt true g (KeyPath.of above .mapping) root = (after', answer) := ⟨_, _, rfl⟩
  cases answer with
  | some b' => exact ⟨after', b', he⟩
  | none =>
    have hnone := (isBlocked_iff_editAt_eq_none f hroot).1
      ((isBlocked_iff_editAt_eq_none g hroot).2 (by rw [he]))
    rw [h] at hnone
    cases hnone

/-- Of an edit that adds an entry at the end of its way nothing stays, when the entry is dropped,
but what was made on the way. -/
theorem dropKey_editAt {β : Type} {put : Node → Node × β} (hroot : root.kind = .mapping)
    (hkind : ∀ n, (put n).1.kind = n.kind)
    (hput : ∀ n m, n.asMapping = some m → key ∉ m.keys →
      ∃ v, (put n).1 = n.setCore (.mapping (m.insert (.string key) v)))
    (habsent : root.at? (above ++ [key]) = none)
    (h : access true (KeyPath.of above .mapping) root = (made, some x)) :
    editAt false (dropKey key) (KeyPath.of above .mapping)
      (editAt true put (KeyPath.of above .mapping) root).1 = (made, some true) := by
  obtain ⟨after, b, he⟩ := exists_editAt_eq_some put hroot h
  obtain ⟨y, -, hxy, hfound⟩ := editAt_some h
  obtain rfl : x = y := hxy
  obtain ⟨m, hm⟩ := kind_eq_mapping_iff.1 (kind_of_found hroot hfound)
  have hkey : key ∉ m.keys := by
    rw [← Mapping.get?_eq_none_iff, ← child?_of_asMapping hm, child?_of_access h, habsent]
  obtain ⟨v, hv⟩ := hput x m hm hkey
  have hget : (m.insert (.string key) v).get? key = some v :=
    Mapping.get?_insert_self m (.string key) v
  have hundone : dropKey key (put x).1 = (x, true) := by
    rw [dropKey, hv, asMapping_setCore]
    simp only [Mapping.contains, hget, asMapping, setCore_setCore, setCore_mapping,
      Mapping.erase_insert_of_absent hkey, setCore_asMapping hm, Option.isSome_some]
  have hsame : ∀ y, (access true (KeyPath.of above .mapping) root).2 = some y →
      dropKey key (put y).1 = (y, true) := by
    intro y hy
    rw [h] at hy
    cases hy
    exact hundone
  rw [he, editAt_editAt (dropKey key) hkind false he, editAt_congr hsame,
    editAt_eq_access true (fun _ => rfl), h]
  rfl

/-! ## What is made on the way -/

/-- Nothing on the way is an empty mapping, or a null where a mapping is expected. -/
def IsFull (keys : List String) (root : Node) : Prop :=
  ∀ names, names <+: keys → names ≠ [] → ∀ c, root.at? names = some c →
    c ≠ .mapping [] ∧ c.isVacant .mapping = false

instance (keys : List String) (root : Node) : Decidable (IsFull keys root) :=
  decidable_of_iff (∀ names ∈ keys.inits, names ≠ [] → ∀ c ∈ root.at? names,
    c ≠ .mapping [] ∧ c.isVacant .mapping = false) <| by
      simp only [List.mem_inits, Option.mem_def, IsFull]

theorem IsFull.of_append {below : List String} (h : IsFull (above ++ below) root) :
    IsFull above root :=
  fun names hnames => h names (hnames.trans (List.prefix_append above below))

theorem isEmptyValue_eq_false {c : Node} (hk : c.kind = .mapping) (hne : c ≠ .mapping []) :
    c.isEmptyValue = false := by
  cases c with
  | scalar s => cases hk
  | sequence items => cases hk
  | mapping m => exact Bool.eq_false_iff.2 fun h => hne (congrArg Node.mapping (List.isEmpty_iff.1 h))
  | tagged t n => rfl

theorem pruneEmpty_append (path : KeyPath) (s : PathStep) (n : Node) :
    pruneEmpty (path ++ [s]) n =
      if (n.locate (path ++ [s])).any isEmptyValue then
        ((pruneEmpty path (n.removeKey (path ++ [s])).1).1,
          (n.removeKey (path ++ [s])).2 || (pruneEmpty path (n.removeKey (path ++ [s])).1).2)
      else (n, false) := by
  simp only [pruneEmpty, List.reverse_append, List.reverse_cons, List.reverse_nil, List.nil_append,
    List.singleton_append, pruneFrom, List.reverse_reverse]

theorem access_singleton {n : Node} {m : Mapping} (hm : n.asMapping = some m) (h : key ∉ m.keys) :
    access true [⟨key, .mapping⟩] n =
      (n.setCore (.mapping (m.insert (.string key) (.mapping []))), some (.mapping [])) := by
  have hchild : editedChild true m ⟨key, .mapping⟩ = some (.mapping []) := by
    rw [editedChild, lookupStep, Mapping.get?_eq_none_iff.2 h]
    rfl
  rw [access, editAt, hm]
  dsimp only
  rw [hchild]
  rfl

theorem access_of_present {c : Node} (hroot : root.kind = .mapping)
    (hc : root.at? (above ++ [key]) = some c) (hvacant : c.isVacant .mapping = false)
    (h : access true (KeyPath.of (above ++ [key]) .mapping) root = (made, some x)) :
    made = root ∧ x = c ∧ c.kind = .mapping := by
  have hk : c.kind = .mapping := by
    by_contra hk
    have hblocked : IsBlocked (KeyPath.of (above ++ [key]) .mapping) root := by
      refine ⟨KeyPath.of above .mapping, ⟨key, .mapping⟩, [], c,
        KeyPath.of_append_singleton above key .mapping, ?_, hk, hvacant⟩
      rw [KeyPath.names_of]
      exact hc
    have hnone : (access true (KeyPath.of (above ++ [key]) .mapping) root).2 = none :=
      (isBlocked_iff_editAt_eq_none (fun n => (n, n)) hroot).1 hblocked
    rw [h] at hnone
    cases hnone
  have hfixed : access true (KeyPath.of (above ++ [key]) .mapping) root = (root, some c) :=
    editAt_of_fixed ((locate_of_eq_some_iff (by simp)).2 ⟨hc, hk⟩) rfl
  rw [h] at hfixed
  cases hfixed
  exact ⟨rfl, rfl, hk⟩

/-- A node that was not there is made empty, and its entry is dropped again. -/
theorem removeKey_access (hroot : root.kind = .mapping)
    (habsent : root.at? (above ++ [key]) = none)
    (h : access true (KeyPath.of (above ++ [key]) .mapping) root = (made, some x)) :
    x = .mapping [] ∧ ∃ above' y, access true (KeyPath.of above .mapping) root = (above', some y) ∧
      (made.removeKey (KeyPath.of (above ++ [key]) .mapping)).1 = above' := by
  constructor
  · obtain ⟨y, -, hxy, hfound⟩ := editAt_some h
    obtain rfl : x = y := hxy
    rcases hfound with hl | ⟨-, -, s, hs, rfl⟩
    · rw [((locate_of_eq_some_iff (by simp)).1 hl).1] at habsent
      cases habsent
    · rw [kind_of_mem_of (List.mem_of_getLast? hs)]
      rfl
  · rw [access, KeyPath.of_append_singleton, editAt_append] at h
    obtain ⟨rfl, hanswer⟩ := Prod.mk.inj h
    obtain ⟨above', y, hy⟩ := exists_editAt_eq_some (fun n => (n, n)) hroot
      (Prod.ext rfl (Option.join_eq_some_iff.1 hanswer))
    refine ⟨above', y, hy, ?_⟩
    rw [removeKey_of]
    refine congrArg Prod.fst (dropKey_editAt hroot (fun n => kind_editAt_cons true _ _ [] n) ?_
      habsent hy)
    intro n m hm hkey
    exact ⟨.mapping [], congrArg Prod.fst (access_singleton hm hkey)⟩

/-- What access has made on its way is dropped, and nothing else, where nothing was empty. -/
theorem pruneEmpty_access (hroot : root.kind = .mapping) (hfull : IsFull above root)
    (h : access true (KeyPath.of above .mapping) root = (made, some x)) :
    (made.pruneEmpty (KeyPath.of above .mapping)).1 = root := by
  induction above using List.reverseRecOn generalizing made x with
  | nil =>
    cases h
    rfl
  -- the last node on the way was there, or it was made and goes with all that was made above it
  | append_singleton above key ih =>
    have hfound := (access_eq_some h).found
    rw [KeyPath.of_append_singleton] at hfound ⊢
    rw [pruneEmpty_append, hfound, Option.any_some, ← KeyPath.of_append_singleton]
    cases hc : root.at? (above ++ [key]) with
    | some c =>
      obtain ⟨hne, hvacant⟩ := hfull _ List.prefix_rfl (by simp) c hc
      obtain ⟨rfl, rfl, hk⟩ := access_of_present hroot hc hvacant h
      rw [isEmptyValue_eq_false hk hne, if_neg Bool.false_ne_true]
    | none =>
      obtain ⟨rfl, above', y, hy, hremoved⟩ := removeKey_access hroot hc h
      have hempty : (mapping []).isEmptyValue = true := rfl
      rw [hempty, if_pos rfl, hremoved]
      exact ih hfull.of_append hy

theorem kind_writeKey (key value : String) (n : Node) : (writeKey key value n).1.kind = n.kind := by
  cases hm : n.asMapping with
  | none => rw [writeKey, hm]
  | some m =>
    rw [writeKey_of_asMapping hm]
    split
    · rfl
    · rw [kind_setCore, kind_eq_mapping_iff.2 ⟨m, hm⟩]
      rfl

/-- A text that is written where no entry was is dropped, and then so is what was made for it. -/
theorem exists_removeKey_of_setScalar {value : String} (hroot : root.kind = .mapping)
    (hfull : IsFull above root) (habsent : root.at? (above ++ [key]) = none)
    (h : (root.setScalar (KeyPath.of (above ++ [key]) .scalar) value).2 = true) :
    ∃ made, (root.setScalar (KeyPath.of (above ++ [key]) .scalar) value).1.removeKey
        (KeyPath.of (above ++ [key]) .scalar) = (made, true) ∧
      (made.pruneEmpty (KeyPath.of above .mapping)).1 = root := by
  rw [setScalar_of] at h ⊢
  obtain ⟨after, answer, he⟩ : ∃ after answer,
      editAt true (writeKey key value) (KeyPath.of above .mapping) root = (after, answer) :=
    ⟨_, _, rfl⟩
  cases answer with
  | none =>
    rw [he] at h
    cases h
  | some written =>
    obtain ⟨made, x, hmade⟩ := exists_editAt_eq_some (fun n => (n, n)) hroot he
    refine ⟨made, ?_, pruneEmpty_access hroot hfull hmade⟩
    rw [removeKey_of, dropKey_editAt hroot (kind_writeKey key value) ?_ habsent hmade]
    · rfl
    · intro n m hm hkey
      refine ⟨.string value, ?_⟩
      rw [writeKey_of_asMapping hm, Mapping.get?_eq_none_iff.2 hkey]
      rfl

end Restore

end Node
end SharedConfig
