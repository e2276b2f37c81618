import SharedConfig.Entity
import SharedConfig.Proofs.Mapping

/-!
# SharedConfig.Proofs.Tree

Trees seen through their tags: what is under a key, what is at the end of a list of keys, and what
stays when the content of a tagged node is replaced.

* `asMapping_setCore`, `kind_setCore`, `tags_setCore`: the new content counts, under the old tags.
* `at?_append`: a list of keys is followed one piece after the other.
* `Unambiguous`: no mapping of a tree has two keys of one text, and no sequence has two entities of
  one name.
-/

namespace SharedConfig
namespace Node

/-! ## Tags and contents -/

/-- The tags around a collection, from the outside. -/
def tags : Node → List String
  | .tagged t n => t :: n.tags
  | _ => []

@[simp] theorem core_tagged (t : String) (n : Node) : (Node.tagged t n).core = n.core := rfl

@[simp] theorem setCore_tagged (t : String) (n new : Node) :
    (Node.tagged t n).setCore new = .tagged t (n.setCore new) := rfl

@[simp] theorem setCore_sequence (items : List Node) (new : Node) :
    (Node.sequence items).setCore new = new := rfl

@[simp] theorem setCore_mapping (m : Mapping) (new : Node) :
    (Node.mapping m).setCore new = new := rfl

theorem tagged_induction {motive : Node → Prop} (scalar : ∀ s, motive (.scalar s))
    (sequence : ∀ items, motive (.sequence items)) (mapping : ∀ m, motive (.mapping m))
    (tagged : ∀ t n, motive n → motive (.tagged t n)) (n : Node) : motive n := by
  induction n using Node.core.induct with
  | case1 t n ih => exact tagged t n ih
  | case2 n h =>
    cases n with
    | scalar s => exact scalar s
    | sequence items => exact sequence items
    | mapping m => exact mapping m
    | tagged t n => exact absurd rfl (h t n)

theorem tree_induction {motive : Node → Prop} (scalar : ∀ s, motive (.scalar s))
    (sequence : ∀ items, (∀ n ∈ items, motive n) → motive (.sequence items))
    (mapping : ∀ m : Mapping, (∀ e ∈ m, motive e.2) → motive (.mapping m))
    (tagged : ∀ t n, motive n → motive (.tagged t n)) (n : Node) : motive n := by
  refine @Node.rec motive (fun items => ∀ n ∈ items, motive n) (fun m => ∀ e ∈ m, motive e.2)
    (fun e => motive e.2) scalar sequence mapping tagged ?_ ?_ ?_ ?_ ?_ n
  · exact fun _ h => nomatch h
  · exact fun _ _ hn hrest => List.forall_mem_cons.2 ⟨hn, hrest⟩
  · exact fun _ h => nomatch h
  · exact fun _ _ he hrest => List.forall_mem_cons.2 ⟨he, hrest⟩
  · exact fun _ _ hn => hn

theorem asMapping_eq_some_iff {n : Node} {m : Mapping} :
    n.asMapping = some m ↔ n.core = .mapping m := by
  induction n using tagged_induction with
  | scalar s => simp [asMapping, core]
  | sequence items => simp [asMapping, core]
  | mapping m' => simp [asMapping, core]
  | tagged t n ih => exact ih

theorem asSequence_eq_some_iff {n : Node} {items : List Node} :
    n.asSequence = some items ↔ n.core = .sequence items := by
  induction n using tagged_induction with
  | scalar s => simp [asSequence, core]
  | sequence items' => simp [asSequence, core]
  | mapping m => simp [asSequence, core]
  | tagged t n ih => exact ih

theorem kind_eq_mapping_iff {n : Node} : n.kind = .mapping ↔ ∃ m, n.asMapping = some m := by
  induction n using tagged_induction with
  | scalar s => simp [asMapping, kind]
  | sequence items => simp [asMapping, kind]
  | mapping m => simp [asMapping, kind]
  | tagged t n ih => exact ih

theorem kind_eq_sequence_iff {n : Node} : n.kind = .sequence ↔ ∃ items, n.asSequence = some items := by
  induction n using tagged_induction with
  | scalar s => simp [asSequence, kind]
  | sequence items => simp [asSequence, kind]
  | mapping m => simp [asSequence, kind]
  | tagged t n ih => exact ih

theorem asMapping_eq_none {n : Node} (h : n.kind ≠ .mapping) : n.asMapping = none := by
  cases hm : n.asMapping with
  | none => rfl
  | some m => exact absurd (kind_eq_mapping_iff.2 ⟨m, hm⟩) h

theorem asSequence_eq_none {n : Node} (h : n.kind ≠ .sequence) : n.asSequence = none := by
  cases hs : n.asSequence with
  | none => rfl
  | some items => exact absurd (kind_eq_sequence_iff.2 ⟨items, hs⟩) h

@[simp] theorem asMapping_setCore (n new : Node) : (n.setCore new).asMapping = new.asMapping := by
  induction n using tagged_induction with
  | tagged t n ih => exact ih
  | _ => rfl

@[simp] theorem asSequence_setCore (n new : Node) :
    (n.setCore new).asSequence = new.asSequence := by
  induction n using tagged_induction with
  | tagged t n ih => exact ih
  | _ => rfl

@[simp] theorem kind_setCore (n new : Node) : (n.setCore new).kind = new.kind := by
  induction n using tagged_induction with
  | tagged t n ih => exact ih
  | _ => rfl

theorem tags_setCore (n new : Node) : (n.setCore new).tags = n.tags ++ new.tags := by
  induction n using tagged_induction with
  | tagged t n ih => simp [tags, ih]
  | _ => rfl

theorem core_setCore (n new : Node) : (n.setCore new).core = new.core := by
  induction n using tagged_induction with
  | tagged t n ih => simp [ih]
  | _ => rfl

@[simp] theorem setCore_core (n : Node) : n.setCore n.core = n := by
  induction n using tagged_induction with
  | tagged t n ih => simp [ih]
  | _ => rfl

@[simp] theorem setCore_setCore (n a b : Node) :
    (n.setCore a).setCore b = n.setCore (a.setCore b) := by
  induction n using tagged_induction with
  | tagged t n ih => simp [ih]
  | _ => rfl

theorem setCore_asMapping {n : Node} {m : Mapping} (h : n.asMapping = some m) :
    n.setCore (.mapping m) = n := by
  rw [← asMapping_eq_some_iff.1 h, setCore_core]

theorem setCore_asSequence {n : Node} {items : List Node} (h : n.asSequence = some items) :
    n.setCore (.sequence items) = n := by
  rw [← asSequence_eq_some_iff.1 h, setCore_core]

/-! ## Children -/

/-- What is under a key of a mapping, seen through its tags. -/
def child? (key : String) (n : Node) : Option Node :=
  match n.asMapping with
  | some m => m.get? key
  | none => none

/-- The node that a list of keys leads to. -/
def at? : List String → Node → Option Node
  | [], n => some n
  | key :: rest, n =>
    match n.child? key with
    | some c => at? rest c
    | none => none

theorem child?_of_asMapping {n : Node} {m : Mapping} (h : n.asMapping = some m) (key : String) :
    n.child? key = m.get? key := by
  simp [child?, h]

theorem exists_asMapping_of_child? {n v : Node} {key : String} (h : n.child? key = some v) :
    ∃ m, n.asMapping = some m := by
  cases hm : n.asMapping with
  | none => simp [child?, hm] at h
  | some m => exact ⟨m, rfl⟩

theorem child?_setCore (n : Node) (m : Mapping) (key : String) :
    (n.setCore (.mapping m)).child? key = m.get? key :=
  child?_of_asMapping (by simp [asMapping]) key

theorem child?_setCore_insert (n : Node) (m : Mapping) (key : String) (v : Node) :
    (n.setCore (.mapping (m.insert (.string key) v))).child? key = some v := by
  rw [child?_setCore]
  exact Mapping.get?_insert_self m (.string key) v

theorem at?_cons (key : String) (rest : List String) (n : Node) :
    n.at? (key :: rest) = (n.child? key).bind (at? rest) := by
  rw [at?]
  cases n.child? key <;> rfl

theorem at?_singleton (key : String) (n : Node) : n.at? [key] = n.child? key := by
  rw [at?_cons]
  cases n.child? key <;> rfl

theorem at?_append (p q : List String) (n : Node) : n.at? (p ++ q) = (n.at? p).bind (at? q) := by
  induction p generalizing n with
  | nil => rfl
  | cons key p ih =>
    rw [List.cons_append, at?_cons, at?_cons]
    cases n.child? key with
    | none => rfl
    | some c => exact ih c

def DistinctKeys (n : Node) : Prop := ∀ m, n.asMapping = some m → m.keys.Nodup

/-! ## What holds everywhere in a tree -/

mutual

/-- Whether something holds of a node and of all nodes below it. -/
def all (p : Node → Bool) : Node → Bool
  | .scalar s => p (.scalar s)
  | .sequence items => p (.sequence items) && allItems p items
  | .mapping m => p (.mapping m) && allEntries p m
  | .tagged t n => p (.tagged t n) && all p n

def allItems (p : Node → Bool) : List Node → Bool
  | [] => true
  | n :: rest => all p n && allItems p rest

def allEntries (p : Node → Bool) : List (Scalar × Node) → Bool
  | [] => true
  | (_, n) :: rest => all p n && allEntries p rest

end

theorem all_of_get? {p : Node → Bool} {m : Mapping} {key : String} {v : Node}
    (h : allEntries p m = true) (hv : m.get? key = some v) : v.all p = true := by
  induction m with
  | nil => simp at hv
  | cons e m ih =>
    obtain ⟨k, w⟩ := e
    simp only [allEntries, Bool.and_eq_true] at h
    rw [Mapping.get?_cons] at hv
    split at hv
    · cases hv
      exact h.1
    · exact ih h.2 hv

theorem allItems_iff {p : Node → Bool} {items : List Node} :
    allItems p items = true ↔ ∀ n ∈ items, n.all p = true := by
  induction items with
  | nil => simp [allItems]
  | cons x rest ih => simp only [allItems, Bool.and_eq_true, List.forall_mem_cons, ih]

theorem all_of_mem {p : Node → Bool} {items : List Node} {n : Node} (h : allItems p items = true)
    (hn : n ∈ items) : n.all p = true :=
  allItems_iff.1 h n hn

theorem allEntries_iff {p : Node → Bool} {m : Mapping} :
    allEntries p m = true ↔ ∀ e ∈ m, e.2.all p = true := by
  induction m with
  | nil => simp [allEntries]
  | cons x rest ih =>
    obtain ⟨k, v⟩ := x
    simp only [allEntries, Bool.and_eq_true, List.forall_mem_cons, ih]

theorem all_of_asMapping {p : Node → Bool} {n : Node} {m : Mapping} (h : n.all p = true)
    (hm : n.asMapping = some m) : p (.mapping m) = true ∧ allEntries p m = true := by
  induction n using tagged_induction with
  | scalar s => simp [asMapping] at hm
  | sequence items => simp [asMapping] at hm
  | mapping m' =>
    cases hm
    simpa [all] using h
  | tagged t n ih =>
    simp only [all, Bool.and_eq_true] at h
    exact ih h.2 hm

theorem all_of_asSequence {p : Node → Bool} {n : Node} {items : List Node} (h : n.all p = true)
    (hitems : n.asSequence = some items) :
    p (.sequence items) = true ∧ allItems p items = true := by
  induction n using tagged_induction with
  | scalar s => simp [asSequence] at hitems
  | mapping m => simp [asSequence] at hitems
  | sequence items' =>
    cases hitems
    simpa [all] using h
  | tagged t n ih =>
    simp only [all, Bool.and_eq_true] at h
    exact ih h.2 hitems

theorem all_of_child? {p : Node → Bool} {n c : Node} {key : String} (h : n.all p = true)
    (hc : n.child? key = some c) : c.all p = true := by
  unfold child? at hc
  split at hc
  · rename_i m hm
    exact all_of_get? (all_of_asMapping h hm).2 hc
  · cases hc

theorem all_of_at? {p : Node → Bool} {q : List String} {n c : Node} (h : n.all p = true)
    (hc : n.at? q = some c) : c.all p = true := by
  induction q generalizing n with
  | nil =>
    cases hc
    exact h
  | cons key q ih =>
    rw [at?_cons, Option.bind_eq_some_iff] at hc
    obtain ⟨d, hd, hc⟩ := hc
    exact ih (all_of_child? h hd) hc

/-- Whether the keys of a mapping have texts of their own, and the entities of a sequence names. -/
def hasDistinctParts : Node → Bool
  | .mapping m => decide (Mapping.keys m).Nodup
  | .sequence items => decide (Entity.names items).Nodup
  | _ => true

/-- No mapping of the tree has two keys of one text, and no sequence two entities of one name. -/
abbrev Unambiguous (n : Node) : Prop := n.all hasDistinctParts = true

theorem Unambiguous.distinctKeys {n : Node} (h : n.Unambiguous) : n.DistinctKeys := by
  intro m hm
  simpa [hasDistinctParts] using (all_of_asMapping h hm).1

theorem unambiguous_mapping_iff {m : Mapping} :
    (Node.mapping m).Unambiguous ↔ m.keys.Nodup ∧ ∀ e ∈ m, e.2.Unambiguous := by
  simp only [Unambiguous, Node.all, hasDistinctParts, Bool.and_eq_true, decide_eq_true_eq,
    allEntries_iff]

theorem Unambiguous.sequence {items : List Node} (h : (Node.sequence items).Unambiguous) :
    (Entity.names items).Nodup ∧ ∀ n ∈ items, n.Unambiguous := by
  simp only [Unambiguous, Node.all, hasDistinctParts, Bool.and_eq_true, decide_eq_true_eq] at h
  exact ⟨h.1, allItems_iff.1 h.2⟩

end Node
end SharedConfig
