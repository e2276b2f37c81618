import SharedConfig.Proofs.Edit.Making
import SharedConfig.Proofs.Frame
import SharedConfig.Proofs.Report

/-!
# SharedConfig.Proofs.Edit.Writing

Texts at paths through mappings: they are written, read and dropped as in a store.

What a look finds depends on the keys of its path alone (`locate_congr`), so what holds of lists of
keys holds of typed paths.  A write fails exactly if a node of another shape is above its end, and a
drop removes one entry, the one that a look finds.

* `setScalar_eq_false_iff`: when nothing is written.
* `removeKey_answer`, `entryDropped_of_removeKey`: when an entry is dropped, and which one.
* `texts_are_stored`: the laws of writes and drops.
-/

namespace SharedConfig

namespace KeyPath

theorem of_cons (key : String) (keys : List String) :
    of (key :: keys) .mapping = ⟨key, .mapping⟩ :: of keys .mapping := by
  cases keys <;> rfl

theorem eq_of_names {path : KeyPath} (h : path.ThroughMappings) {last : PathStep}
    (hlast : path.getLast? = some last) : path = of path.names last.kind := by
  induction path with
  | nil => cases hlast
  | cons s rest ih =>
    obtain ⟨hs, hrest⟩ := throughMappings_cons.1 h
    cases rest with
    | nil =>
      cases hlast
      rfl
    | cons t rest =>
      have htail := ih hrest (by rwa [List.getLast?_cons_cons] at hlast)
      obtain ⟨name, kind⟩ := s
      obtain rfl : kind = .mapping := hs (List.cons_ne_nil t rest)
      exact congrArg (_ :: ·) htail

/-- A path through mappings, by the names above its last step and that step. -/
theorem exists_of_last {path : KeyPath} (h : path.ThroughMappings) {last : PathStep}
    (hlast : path.getLast? = some last) :
    ∃ above, path = of (above ++ [last.name]) last.kind ∧ path.names = above ++ [last.name] ∧
      path.dropLast = of above .mapping := by
  have hpath := eq_of_names h hlast
  have hnames : path.names = names path.dropLast ++ [last.name] := by
    conv_lhs => rw [← List.dropLast_append_getLast? last hlast]
    simp [names]
  rw [hnames] at hpath
  refine ⟨names path.dropLast, hpath, hnames, ?_⟩
  conv_lhs => rw [hpath, of_append_singleton, List.dropLast_concat]

end KeyPath

namespace Mapping

theorem exists_split_of_get? {m : Mapping} {key : String} {v : Node} (h : m.get? key = some v) :
    ∃ a k b, m = a ++ (k, v) :: b ∧ k.text = key ∧ key ∉ keys a := by
  induction m with
  | nil => cases h
  | cons e m ih =>
    obtain ⟨k, w⟩ := e
    rw [get?_cons] at h
    split at h
    · rename_i hk
      cases h
      exact ⟨[], k, m, rfl, hk, List.not_mem_nil⟩
    · rename_i hk
      obtain ⟨a, k', b, rfl, hk', ha⟩ := ih h
      refine ⟨(k, w) :: a, k', b, rfl, hk', ?_⟩
      rw [keys_cons, List.mem_cons, not_or]
      exact ⟨Ne.symm hk, ha⟩

variable {a : Mapping} {k : Scalar}

theorem insert_split (h : k.text ∉ keys a) (v w : Node) (b : Mapping) {key : Scalar}
    (hk : key.text = k.text) : insert (a ++ (k, v) :: b) key w = a ++ (k, w) :: b := by
  induction a with
  | nil => simp [insert, hk]
  | cons e a ih =>
    rw [keys_cons, List.mem_cons, not_or] at h
    rw [List.cons_append, insert, if_neg (by rw [hk]; exact Ne.symm h.1), ih h.2]
    rfl

theorem erase_split (h : k.text ∉ keys a) (v : Node) (b : Mapping) :
    erase (a ++ (k, v) :: b) k.text = a ++ b := by
  induction a with
  | nil => simp [erase]
  | cons e a ih =>
    rw [keys_cons, List.mem_cons, not_or] at h
    rw [List.cons_append, erase, if_neg (Ne.symm h.1), ih h.2]
    rfl

end Mapping

namespace Node

/-! ## Looks -/

theorem throughMappings_of_locate {path : KeyPath} {n x : Node} (h : locate path n = some x) :
    path.ThroughMappings := by
  induction path generalizing n with
  | nil => exact fun s hs => nomatch hs
  | cons s rest ih =>
    obtain ⟨c, -, hk, hx⟩ := locate_cons_eq_some_iff.1 h
    refine KeyPath.throughMappings_cons.2 ⟨fun hne => ?_, ih hx⟩
    cases rest with
    | nil => exact absurd rfl hne
    | cons t rest =>
      obtain ⟨d, hd, -⟩ := locate_cons_eq_some_iff.1 hx
      rw [← hk]
      exact kind_eq_mapping_iff.2 (exists_asMapping_of_child? hd)

theorem locate_eq_some_iff {path : KeyPath} {last : PathStep} (hlast : path.getLast? = some last)
    {n x : Node} :
    locate path n = some x ↔
      path.ThroughMappings ∧ n.at? path.names = some x ∧ x.kind = last.kind := by
  constructor
  · intro h
    have hpath := throughMappings_of_locate h
    obtain ⟨above, hof, hnames, -⟩ := KeyPath.exists_of_last hpath hlast
    rw [hof, locate_of_eq_some_iff (by simp)] at h
    exact ⟨hpath, hnames ▸ h⟩
  · rintro ⟨hpath, h⟩
    obtain ⟨above, hof, hnames, -⟩ := KeyPath.exists_of_last hpath hlast
    rw [hnames] at h
    rw [hof]
    exact (locate_of_eq_some_iff (by simp)).2 h

theorem at?_of_locate {path : KeyPath} {n x : Node} (h : locate path n = some x) :
    n.at? path.names = some x := by
  cases hlast : path.getLast? with
  | none =>
    obtain rfl := List.getLast?_eq_none_iff.1 hlast
    exact h
  | some last => exact ((locate_eq_some_iff hlast).1 h).2.1

/-- A node with something under a key is found by the path through mappings to it. -/
theorem locate_of_child? {above : List String} {key : String} {n x v : Node}
    (hx : n.at? above = some x) (hv : x.child? key = some v) :
    locate (KeyPath.of above .mapping) n = some x := by
  cases above with
  | nil => exact hx
  | cons k rest =>
    exact (locate_of_eq_some_iff (List.cons_ne_nil k rest)).2
      ⟨hx, kind_eq_mapping_iff.2 (exists_asMapping_of_child? hv)⟩

theorem locate_congr {path : KeyPath} {n n' : Node} (h : n'.at? path.names = n.at? path.names) :
    locate path n' = locate path n := by
  cases hlast : path.getLast? with
  | none =>
    obtain rfl := List.getLast?_eq_none_iff.1 hlast
    exact h
  | some last =>
    refine Option.ext fun x => ?_
    rw [locate_eq_some_iff hlast, locate_eq_some_iff hlast, h]

/-- At all paths that part from one the same is found. -/
def SameBeside (path : KeyPath) (before after : Node) : Prop :=
  ∀ q : KeyPath, ¬ q.names <+: path.names → ¬ path.names <+: q.names →
    locate q after = locate q before

/-- An edit under the last key of a path leaves alone what is found at paths that part from it. -/
theorem sameBeside_editAbove {β : Type} (create : Bool) {edit : Node → Node × β} {key : String}
    (hedit : ∀ n, OnlyUnder key n (edit n).1) {above : List String} {path : KeyPath}
    (hnames : path.names = above ++ [key]) (n : Node) :
    SameBeside path n (editAt create edit (KeyPath.of above .mapping) n).1 := by
  intro q hq hpath
  rw [hnames] at hq hpath
  exact locate_congr (at?_editAbove_apart create hedit hpath hq n)

/-! ## Writes -/

section Writes

variable {above : List String} {key value : String} {root : Node}

theorem kind_of_mem_of {keys : List String} {s : PathStep} (h : s ∈ KeyPath.of keys .mapping) :
    s.kind = .mapping := by
  rw [← KeyPath.asMappings_of] at h
  obtain ⟨t, -, rfl⟩ := List.mem_map.1 h
  rfl

theorem throughMappings_of (keys : List String) : (KeyPath.of keys .mapping).ThroughMappings :=
  KeyPath.throughMappings_of_forall fun _ => kind_of_mem_of

theorem kind_of_found {create : Bool} (hroot : root.kind = .mapping) {x : Node}
    (h : locate (KeyPath.of above .mapping) root = some x ∨
      create = true ∧ locate (KeyPath.of above .mapping) root = none ∧
        ∃ s, (KeyPath.of above .mapping).getLast? = some s ∧ x = .empty s.kind) :
    x.kind = .mapping := by
  cases hlast : (KeyPath.of above .mapping).getLast? with
  | none =>
    rcases h with h | ⟨-, -, s, hs, -⟩
    · rw [List.getLast?_eq_none_iff.1 hlast] at h
      cases h
      exact hroot
    · rw [hlast] at hs
      cases hs
  | some last =>
    have hkind := kind_of_mem_of (List.mem_of_getLast? hlast)
    rcases h with h | ⟨-, -, s, hs, rfl⟩
    · rw [((locate_eq_some_iff hlast).1 h).2.2, hkind]
    · rw [hlast] at hs
      cases hs
      rw [hkind, kind_empty]

theorem isBlocked_iff_editAt_eq_none {β : Type} (edit : Node → Node × β)
    (hroot : root.kind = .mapping) :
    IsBlocked (KeyPath.of above .mapping) root ↔
      (editAt true edit (KeyPath.of above .mapping) root).2 = none := by
  rw [← reaches_eq_false_iff (throughMappings_of above) fun _ => hroot, ← isSome_editAt edit,
    Option.isSome_eq_false_iff, Option.isNone_iff_eq_none]

theorem writeKey_eq_false {x : Node} (hx : x.kind = .mapping)
    (h : (writeKey key value x).2 = false) : (x.child? key).bind asText = some value := by
  obtain ⟨m, hm⟩ := kind_eq_mapping_iff.1 hx
  rw [child?_of_asMapping hm]
  rw [writeKey_of_asMapping hm] at h
  split at h
  · assumption
  · cases h

/-- Nothing is written exactly if the text is there or something is in the way. -/
theorem setScalar_eq_false_iff (hroot : root.kind = .mapping) :
    (root.setScalar (KeyPath.of (above ++ [key]) .scalar) value).2 = false ↔
      root.getScalar (KeyPath.of (above ++ [key]) .scalar) = some value ∨
        IsBlocked (KeyPath.of above .mapping) root := by
  rw [isBlocked_iff_editAt_eq_none (writeKey key value) hroot]
  constructor
  · intro h
    have hsame := setScalar_unchanged h
    obtain ⟨after, answer, he⟩ : ∃ after answer,
        editAt true (writeKey key value) (KeyPath.of above .mapping) root = (after, answer) :=
      ⟨_, _, rfl⟩
    rw [setScalar_of, he] at h hsame
    rw [he]
    cases answer with
    | none => exact .inr rfl
    | some written =>
      obtain ⟨x, hx, rfl, hfound⟩ := editAt_some he
      obtain rfl : after = root := hsame
      replace h : (writeKey key value x).2 = false := h
      rw [KeyPath.names_of, writeKey_unchanged h] at hx
      refine .inl ?_
      rw [getScalar_of (by simp), at?_append, hx, Option.bind_some, at?_singleton]
      exact writeKey_eq_false (kind_of_found hroot hfound) h
  · rintro (h | h)
    · rw [setScalar_of_getScalar h]
    · rw [setScalar_of, h]
      rfl

/-- Something in the way of a text hides what is there. -/
theorem getScalar_of_isBlocked (hroot : root.kind = .mapping)
    (h : IsBlocked (KeyPath.of above .mapping) root) :
    root.getScalar (KeyPath.of (above ++ [key]) .scalar) = none := by
  refine Option.eq_none_iff_forall_ne_some.2 fun text htext => ?_
  rw [getScalar_of (by simp), at?_append] at htext
  obtain ⟨v, hbelow, -⟩ := Option.bind_eq_some_iff.1 htext
  obtain ⟨x, hx, hv⟩ := Option.bind_eq_some_iff.1 hbelow
  rw [at?_singleton] at hv
  have hfound := locate_of_child? hx hv
  have hnone := (isBlocked_iff_editAt_eq_none (fun x => (x, x)) hroot).1 h
  have hfixed : editAt true (fun x => (x, x)) (KeyPath.of above .mapping) root = (root, some x) :=
    editAt_of_fixed hfound rfl
  rw [hfixed] at hnone
  cases hnone

end Writes

structure WritesText (path : KeyPath) (value : String) (root : Node) : Prop where
  written : (root.setScalar path value).2 = true →
    (root.setScalar path value).1 ≠ root ∧
      (root.setScalar path value).1.getScalar path = some value ∧
      SameBeside path root (root.setScalar path value).1
  unwritten : (root.setScalar path value).2 = false →
    (root.setScalar path value).1 = root ∧
      (root.getScalar path = some value ∨ IsBlocked path.dropLast root)
  again : ((root.setScalar path value).1.setScalar path value).2 = false
  /-- In a session a write is an error if something is in the way, and only then. -/
  fails : ∀ s : Session, s.root = root →
    ((Action.setScalar path value s).1 = .error (.malformed (.blocked path.dotted)) ↔
      IsBlocked path.dropLast root)
  succeeds : ∀ s : Session, s.root = root → ¬ IsBlocked path.dropLast root →
    Action.setScalar path value s =
      (.ok (root.setScalar path value).2,
        s.edited (root.setScalar path value).1 (root.setScalar path value).2)

section Laws

variable {path : KeyPath} {last : PathStep} {root : Node}

theorem writesText (hpath : path.ThroughMappings) (hlast : path.getLast? = some last)
    (htext : last.kind = .scalar) (hroot : root.kind = .mapping) (value : String) :
    WritesText path value root := by
  obtain ⟨above, hof, hnames, hparent⟩ := KeyPath.exists_of_last hpath hlast
  rw [htext] at hof
  have hfalse : (root.setScalar path value).2 = false ↔
      root.getScalar path = some value ∨ IsBlocked path.dropLast root := by
    rw [hparent, hof]
    exact setScalar_eq_false_iff hroot
  have hread : (root.setScalar path value).2 = true →
      (root.setScalar path value).1.getScalar path = some value := by
    rw [hof]
    exact getScalar_setScalar
  have hsession : ∀ s : Session, s.root = root → Action.setScalar path value s =
      if (root.setScalar path value).2 = true then
        (.ok true, s.edited (root.setScalar path value).1 true)
      else if root.getScalar path = some value then (.ok false, s)
      else (.error (.malformed (.blocked path.dotted)), s) := by
    rintro s rfl
    simp only [Action.setScalar]
    split
    · rename_i hwritten
      rw [hwritten]
    · rename_i hwritten
      have hwritten := Bool.eq_false_iff.2 hwritten
      rw [setScalar_unchanged hwritten, hwritten, s.edited_root]
  refine ⟨fun h => ⟨fun hsame => ?_, hread h, ?_⟩, fun h => ⟨setScalar_unchanged h, hfalse.1 h⟩,
    ?_, fun s hs => ?_, fun s hs hfree => ?_⟩
  · -- a text that is read before the write is not written
    have hbefore := hread h
    rw [hsame] at hbefore
    rw [hfalse.2 (.inl hbefore)] at h
    cases h
  · have hapart := sameBeside_editAbove true (writeKey_onlyUnder last.name value) hnames root
    rw [hof, setScalar_of, ← hof]
    exact hapart
  · cases h : (root.setScalar path value).2 with
    | false => rw [setScalar_unchanged h, h]
    | true =>
      have hagain := hread h
      rw [hof] at hagain ⊢
      rw [setScalar_of_getScalar hagain]
  · rw [hsession s hs]
    constructor
    · intro h
      split at h
      · cases h
      · rename_i hwritten
        split at h
        · cases h
        · rename_i hread'
          exact (hfalse.1 (Bool.eq_false_iff.2 hwritten)).resolve_left hread'
    · intro hblocked
      have hnone : root.getScalar path = none := by
        rw [hparent] at hblocked
        rw [hof]
        exact getScalar_of_isBlocked hroot hblocked
      rw [hfalse.2 (.inr hblocked), if_neg Bool.false_ne_true, hnone, if_neg (by simp)]
  · rw [hsession s hs]
    cases h : (root.setScalar path value).2 with
    | true => rfl
    | false =>
      have hread' := (hfalse.1 h).resolve_right hfree
      rw [if_neg Bool.false_ne_true, if_pos hread', setScalar_unchanged h, ← hs, s.edited_root]

end Laws

/-! ## Drops -/

/-- The first entry of its key was dropped at a list of keys, and all else is as it was. -/
inductive EntryDropped : List String → Node → Node → Prop
  | here {n v : Node} {k : Scalar} {a b : Mapping} (hm : n.asMapping = some (a ++ (k, v) :: b))
      (hfirst : k.text ∉ a.keys) : EntryDropped [k.text] n (n.setCore (.mapping (a ++ b)))
  | deeper {n c c' : Node} {k : Scalar} {a b : Mapping} {rest : List String}
      (hm : n.asMapping = some (a ++ (k, c) :: b)) (hfirst : k.text ∉ a.keys)
      (h : EntryDropped rest c c') :
      EntryDropped (k.text :: rest) n (n.setCore (.mapping (a ++ (k, c') :: b)))

section Drops

variable {above : List String} {key : String} {kind : NodeKind} {root : Node}

theorem dropKey_answer (key : String) (x : Node) : (dropKey key x).2 = (x.child? key).isSome := by
  unfold dropKey child?
  cases x.asMapping <;> rfl

theorem removeKey_answer :
    (root.removeKey (KeyPath.of (above ++ [key]) kind)).2 = (root.at? (above ++ [key])).isSome := by
  rw [removeKey_of, at?_append]
  cases hanswer : (editAt false (dropKey key) (KeyPath.of above .mapping) root).2 with
  | some dropped =>
    obtain ⟨x, -, rfl, hfound | ⟨hcreate, -⟩⟩ := editAt_some (Prod.ext rfl hanswer)
    · have hx := at?_of_locate hfound
      rw [KeyPath.names_of] at hx
      rw [hx, Option.bind_some, at?_singleton]
      exact dropKey_answer key x
    · cases hcreate
  | none =>
    obtain ⟨-, hnone⟩ := editAt_none (Prod.ext rfl hanswer)
    refine (Option.isSome_eq_false_iff.2 (Option.isNone_iff_eq_none.2 ?_)).symm
    refine Option.eq_none_iff_forall_ne_some.2 fun v hbelow => ?_
    obtain ⟨x, hx, hv⟩ := Option.bind_eq_some_iff.1 hbelow
    rw [at?_singleton] at hv
    rw [locate_of_child? hx hv] at hnone
    cases hnone

theorem entryDropped_of_dropKey {x : Node} (h : (dropKey key x).2 = true) :
    EntryDropped [key] x (dropKey key x).1 := by
  rw [dropKey_answer] at h
  obtain ⟨v, hv⟩ := Option.isSome_iff_exists.1 h
  obtain ⟨m, hm⟩ := exists_asMapping_of_child? hv
  rw [child?_of_asMapping hm] at hv
  obtain ⟨a, k, b, rfl, rfl, ha⟩ := Mapping.exists_split_of_get? hv
  have hdropped : (dropKey k.text x).1 = x.setCore (.mapping (a ++ b)) := by
    rw [dropKey, hm]
    dsimp only
    rw [Mapping.erase_split ha]
  rw [hdropped]
  exact .here hm ha

theorem entryDropped_of_editAt
    (h : (editAt false (dropKey key) (KeyPath.of above .mapping) root).2 = some true) :
    EntryDropped (above ++ [key]) root
      (editAt false (dropKey key) (KeyPath.of above .mapping) root).1 := by
  induction above generalizing root with
  | nil => exact entryDropped_of_dropKey (Option.some.inj h)
  | cons s above ih =>
    rw [KeyPath.of_cons] at h ⊢
    rcases editAt_cons_cases false (dropKey key) ⟨s, .mapping⟩ (KeyPath.of above .mapping) root with
      ⟨he, -⟩ | ⟨m, c, hm, hc, he⟩
    · rw [he] at h
      cases h
    · rw [he] at h ⊢
      rcases editedChild_eq_some hc with ⟨hget, -⟩ | ⟨hcreate, -⟩
      · obtain ⟨a, k, b, rfl, rfl, ha⟩ := Mapping.exists_split_of_get? hget
        rw [Mapping.insert_split ha c _ b (Scalar.text_string k.text)]
        exact .deeper hm ha (ih h)
      · cases hcreate

/-- The entry that is dropped is the one that a look finds. -/
theorem entryDropped_of_removeKey
    (h : (root.removeKey (KeyPath.of (above ++ [key]) kind)).2 = true) :
    EntryDropped (above ++ [key]) root (root.removeKey (KeyPath.of (above ++ [key]) kind)).1 := by
  rw [removeKey_of] at h ⊢
  refine entryDropped_of_editAt ?_
  cases hanswer : (editAt false (dropKey key) (KeyPath.of above .mapping) root).2 with
  | none =>
    rw [hanswer] at h
    cases h
  | some dropped =>
    rw [hanswer] at h
    exact congrArg some h

/-- Where no two keys of the mapping above have one text, nothing is left at the place. -/
theorem EntryDropped.at?_eq_none {n n' : Node} (h : EntryDropped (above ++ [key]) n n')
    (hd : ∀ x, n.at? above = some x → x.DistinctKeys) : n'.at? (above ++ [key]) = none := by
  induction above generalizing n n' with
  | nil =>
    cases h with
    | here hm hfirst =>
      rename_i v k a b
      have hkeys := hd n rfl _ hm
      rw [Mapping.keys_append, Mapping.keys_cons, List.perm_middle.nodup_iff, List.nodup_cons] at hkeys
      rw [List.nil_append, at?_singleton, child?_setCore, Mapping.get?_eq_none_iff,
        Mapping.keys_append]
      exact hkeys.1
    | deeper hm hfirst hrest => cases hrest
  | cons s above ih =>
    rw [List.cons_append] at h ⊢
    generalize hnames : above ++ [key] = names at h
    cases h with
    | here hm hfirst => simp at hnames
    | deeper hm hfirst hrest =>
      rename_i c c' k a b
      have hget : ∀ v, Mapping.get? (a ++ (k, v) :: b) k.text = some v := fun v => by
        rw [Mapping.get?_append, Mapping.get?_eq_none_iff.2 hfirst, Mapping.get?_cons, if_pos rfl]
        rfl
      subst hnames
      rw [at?_cons, child?_setCore, hget, Option.bind_some]
      refine ih hrest fun x hx => hd x ?_
      rw [at?_cons, child?_of_asMapping hm, hget]
      exact hx

end Drops

structure DropsKey (path : KeyPath) (root : Node) : Prop where
  dropped : (root.removeKey path).2 = true →
    EntryDropped path.names root (root.removeKey path).1 ∧
      SameBeside path root (root.removeKey path).1
  gone : (root.removeKey path).2 = true →
    (∀ x, root.at? (KeyPath.names path.dropLast) = some x → x.DistinctKeys) →
    (root.removeKey path).1.at? path.names = none ∧
      (root.removeKey path).1.getScalar path = none
  absent : (root.removeKey path).2 = false →
    (root.removeKey path).1 = root ∧ root.at? path.names = none

section Laws

variable {path : KeyPath} {last : PathStep} {root : Node}

theorem dropsKey (hpath : path.ThroughMappings) (hlast : path.getLast? = some last)
    (htext : last.kind = .scalar) (root : Node) : DropsKey path root := by
  obtain ⟨above, hof, hnames, hparent⟩ := KeyPath.exists_of_last hpath hlast
  rw [htext] at hof
  have hdropped : (root.removeKey path).2 = true →
      EntryDropped path.names root (root.removeKey path).1 := by
    rw [hnames, hof]
    exact entryDropped_of_removeKey
  refine ⟨fun h => ⟨hdropped h, ?_⟩, fun h hd => ?_, fun h => ⟨removeKey_unchanged h, ?_⟩⟩
  · have hapart := sameBeside_editAbove false (dropKey_onlyUnder last.name) hnames root
    rw [hof, removeKey_of, ← hof]
    exact hapart
  · rw [hparent, KeyPath.names_of] at hd
    have hentry := hdropped h
    rw [hnames] at hentry
    have hnone := hentry.at?_eq_none hd
    refine ⟨hnames ▸ hnone, ?_⟩
    rw [hof, getScalar_of (by simp), ← hof, hnone]
    rfl
  · rw [hof, removeKey_answer, ← hnames] at h
    exact Option.isNone_iff_eq_none.1 (Option.isSome_eq_false_iff.1 h)

end Laws

/-- A text that is written at a path through mappings is read back, and all that is found at other
paths stays; nothing is written where the text is or where something is in the way.  The key at a
path is dropped with the one entry that a look finds, if there is one, and all else stays. -/
theorem texts_are_stored {path : KeyPath} (hpath : path.ThroughMappings) {last : PathStep}
    (hlast : path.getLast? = some last) (htext : last.kind = .scalar) {root : Node}
    (hroot : root.kind = .mapping) (value : String) :
    WritesText path value root ∧ DropsKey path root :=
  ⟨writesText hpath hlast htext hroot value, dropsKey hpath hlast htext root⟩

/-- Below a tagged mapping a text is written where a null was, next to a key that stands twice, and
dropped again; a tagged null is in the way of another one. -/
theorem texts_are_stored_below_tag :
    let kept : Mapping := [(⟨"1", .int, none⟩, .sequence [.string "x"]), (.string "1", .string "y"),
      (.string "c", .scalar ⟨"", .null, some "t"⟩)]
    let holding := fun b : Node => Node.mapping [
      (.string "a", .tagged "t" (.mapping ((.string "b", b) :: kept))), (.string "z", .mapping [])]
    let root := holding (.scalar .null)
    let after := holding (.mapping [(.string "k", .string "v")])
    let path : KeyPath := KeyPath.of ["a", "b", "k"] .scalar
    let blocked : KeyPath := KeyPath.of ["a", "c", "k"] .scalar
    let last : PathStep := ⟨"k", .scalar⟩
    path.ThroughMappings ∧ path.getLast? = some last ∧ blocked.ThroughMappings ∧
      blocked.getLast? = some last ∧ last.kind = .scalar ∧ root.kind = .mapping ∧
      root.setScalar path "v" = (after, true) ∧ SameBeside path root after ∧
      IsBlocked blocked.dropLast root ∧
      (Action.setScalar blocked "v" (.new root .empty)).1 =
        .error (.malformed (.blocked "a.c.k")) ∧
      after.removeKey path = (holding (.mapping []), true) ∧
      EntryDropped ["a", "b", "k"] after (holding (.mapping [])) := by
  intro kept holding root after path blocked last
  have hpath : path.ThroughMappings := by decide
  have hblocked : blocked.ThroughMappings := by decide
  have hset : root.setScalar path "v" = (after, true) := by decide
  have hfree : root.setScalar blocked "v" = (root, false) := by decide
  have hdropped : after.removeKey path = (holding (.mapping []), true) := by decide
  have hlast : path.getLast? = some last := rfl
  have hlast' : blocked.getLast? = some last := rfl
  have hroot : root.kind = .mapping := rfl
  have hafter : after.kind = .mapping := rfl
  have hwritten := (texts_are_stored hpath hlast rfl hroot "v").1.written (by rw [hset])
  have hentry := (texts_are_stored hpath hlast rfl hafter "v").2.dropped (by rw [hdropped])
  obtain ⟨hwrites, -⟩ := texts_are_stored hblocked hlast' rfl hroot "v"
  have hway : IsBlocked blocked.dropLast root :=
    (hwrites.unwritten (by rw [hfree])).2.resolve_left (by decide)
  rw [hset] at hwritten
  rw [hdropped] at hentry
  exact ⟨hpath, hlast, hblocked, hlast', rfl, hroot, hset, hwritten.2.2, hway,
    (hwrites.fails (.new root .empty) rfl).2 hway, hdropped, hentry.1⟩

end Node
end SharedConfig
