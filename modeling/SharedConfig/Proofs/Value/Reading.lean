import Mathlib.Tactic.SplitIfs
import SharedConfig.Proofs.Value
import SharedConfig.Yaml.Value.Reader

/-!
# SharedConfig.Proofs.Value.Reading

What reading a text leaves: numbers of the formats, mappings in which no key stands twice, and tags
that are not empty, each around a value that has none.

* `isProper_ofText`: the numbers.
* `Value.isRead_of_ofText`: all parts of the value of a text.
-/

namespace SharedConfig

open Yaml

/-! ## Numbers -/

section Numbers

variable {low high i : ℤ} {base : ℕ} {cs : List Char} {x : Binary64}

theorem boundedInt?_bounds (h : boundedInt? low high base cs = some i) : low ≤ i ∧ i ≤ high := by
  unfold boundedInt? at h
  split at h
  · split at h
    · rename_i hbounds
      cases h
      exact hbounds
    · cases h
  · cases h

theorem Binary64.isCanonical_of_magnitude? {negative : Bool}
    (h : Binary64.magnitude? negative cs = some x) : x.IsCanonical := by
  unfold magnitude? at h
  dsimp only at h
  split at h
  · cases h
    exact isCanonical_ofDecimal _ _ _
  · cases h

theorem Binary64.isCanonical_of_unsigned? {negative : Bool}
    (h : Binary64.unsigned? negative cs = some x) : x.IsCanonical := by
  unfold unsigned? at h
  dsimp only at h
  split at h
  · cases h
    trivial
  · split at h
    · cases h
      trivial
    · exact isCanonical_of_magnitude? h

theorem Binary64.isCanonical_of_ofText? (h : Binary64.ofText? cs = some x) : x.IsCanonical := by
  unfold ofText? at h
  split at h <;> exact isCanonical_of_unsigned? h

namespace Yaml

theorem unsignedInt?_bounds (h : unsignedInt? high cs = some i) : 0 ≤ i ∧ i ≤ high := by
  unfold unsignedInt? at h
  dsimp only at h
  split at h
  · rename_i hbased
    cases h
    split at hbased
    · split at hbased
      · split at hbased
        · cases hbased
        · exact boundedInt?_bounds hbased
      · cases hbased
    · cases hbased
  -- with a plus sign and without
  · split at h
    all_goals
      split at h
      · cases h
      · exact boundedInt?_bounds h

theorem negativeInt?_bounds (h : negativeInt? low high cs = some i) : low ≤ i ∧ i ≤ high := by
  unfold negativeInt? at h
  dsimp only at h
  split at h
  · rename_i hbased
    cases h
    split at hbased
    · split at hbased
      · exact boundedInt?_bounds hbased
      · cases hbased
    · cases hbased
  · split at h
    · cases h
    · exact boundedInt?_bounds h

/-- What a plain scalar stands for is a number of the formats, if it is one that values hold. -/
def Plain.IsProper : Plain → Prop
  | .int i => (Number.int i).IsProper
  | .float x => (Number.float x).IsProper
  | _ => True

theorem isProper_of_int? {p : Plain} (h : int? cs = some p) : p.IsProper := by
  unfold int? at h
  split at h
  · rename_i hunsigned
    cases h
    have hbounds := unsignedInt?_bounds hunsigned
    exact ⟨le_trans (by decide) hbounds.1, hbounds.2⟩
  · rename_i hnegative
    cases h
    have hbounds := negativeInt?_bounds hnegative
    exact ⟨hbounds.1, le_trans hbounds.2 (by decide)⟩
  · split at h
    · cases h
      trivial
    · cases h
      trivial
    · cases h

theorem isProper_of_float? (h : float? cs = some x) : (Number.float x).IsProper := by
  unfold float? at h
  dsimp only at h
  split at h
  all_goals
    split_ifs at h
    · cases h
      trivial
    · cases h
      trivial
    · cases h
      trivial
    · split at h
      · rename_i hread
        split at h
        · cases h
          exact Binary64.isCanonical_of_ofText? hread
        · cases h
      · cases h

theorem isProper_ofText (s : String) : (Plain.ofText s).IsProper := by
  unfold Plain.ofText
  split
  · trivial
  · split
    · trivial
    · dsimp only
      split
      · exact isProper_of_int? ‹_›
      · split
        · trivial
        · split
          · exact isProper_of_float? ‹_›
          · trivial

end Yaml

end Numbers

/-! ## Values -/

namespace Yaml

namespace Value

/-- A tag with a name, around a value without a tag. -/
def SinglyTaggedPart : Value → Prop
  | .tagged tag v => tag ≠ "" ∧ v.isTagged = false
  | _ => True

/-- A value as reading leaves it. -/
def IsRead (v : Value) : Prop := ∀ w ∈ v.parts, WellFormedPart w ∧ SinglyTaggedPart w

theorem IsRead.wellFormed {v : Value} (h : v.IsRead) : v.WellFormed := fun w hw => (h w hw).1

/-- Every tag in a value has a name behind its exclamation mark, and no other mark. -/
def HasNamedTags (v : Value) : Prop :=
  ∀ tag w, .tagged tag w ∈ v.parts → tag ≠ "!" ∧ ¬ ['!', '!'] <+: tag.toList

theorem IsRead.plainlyTagged {v : Value} (h : v.IsRead) (hnames : v.HasNamedTags) :
    v.PlainlyTagged := by
  intro w hw
  cases w with
  | tagged tag u =>
    obtain ⟨hname, hone⟩ := (h _ hw).2
    exact ⟨⟨hname, hnames tag u hw⟩, hone⟩
  | _ => trivial

theorem isRead_leaf {v : Value} (hkind : v.collectionKind? = none) (htag : v.isTagged = false)
    (hwf : WellFormedPart v) : v.IsRead := by
  refine (forall_parts_leaf hkind htag).2 ⟨hwf, ?_⟩
  cases v with
  | tagged tag w => cases htag
  | _ => trivial

theorem isRead_sequence {items : List Value} (h : ∀ v ∈ items, v.IsRead) :
    (Value.sequence items).IsRead :=
  forall_parts_sequence.2 ⟨⟨trivial, trivial⟩, h⟩

theorem isRead_mapping {entries : List (Value × Value)}
    (hkeys : entries.Pairwise fun a b => a.1.same b.1 = false)
    (h : ∀ e ∈ entries, e.1.IsRead ∧ e.2.IsRead) : (Value.mapping entries).IsRead :=
  forall_parts_mapping.2 ⟨⟨hkeys, trivial⟩, h⟩

theorem isRead_tagged {tag : String} {v : Value} (hname : tag ≠ "")
    (hone : v.isTagged = false) (h : v.IsRead) : (Value.tagged tag v).IsRead :=
  forall_parts_tagged.2 ⟨⟨trivial, hname, hone⟩, h⟩

end Value

/-- A value that a tag can be put around. -/
structure IsUntaggedRead (v : Value) : Prop where
  read : v.IsRead
  untagged : v.isTagged = false

theorem isUntaggedRead_leaf {v : Value} (hkind : v.collectionKind? = none)
    (htag : v.isTagged = false) (hwf : v.WellFormedPart) : IsUntaggedRead v :=
  ⟨Value.isRead_leaf hkind htag hwf, htag⟩

theorem isUntaggedRead_of_plainValue {s : String} {v : Value} (h : plainValue s = .ok v) :
    IsUntaggedRead v := by
  have hproper := isProper_ofText s
  unfold plainValue at h
  split at h <;> cases h
  all_goals
    rename_i hplain
    rw [hplain] at hproper
    exact isUntaggedRead_leaf rfl rfl hproper

theorem isUntaggedRead_of_scalarValue {s : String} {style : ScalarStyle} {tag : Option Tag} {v : Value}
    (h : scalarValue s style tag = .ok v) : IsUntaggedRead v := by
  have hstring : IsUntaggedRead (.string s) := isUntaggedRead_leaf rfl rfl trivial
  unfold scalarValue at h
  split at h
  · split_ifs at h
    · split at h <;> cases h
      exact isUntaggedRead_leaf rfl rfl trivial
    · split at h <;> cases h
      rename_i hread
      have hproper : (Number.int _).IsProper := isProper_of_int? hread
      exact isUntaggedRead_leaf rfl rfl hproper
    · split at h <;> cases h
      exact isUntaggedRead_leaf rfl rfl (isProper_of_float? ‹_›)
    · cases h
      exact isUntaggedRead_leaf rfl rfl trivial
    · exact isUntaggedRead_of_plainValue h
    · cases h
      exact hstring
  · split_ifs at h
    · exact isUntaggedRead_of_plainValue h
    · cases h
      exact hstring

theorem name_of_localTag? {tag : Option Tag} {name : String} (h : localTag? tag = some name) :
    name ≠ "" := by
  unfold localTag? at h
  split at h
  · cases h
  · cases h
    decide
  · rename_i rest hrest
    cases rest with
    | nil => exact absurd rfl hrest
    | cons c rest =>
      simp only [Tag.text?, List.mapM_cons, Option.map_eq_some_iff, Option.bind_eq_bind,
        Option.bind_eq_some_iff, Option.pure_def, Option.some.injEq] at h
      obtain ⟨_, ⟨d, -, ds, -, rfl⟩, rfl⟩ := h
      simp
  · cases h

/-! ## Reading -/

namespace Reading

/-- Whatever a way of reading comes to has a property. -/
def Ensures {α : Type} (P : α → Prop) (a : Reading α) : Prop :=
  ∀ left x rest, a.run left = .ok (x, rest) → P x

variable {α β : Type} {P : α → Prop} {Q : β → Prop}

theorem ensures_pure {x : α} (h : P x) : Ensures P (pure x : Reading α) := by
  intro left y rest hy
  cases hy
  exact h

theorem ensures_throw (e : ReadError) : Ensures P (throw e : Reading α) := by
  intro left y rest hy
  cases hy

theorem ensures_lift {a : Except ReadError α} (h : ∀ x, a = .ok x → P x) :
    Ensures P (liftM a : Reading α) := by
  intro left y rest hy
  cases a with
  | error e => cases hy
  | ok x =>
    cases hy
    exact h _ rfl

theorem ensures_bind {a : Reading α} {f : α → Reading β} (ha : Ensures P a)
    (hf : ∀ x, P x → Ensures Q (f x)) : Ensures Q (a >>= f) := by
  intro left y rest hy
  rw [StateT.run_bind] at hy
  cases hx : a.run left with
  | error e => rw [hx] at hy; cases hy
  | ok r =>
    rw [hx] at hy
    exact hf r.1 (ha left r.1 r.2 hx) r.2 y rest hy

theorem ensures_mapM {read : β → Reading α} {items : List β} (h : ∀ x ∈ items, Ensures P (read x)) :
    Ensures (fun vs => ∀ v ∈ vs, P v) (items.mapM read) := by
  induction items with
  | nil => exact ensures_pure (List.forall_mem_nil _)
  | cons x rest ih =>
    obtain ⟨hx, hrest⟩ := List.forall_mem_cons.1 h
    rw [List.mapM_cons]
    exact ensures_bind hx fun v hv => ensures_bind (ih hrest) fun vs hvs =>
      ensures_pure (List.forall_mem_cons.2 ⟨hv, hvs⟩)

theorem ensures_readEntries {read : Tree → Reading Value} (entries : List (Tree × Tree))
    (h : ∀ t, Ensures Value.IsRead (read t)) {done : List (Value × Value)}
    (hkeys : done.reverse.Pairwise fun a b => a.1.same b.1 = false)
    (hdone : ∀ e ∈ done, e.1.IsRead ∧ e.2.IsRead) :
    Ensures (fun es => es.Pairwise (fun a b => a.1.same b.1 = false) ∧
      ∀ e ∈ es, e.1.IsRead ∧ e.2.IsRead) (readEntries read done entries) := by
  induction entries generalizing done with
  | nil => exact ensures_pure ⟨hkeys, fun e he => hdone e (List.mem_reverse.1 he)⟩
  | cons e rest ih =>
    obtain ⟨k, v⟩ := e
    rw [readEntries]
    refine ensures_bind (h k) fun key hkey => ?_
    split
    · exact ensures_bind (ensures_throw (P := fun _ => False) _) fun _ hfalse => hfalse.elim
    · rename_i hnew
      rw [List.any_eq_true, not_exists] at hnew
      refine ensures_bind (h v) fun value hvalue => ih ?_ ?_
      · rw [List.reverse_cons, List.pairwise_append]
        refine ⟨hkeys, List.pairwise_singleton _ _, fun a ha b hb => ?_⟩
        rw [List.mem_singleton.1 hb]
        exact Bool.eq_false_iff.2 fun hsame => hnew a ⟨List.mem_reverse.1 ha, hsame⟩
      · exact List.forall_mem_cons.2 ⟨⟨hkey, hvalue⟩, hdone⟩

theorem isRead_withTag {v : Value} (tag : Option Tag) (h : IsUntaggedRead v) :
    (withTag tag v).IsRead := by
  unfold withTag
  split
  · rename_i hname
    exact Value.isRead_tagged (name_of_localTag? hname) h.untagged h.read
  · exact h.read

theorem ensures_readNode {inner : Option (Tree → Reading Value)}
    (h : ∀ read, inner = some read → ∀ t, Ensures Value.IsRead (read t)) (t : Tree) :
    Ensures Value.IsRead (readNode inner t) := by
  cases t with
  | scalar text style props =>
    rw [readNode]
    split
    · rename_i name hname
      refine ensures_lift fun v hv => ?_
      cases hvalue : scalarValue text style none with
      | error e => rw [hvalue] at hv; cases hv
      | ok u =>
        rw [hvalue] at hv
        cases hv
        have hu := isUntaggedRead_of_scalarValue hvalue
        exact Value.isRead_tagged (name_of_localTag? hname) hu.untagged hu.read
    · exact ensures_lift fun v hv => (isUntaggedRead_of_scalarValue hv).read
  | sequence items props =>
    cases inner with
    | none => exact ensures_throw _
    | some read =>
      refine ensures_bind (ensures_mapM fun x _ => h read rfl x) fun vs hvs => ensures_pure ?_
      exact isRead_withTag props.tag ⟨Value.isRead_sequence hvs, rfl⟩
  | mapping entries props =>
    cases inner with
    | none => exact ensures_throw _
    | some read =>
      refine ensures_bind (ensures_readEntries entries (h read rfl) List.Pairwise.nil
        (List.forall_mem_nil _)) fun es hes => ensures_pure ?_
      exact isRead_withTag props.tag ⟨Value.isRead_mapping hes.1 hes.2, rfl⟩
  | «alias» slot => exact ensures_throw _

theorem ensures_readTree (anchors : List (Nat × Tree)) (depth : Nat) (t : Tree) :
    Ensures Value.IsRead (readTree anchors depth t) := by
  have hfollow : ∀ t, Ensures (fun _ => True) (follow anchors t) := fun _ _ _ _ _ => trivial
  induction depth generalizing t with
  | zero => exact ensures_bind (hfollow t) fun u _ => ensures_readNode (by simp) u
  | succ depth ih =>
    refine ensures_bind (hfollow t) fun u _ => ensures_readNode (fun read hread => ?_) u
    cases hread
    exact ih

end Reading

theorem Value.isRead_of_ofText {s : String} {v : Value} (h : Value.ofText s = .ok v) : v.IsRead := by
  unfold Value.ofText at h
  split at h
  · cases h
  · unfold Value.ofDocument at h
    split at h
    · cases h
      exact isRead_leaf rfl rfl trivial
    · rename_i d _ _ t _
      cases hrun : (readTree d.anchors nestingLimit t).run d.aliasLimit with
      | error e => rw [hrun] at h; cases h
      | ok r =>
        rw [hrun] at h
        cases h
        exact Reading.ensures_readTree d.anchors nestingLimit t d.aliasLimit r.1 r.2 hrun

end Yaml

end SharedConfig
