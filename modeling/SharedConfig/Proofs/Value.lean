import Mathlib.Data.List.Forall2
import SharedConfig.Node.Value
import SharedConfig.Proofs.Decimal.Text

/-!
# SharedConfig.Proofs.Value

From a value to its tree and back.

A tree keeps a scalar as its text and its kind, so the way back reads the text again; the kind says
how.  A tag goes two ways: into a scalar, and around a collection.  Entries are set one after the
other on the way back, and none is lost because keys that differ stay different.

* `untaggedValue_int`, `untaggedValue_float`: the text of a number is read as the number.
* `ofValue_eq_error`, `exists_ofValue_eq_error`: a value is refused exactly for a key that is a
  collection.
* `toValue?_of_ofValue`: a value comes back with its tags bare.
* `value_round_trip`: all of this together.
-/

namespace SharedConfig

open Yaml

/-! ## Parts of values -/

/-- An integer of 64 bits with or without sign, or a number of the floating point format. -/
def Yaml.Number.IsProper : Number → Prop
  | .int i => minSigned ≤ i ∧ i ≤ maxWord
  | .float x => x.IsCanonical

instance : DecidablePred Number.IsProper
  | .int i => by
    unfold Number.IsProper
    infer_instance
  | .float x => by
    unfold Number.IsProper
    infer_instance

namespace Yaml.Value

mutual

/-- A value and all values in it at any depth, keys and what is in them too. -/
def parts : Value → List Value
  | .sequence items => .sequence items :: itemParts items
  | .mapping entries => .mapping entries :: entryParts entries
  | .tagged tag v => .tagged tag v :: v.parts
  | v => [v]

def itemParts : List Value → List Value
  | [] => []
  | v :: vs => v.parts ++ itemParts vs

def entryParts : List (Value × Value) → List Value
  | [] => []
  | (k, v) :: es => k.parts ++ (v.parts ++ entryParts es)

end

mutual

/-- A value with every tag written without its exclamation mark. -/
def bareTags : Value → Value
  | .sequence items => .sequence (bareItems items)
  | .mapping entries => .mapping (bareEntries entries)
  | .tagged tag v => .tagged (bareTag tag) v.bareTags
  | v => v

def bareItems : List Value → List Value
  | [] => []
  | v :: vs => v.bareTags :: bareItems vs

def bareEntries : List (Value × Value) → List (Value × Value)
  | [] => []
  | (k, v) :: es => (k.bareTags, v.bareTags) :: bareEntries es

end

/-- The shape of a collection, seen through its tags. -/
def collectionKind? : Value → Option NodeKind
  | .sequence _ => some .sequence
  | .mapping _ => some .mapping
  | .tagged _ v => v.collectionKind?
  | _ => none

def isTagged : Value → Bool
  | .tagged .. => true
  | _ => false

/-- Some mapping at some depth has a key that is a collection of a shape. -/
def HasCollectionKey (v : Value) (kind : NodeKind) : Prop :=
  ∃ entries, .mapping entries ∈ v.parts ∧ ∃ e ∈ entries, e.1.collectionKind? = some kind

/-- Numbers are numbers of the notation, and no two keys of a mapping are equal. -/
def WellFormedPart : Value → Prop
  | .number n => n.IsProper
  | .mapping entries => entries.Pairwise fun a b => a.1.same b.1 = false
  | _ => True

/-- A value as reading a document leaves it. -/
def WellFormed (v : Value) : Prop := ∀ w ∈ v.parts, WellFormedPart w

/-- A tag with a name and at most one exclamation mark, around a value without a tag. -/
def PlainlyTaggedPart : Value → Prop
  | .tagged tag v =>
    (tag ≠ "" ∧ tag ≠ "!" ∧ ¬ ['!', '!'] <+: tag.toList) ∧ v.isTagged = false
  | _ => True

/-- Every tag in a value has a name and at most one exclamation mark, and none is around another. -/
def PlainlyTagged (v : Value) : Prop := ∀ w ∈ v.parts, PlainlyTaggedPart w

instance : DecidablePred WellFormedPart
  | .number n => inferInstanceAs (Decidable n.IsProper)
  | .mapping entries => inferInstanceAs (Decidable (entries.Pairwise fun a b => a.1.same b.1 = false))
  | .null | .bool _ | .string _ | .sequence _ | .tagged .. => isTrue trivial

instance : DecidablePred PlainlyTaggedPart
  | .tagged tag v => inferInstanceAs (Decidable ((tag ≠ "" ∧ tag ≠ "!" ∧
      ¬ ['!', '!'] <+: tag.toList) ∧ v.isTagged = false))
  | .null | .bool _ | .number _ | .string _ | .sequence _ | .mapping _ => isTrue trivial

instance (v : Value) : Decidable v.WellFormed :=
  inferInstanceAs (Decidable (∀ w ∈ v.parts, WellFormedPart w))

instance (v : Value) : Decidable v.PlainlyTagged :=
  inferInstanceAs (Decidable (∀ w ∈ v.parts, PlainlyTaggedPart w))

theorem mem_itemParts {items : List Value} {w : Value} :
    w ∈ itemParts items ↔ ∃ v ∈ items, w ∈ v.parts := by
  induction items with
  | nil => simp [itemParts]
  | cons v vs ih => simp [itemParts, ih]

theorem mem_entryParts {entries : List (Value × Value)} {w : Value} :
    w ∈ entryParts entries ↔ ∃ e ∈ entries, w ∈ e.1.parts ∨ w ∈ e.2.parts := by
  induction entries with
  | nil => simp [entryParts]
  | cons e es ih =>
    obtain ⟨k, v⟩ := e
    simp [entryParts, ih, or_assoc]

theorem isTagged_iff {v : Value} : v.isTagged = true ↔ ∃ tag w, v = .tagged tag w := by
  cases v <;> simp [isTagged]

theorem self_mem_parts (v : Value) : v ∈ v.parts := by
  cases v <;> simp [parts]

section ForallParts

variable {P : Value → Prop}

theorem forall_parts_leaf {v : Value} (hkind : v.collectionKind? = none) (htag : v.isTagged = false) :
    (∀ w ∈ v.parts, P w) ↔ P v := by
  cases v with
  | sequence items => cases hkind
  | mapping entries => cases hkind
  | tagged tag w => cases htag
  | _ => simp [parts]

theorem forall_parts_sequence {items : List Value} :
    (∀ w ∈ (sequence items).parts, P w) ↔ P (.sequence items) ∧ ∀ v ∈ items, ∀ w ∈ v.parts, P w := by
  rw [parts, List.forall_mem_cons]
  refine and_congr_right fun _ => ⟨fun h v hv w hw => h w (mem_itemParts.2 ⟨v, hv, hw⟩), ?_⟩
  intro h w hw
  obtain ⟨v, hv, hw⟩ := mem_itemParts.1 hw
  exact h v hv w hw

theorem forall_parts_mapping {entries : List (Value × Value)} :
    (∀ w ∈ (mapping entries).parts, P w) ↔ P (.mapping entries) ∧
      ∀ e ∈ entries, (∀ w ∈ e.1.parts, P w) ∧ ∀ w ∈ e.2.parts, P w := by
  rw [parts, List.forall_mem_cons]
  refine and_congr_right fun _ => ⟨fun h e he => ?_, ?_⟩
  · exact ⟨fun w hw => h w (mem_entryParts.2 ⟨e, he, .inl hw⟩),
      fun w hw => h w (mem_entryParts.2 ⟨e, he, .inr hw⟩)⟩
  · intro h w hw
    obtain ⟨e, he, hw⟩ := mem_entryParts.1 hw
    exact hw.elim ((h e he).1 w) ((h e he).2 w)

theorem forall_parts_tagged {tag : String} {v : Value} :
    (∀ w ∈ (tagged tag v).parts, P w) ↔ P (.tagged tag v) ∧ ∀ w ∈ v.parts, P w := by
  rw [parts, List.forall_mem_cons]

end ForallParts

theorem bareItems_eq (items : List Value) : bareItems items = items.map bareTags := by
  induction items with
  | nil => rfl
  | cons v vs ih => rw [bareItems, ih, List.map_cons]

theorem bareEntries_eq (entries : List (Value × Value)) :
    bareEntries entries = entries.map fun e => (e.1.bareTags, e.2.bareTags) := by
  induction entries with
  | nil => rfl
  | cons e es ih =>
    obtain ⟨k, v⟩ := e
    rw [bareEntries, ih, List.map_cons]

theorem value_induction {motive : Value → Prop}
    (leaf : ∀ v, v.collectionKind? = none → v.isTagged = false → motive v)
    (sequence : ∀ items, (∀ v ∈ items, motive v) → motive (.sequence items))
    (mapping : ∀ entries : List (Value × Value), (∀ e ∈ entries, motive e.1 ∧ motive e.2) →
      motive (.mapping entries))
    (tagged : ∀ tag v, motive v → motive (.tagged tag v)) (v : Value) : motive v := by
  refine @Value.rec motive (fun items => ∀ v ∈ items, motive v)
    (fun es => ∀ e ∈ es, motive e.1 ∧ motive e.2) (fun e => motive e.1 ∧ motive e.2)
    ?_ ?_ ?_ ?_ sequence mapping tagged ?_ ?_ ?_ ?_ ?_ v
  · exact leaf _ rfl rfl
  · exact fun _ => leaf _ rfl rfl
  · exact fun _ => leaf _ rfl rfl
  · exact fun _ => leaf _ rfl rfl
  · exact nofun
  · exact fun _ _ hv hvs => List.forall_mem_cons.2 ⟨hv, hvs⟩
  · exact nofun
  · exact fun _ _ he hes => List.forall_mem_cons.2 ⟨he, hes⟩
  · exact fun _ _ hk hv => ⟨hk, hv⟩

mutual

/-- Whether two values have the same parts in the same order. -/
def identical : Value → Value → Bool
  | .null, .null => true
  | .bool a, .bool b => a == b
  | .number a, .number b => decide (a = b)
  | .string a, .string b => a == b
  | .sequence a, .sequence b => identicalItems a b
  | .mapping a, .mapping b => identicalEntries a b
  | .tagged t a, .tagged u b => t == u && identical a b
  | _, _ => false

def identicalItems : List Value → List Value → Bool
  | [], [] => true
  | a :: as, b :: bs => identical a b && identicalItems as bs
  | _, _ => false

def identicalEntries : List (Value × Value) → List (Value × Value) → Bool
  | [], [] => true
  | (k, a) :: as, (l, b) :: bs => identical k l && identical a b && identicalEntries as bs
  | _, _ => false

end

theorem identicalItems_iff {as bs : List Value} (h : ∀ a ∈ as, ∀ b, a.identical b = true ↔ a = b) :
    identicalItems as bs = true ↔ as = bs := by
  induction as generalizing bs with
  | nil => cases bs <;> simp [identicalItems]
  | cons a as ih =>
    obtain ⟨ha, has⟩ := List.forall_mem_cons.1 h
    cases bs with
    | nil => simp [identicalItems]
    | cons b bs => simp [identicalItems, ha, ih has]

theorem identicalEntries_iff {as bs : List (Value × Value)}
    (h : ∀ e ∈ as, (∀ b, e.1.identical b = true ↔ e.1 = b) ∧ ∀ b, e.2.identical b = true ↔ e.2 = b) :
    identicalEntries as bs = true ↔ as = bs := by
  induction as generalizing bs with
  | nil => cases bs <;> simp [identicalEntries]
  | cons e as ih =>
    obtain ⟨⟨hk, hv⟩, has⟩ := List.forall_mem_cons.1 h
    obtain ⟨k, v⟩ := e
    cases bs with
    | nil => simp [identicalEntries]
    | cons f bs =>
      obtain ⟨l, w⟩ := f
      simp only at hk hv
      simp [identicalEntries, hk, hv, ih has]

theorem identical_iff (a b : Value) : a.identical b = true ↔ a = b := by
  induction a using value_induction generalizing b with
  | leaf a hkind htag =>
    cases a with
    | sequence items => cases hkind
    | mapping entries => cases hkind
    | tagged tag v => cases htag
    | _ => cases b <;> simp [identical]
  | sequence items ih => cases b <;> simp [identical, identicalItems_iff ih]
  | mapping entries ih => cases b <;> simp [identical, identicalEntries_iff ih]
  | tagged tag v ih => cases b <;> simp [identical, ih]

instance : DecidableEq Value := fun a b => decidable_of_iff _ (identical_iff a b)

end Yaml.Value

/-! ## Texts of numbers -/

theorem boundedInt?_toString (low high i : ℤ) :
    boundedInt? low high 10 (toString i).toList =
      if low ≤ i ∧ i ≤ high then some i else none := by
  simp only [boundedInt?, intOfDigits?_toString]

theorem untaggedValue_int {i : ℤ} (h : (Number.int i).IsProper) :
    (⟨(Number.int i).text, .int, none⟩ : Scalar).untaggedValue = .number (.int i) := by
  obtain ⟨hlow, hhigh⟩ := h
  have htext : (Number.int i).text = toString i := rfl
  simp only [Scalar.untaggedValue, htext, boundedInt?_toString]
  by_cases hsigned : minSigned ≤ i ∧ i ≤ maxSigned
  · rw [if_pos hsigned]
  · have hnonneg : 0 ≤ i := by
      have hmax : (0 : ℤ) ≤ maxSigned := by decide
      omega
    rw [if_neg hsigned, if_pos ⟨hnonneg, hhigh⟩]

theorem write_finite_ne {negative : Bool} {significand : ℕ} {exponent : ℤ}
    (h : (Binary64.finite negative significand exponent).IsCanonical) :
    let s := (Binary64.finite negative significand exponent).write Binary64.documentStyle
    s ≠ ".inf" ∧ s ≠ "+.inf" ∧ s ≠ "-.inf" ∧ s ≠ ".nan" := by
  obtain ⟨body, htext, ⟨c, hc, hdigit⟩, -⟩ := Binary64.write_finite Binary64.documentStyle h
  obtain ⟨rest, rfl⟩ : ∃ rest, body = c :: rest := by
    cases body with
    | nil => simp at hc
    | cons d rest => exact ⟨rest, by simpa using hc⟩
  have hpoint : '.' ≠ c := (ne_of_isDecimalDigit hdigit rfl).symm
  have hplus : '+' ≠ c := (ne_of_isDecimalDigit hdigit rfl).symm
  have hminus : '-' ≠ c := (ne_of_isDecimalDigit hdigit rfl).symm
  refine ⟨fun heq => ?_, fun heq => ?_, fun heq => ?_, fun heq => ?_⟩ <;>
    rw [heq] at htext <;> cases negative <;> simp [hpoint, hplus, hminus] at htext

theorem untaggedValue_float {x : Binary64} (h : x.IsCanonical) :
    (⟨(Number.float x).text, .float, none⟩ : Scalar).untaggedValue = .number (.float x) := by
  have htext : (Number.float x).text = x.write Binary64.documentStyle := rfl
  simp only [Scalar.untaggedValue, htext]
  cases x with
  | finite negative significand exponent =>
    obtain ⟨hinf, hplus, hminus, hnan⟩ := write_finite_ne h
    simp only [hinf, hplus, hminus, hnan, or_self, if_false, Binary64.ofText?_write _ h]
  | infinite negative => cases negative <;> rfl
  | nan => rfl

/-! ## Values that are refused -/

namespace Node

theorem ofItems_eq_ok_iff {items : List Value} {ns : List Node} :
    ofItems items = .ok ns ↔ List.Forall₂ (fun v n => ofValue v = .ok n) items ns := by
  induction items generalizing ns with
  | nil => simp [ofItems, eq_comm]
  | cons v vs ih =>
    rw [List.forall₂_cons_left_iff, ofItems]
    constructor
    · intro h
      split at h
      · cases h
      · cases h
      · rename_i n ns' hn hns
        cases h
        exact ⟨n, ns', hn, ih.1 hns, rfl⟩
    · rintro ⟨n, ns', hn, hns, rfl⟩
      rw [hn, ih.2 hns]

theorem exists_of_forall₂ {α β : Type} {R : α → β → Prop} {as : List α} {bs : List β}
    (h : List.Forall₂ R as bs) {a : α} (ha : a ∈ as) : ∃ b, R a b := by
  induction h with
  | nil => cases ha
  | cons hab _ ih =>
    rcases List.mem_cons.1 ha with rfl | ha
    · exact ⟨_, hab⟩
    · exact ih ha

theorem ofItems_eq_error {items : List Value} {kind : NodeKind} (h : ofItems items = .error kind) :
    ∃ v ∈ items, ofValue v = .error kind := by
  induction items with
  | nil => cases h
  | cons v vs ih =>
    rw [ofItems] at h
    split at h
    · rename_i hv
      cases h
      exact ⟨v, List.mem_cons_self, hv⟩
    · rename_i hvs _
      cases h
      obtain ⟨w, hw, herror⟩ := ih hvs
      exact ⟨w, List.mem_cons_of_mem v hw, herror⟩
    · cases h

theorem ofEntries_eq_ok_iff {entries : List (Value × Value)} {m : Mapping} :
    ofEntries entries = .ok m ↔ List.Forall₂ (fun e f => ofValue e.1 = .ok (.scalar f.1) ∧
      ofValue e.2 = .ok f.2) entries m := by
  induction entries generalizing m with
  | nil => simp [ofEntries, eq_comm]
  | cons e es ih =>
    obtain ⟨k, v⟩ := e
    rw [List.forall₂_cons_left_iff, ofEntries]
    constructor
    · intro h
      split at h
      · cases h
      · rename_i key hk
        split at h
        · cases h
        · cases h
        · rename_i n m' hn hm
          cases h
          exact ⟨(key, n), m', ⟨hk, hn⟩, ih.1 hm, rfl⟩
      · cases h
    · rintro ⟨f, m', ⟨hk, hn⟩, hm, rfl⟩
      simp only [hk, hn, ih.2 hm]

theorem ofEntries_eq_error {entries : List (Value × Value)} {kind : NodeKind}
    (h : ofEntries entries = .error kind) :
    ∃ e ∈ entries, ofValue e.1 = .error kind ∨ ofValue e.2 = .error kind ∨
      ∃ n, ofValue e.1 = .ok n ∧ (∀ s, n ≠ .scalar s) ∧ n.kind = kind := by
  induction entries with
  | nil => cases h
  | cons e es ih =>
    obtain ⟨k, v⟩ := e
    rw [ofEntries] at h
    split at h
    · rename_i hk
      cases h
      exact ⟨_, List.mem_cons_self, .inl hk⟩
    · split at h
      · rename_i hv
        cases h
        exact ⟨_, List.mem_cons_self, .inr (.inl hv)⟩
      · rename_i hes _
        cases h
        obtain ⟨e, he, herror⟩ := ih hes
        exact ⟨e, List.mem_cons_of_mem _ he, herror⟩
      · cases h
    · rename_i n hne hk
      cases h
      exact ⟨_, List.mem_cons_self, .inr (.inr ⟨n, hk, hne, rfl⟩)⟩

/-- A tree is a leaf where the value is no collection, and has the shape of the collection else. -/
theorem shape_of_ofValue {v : Value} {n : Node} (h : ofValue v = .ok n) :
    match v.collectionKind? with
    | none => ∃ s, n = .scalar s
    | some kind => (∀ s, n ≠ .scalar s) ∧ n.kind = kind := by
  induction v using Value.value_induction generalizing n with
  | leaf v hkind htag =>
    rw [hkind]
    cases v with
    | null => exact ⟨_, (Except.ok.inj h).symm⟩
    | bool b => exact ⟨_, (Except.ok.inj h).symm⟩
    | number x => cases x <;> exact ⟨_, (Except.ok.inj h).symm⟩
    | string s => exact ⟨_, (Except.ok.inj h).symm⟩
    | sequence items => cases hkind
    | mapping entries => cases hkind
    | tagged tag w => cases htag
  | sequence items _ =>
    rw [ofValue] at h
    split at h
    · cases h
    · cases h
      exact ⟨nofun, rfl⟩
  | mapping entries _ =>
    rw [ofValue] at h
    split at h
    · cases h
    · cases h
      exact ⟨nofun, rfl⟩
  | tagged tag v ih =>
    rw [ofValue] at h
    split at h
    · cases h
    · rename_i n' hn
      cases h
      have hshape := ih hn
      rw [Value.collectionKind?]
      cases hkind : v.collectionKind? with
      | none =>
        rw [hkind] at hshape
        obtain ⟨s, rfl⟩ := hshape
        exact ⟨_, rfl⟩
      | some kind =>
        rw [hkind] at hshape
        have htagged : attachTag (plainTag tag) n' = .tagged (plainTag tag) n' := by
          cases n' with
          | scalar s => exact absurd rfl (hshape.1 s)
          | _ => rfl
        rw [htagged]
        exact ⟨nofun, hshape.2⟩

theorem exists_scalar_of_ofValue {v : Value} {n : Node} (h : ofValue v = .ok n)
    (hkind : v.collectionKind? = none) : ∃ s, n = .scalar s := by
  have hshape := shape_of_ofValue h
  rwa [hkind] at hshape

theorem collectionKind?_of_ofValue {v : Value} {n : Node} (h : ofValue v = .ok n)
    (hn : ∀ s, n ≠ .scalar s) : v.collectionKind? = some n.kind := by
  have hshape := shape_of_ofValue h
  cases hkind : v.collectionKind? with
  | none =>
    rw [hkind] at hshape
    exact absurd hshape.choose_spec (hn _)
  | some kind =>
    rw [hkind] at hshape
    rw [hshape.2]

end Node

namespace Yaml.Value

theorem HasCollectionKey.of_parts {v w : Value} {kind : NodeKind} (h : v.HasCollectionKey kind)
    (hparts : ∀ u ∈ v.parts, u ∈ w.parts) : w.HasCollectionKey kind := by
  obtain ⟨entries, hmem, he⟩ := h
  exact ⟨entries, hparts _ hmem, he⟩

theorem parts_item {items : List Value} {v : Value} (h : v ∈ items) :
    ∀ u ∈ v.parts, u ∈ (Value.sequence items).parts := fun _ hu =>
  List.mem_cons_of_mem _ (mem_itemParts.2 ⟨v, h, hu⟩)

theorem parts_key {entries : List (Value × Value)} {e : Value × Value} (h : e ∈ entries) :
    ∀ u ∈ e.1.parts, u ∈ (Value.mapping entries).parts := fun _ hu =>
  List.mem_cons_of_mem _ (mem_entryParts.2 ⟨e, h, .inl hu⟩)

theorem parts_entry {entries : List (Value × Value)} {e : Value × Value} (h : e ∈ entries) :
    ∀ u ∈ e.2.parts, u ∈ (Value.mapping entries).parts := fun _ hu =>
  List.mem_cons_of_mem _ (mem_entryParts.2 ⟨e, h, .inr hu⟩)

theorem parts_tagged (tag : String) (v : Value) : ∀ u ∈ v.parts, u ∈ (tagged tag v).parts :=
  fun _ => List.mem_cons_of_mem _

end Yaml.Value

namespace Node

/-- What is refused has a key that is a collection, of the shape that is reported. -/
theorem ofValue_eq_error {v : Value} {kind : NodeKind} (h : ofValue v = .error kind) :
    v.HasCollectionKey kind := by
  induction v using Value.value_induction with
  | leaf v hkind htag =>
    cases v with
    | number x => cases x <;> cases h
    | sequence items => cases hkind
    | mapping entries => cases hkind
    | tagged tag w => cases htag
    | _ => cases h
  | sequence items ih =>
    rw [ofValue] at h
    split at h
    · rename_i hitems
      cases h
      obtain ⟨v, hv, herror⟩ := ofItems_eq_error hitems
      exact (ih v hv herror).of_parts (Value.parts_item hv)
    · cases h
  | mapping entries ih =>
    rw [ofValue] at h
    split at h
    · rename_i hentries
      cases h
      obtain ⟨e, he, herror | herror | ⟨n, hn, hne, rfl⟩⟩ := ofEntries_eq_error hentries
      · exact ((ih e he).1 herror).of_parts (Value.parts_key he)
      · exact ((ih e he).2 herror).of_parts (Value.parts_entry he)
      · exact ⟨entries, Value.self_mem_parts _, e, he, collectionKind?_of_ofValue hn hne⟩
    · cases h
  | tagged tag v ih =>
    rw [ofValue] at h
    split at h
    · rename_i hv
      cases h
      exact (ih hv).of_parts (Value.parts_tagged tag v)
    · cases h

/-- In a value that has a tree every key is a scalar. -/
theorem key_of_ofValue {v : Value} {n : Node} (h : ofValue v = .ok n)
    {entries : List (Value × Value)} (hmem : .mapping entries ∈ v.parts) {e : Value × Value}
    (he : e ∈ entries) : e.1.collectionKind? = none := by
  induction v using Value.value_induction generalizing n with
  | leaf v hkind htag =>
    cases v with
    | tagged tag w => cases htag
    | mapping entries' => cases hkind
    | sequence items => cases hkind
    | _ => simp [Value.parts] at hmem
  | sequence items ih =>
    rw [ofValue] at h
    split at h
    · cases h
    · rename_i ns hns
      obtain ⟨v, hv, hpart⟩ : ∃ v ∈ items, .mapping entries ∈ v.parts := by
        simpa [Value.parts, Value.mem_itemParts] using hmem
      obtain ⟨n', hn'⟩ := exists_of_forall₂ (ofItems_eq_ok_iff.1 hns) hv
      exact ih v hv hn' hpart
  | mapping entries' ih =>
    rw [ofValue] at h
    split at h
    · cases h
    · rename_i m hm
      have hpairs := ofEntries_eq_ok_iff.1 hm
      rcases List.mem_cons.1 hmem with hself | hmem
      · obtain rfl := Value.mapping.inj hself
        obtain ⟨f, hkey, -⟩ := exists_of_forall₂ hpairs he
        cases hkind : e.1.collectionKind? with
        | none => rfl
        | some kind =>
          have hshape := shape_of_ofValue hkey
          rw [hkind] at hshape
          exact absurd rfl (hshape.1 f.1)
      · obtain ⟨e', he', hpart⟩ := Value.mem_entryParts.1 hmem
        obtain ⟨f, hkey, hval⟩ := exists_of_forall₂ hpairs he'
        exact hpart.elim ((ih e' he').1 hkey) ((ih e' he').2 hval)
  | tagged tag v ih =>
    rw [ofValue] at h
    split at h
    · cases h
    · rename_i n' hn'
      exact ih hn' (by simpa [Value.parts] using hmem)

/-- A key that is a collection is refused, wherever it is. -/
theorem exists_ofValue_eq_error {v : Value} {kind : NodeKind} (h : v.HasCollectionKey kind) :
    ∃ kind', ofValue v = .error kind' := by
  obtain ⟨entries, hmem, e, he, hkind⟩ := h
  cases hv : ofValue v with
  | error kind' => exact ⟨kind', rfl⟩
  | ok n =>
    rw [key_of_ofValue hv hmem he] at hkind
    cases hkind

end Node

/-! ## Tags -/

/-- A tag with a name and at most one exclamation mark before it. -/
theorem plainTag_eq_bareTag {tag : String} (h : tag ≠ "" ∧ tag ≠ "!" ∧ ¬ ['!', '!'] <+: tag.toList) :
    plainTag tag = bareTag tag ∧ bareTag tag ≠ "" ∧ bareTag (bareTag tag) = bareTag tag := by
  obtain ⟨hempty, hmark, hmarks⟩ := h
  obtain ⟨cs, rfl⟩ : ∃ cs, tag = String.ofList cs := ⟨tag.toList, by simp⟩
  rw [String.toList_ofList] at hmarks
  rcases cs with _ | ⟨c, cs⟩
  · exact absurd rfl hempty
  by_cases hc : c = '!'
  · subst hc
    rcases cs with _ | ⟨d, cs⟩
    · exact absurd rfl hmark
    · have hd : d ≠ '!' := by
        rintro rfl
        exact hmarks ⟨cs, rfl⟩
      simp [plainTag, bareTag, hd]
  · simp [plainTag, bareTag, hc]

theorem plainTag_bareTag (tag : String) : plainTag (bareTag tag) = plainTag tag := by
  unfold bareTag
  split
  · rename_i c rest htag
    simp [plainTag, htag]
  · rfl

namespace Yaml.Value

theorem WellFormed.of_parts {v w : Value} (h : w.WellFormed) (hparts : ∀ u ∈ v.parts, u ∈ w.parts) :
    v.WellFormed := fun u hu => h u (hparts u hu)

theorem PlainlyTagged.of_parts {v w : Value} (h : w.PlainlyTagged)
    (hparts : ∀ u ∈ v.parts, u ∈ w.parts) : v.PlainlyTagged := fun u hu => h u (hparts u hu)

theorem bareTags_of_leaf {v : Value} (hkind : v.collectionKind? = none)
    (htag : v.isTagged = false) : v.bareTags = v := by
  cases v with
  | sequence items => cases hkind
  | mapping entries => cases hkind
  | tagged tag w => cases htag
  | _ => rfl

theorem same_tagged_of_leaf {v w : Value} (htag : v.isTagged = false) (tag : String) :
    v.same (.tagged tag w) = false ∧ (Value.tagged tag w).same v = false := by
  cases v with
  | tagged tag u => cases htag
  | _ => simp [same]

/-- Scalars that differ as keys differ with their tags bare. -/
theorem same_bareTags {a b : Value} (ha : a.collectionKind? = none) (hb : b.collectionKind? = none)
    (hta : a.PlainlyTagged) (htb : b.PlainlyTagged) : a.bareTags.same b.bareTags = a.same b := by
  cases htag : a.isTagged with
  | false =>
    rw [bareTags_of_leaf ha htag]
    cases htag' : b.isTagged with
    | false => rw [bareTags_of_leaf hb htag']
    | true =>
      obtain ⟨tag', u', rfl⟩ := isTagged_iff.1 htag'
      rw [bareTags, (same_tagged_of_leaf htag _).1, (same_tagged_of_leaf htag _).1]
  | true =>
    obtain ⟨tag, u, rfl⟩ := isTagged_iff.1 htag
    obtain ⟨hname, hone⟩ := hta _ (self_mem_parts _)
    cases htag' : b.isTagged with
    | false =>
      rw [bareTags_of_leaf hb htag', bareTags, (same_tagged_of_leaf htag' _).2,
        (same_tagged_of_leaf htag' _).2]
    | true =>
      obtain ⟨tag', u', rfl⟩ := isTagged_iff.1 htag'
      obtain ⟨hname', hone'⟩ := htb _ (self_mem_parts _)
      have hu : u.bareTags = u := bareTags_of_leaf ha hone
      have hu' : u'.bareTags = u' := bareTags_of_leaf hb hone'
      rw [bareTags, bareTags, hu, hu', same, same, (plainTag_eq_bareTag hname).2.2,
        (plainTag_eq_bareTag hname').2.2]

theorem insert_of_new {key value : Value} {done : List (Value × Value)}
    (h : ∀ e ∈ done, e.1.same key = false) : insert key value done = done ++ [(key, value)] := by
  induction done with
  | nil => rfl
  | cons e done ih =>
    obtain ⟨k, v⟩ := e
    obtain ⟨hk, hdone⟩ := List.forall_mem_cons.1 h
    rw [insert, hk, ih hdone]
    rfl

end Yaml.Value

/-! ## The way back -/

namespace Node

theorem toItems?_eq_some {vs : List Value} {ns : List Node}
    (h : List.Forall₂ (fun v n => n.toValue? = some v) vs ns) : toItems? ns = some vs := by
  induction h with
  | nil => rfl
  | cons hn _ ih => rw [toItems?, hn, ih]

abbrev EntriesOf (es : List (Value × Value)) (m : Mapping) : Prop :=
  List.Forall₂ (fun e f => f.1.toValue = e.1 ∧ f.2.toValue? = some e.2) es m

/-- Entries whose keys differ come back in their order, and all of them. -/
theorem toEntries?_eq_some {entries done : List (Value × Value)} {m : Mapping}
    (h : EntriesOf entries m)
    (hkeys : (done ++ entries).Pairwise fun a b => a.1.same b.1 = false) :
    toEntries? m done = some (done ++ entries) := by
  induction h generalizing done with
  | nil => rw [toEntries?, List.append_nil]
  | @cons e f entries m hf _ ih =>
    obtain ⟨hkey, hn⟩ := hf
    have hnew : ∀ d ∈ done, d.1.same e.1 = false := fun d hd =>
      (List.pairwise_append.1 hkeys).2.2 d hd e List.mem_cons_self
    have happend : done ++ e :: entries = done ++ [(e.1, e.2)] ++ entries := by simp
    rw [toEntries?, hn, hkey, happend]
    dsimp only
    rw [Value.insert_of_new hnew]
    exact ih (happend ▸ hkeys)

theorem leaf_of_ofValue {v : Value} {n : Node} (h : ofValue v = .ok n) (hwf : v.WellFormed)
    (hkind : v.collectionKind? = none) (htag : v.isTagged = false) :
    ∃ s : Scalar, n = .scalar s ∧ s.tag = none ∧ s.untaggedValue = v := by
  cases v with
  | null => exact ⟨_, (Except.ok.inj h).symm, rfl, rfl⟩
  | bool b => exact ⟨_, (Except.ok.inj h).symm, rfl, by cases b <;> rfl⟩
  | number x =>
    have hproper := hwf _ (Value.self_mem_parts _)
    cases x with
    | int i => exact ⟨_, (Except.ok.inj h).symm, rfl, untaggedValue_int hproper⟩
    | float x => exact ⟨_, (Except.ok.inj h).symm, rfl, untaggedValue_float hproper⟩
  | string s => exact ⟨_, (Except.ok.inj h).symm, rfl, rfl⟩
  | sequence items => cases hkind
  | mapping entries => cases hkind
  | tagged tag w => cases htag

theorem toValue?_attachTag {v w : Value} {n : Node} {tag : String} (h : ofValue v = .ok n)
    (hwf : v.WellFormed) (htag : v.isTagged = false) (hw : n.toValue? = some w)
    (hname : tag ≠ "") : (n.attachTag tag).toValue? = some (.tagged tag w) := by
  cases hkind : v.collectionKind? with
  | none =>
    obtain ⟨s, rfl, hnone, -⟩ := leaf_of_ofValue h hwf hkind htag
    simp only [toValue?, Scalar.toValue, hnone, Option.some.injEq] at hw
    simp only [attachTag, toValue?, Scalar.toValue, if_neg hname, ← hw]
    rfl
  | some kind =>
    have hshape := shape_of_ofValue h
    rw [hkind] at hshape
    have htagged : n.attachTag tag = .tagged tag n := by
      cases n with
      | scalar s => exact absurd rfl (hshape.1 s)
      | _ => rfl
    rw [htagged, toValue?, hw]
    exact if_neg hname

/-- A value that has a tree comes back from it with its tags bare. -/
theorem toValue?_of_ofValue {v : Value} {n : Node} (h : ofValue v = .ok n) (hwf : v.WellFormed)
    (htags : v.PlainlyTagged) : n.toValue? = some v.bareTags := by
  induction v using Value.value_induction generalizing n with
  | leaf v hkind htag =>
    obtain ⟨s, rfl, hnone, hvalue⟩ := leaf_of_ofValue h hwf hkind htag
    simp only [toValue?, Scalar.toValue, hnone, hvalue, Value.bareTags_of_leaf hkind htag]
  | sequence items ih =>
    rw [ofValue] at h
    split at h
    · cases h
    · rename_i ns hns
      cases h
      have hitems : List.Forall₂ (fun v n => n.toValue? = some v) (items.map Value.bareTags) ns := by
        rw [List.forall₂_map_left_iff]
        refine ((List.forall₂_and_left items ns).2 ⟨fun _ => id, ofItems_eq_ok_iff.1 hns⟩).imp ?_
        rintro v n ⟨hv, hn⟩
        exact ih v hv hn (hwf.of_parts (Value.parts_item hv)) (htags.of_parts (Value.parts_item hv))
      rw [toValue?, toItems?_eq_some hitems, Value.bareTags, Value.bareItems_eq]
  | mapping entries ih =>
    have hkey : ∀ e ∈ entries, e.1.collectionKind? = none := fun e he =>
      key_of_ofValue h (Value.self_mem_parts _) he
    have hplain : ∀ e ∈ entries, e.1.PlainlyTagged := fun e he =>
      htags.of_parts (Value.parts_key he)
    rw [ofValue] at h
    split at h
    · cases h
    · rename_i m hm
      cases h
      have hentries : EntriesOf (Value.bareEntries entries) m := by
        rw [EntriesOf, Value.bareEntries_eq, List.forall₂_map_left_iff]
        refine ((List.forall₂_and_left entries m).2
          ⟨fun _ => id, ofEntries_eq_ok_iff.1 hm⟩).imp ?_
        rintro e f ⟨he, hk, hn⟩
        have hback := (ih e he).1 hk (hwf.of_parts (Value.parts_key he)) (hplain e he)
        rw [toValue?, Option.some_inj] at hback
        exact ⟨hback, (ih e he).2 hn (hwf.of_parts (Value.parts_entry he))
          (htags.of_parts (Value.parts_entry he))⟩
      have hdistinct : (Value.bareEntries entries).Pairwise fun a b => a.1.same b.1 = false := by
        rw [Value.bareEntries_eq, List.pairwise_map]
        refine List.Pairwise.imp_of_mem ?_ (hwf _ (Value.self_mem_parts _))
        intro a b ha hb hab
        rw [Value.same_bareTags (hkey a ha) (hkey b hb) (hplain a ha) (hplain b hb), hab]
      rw [toValue?, toEntries?_eq_some hentries (by simpa using hdistinct), Value.bareTags]
      rfl
  | tagged tag v ih =>
    rw [ofValue] at h
    split at h
    · cases h
    · rename_i n' hn'
      cases h
      obtain ⟨hname, hone⟩ := htags _ (Value.self_mem_parts _)
      obtain ⟨hplain, hne, -⟩ := plainTag_eq_bareTag hname
      have hback := ih hn' (hwf.of_parts (Value.parts_tagged tag v))
        (htags.of_parts (Value.parts_tagged tag v))
      rw [hplain, Value.bareTags]
      exact toValue?_attachTag hn' (hwf.of_parts (Value.parts_tagged tag v)) hone hback hne

theorem ofItems_congr {vs : List Value} {f : Value → Value} (h : ∀ v ∈ vs, ofValue (f v) = ofValue v) :
    ofItems (vs.map f) = ofItems vs := by
  induction vs with
  | nil => rfl
  | cons v vs ih =>
    obtain ⟨hv, hvs⟩ := List.forall_mem_cons.1 h
    rw [List.map_cons, ofItems, ofItems, hv, ih hvs]

theorem ofEntries_congr {entries : List (Value × Value)} {f : Value → Value}
    (h : ∀ e ∈ entries, ofValue (f e.1) = ofValue e.1 ∧ ofValue (f e.2) = ofValue e.2) :
    ofEntries (entries.map fun e => (f e.1, f e.2)) = ofEntries entries := by
  induction entries with
  | nil => rfl
  | cons e es ih =>
    obtain ⟨hk, hv⟩ := (List.forall_mem_cons.1 h).1
    rw [List.map_cons, ofEntries, ofEntries, hk, hv, ih (List.forall_mem_cons.1 h).2]

theorem ofValue_bareTags (v : Value) : ofValue v.bareTags = ofValue v := by
  induction v using Value.value_induction with
  | leaf v hkind htag => rw [Value.bareTags_of_leaf hkind htag]
  | sequence items ih => rw [Value.bareTags, Value.bareItems_eq, ofValue, ofValue, ofItems_congr ih]
  | mapping entries ih =>
    rw [Value.bareTags, Value.bareEntries_eq, ofValue, ofValue, ofEntries_congr ih]
  | tagged tag v ih => rw [Value.bareTags, ofValue, ofValue, ih, plainTag_bareTag]

/-- A value has a tree unless a key in it is a collection, and comes back from the tree with its
entries in their order, its scalars as they were and its tags bare; and so does the tree. -/
theorem value_round_trip (v : Value) :
    ((∃ kind, ofValue v = .error kind) ↔ ∃ kind, v.HasCollectionKey kind) ∧
      (∀ kind, ofValue v = .error kind → v.HasCollectionKey kind) ∧
      ∀ n, ofValue v = .ok n → v.WellFormed → v.PlainlyTagged →
        n.toValue? = some v.bareTags ∧ ofValue v.bareTags = .ok n := by
  refine ⟨⟨?_, ?_⟩, fun _ => ofValue_eq_error, fun n hn hwf htags => ?_⟩
  · rintro ⟨kind, h⟩
    exact ⟨kind, ofValue_eq_error h⟩
  · rintro ⟨kind, h⟩
    exact exists_ofValue_eq_error h
  · exact ⟨toValue?_of_ofValue hn hwf htags, (ofValue_bareTags v).trans hn⟩

/-- Keys that differ by kind or tag, a float and tags on a scalar and on a collection. -/
def roundTripSample : Value :=
  .mapping [(.number (.int 1), .tagged "!a" (.number (.float (.finite true 6755399441055744 (-52))))),
    (.string "1", .tagged "!b" (.sequence [.null, .bool true, .number (.int (-7))])),
    (.tagged "!c" (.string "1"), .number (.float (.infinite true)))]

theorem value_round_trip_sample :
    ∃ n, ofValue roundTripSample = .ok n ∧ n.toValue? = some roundTripSample.bareTags ∧
      ofValue roundTripSample.bareTags = .ok n := by
  have hn : ofValue roundTripSample = .ok (.mapping [
      (⟨"1", .int, none⟩, .scalar ⟨"-1.5", .float, some "a"⟩),
      (⟨"1", .str, none⟩, .tagged "b" (.sequence [.scalar ⟨"", .null, none⟩,
        .scalar ⟨"true", .bool, none⟩, .scalar ⟨"-7", .int, none⟩])),
      (⟨"1", .str, some "c"⟩, .scalar ⟨"-.inf", .float, none⟩)]) := by
    decide +kernel
  exact ⟨_, hn, (value_round_trip roundTripSample).2.2 _ hn (by decide +kernel) (by decide +kernel)⟩

end Node

end SharedConfig
