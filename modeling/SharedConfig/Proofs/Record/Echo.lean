import Mathlib.Data.List.DropRight
import SharedConfig.Proofs.Record.Overlay
import SharedConfig.Proofs.Run.Repetition

/-!
# SharedConfig.Proofs.Record.Echo

A record that was read is not written.

In a document that was read a tree without tagged scalars comes back from its value, so what a field
is read from is the tree of its part, up to tags of collections and other entries; and such a tree
holds that of the part.

* `IsOfValue.isCanonical`: trees of a document that come back from their values.
* `FieldShape.echoes`: one field, read and written.
* `upsert_of_found`: a record that is found is set without a change.
-/

namespace SharedConfig

open Node Yaml

/-! ## Trees that were read -/

namespace Node

/-- Whether a node is no scalar with a tag, and no mapping with such a key. -/
def hasUntaggedScalars : Node → Bool
  | .scalar s => s.tag.isNone
  | .mapping m => m.all fun e => e.1.tag.isNone
  | _ => true

/-- No scalar of the tree has a tag, be it a key or not. -/
abbrev ScalarsUntagged (n : Node) : Prop := n.all hasUntaggedScalars = true

/-- A tree that was read. -/
def IsOfValue (n : Node) : Prop := ∃ v : Value, v.WellFormed ∧ ofValue v = .ok n

/-- What a tree that is no scalar was read from. -/
theorem ofValue_cases {v : Value} {n : Node} (h : ofValue v = .ok n) :
    match n with
    | .scalar _ => True
    | .sequence items => ∃ vs, v = .sequence vs ∧
        List.Forall₂ (fun v n => ofValue v = .ok n) vs items
    | .mapping m => ∃ entries, v = .mapping entries ∧
        List.Forall₂ (fun e f => ofValue e.1 = .ok (.scalar f.1) ∧ ofValue e.2 = .ok f.2) entries m
    | .tagged tag n => ∃ t w, v = .tagged t w ∧ plainTag t = tag ∧ ofValue w = .ok n ∧
        n.kind ≠ .scalar := by
  cases v with
  | sequence vs =>
    rw [ofValue] at h
    split at h
    · cases h
    · rename_i ns hns
      cases h
      exact ⟨vs, rfl, ofItems_eq_ok_iff.1 hns⟩
  | mapping entries =>
    rw [ofValue] at h
    split at h
    · cases h
    · rename_i m hm
      cases h
      exact ⟨entries, rfl, ofEntries_eq_ok_iff.1 hm⟩
  | tagged t w =>
    rw [ofValue] at h
    split at h
    · cases h
    · rename_i n' hn
      cases h
      by_cases hkind : n'.kind = .scalar
      · obtain ⟨s, rfl⟩ := eq_scalar_of_ofValue hn hkind
        trivial
      · cases n' with
        | scalar s => trivial
        | _ => exact ⟨t, w, rfl, rfl, hn, hkind⟩
  | number x =>
    cases x <;> cases h <;> trivial
  | _ =>
    cases h
    trivial

theorem toValue_of_ofValue {v : Value} {s : Scalar} (h : ofValue v = .ok (.scalar s))
    (hwf : v.WellFormed) (htag : s.tag = none) : s.toValue = v := by
  have hkind : v.collectionKind? = none := by
    have hshape := shape_of_ofValue h
    cases hk : v.collectionKind? with
    | none => rfl
    | some kind =>
      rw [hk] at hshape
      exact absurd rfl (hshape.1 s)
  have huntagged : v.isTagged = false := by
    rw [← Bool.not_eq_true, Value.isTagged_iff]
    rintro ⟨t, w, rfl⟩
    rw [ofValue] at h
    split at h
    · cases h
    · rename_i n _
      cases n <;> cases h
      cases htag
  obtain ⟨s', hs', -, hvalue⟩ := leaf_of_ofValue h hwf hkind huntagged
  cases hs'
  rw [Scalar.toValue, htag]
  exact hvalue

namespace IsOfValue

/-- A tag that was read has no marks, and is not on a scalar. -/
theorem tagged {tag : String} {n : Node} (h : (Node.tagged tag n).IsOfValue) :
    n.IsOfValue ∧ n.kind ≠ .scalar ∧ plainTag tag = tag := by
  obtain ⟨v, hwf, hv⟩ := h
  obtain ⟨t, w, rfl, rfl, hw, hkind⟩ := ofValue_cases hv
  refine ⟨⟨w, hwf.of_parts (Value.parts_tagged t w), hw⟩, hkind, ?_⟩
  simp [plainTag, List.dropWhile_idempotent]

theorem core {n : Node} (h : n.IsOfValue) : n.core.IsOfValue := by
  induction n using tagged_induction with
  | tagged t n ih => exact ih h.tagged.1
  | _ => exact h

theorem items {n : Node} {ns : List Node} (h : n.IsOfValue) (hn : n.asSequence = some ns) :
    ∀ x ∈ ns, x.IsOfValue := by
  obtain ⟨v, hwf, hv⟩ := h.core
  rw [asSequence_eq_some_iff.1 hn] at hv
  obtain ⟨vs, rfl, hitems⟩ := ofValue_cases hv
  exact forall_mem_of_forall₂ hitems fun w hw x hx => ⟨w, hwf.of_parts (Value.parts_item hw), hx⟩

theorem child? {n c : Node} {key : String} (h : n.IsOfValue) (hc : n.child? key = some c) :
    c.IsOfValue := by
  obtain ⟨m, hm⟩ := exists_asMapping_of_child? hc
  obtain ⟨v, hwf, hv⟩ := h.core
  rw [asMapping_eq_some_iff.1 hm] at hv
  obtain ⟨entries, rfl, hentries⟩ := ofValue_cases hv
  rw [child?_of_asMapping hm] at hc
  obtain ⟨e, he, rfl⟩ := Mapping.exists_mem_of_get? hc
  exact forall_mem_of_forall₂ (P := fun f : Scalar × Node => f.2.IsOfValue) hentries
    (fun e he f hf => ⟨e.2, hwf.of_parts (Value.parts_entry he), hf.2⟩) e he

theorem at? {n c : Node} {keys : List String} (h : n.IsOfValue) (hc : n.at? keys = some c) :
    c.IsOfValue := by
  induction keys generalizing n with
  | nil =>
    cases hc
    exact h
  | cons key keys ih =>
    rw [at?_cons, Option.bind_eq_some_iff] at hc
    obtain ⟨d, hd, hc⟩ := hc
    exact ih (h.child? hd) hc

theorem mem_items {k : RecordKind} {root n : Node} (h : root.IsOfValue) (hn : n ∈ k.items root) :
    n.IsOfValue := by
  obtain ⟨x, ns, hx, hns, hn⟩ := RecordKind.exists_of_mem_items hn
  exact (h.at? hx).items hns n hn

theorem entity? {k : RecordKind} {name : String} {root n : Node} (h : root.IsOfValue)
    (hn : k.entity? name root = some n) : n.IsOfValue :=
  h.mem_items (RecordKind.mem_items_of_entity? hn).1

/-- Keys without tags come back from their values, and are apart as those are. -/
theorem mapping {m : Mapping} (h : (Node.mapping m).IsOfValue) (hkeys : ∀ f ∈ m, f.1.tag = none) :
    CanonicalKeys (m.map Prod.fst) ∧ ∀ f ∈ m, f.2.IsOfValue := by
  obtain ⟨v, hwf, hv⟩ := h
  obtain ⟨entries, rfl, hentries⟩ := ofValue_cases hv
  have hread := (List.forall₂_and_left entries m).2 ⟨fun _ => id, hentries⟩
  have hback : List.Forall₂ (fun f e => f.1.toValue = e.1 ∧ ofValue e.1 = .ok (.scalar f.1))
      m entries :=
    ((List.forall₂_and_left m entries).2 ⟨hkeys, hread.flip⟩).imp fun f e h =>
      ⟨toValue_of_ofValue h.2.2.1 (hwf.of_parts (Value.parts_key h.2.1)) h.1, h.2.2.1⟩
  have heach : ∀ f ∈ m, (Node.scalar f.1).IsCanonical :=
    forall_mem_of_forall₂ hback.flip fun e _ f h => isCanonical_scalar_iff.2 (h.1 ▸ h.2)
  have hpairs := hback.flip.imp fun e f h => h.1
  refine ⟨⟨List.forall_mem_map.2 heach, ?_⟩, ?_⟩
  · exact (pairwise_same_iff hpairs).1 (hwf _ (Value.self_mem_parts _))
  · exact forall_mem_of_forall₂ hread fun e _ f hf =>
      ⟨e.2, hwf.of_parts (Value.parts_entry hf.1), hf.2.2⟩

/-- Without tagged scalars and empty tags a tree that was read comes back from its value. -/
theorem isCanonical {n : Node} (h : n.IsOfValue) (hscalars : n.ScalarsUntagged)
    (htags : n.all keepsTag = true) : n.IsCanonical := by
  induction n using tree_induction with
  | scalar s =>
    have htag : s.tag = none := by simpa [ScalarsUntagged, all, hasUntaggedScalars] using hscalars
    obtain ⟨v, hwf, hv⟩ := h
    rw [isCanonical_scalar_iff, toValue_of_ofValue hv hwf htag]
    exact hv
  | sequence items ih =>
    simp only [ScalarsUntagged, all, Bool.and_eq_true, allItems_iff] at hscalars htags
    exact isCanonical_sequence_iff.2 fun n hn =>
      ih n hn (h.items rfl n hn) (hscalars.2 n hn) (htags.2 n hn)
  | mapping m ih =>
    simp only [ScalarsUntagged, all, hasUntaggedScalars, Bool.and_eq_true, List.all_eq_true,
      Option.isNone_iff_eq_none, allEntries_iff] at hscalars htags
    obtain ⟨hkeys, hvalues⟩ := h.mapping hscalars.1
    exact isCanonical_mapping_iff.2 ⟨hkeys, fun e he =>
      ih e he (hvalues e he) (hscalars.2 e he) (htags.2 e he)⟩
  | tagged tag n ih =>
    simp only [ScalarsUntagged, all, keepsTag, Bool.and_eq_true, decide_eq_true_eq]
      at hscalars htags
    obtain ⟨hn, hkind, hplain⟩ := h.tagged
    exact isCanonical_tagged_iff.2 ⟨ih hn hscalars.2 htags.2, hkind, htags.1, hplain⟩

end IsOfValue

end Node

/-! ## One field -/

section Parts

variable {c : Node} {v : Value} {table : StrategyTable} {path : String}

theorem untagged_toValue (s : Scalar) : s.toValue.untagged = s.untaggedValue := by
  have huntagged : s.untaggedValue.untagged = s.untaggedValue := by
    have htag := (untaggedValue_leaf s).2
    cases hs : s.untaggedValue with
    | tagged t w => rw [hs] at htag; cases htag
    | _ => rfl
  unfold Scalar.toValue
  split
  · split
    · exact huntagged
    · exact huntagged
  · exact huntagged

theorem kind_of_untagged (hv : c.toValue? = some v) :
    c.kind = match v.untagged with
      | .sequence _ => .sequence
      | .mapping _ => .mapping
      | _ => .scalar := by
  induction c using tagged_induction generalizing v with
  | scalar s =>
    cases hv
    have hleaf := (untaggedValue_leaf s).1
    rw [untagged_toValue]
    cases hs : s.untaggedValue <;> rw [hs] at hleaf <;> first | rfl | cases hleaf
  | sequence items =>
    obtain ⟨vs, hvs, -⟩ := untagged_of_asSequence rfl hv
    rw [hvs]
    rfl
  | mapping m =>
    obtain ⟨es, hes, -⟩ := untagged_of_asMapping rfl hv
    rw [hes]
    rfl
  | tagged t n ih =>
    obtain ⟨w, hw, rfl⟩ := toValue?_tagged hv
    rw [kind_tagged, ih hw, Value.untagged_tagged]

/-- A record with a field that must be there was read from a mapping. -/
theorem exists_asMapping_of_readRecord {ρ : Type} {name key : String} {initial r : ρ}
    {required : List String} {field : ρ → String → Value → Option (Decoding ρ)}
    (hv : c.toValue? = some v) (hkey : key ∈ required)
    (h : readRecord name initial required field v = (.ok r : Decoding ρ)) :
    ∃ m, c.asMapping = some m := by
  have hkind := kind_of_untagged hv
  obtain ⟨es, seen, hes, hfields, hrequired⟩ := readRecord_eq_ok h
  unfold Value.entriesOf at hes
  split at hes
  · rename_i hmapping
    rw [hmapping] at hkind
    exact kind_eq_mapping_iff.1 hkind
  -- a null has no entries, so its field was not seen
  · cases hes
    cases hfields
    exact absurd (hrequired key hkey) List.not_mem_nil
  · cases hes

theorem eq_string_of_untagged {s : String} (hc : c.IsCanonical) (hscalars : c.ScalarsUntagged)
    (hv : c.toValue? = some v) (hs : v.untagged = .string s) : c = .string s := by
  have hkind : c.kind = .scalar := by
    have hleaf := kind_of_untagged hv
    rw [hs] at hleaf
    exact hleaf
  obtain ⟨k, rfl⟩ := hc.eq_scalar hkind
  have htag : k.tag = none := by simpa [ScalarsUntagged, all, hasUntaggedScalars] using hscalars
  cases hv
  have hvalue : k.toValue = .string s := by
    rw [untagged_toValue] at hs
    rw [Scalar.toValue, htag]
    exact hs
  rw [eq_string_of_same hc (by rw [hvalue]; exact same_string.2 rfl)]
  rfl

theorem forall₂_of_mapM {σ : Type} {read : Value → Decoding σ} {items : List Value} {x : List σ}
    (h : items.mapM read = .ok x) : List.Forall₂ (fun w y => read w = .ok y) items x := by
  induction items generalizing x with
  | nil =>
    cases h
    exact .nil
  | cons w items ih =>
    rw [List.mapM_cons] at h
    cases hw : read w with
    | error e => rw [hw] at h; cases h
    | ok y =>
      cases hrest : items.mapM read with
      | error e => rw [hw, hrest] at h; cases h
      | ok ys =>
        rw [hw, hrest] at h
        cases h
        exact .cons hw (ih hrest)

theorem readList_eq_ok {σ : Type} {read : Value → Decoding σ} {x : List σ}
    (h : readList read v = .ok x) :
    ∃ items, Value.itemsOf v = .ok items ∧ List.Forall₂ (fun w y => read w = .ok y) items x := by
  change (Value.itemsOf v >>= fun items => items.mapM read) = .ok x at h
  cases hitems : Value.itemsOf v with
  | error e => rw [hitems] at h; cases h
  | ok items =>
    rw [hitems] at h
    exact ⟨items, rfl, forall₂_of_mapM h⟩

theorem exists_items_of_readList {σ : Type} {read : Value → Decoding σ} {x : List σ}
    (hv : c.toValue? = some v) (h : readList read v = .ok x) (hx : x ≠ []) :
    ∃ items ns, c.asSequence = some ns ∧
      List.Forall₂ (fun w n => n.toValue? = some w) items ns ∧
      List.Forall₂ (fun w y => read w = .ok y) items x := by
  obtain ⟨items, hitems, hread⟩ := readList_eq_ok h
  have hkind := kind_of_untagged hv
  unfold Value.itemsOf at hitems
  split at hitems
  · rename_i vs hvs
    cases hitems
    rw [hvs] at hkind
    obtain ⟨ns, hns⟩ := kind_eq_sequence_iff.1 hkind
    obtain ⟨items', hitems', hto⟩ := untagged_of_asSequence hns hv
    cases hvs.symm.trans hitems'
    exact ⟨items, ns, hns, forall₂_of_toItems? hto, hread⟩
  · cases hitems
    cases hread
    exact absurd rfl hx
  · cases hitems

theorem eq_map_string {items : List Value} {ns : List Node} {l : List String}
    (hn : List.Forall₂ (fun w n => n.toValue? = some w) items ns)
    (hl : List.Forall₂ (fun w y => readText w = (.ok y : Decoding String)) items l)
    (h : ∀ n ∈ ns, n.IsCanonical ∧ n.ScalarsUntagged) : ns = l.map .string := by
  induction hn generalizing l with
  | nil =>
    cases hl
    rfl
  | cons hw _ ih =>
    cases hl with
    | cons hy hl =>
      obtain ⟨⟨hc, hscalars⟩, hrest⟩ := List.forall_mem_cons.1 h
      rw [List.map_cons, ih hl hrest,
        eq_string_of_untagged hc hscalars hw (textOf_eq_ok.1 hy)]

theorem holds_string {s : String} (hs : table.select path = .merge) :
    Holds table path (.string s) (.string s) :=
  holds_scalar hs rfl rfl

end Parts

namespace FieldShape

theorem eq_text_of_tree_absent {f : FieldShape} {n : Node} (h : f.tree f.absent = some n) :
    f = text := by
  cases f with
  | text => rfl
  | _ => cases h

/-- What a field was read from holds the tree of the part. -/
def Echoes (f : FieldShape) : Prop :=
  ∀ (table : StrategyTable) (path : String) (x : f.Part) (n c : Node),
    (∀ p, table.select p = .merge) → c.IsCanonical → c.ScalarsUntagged → f.tree x = some n →
      PartIs f.read f.absent (some c) x → Holds table path n c

theorem echoes_text : text.Echoes := by
  intro table path x n c hmerge hc hscalars hn hpart
  obtain ⟨v, hv, hread⟩ := hpart
  cases hn
  rw [eq_string_of_untagged hc hscalars hv (textOf_eq_ok.1 hread)]
  exact holds_string (hmerge path)

theorem echoes_optionalText : optionalText.Echoes := by
  intro table path x n c hmerge hc hscalars hn hpart
  obtain ⟨s, rfl, rfl⟩ := Option.map_eq_some_iff.1 hn
  obtain ⟨v, hv, hread⟩ := hpart
  rcases readOption_eq_ok_iff.1 hread with ⟨-, hnone⟩ | ⟨-, t, ht, hsome⟩
  · cases hnone
  · cases hsome
    rw [eq_string_of_untagged hc hscalars hv (textOf_eq_ok.1 ht)]
    exact holds_string (hmerge path)

theorem echoes_texts : texts.Echoes := by
  intro table path x n c hmerge hc hscalars hn hpart
  cases x with
  | nil => cases hn
  | cons s l =>
    cases hn
    obtain ⟨v, hv, hread⟩ := hpart
    obtain ⟨items, ns, hns, hitems, htexts⟩ := exists_items_of_readList hv hread (by simp)
    have hown : ns = (s :: l).map .string := eq_map_string hitems htexts fun n hn =>
      ⟨isCanonical_sequence_iff.1 (hc.asSequence hns) n hn,
        allItems_iff.1 (all_of_asSequence hscalars hns).2 n hn⟩
    rw [hown] at hns
    refine holds_sequence (hmerge path) hns (fun hnamed => ?_) fun _ => rfl
    cases hnamed

end FieldShape

namespace Layout

variable {ρ : Type} {l : Layout ρ} {m : Mapping} {r : ρ}

/-- The tree that a record was read from holds the tree of the record. -/
theorem ReadFrom.held (h : l.ReadFrom m r) {c : Node} (hm : c.asMapping = some m)
    (hc : c.IsCanonical) (hscalars : c.ScalarsUntagged) {table : StrategyTable}
    (hmerge : ∀ p, table.select p = .merge) (hshapes : ∀ s ∈ l.slots, s.shape.Echoes)
    (path : String) : Holds table path (.mapping (l.entries r)) c := by
  refine holds_mapping (hmerge path) hm fun e he => ?_
  obtain ⟨s, hs, n, hn, rfl⟩ := mem_entries.1 he
  have hpart := h.parts s hs
  cases hget : m.get? s.key with
  | some v =>
    rw [hget] at hpart
    exact ⟨v, hget, hshapes s hs table _ _ n v hmerge ((hc.asMapping hm).get? hget)
      (all_of_get? (all_of_asMapping hscalars hm).2 hget) hn hpart⟩
  | none =>
    rw [hget] at hpart
    have habsent : s.shape.tree s.shape.absent = some n := hpart ▸ hn
    -- only a text has a tree even if it is absent, and then its field is required
    have htext := FieldShape.eq_text_of_tree_absent habsent
    exact absurd (h.required s.key (l.required_text s hs htext)) (Mapping.get?_eq_none_iff.1 hget)

end Layout

namespace FieldShape

/-- A record of one text that is there is a mapping. -/
theorem exists_asMapping_of_single {record key s : String} {c : Node}
    (h : PartIs (single record key).read none (some c) (some s)) : ∃ m, c.asMapping = some m := by
  obtain ⟨v, hv, hread⟩ := h
  rcases readOption_eq_ok_iff.1 hread with ⟨-, hnone⟩ | ⟨-, t, ht, -⟩
  · cases hnone
  · exact exists_asMapping_of_readRecord hv List.mem_cons_self ht

theorem echoes_single (record key : String) : (single record key).Echoes := by
  intro table path x n c hmerge hc hscalars hn hpart
  obtain ⟨s, rfl, rfl⟩ := Option.map_eq_some_iff.1 hn
  obtain ⟨m, hm⟩ := exists_asMapping_of_single hpart
  obtain ⟨t, ht, hdecode⟩ := (partIs_single_iff hm).1 hpart
  cases ht
  have hread := ((Layout.decode_eq_ok_iff hm (hc.apartKeys m hm)).1 hdecode).2
  have hshapes : ∀ t ∈ (PluginDiscovery.single record key).slots, t.shape.Echoes :=
    List.forall_mem_singleton.2 echoes_text
  exact hread.held hm hc hscalars hmerge hshapes path

theorem echoes : ∀ f : FieldShape, f.Echoes
  | text => echoes_text
  | optionalText => echoes_optionalText
  | texts => echoes_texts
  | single record key => echoes_single record key

end FieldShape

/-! ## Records -/

theorem RecordKind.recordName_of_readFrom {k : RecordKind} (hk : k.isPlain = true) {m : Mapping}
    {r : k.Record} (h : (k.layout hk).ReadFrom m r) :
    PartIs readText "" (m.get? "name") (k.recordName r) := by
  cases k with
  | context => cases hk
  | server => cases hk
  | pluginGroup => exact h.parts _ List.mem_cons_self
  | essential => exact h.parts _ List.mem_cons_self
  | corePluginGroup => exact h.parts _ List.mem_cons_self
  | discoverySource => exact h.parts _ List.mem_cons_self

theorem StrategyTable.select_eq_merge {table : StrategyTable}
    (h : ∀ e ∈ table.entries, e.2 ≠ .replace) (path : String) : table.select path = .merge := by
  rw [select, get?]
  cases hl : table.entries.lookup path with
  | none => rfl
  | some strategy =>
    obtain ⟨l₁, l₂, hentries, -⟩ := List.lookup_eq_some_iff.1 hl
    have hne := h (path, strategy) (by simp [hentries])
    cases strategy with
    | merge => rfl
    | replace => exact absurd rfl hne

/-- Setting a record that was found in a document changes nothing, if the table replaces nothing and
no scalar of the entity has a tag. -/
theorem upsert_of_found {k : RecordKind} (hk : k.isPlain = true) {v : Value} {s : Session}
    (hwf : v.WellFormed) (hroot : Node.ofValue v = .ok s.root)
    (htable : ∀ e ∈ s.strategies.entries, e.2 ≠ .replace) {name : String} {r : k.Record}
    (hfound : k.find name s.root = .ok r)
    (hscalars : ∀ stored, k.entity? name s.root = some stored → stored.ScalarsUntagged) :
    Action.upsert k r s = (.ok false, s) := by
  obtain ⟨stored, hstored, hdecode⟩ := RecordKind.find_eq_ok_iff.1 hfound
  obtain ⟨⟨n, hn, hname⟩, hne⟩ :=
    entityName_eq_some_iff.1 (RecordKind.mem_items_of_entity? hstored).2
  obtain ⟨m, hm⟩ := exists_asMapping_of_child? hn
  obtain ⟨w, hw, -⟩ := decode_eq_ok hdecode
  have hread : stored.IsOfValue := IsOfValue.entity? ⟨v, hwf, hroot⟩ hstored
  have hc := hread.isCanonical (hscalars stored hstored) (exists_toValue?_iff.1 ⟨w, hw⟩)
  rw [RecordKind.decode, RecordKind.read_eq_layout hk,
    Layout.decode_eq_ok_iff hm (hc.apartKeys m hm)] at hdecode
  have hrecord : k.recordName r = name := by
    have hpart := RecordKind.recordName_of_readFrom hk hdecode.2
    rw [← child?_of_asMapping hm, hn] at hpart
    exact hpart.eq_of_asText hname
  have hr := RecordKind.encode_eq_layout hk r
  subst hrecord
  exact upsert_of_held hr (RecordKind.entityName_of_encode hr hne) hstored
    (hdecode.2.held hm hc (hscalars stored hstored) (StrategyTable.select_eq_merge htable)
      (fun s _ => s.shape.echoes) _)

/-- A group under tags, with a null, an empty list, and keys of other tools. -/
theorem upsert_of_found_tagged_group :
    let document : Value := .mapping [(.string "clientOptions", .mapping [(.string "cli", .mapping
      [(.string "pluginGroups", .tagged "list" (.sequence [.tagged "!!group" (.mapping
        [(.string "vendor", .sequence [.number (.int 1), .null]), (.string "version", .null),
          (.string "name", .string "g"), (.string "description", .string "true"),
          (.string "plugins", .tagged "set" (.sequence [.string "a", .string "a"]))])]))])])]
    let table := StrategyTable.empty.insert "clientOptions.cli.pluginGroups" .merge
    document.WellFormed ∧ ∃ root, Node.ofValue document = .ok root ∧
      RecordKind.pluginGroup.find "g" root = .ok ⟨"g", none, some "true", ["a", "a"]⟩ ∧
      Action.upsert .pluginGroup ⟨"g", none, some "true", ["a", "a"]⟩ (.new root table) =
        (.ok false, .new root table) := by
  intro document table
  have hwf : document.WellFormed := by decide
  have htable : ∀ e ∈ table.entries, e.2 ≠ .replace := by decide
  obtain ⟨root, hroot, hfound, hscalars⟩ : ∃ root, Node.ofValue document = .ok root ∧
      RecordKind.pluginGroup.find "g" root = .ok ⟨"g", none, some "true", ["a", "a"]⟩ ∧
      ∃ stored, RecordKind.pluginGroup.entity? "g" root = some stored ∧ stored.ScalarsUntagged :=
    ⟨_, rfl, rfl, _, rfl, rfl⟩
  obtain ⟨stored, hstored, hscalars⟩ := hscalars
  refine ⟨hwf, root, hroot, hfound, upsert_of_found rfl hwf hroot htable hfound ?_⟩
  intro stored' hstored'
  cases hstored.symm.trans hstored'
  exact hscalars

end SharedConfig
