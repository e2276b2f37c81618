import SharedConfig.Proofs.Collection
import SharedConfig.Proofs.Form
import SharedConfig.Proofs.Record.Layout

/-!
# SharedConfig.Proofs.Record.Overlay

A record that is set lies over the stored one.

The tree of a record has no field for what the record is without, so a merge leaves what is stored
there; and below each field that it has, the merged tree is read as the part of the new record,
whatever tags and other entries it keeps from the stored one.

* `FieldShape.overlays`: one field, merged and read.
* `Layout.ReadFrom.merged`: the entries of a mapping, field by field.
* `upsert_lays_over`: what is found after an update, if no two keys of a mapping in the stored
  entity are equal as values.
-/

namespace SharedConfig

open Node Yaml

/-! ## Reading through tags -/

section Tags

variable {ρ σ : Type}

/-- What is read does not depend on the tags around it. -/
def ReadsThroughTags (read : Value → Decoding σ) : Prop :=
  ∀ v w x, v.untagged = w.untagged → read w = .ok x → read v = .ok x

theorem readText_throughTags : ReadsThroughTags (readText : Value → Decoding String) := by
  intro v w x h hx
  exact textOf_eq_ok.2 (h.trans (textOf_eq_ok.1 hx))

theorem itemsOf_of_untagged {v w : Value} (h : v.untagged = w.untagged) {items : List Value}
    (hitems : Value.itemsOf w = .ok items) : Value.itemsOf v = .ok items := by
  unfold Value.itemsOf at hitems ⊢
  rw [h]
  cases hw : w.untagged <;> rw [hw] at hitems <;> first | exact hitems | cases hitems

theorem entriesOf_of_untagged {v w : Value} (h : v.untagged = w.untagged) {expected : String}
    {es : List (Value × Value)} (hes : Value.entriesOf expected w = .ok es) :
    Value.entriesOf expected v = .ok es := by
  unfold Value.entriesOf at hes ⊢
  rw [h]
  cases hw : w.untagged <;> rw [hw] at hes <;> first | exact hes | cases hes

theorem readList_throughTags (read : Value → Decoding σ) : ReadsThroughTags (readList read) := by
  intro v w x h hx
  change (Value.itemsOf w >>= fun items => items.mapM read) = .ok x at hx
  change (Value.itemsOf v >>= fun items => items.mapM read) = .ok x
  cases hw : Value.itemsOf w with
  | error e => rw [hw] at hx; cases hx
  | ok items =>
    rw [itemsOf_of_untagged h hw, ← hw]
    exact hx

theorem readRecord_throughTags (name : String) (initial : ρ) (required : List String)
    (field : ρ → String → Value → Option (Decoding ρ)) :
    ReadsThroughTags (readRecord name initial required field) := by
  intro v w x h hx
  obtain ⟨es, seen, hes, hfields, hrequired⟩ := readRecord_eq_ok hx
  have hentries : (Source.entries ("struct " ++ name) v : Decoding _) = .ok es :=
    entriesOf_of_untagged h hes
  rw [readRecord, hentries]
  dsimp only [bind, Except.bind]
  rw [hfields]
  exact requireFields_of_mem hrequired

theorem ReadsThroughTags.option {read : Value → Decoding σ} (h : ReadsThroughTags read)
    {v w : Value} (hvw : v.untagged = w.untagged) (hnull : w.untagged ≠ .null) {x : Option σ}
    (hx : readOption read w = .ok x) : readOption read v = .ok x := by
  rcases readOption_eq_ok_iff.1 hx with ⟨rfl, -⟩ | ⟨-, y, hy, rfl⟩
  · exact absurd rfl hnull
  · refine readOption_eq_ok ?_ (h v w y hvw hy)
    rintro rfl
    exact hnull hvw.symm

end Tags

/-- A merge of trees that have values has a value. -/
theorem Node.keepsTag_mergeNode {n c : Node} (hn : n.all keepsTag = true)
    (hc : c.all keepsTag = true) (table : StrategyTable) (path : String) :
    (mergeNode table path n c).1.all keepsTag = true := by
  refine all_mergeNode (fun _ _ _ => rfl) (fun m hm => ?_) hn hc path
  cases m with
  | tagged t m => cases hm
  | _ => rfl

/-! ## One field -/

namespace FieldShape

/-- A part of a record over a stored one. -/
def laidOver (f : FieldShape) (x old : f.Part) : f.Part :=
  match f.tree x with
  | none => old
  | some _ => x

variable {f : FieldShape} {x : f.Part} {n c : Node}

theorem partIs_tree (f : FieldShape) (x : f.Part) : PartIs f.read f.absent (f.tree x) x := by
  cases f with
  | text =>
    obtain ⟨v, hv, -, hx⟩ := readsAs_text x
    exact ⟨v, hv, hx⟩
  | optionalText =>
    cases x with
    | none => rfl
    | some s =>
      obtain ⟨v, hv, -, hx⟩ := (readsAs_text s).option
      exact ⟨v, hv, hx⟩
  | texts =>
    cases x with
    | nil => rfl
    | cons s l =>
      obtain ⟨v, hv, -, hx⟩ := readsAs_list fun t (_ : t ∈ s :: l) => readsAs_text t
      exact ⟨v, hv, hx⟩
  | single record key =>
    cases x with
    | none => rfl
    | some s =>
      obtain ⟨v, hv, -, hx⟩ := (PluginDiscovery.readsAs_single record key s).option
      exact ⟨v, hv, hx⟩

theorem read_throughTags {v w : Value} (h : v.untagged = w.untagged) (hnull : w.untagged ≠ .null)
    (hx : f.read w = .ok x) : f.read v = .ok x := by
  cases f with
  | text => exact readText_throughTags v w x h hx
  | optionalText => exact readText_throughTags.option h hnull hx
  | texts => exact readList_throughTags readText v w x h hx
  | single record key => exact (readRecord_throughTags record "" [key] _).option h hnull hx

theorem untagged_tree_ne_null (hn : f.tree x = some n) {w : Value} (hw : n.toValue? = some w) :
    w.untagged ≠ .null := by
  intro hnull
  cases f with
  | text =>
    cases hn
    cases hw
    cases hnull
  | optionalText =>
    obtain ⟨s, rfl, rfl⟩ := Option.map_eq_some_iff.1 hn
    cases hw
    cases hnull
  | texts =>
    cases x with
    | nil => cases hn
    | cons s l =>
      cases hn
      rw [toValue?] at hw
      split at hw
      · cases hw
        cases hnull
      · cases hw
  | single record key =>
    obtain ⟨s, rfl, rfl⟩ := Option.map_eq_some_iff.1 hn
    obtain ⟨es, hes, -⟩ := untagged_of_asMapping rfl hw
    cases hes.symm.trans hnull

theorem partIs_of_core (hn : f.tree x = some n) (hc : c.core = n) (hkeeps : c.all keepsTag = true) :
    PartIs f.read f.absent (some c) x := by
  obtain ⟨v, hv⟩ := exists_toValue?_iff.2 hkeeps
  obtain ⟨w, hw, huntagged⟩ := toValue?_core hv
  rw [hc] at hw
  obtain ⟨w', hw', hx⟩ : PartIs f.read f.absent (some n) x := hn ▸ partIs_tree f x
  cases hw.symm.trans hw'
  exact ⟨v, hv, read_throughTags huntagged (untagged_tree_ne_null hn hw) hx⟩

theorem keepsTag_of_partIs {x : f.Part} (h : PartIs f.read f.absent (some c) x) :
    c.all keepsTag = true := by
  obtain ⟨v, hv, -⟩ := h
  exact exists_toValue?_iff.1 ⟨v, hv⟩

theorem keepsTag_tree (hn : f.tree x = some n) : n.all keepsTag = true := by
  have hpart : PartIs f.read f.absent (some n) x := hn ▸ partIs_tree f x
  exact keepsTag_of_partIs hpart

/-- What a field is merged to is read as the part of the new record. -/
def Overlays (f : FieldShape) : Prop :=
  ∀ (table : StrategyTable) (path : String) (old? : Option Node) (x old : f.Part) (n : Node),
    f.tree x = some n → (∀ o, old? = some o → o.KeysApart) → PartIs f.read f.absent old? old →
      PartIs f.read f.absent (some (reconcile n old? path table).1) x

/-- It is enough that a merge with a stored tree has the content of the new one. -/
theorem Overlays.of_core (h : ∀ table path x n c, f.tree x = some n →
    (mergeNode table path n c).1.core = n) : f.Overlays := by
  intro table path old? x old n hn _ hold
  cases old? with
  | none => exact hn ▸ partIs_tree f x
  | some c =>
    have hkeeps := keepsTag_mergeNode (keepsTag_tree hn) (keepsTag_of_partIs hold) table path
    exact partIs_of_core hn (h table path x n c hn) hkeeps

theorem overlays_text : text.Overlays := by
  refine .of_core fun table path x n c hn => ?_
  cases hn
  exact core_mergeNode_scalar _ c

theorem overlays_optionalText : optionalText.Overlays := by
  refine .of_core fun table path x n c hn => ?_
  obtain ⟨s, rfl, rfl⟩ := Option.map_eq_some_iff.1 hn
  exact core_mergeNode_scalar _ c

/-- A list of texts has no names to be merged by, so the new one takes the place of the other. -/
theorem overlays_texts : texts.Overlays := by
  refine .of_core fun table path x n c hn => ?_
  cases x with
  | nil => cases hn
  | cons s l =>
    cases hn
    by_cases hmerged : table.select path = .merge ∧ c.kind = .sequence
    · obtain ⟨items, hitems⟩ := kind_eq_sequence_iff.1 hmerged.2
      have hunnamed : Entity.allNamed ((s :: l).map Node.string) = false := rfl
      rw [mergeNode_sequence hmerged.1 hitems, hunnamed, Bool.and_false]
      exact core_setCore c _
    · rw [mergeNode_of_not_merged hmerged]
      rfl

end FieldShape

/-! ## Records -/

namespace Layout

variable {ρ : Type} {l : Layout ρ} {m : Mapping} {x old r : ρ}

/-- A field that the new record has is its own, and any other is the stored one. -/
def IsOver (l : Layout ρ) (x old r : ρ) : Prop :=
  ∀ s ∈ l.slots, s.get r = s.shape.laidOver (s.get x) (s.get old)

theorem keepsTag_entries (x : ρ) : (Node.mapping (l.entries x)).all keepsTag = true := by
  have hself : keepsTag (.mapping (l.entries x)) = true := rfl
  rw [Node.all, hself, Bool.true_and, allEntries_iff]
  intro e he
  obtain ⟨s, -, n, hn, rfl⟩ := mem_entries.1 he
  exact FieldShape.keepsTag_tree hn

theorem count_keys_mergeEntries {entries : Mapping} (hd : entries.keys.Nodup)
    (table : StrategyTable) (path : String) {key : String} (h : m.keys.count key ≤ 1) :
    (mergeEntries table path entries m).1.keys.count key ≤ 1 := by
  rw [Mapping.keys_eq_map, map_fst_mergeEntries hd, List.map_append, ← Mapping.keys_eq_map,
    List.count_append]
  by_cases hkey : key ∈ m.keys
  · have hnew : key ∉ ((entries.map Prod.fst).filter fun k => decide (k.text ∉ m.keys)).map
        Scalar.text := by
      intro hmem
      obtain ⟨k, hk, rfl⟩ := List.mem_map.1 hmem
      exact of_decide_eq_true (List.mem_filter.1 hk).2 hkey
    rw [List.count_eq_zero.2 hnew]
    exact h
  · rw [List.count_eq_zero.2 hkey, Nat.zero_add]
    have hsub := (List.filter_sublist (l := entries.map Prod.fst)
      (p := fun k => decide (k.text ∉ m.keys))).map Scalar.text
    rw [← Mapping.keys_eq_map] at hsub
    exact (hsub.count_le key).trans (List.nodup_iff_count_le_one.1 hd key)

/-- The entries of a record over those of a mapping, field by field. -/
theorem ReadFrom.merged (h : l.ReadFrom m old) (hshapes : ∀ s ∈ l.slots, s.shape.Overlays)
    (hapart : ∀ key o, m.get? key = some o → o.KeysApart) (hr : l.IsOver x old r)
    (table : StrategyTable) (path : String) :
    l.ReadFrom (mergeEntries table path (l.entries x) m).1 r := by
  refine ⟨?_, fun s hs => count_keys_mergeEntries nodup_keys_entries table path (h.once s hs),
    fun key hkey => keys_subset_mergeEntries _ m key (h.required key hkey), fun s hs => ?_⟩
  · rw [map_fst_mergeEntries nodup_keys_entries]
    refine List.forall_mem_append.2 ⟨h.texts, fun k hk => ?_⟩
    rw [texts_entries k (List.mem_filter.1 hk).1]
    rfl
  · rw [get?_mergeEntries nodup_keys_entries, get?_entries hs, hr s hs, FieldShape.laidOver]
    cases htree : s.shape.tree (s.get x) with
    | none => exact h.parts s hs
    | some n =>
      exact hshapes s hs table _ _ _ _ n htree (hapart s.key) (h.parts s hs)

/-- A record that is merged into the tree of another one is decoded as the one over the other. -/
theorem decode_merged {c : Node} (hm : c.asMapping = some m) (hc : c.KeysApart)
    (h : c.decode l.read = .ok old) (hshapes : ∀ s ∈ l.slots, s.shape.Overlays)
    (hr : l.IsOver x old r) {table : StrategyTable} {path : String}
    (hs : table.select path = .merge) :
    (mergeNode table path (.mapping (l.entries x)) c).1.decode l.read = .ok r := by
  obtain ⟨hkeeps, hread⟩ := (decode_eq_ok_iff hm (hc.apartKeys m hm)).1 h
  have hapart : (mergeEntries table path (l.entries x) m).1.KeysApart :=
    (hc.apartKeys m hm).merged nodup_keys_entries texts_entries table path
  refine (decode_eq_ok_iff (asMapping_mergeNode hs hm _) hapart).2 ⟨?_, ?_⟩
  · exact keepsTag_mergeNode (keepsTag_entries x) hkeeps table path
  · exact hread.merged hshapes (fun key o ho => all_of_get? (all_of_asMapping hc hm).2 ho) hr
      table path

end Layout

/-- A record of one text, where there is a mapping for it. -/
theorem FieldShape.partIs_single_iff {record key : String} {c : Node} {m : Mapping}
    (hm : c.asMapping = some m) {o : Option String} :
    PartIs (single record key).read none (some c) o ↔
      ∃ s, o = some s ∧ c.decode (PluginDiscovery.single record key).read = .ok s := by
  rw [← PluginDiscovery.readSingle_eq]
  constructor
  · rintro ⟨v, hv, hread⟩
    rcases readOption_eq_ok_iff.1 hread with ⟨rfl, -⟩ | ⟨-, s, hs, rfl⟩
    · obtain ⟨es, hes, -⟩ := untagged_of_asMapping hm hv
      cases hes
    · refine ⟨s, rfl, ?_⟩
      rw [Node.decode, hv]
      dsimp only
      rw [hs]
  · rintro ⟨s, rfl, hs⟩
    obtain ⟨v, hv, hread⟩ := decode_eq_ok hs
    obtain ⟨es, hes, -⟩ := untagged_of_asMapping hm hv
    refine ⟨v, hv, readOption_eq_ok ?_ hread⟩
    rintro rfl
    cases hes

theorem FieldShape.overlays_single (record key : String) : (single record key).Overlays := by
  intro table path old? x old n hn hapart hold
  obtain ⟨s, rfl, rfl⟩ := Option.map_eq_some_iff.1 hn
  cases old? with
  | none => exact partIs_tree (single record key) (some s)
  | some c =>
    by_cases hmerged : table.select path = .merge ∧ c.kind = .mapping
    -- the text lies over the one of the stored record
    · obtain ⟨m, hm⟩ := kind_eq_mapping_iff.1 hmerged.2
      obtain ⟨e, -, hdecode⟩ := (partIs_single_iff hm).1 hold
      have hover : (PluginDiscovery.single record key).IsOver s e s :=
        List.forall_mem_singleton.2 rfl
      have hshapes : ∀ t ∈ (PluginDiscovery.single record key).slots, t.shape.Overlays :=
        List.forall_mem_singleton.2 overlays_text
      have hmerge := Layout.decode_merged hm (hapart c rfl) hdecode hshapes hover hmerged.1
      exact (partIs_single_iff (asMapping_mergeNode hmerged.1 hm _)).2 ⟨s, rfl, hmerge⟩
    · refine partIs_of_core hn ?_ ?_
      · rw [reconcile, mergeNode_of_not_merged hmerged]
        rfl
      · rw [reconcile, mergeNode_of_not_merged hmerged]
        exact keepsTag_tree hn

theorem FieldShape.overlays : ∀ f : FieldShape, f.Overlays
  | text => overlays_text
  | optionalText => overlays_optionalText
  | texts => overlays_texts
  | single record key => overlays_single record key

/-! ## The plain kinds -/

def PluginGroup.laidOver (x old : PluginGroup) : PluginGroup where
  name := x.name
  version := x.version <|> old.version
  description := x.description <|> old.description
  plugins := if x.plugins = [] then old.plugins else x.plugins

def Essential.laidOver (x old : Essential) : Essential where
  name := x.name
  version := x.version <|> old.version
  image := x.image <|> old.image

def CorePluginGroup.laidOver (x old : CorePluginGroup) : CorePluginGroup where
  name := x.name
  version := x.version <|> old.version
  image := x.image <|> old.image

def PluginDiscovery.laidOver (x old : PluginDiscovery) : PluginDiscovery where
  name := x.name
  oci := x.oci <|> old.oci
  «local» := x.local <|> old.local

namespace RecordKind

/-- A record over another one: it has the name of the first, and what that is without it has from
the other. -/
def laidOver : (k : RecordKind) → k.isPlain = true → k.Record → k.Record → k.Record
  | pluginGroup, _ => PluginGroup.laidOver
  | essential, _ => Essential.laidOver
  | corePluginGroup, _ => CorePluginGroup.laidOver
  | discoverySource, _ => PluginDiscovery.laidOver

variable {k : RecordKind} (hk : k.isPlain = true)

theorem laidOver_isOver (x old : k.Record) : (k.layout hk).IsOver x old (k.laidOver hk x old) := by
  cases k with
  | context => cases hk
  | server => cases hk
  | pluginGroup =>
    obtain ⟨name, version, description, plugins⟩ := x
    cases version <;> cases description <;> cases plugins <;>
      simp [layout, PluginGroup.layout, Layout.IsOver, laidOver, PluginGroup.laidOver,
        FieldShape.laidOver, FieldShape.tree]
  | essential =>
    obtain ⟨name, version, image⟩ := x
    cases version <;> cases image <;>
      simp [layout, Essential.layout, Layout.IsOver, laidOver, Essential.laidOver,
        FieldShape.laidOver, FieldShape.tree]
  | corePluginGroup =>
    obtain ⟨name, version, image⟩ := x
    cases version <;> cases image <;>
      simp [layout, CorePluginGroup.layout, Layout.IsOver, laidOver, CorePluginGroup.laidOver,
        FieldShape.laidOver, FieldShape.tree]
  | discoverySource =>
    obtain ⟨name, oci, path⟩ := x
    cases oci <;> cases path <;>
      simp [layout, PluginDiscovery.layout, Layout.IsOver, laidOver, PluginDiscovery.laidOver,
        FieldShape.laidOver, FieldShape.tree]

include hk in
theorem isRestorable_of_isPlain (r : k.Record) : k.IsRestorable r := by
  cases k with
  | context => cases hk
  | _ => trivial

theorem decode_laidOver {x old : k.Record} {candidate c : Node} {m : Mapping}
    (hx : k.encode x = .ok candidate) (hm : c.asMapping = some m) (hc : c.KeysApart)
    (h : k.decode c = .ok old) {table : StrategyTable} {path : String}
    (hs : table.select path = .merge) :
    k.decode (mergeNode table path candidate c).1 = .ok (k.laidOver hk x old) := by
  rw [encode_eq_layout hk] at hx
  cases hx
  rw [decode, read_eq_layout hk] at h ⊢
  exact Layout.decode_merged hm hc h (fun s _ => s.shape.overlays) (laidOver_isOver hk x old) hs

end RecordKind

/-- A record that is set is found as it is where none was stored or the table replaces it; else it
is found over the stored one, whatever else the table says. -/
theorem upsert_lays_over {k : RecordKind} (hk : k.isPlain = true) {x : k.Record} {s u : Session}
    {changed : Bool} (h : Action.upsert k x s = (.ok changed, u)) :
    (k.entity? (k.recordName x) s.root = none ∨
        s.strategies.select k.collection.dotted = .replace →
      k.find (k.recordName x) u.root = .ok x) ∧
    ∀ stored old, k.entity? (k.recordName x) s.root = some stored →
      s.strategies.select k.collection.dotted = .merge → stored.KeysApart →
      k.decode stored = .ok old →
      k.find (k.recordName x) u.root = .ok (k.laidOver hk x old) := by
  obtain ⟨candidate, hx, hentity⟩ := (Action.upsert_eq_ok h).entity?_self
  constructor
  · intro hnew
    have hself : (reconcile candidate (k.entity? (k.recordName x) s.root) k.collection.dotted
        s.strategies).1 = candidate := by
      rcases hnew with hnone | hreplace
      · rw [hnone, reconcile_none]
      · cases k.entity? (k.recordName x) s.root with
        | none => rfl
        | some stored => rw [reconcile, mergeNode_of_replace hreplace, replaceBy_fst]
    rw [hself] at hentity
    exact RecordKind.find_eq_ok_iff.2
      ⟨candidate, hentity, RecordKind.decode_encode (RecordKind.isRestorable_of_isPlain hk x) hx⟩
  · intro stored old hstored hmerge hapart hold
    obtain ⟨⟨v, hv, -⟩, -⟩ := entityName_eq_some_iff.1 (RecordKind.mem_items_of_entity? hstored).2
    obtain ⟨m, hm⟩ := exists_asMapping_of_child? hv
    rw [hstored, reconcile] at hentity
    exact RecordKind.find_eq_ok_iff.2
      ⟨_, hentity, RecordKind.decode_laidOver hk hx hm hapart hold hmerge⟩

/-- Under tags, next to keys of other tools, and with a table that replaces something below. -/
theorem upsert_lays_over_tagged_group :
    let document : Node := .mapping [(.string "clientOptions", .mapping [(.string "cli", .mapping
      [(.string "pluginGroups", .tagged "list" (.sequence [.tagged "group" (.mapping
        [(.string "name", .string "g"), (.string "description", .scalar ⟨"d", .str, some "t"⟩),
          (.string "version", .scalar .null), (.string "vendor", .mapping []),
          (.string "plugins", .sequence [.string "a"])])]))])])]
    let table := StrategyTable.empty.insert "clientOptions.cli.pluginGroups.vendor" .replace
    ∃ u w, Action.upsert .pluginGroup ⟨"g", some "2", none, []⟩ (.new document table) =
        (.ok true, u) ∧
      RecordKind.pluginGroup.find "g" u.root = .ok ⟨"g", some "2", some "d", ["a"]⟩ ∧
      Action.upsert .pluginGroup ⟨"h", none, none, ["b"]⟩ u = (.ok true, w) ∧
      RecordKind.pluginGroup.find "h" w.root = .ok ⟨"h", none, none, ["b"]⟩ := by
  intro document table
  obtain ⟨u, w, hu, hw, hstored, hnew⟩ : ∃ u w,
      Action.upsert .pluginGroup ⟨"g", some "2", none, []⟩ (.new document table) = (.ok true, u) ∧
      Action.upsert .pluginGroup ⟨"h", none, none, ["b"]⟩ u = (.ok true, w) ∧
      (∃ stored, RecordKind.pluginGroup.entity? "g" document = some stored ∧ stored.KeysApart ∧
        RecordKind.pluginGroup.decode stored = .ok ⟨"g", none, some "d", ["a"]⟩) ∧
      RecordKind.pluginGroup.entity? "h" u.root = none :=
    ⟨_, _, rfl, rfl, ⟨_, rfl, by decide, rfl⟩, rfl⟩
  obtain ⟨stored, hentity, hapart, hdecode⟩ := hstored
  exact ⟨u, w, hu, (upsert_lays_over rfl hu).2 stored _ hentity rfl hapart hdecode, hw,
    (upsert_lays_over rfl hw).1 (.inl hnew)⟩

/-- Two keys that differ in the marks of their tags only are one key in the tree.  The version that
is set takes the place of the first, and the second is read. -/
theorem upsert_hidden_by_equal_key :
    let entry (tag version : String) : Value × Value :=
      (.tagged tag (.string "version"), .string version)
    let document : Value := .mapping [(.string "clientOptions", .mapping [(.string "cli", .mapping
      [(.string "pluginGroups", .sequence [.mapping [(.string "name", .string "g"),
        entry "t" "v1", entry "!!!t" "v2"]])])])]
    let key : Scalar := ⟨"version", .str, some "t"⟩
    document.WellFormed ∧ ∃ root u, Node.ofValue document = .ok root ∧
      RecordKind.pluginGroup.items root = [.mapping
        [(.string "name", .string "g"), (key, .string "v1"), (key, .string "v2")]] ∧
      RecordKind.pluginGroup.find "g" root = .ok ⟨"g", some "v2", none, []⟩ ∧
      Action.upsert .pluginGroup ⟨"g", some "v3", none, []⟩ (.new root .empty) = (.ok true, u) ∧
      RecordKind.pluginGroup.find "g" u.root = .ok ⟨"g", some "v2", none, []⟩ := by
  intro entry document key
  exact ⟨by decide, _, _, rfl, rfl, rfl, rfl, rfl⟩

end SharedConfig
