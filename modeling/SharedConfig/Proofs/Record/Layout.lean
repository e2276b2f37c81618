import SharedConfig.Proofs.Decoding.Apart
import SharedConfig.Proofs.Record

/-!
# SharedConfig.Proofs.Record.Layout

Records as parts with a field for each.

The records of the plain kinds, and the records of one text in them, are read and written field by
field.  A layout names the fields: what each holds (`FieldShape`), and where the record keeps it
(`Slot`).  What is proved of a layout holds of all these records at once.

* `Layout.decode_eq_ok_iff`: a record is decoded exactly if no field is there twice, none that is
  required is missing, and each part is read from what is under its key.
* `Layout.get?_entries`: what the tree of a record has under the key of a field.
* `RecordKind.layout`: the layouts of the plain kinds; `RecordKind.read_eq_layout` and
  `RecordKind.encode_eq_layout` say that their records are read and written by them.
-/

namespace SharedConfig

open Node Yaml

/-! ## What a field holds -/

/-- What a field of a plain record holds. -/
inductive FieldShape where
  | text
  | optionalText
  | texts
  /-- A record of one text, which may be absent. -/
  | single (record key : String)

namespace FieldShape

/-- The part of a record that a field is for. -/
abbrev Part : FieldShape → Type
  | text => String
  | optionalText => Option String
  | texts => List String
  | single .. => Option String

def read : (f : FieldShape) → Value → Decoding f.Part
  | text => readText
  | optionalText => readOption readText
  | texts => readList readText
  | single record key => readOption (PluginDiscovery.readSingle record key)

def absent : (f : FieldShape) → f.Part
  | text => ""
  | optionalText => none
  | texts => []
  | single .. => none

def tree : (f : FieldShape) → f.Part → Option Node
  | text, s => some (.string s)
  | optionalText, o => o.map .string
  | texts, [] => none
  | texts, l => some (.sequence (l.map .string))
  | single _ key, o => o.map fun s => .mapping (field key (.string s))

end FieldShape

/-! ## Layouts -/

/-- A field of a record, and the part that it is for. -/
structure Slot (ρ : Type) where
  key : String
  shape : FieldShape
  get : ρ → shape.Part
  set : ρ → shape.Part → ρ

structure Layout (ρ : Type) where
  name : String
  initial : ρ
  required : List String
  slots : List (Slot ρ)
  nodup : (slots.map Slot.key).Nodup
  required_mem : ∀ key ∈ required, key ∈ slots.map Slot.key
  required_text : ∀ s ∈ slots, s.shape = .text → s.key ∈ required
  get_initial : ∀ s ∈ slots, s.get initial = s.shape.absent
  get_set : ∀ s ∈ slots, ∀ r x, s.get (s.set r x) = x
  get_set_of_ne : ∀ s ∈ slots, ∀ t ∈ slots, s.key ≠ t.key → ∀ r x, t.get (s.set r x) = t.get r
  ext : ∀ r r', (∀ s ∈ slots, s.get r = s.get r') → r = r'

namespace Layout

variable {ρ : Type} (l : Layout ρ)

def slot? (name : String) : Option (Slot ρ) := l.slots.find? fun s => decide (s.key = name)

def field (r : ρ) (name : String) (x : Value) : Option (Decoding ρ) :=
  (l.slot? name).map fun s => do return s.set r (← s.shape.read x)

def read : Value → Decoding ρ := readRecord l.name l.initial l.required l.field

def entries (r : ρ) : Mapping :=
  l.slots.flatMap fun s => (s.shape.tree (s.get r)).elim [] (SharedConfig.field s.key)

variable {l} {s t : Slot ρ} {r r' : ρ} {m : Mapping}

theorem eq_of_key (hs : s ∈ l.slots) (ht : t ∈ l.slots) (h : s.key = t.key) : s = t :=
  List.inj_on_of_nodup_map l.nodup hs ht h

theorem slot?_eq_none_iff {name : String} : l.slot? name = none ↔ ∀ s ∈ l.slots, s.key ≠ name := by
  simp [slot?, List.find?_eq_none]

theorem slot?_eq_some_iff {name : String} : l.slot? name = some s ↔ s ∈ l.slots ∧ s.key = name := by
  constructor
  · intro h
    exact ⟨List.mem_of_find?_eq_some h, by simpa using List.find?_some h⟩
  · rintro ⟨hs, rfl⟩
    cases hf : l.slot? s.key with
    | none => exact absurd rfl (slot?_eq_none_iff.1 hf s hs)
    | some t =>
      have hkey : t.key = s.key := by simpa using List.find?_some hf
      rw [eq_of_key (List.mem_of_find?_eq_some hf) hs hkey]

theorem field_of_mem (hs : s ∈ l.slots) (r : ρ) (x : Value) :
    l.field r s.key x = some (do return s.set r (← s.shape.read x)) := by
  rw [field, slot?_eq_some_iff.2 ⟨hs, rfl⟩]
  rfl

theorem readsPart (hs : s ∈ l.slots) : ReadsPart l.field s.key s.get s.shape.read := by
  refine .of_set s.set (field_of_mem hs) (l.get_set s hs) fun name hname r x r' h => ?_
  rw [field] at h
  cases hf : l.slot? name with
  | none => rw [hf] at h; cases h
  | some t =>
    rw [hf] at h
    obtain ⟨y, -, rfl⟩ := set_eq_ok h
    obtain ⟨ht, rfl⟩ := slot?_eq_some_iff.1 hf
    exact l.get_set_of_ne t ht s hs hname r y

/-! ### Reading -/

/-- A record is told by the entries of a mapping. -/
structure ReadFrom (l : Layout ρ) (m : Mapping) (r : ρ) : Prop where
  texts : ∀ k ∈ m.map Prod.fst, k.toValue.untagged = .string k.text
  once : ∀ s ∈ l.slots, m.keys.count s.key ≤ 1
  required : ∀ key ∈ l.required, key ∈ m.keys
  parts : ∀ s ∈ l.slots, PartIs s.shape.read s.shape.absent (m.get? s.key) (s.get r)

/-- What is left of the reading of a record: no field of the entries to come is seen yet, and the
parts are what is under them, or else as they are. -/
structure Unread (l : Layout ρ) (m : Mapping) (seen : List String) (r₀ r : ρ) : Prop where
  texts : ∀ k ∈ m.map Prod.fst, k.toValue.untagged = .string k.text
  once : ∀ s ∈ l.slots, m.keys.count s.key ≤ 1
  unseen : ∀ s ∈ l.slots, s.key ∈ seen → s.key ∉ m.keys
  parts : ∀ s ∈ l.slots, PartIs s.shape.read (s.get r₀) (m.get? s.key) (s.get r)

section

variable {k : Scalar} {n : Node} {seen : List String} {r₀ : ρ}

theorem Unread.pass (h : l.Unread ((k, n) :: m) seen r₀ r) (hk : ∀ s ∈ l.slots, k.text ≠ s.key) :
    l.Unread m seen r₀ r where
  texts := (List.forall_mem_cons.1 h.texts).2
  once s hs := Nat.le_trans List.count_le_count_cons (h.once s hs)
  unseen s hs hmem hin := h.unseen s hs hmem (List.mem_cons_of_mem _ hin)
  parts s hs := by simpa [Mapping.get?_cons, hk s hs] using h.parts s hs

/-- The field of an entry is set, and no later entry has its name. -/
theorem Unread.set (h : l.Unread ((k, n) :: m) seen r₀ r) (hs : s ∈ l.slots)
    (hk : k.text = s.key) : l.Unread m (s.key :: seen) (s.set r₀ (s.get r)) r := by
  have hlater : s.key ∉ Mapping.keys m := by
    have hcount := h.once s hs
    rw [Mapping.keys_cons, List.count_cons, if_pos (by simpa using hk)] at hcount
    exact List.count_eq_zero.1 (by omega)
  refine ⟨(List.forall_mem_cons.1 h.texts).2,
    fun t ht => Nat.le_trans List.count_le_count_cons (h.once t ht), fun t ht hmem hin => ?_,
    fun t ht => ?_⟩
  · rcases List.mem_cons.1 hmem with he | hmem
    · exact hlater (he ▸ hin)
    · exact h.unseen t ht hmem (List.mem_cons_of_mem _ hin)
  · by_cases he : s.key = t.key
    · obtain rfl := eq_of_key hs ht he
      rw [Mapping.get?_eq_none_iff.2 hlater]
      exact (l.get_set s hs r₀ (s.get r)).symm
    · have hpart := h.parts t ht
      rw [Mapping.get?_cons, if_neg (hk ▸ he)] at hpart
      rwa [l.get_set_of_ne s hs t ht he]

theorem Unread.field_eq (h : l.Unread ((k, n) :: m) seen r₀ r) (hs : s ∈ l.slots)
    (hk : k.text = s.key) {v : Value} (hv : n.toValue? = some v) :
    l.field r₀ s.key v = some (.ok (s.set r₀ (s.get r))) := by
  have hpart := h.parts s hs
  rw [Mapping.get?_cons, if_pos hk] at hpart
  obtain ⟨w, hw, hread⟩ := hpart
  cases hv.symm.trans hw
  rw [field_of_mem hs, hread]
  rfl

theorem Unread.exists_readFields {es : List (Value × Value)} (hes : EntriesOf es m)
    (h : l.Unread m seen r₀ r) :
    ∃ seen', readFields l.field es r₀ seen = (.ok (r, seen') : Decoding _) ∧
      ∀ s ∈ l.slots, s.key ∈ seen ∨ s.key ∈ m.keys → s.key ∈ seen' := by
  induction hes generalizing r₀ seen with
  | nil =>
    obtain rfl : r = r₀ := l.ext r r₀ h.parts
    exact ⟨seen, rfl, fun s _ hs => hs.resolve_right List.not_mem_nil⟩
  | @cons e f es m hef _ ih =>
    obtain ⟨k, n⟩ := f
    have hname : (Source.fieldName e.1 : Decoding String) = .ok k.text :=
      textOf_eq_ok.2 (hef.1 ▸ h.texts k List.mem_cons_self)
    rw [readFields, hname]
    dsimp only [bind, Except.bind]
    cases hslot : l.slot? k.text with
    | none =>
      have hne : ∀ s ∈ l.slots, k.text ≠ s.key := fun s hs he =>
        slot?_eq_none_iff.1 hslot s hs he.symm
      have hpass : l.field r₀ k.text e.2 = none := by rw [field, hslot]; rfl
      obtain ⟨seen', hread, hkeys⟩ := ih (h.pass hne)
      rw [hpass]
      refine ⟨seen', hread, fun s hs hmem => hkeys s hs (hmem.imp_right fun hin => ?_)⟩
      exact (List.mem_cons.1 hin).resolve_left (Ne.symm (hne s hs))
    | some s =>
      obtain ⟨hs, hkey⟩ := slot?_eq_some_iff.1 hslot
      have hnew : seen.contains s.key = false := by
        rw [List.contains_eq_mem, decide_eq_false_iff_not]
        exact fun hmem => h.unseen s hs hmem (hkey ▸ List.mem_cons_self)
      obtain ⟨seen', hread, hkeys⟩ := ih (h.set hs hkey.symm)
      rw [← hkey, h.field_eq hs hkey.symm hef.2]
      dsimp only
      rw [hnew]
      refine ⟨seen', hread, fun t ht hmem => hkeys t ht ?_⟩
      rcases hmem with hmem | hmem
      · exact .inl (List.mem_cons_of_mem _ hmem)
      · exact (List.mem_cons.1 hmem).imp_left fun he => List.mem_cons.2 (.inl (he.trans hkey.symm))

end

section

variable {n : Node}

theorem ReadFrom.of_decode (hm : n.asMapping = some m) (hapart : m.KeysApart)
    (h : n.decode l.read = .ok r) : l.ReadFrom m r := by
  obtain ⟨v, hv, hread⟩ := decode_eq_ok h
  obtain ⟨es, seen, hes, hfields, hrequired⟩ := readRecord_eq_ok hread
  obtain ⟨es', huntagged, hentries⟩ := untagged_of_asMapping hm hv
  simp only [Value.entriesOf, huntagged, Except.ok.injEq] at hes
  subst hes
  have hpairs := EntriesOf.of_toEntries? hapart hentries
  refine ⟨texts_of_readFields hpairs hfields, fun s hs => ?_, fun key hkey => ?_, fun s hs => ?_⟩
  · exact (count_le_one_of_readFields (readsPart hs).known hpairs hfields).2
  · exact (mem_keys_of_readFields hpairs hfields (hrequired key hkey)).resolve_left
      List.not_mem_nil
  · have hkeys : n.ApartKeys := fun m' hm' => by
      cases hm.symm.trans hm'
      exact hapart
    have hpart := part_of_decode (readsPart hs) hm hkeys.keptByText h
    rwa [l.get_initial s hs, child?_of_asMapping hm] at hpart

theorem ReadFrom.decode (h : l.ReadFrom m r) (hm : n.asMapping = some m) (hapart : m.KeysApart)
    (hkeeps : n.all keepsTag = true) : n.decode l.read = .ok r := by
  obtain ⟨v, hv⟩ := exists_toValue?_iff.2 hkeeps
  obtain ⟨es, huntagged, hentries⟩ := untagged_of_asMapping hm hv
  have hunread : l.Unread m [] l.initial r :=
    ⟨h.texts, h.once, fun _ _ hmem => absurd hmem List.not_mem_nil, fun s hs =>
      l.get_initial s hs ▸ h.parts s hs⟩
  obtain ⟨seen, hfields, hseen⟩ :=
    hunread.exists_readFields (EntriesOf.of_toEntries? hapart hentries)
  have hrequired : ∀ key ∈ l.required, key ∈ seen := fun key hkey => by
    obtain ⟨s, hs, rfl⟩ := List.mem_map.1 (l.required_mem key hkey)
    exact hseen s hs (.inr (h.required s.key hkey))
  have hes : (Source.entries ("struct " ++ l.name) v : Decoding _) = .ok es := by
    change Value.entriesOf _ v = .ok es
    rw [Value.entriesOf, huntagged]
  have hread : l.read v = .ok r := by
    rw [read, readRecord, hes]
    dsimp only [bind, Except.bind]
    rw [hfields]
    exact requireFields_of_mem hrequired
  rw [Node.decode, hv]
  dsimp only
  rw [hread]

/-- A record is decoded exactly if the tree has a value and its entries tell the record. -/
theorem decode_eq_ok_iff (hm : n.asMapping = some m) (hapart : m.KeysApart) :
    n.decode l.read = .ok r ↔ n.all keepsTag = true ∧ l.ReadFrom m r := by
  refine ⟨fun h => ⟨?_, .of_decode hm hapart h⟩, fun h => h.2.decode hm hapart h.1⟩
  obtain ⟨v, hv, -⟩ := decode_eq_ok h
  exact exists_toValue?_iff.1 ⟨v, hv⟩

end

/-! ### Writing -/

theorem mem_entries {e : Scalar × Node} :
    e ∈ l.entries r ↔ ∃ s ∈ l.slots, ∃ n, s.shape.tree (s.get r) = some n ∧
      e = (.string s.key, n) := by
  rw [entries, List.mem_flatMap]
  refine exists_congr fun s => and_congr_right fun _ => ?_
  cases s.shape.tree (s.get r) <;> simp [SharedConfig.field]

theorem keys_entries_sublist : (l.entries r).keys.Sublist (l.slots.map Slot.key) := by
  rw [entries]
  induction l.slots with
  | nil => exact .slnil
  | cons s slots ih =>
    rw [List.flatMap_cons, Mapping.keys_append, List.map_cons]
    cases s.shape.tree (s.get r) with
    | none => exact ih.cons s.key
    | some n => exact ih.cons_cons s.key

theorem nodup_keys_entries : (l.entries r).keys.Nodup := l.nodup.sublist keys_entries_sublist

theorem texts_entries : ∀ k ∈ (l.entries r).map Prod.fst, k = .string k.text := by
  refine List.forall_mem_map.2 fun e he => ?_
  obtain ⟨s, -, n, -, rfl⟩ := mem_entries.1 he
  rfl

theorem get?_entries (hs : s ∈ l.slots) :
    (l.entries r).get? s.key = s.shape.tree (s.get r) := by
  cases htree : s.shape.tree (s.get r) with
  | some n =>
    have hmem : (Scalar.string s.key, n) ∈ l.entries r := mem_entries.2 ⟨s, hs, n, htree, rfl⟩
    exact Mapping.get?_of_mem nodup_keys_entries hmem
  | none =>
    rw [Mapping.get?_eq_none_iff]
    intro hmem
    obtain ⟨e, he, hkey⟩ := List.mem_map.1 hmem
    obtain ⟨t, ht, n, hn, rfl⟩ := mem_entries.1 he
    obtain rfl := eq_of_key ht hs hkey
    rw [htree] at hn
    cases hn

end Layout

/-! ## The layouts of records -/

def PluginDiscovery.single (record key : String) : Layout String where
  name := record
  initial := ""
  required := [key]
  slots := [⟨key, .text, id, fun _ x => x⟩]
  nodup := List.nodup_singleton key
  required_mem := by simp
  required_text := by simp
  get_initial := by simp [FieldShape.absent]
  get_set := by simp
  get_set_of_ne := by simp
  ext := by simp

def PluginDiscovery.layout : Layout PluginDiscovery where
  name := "PluginDiscovery"
  initial := ⟨"", none, none⟩
  required := ["name"]
  slots := [⟨"name", .text, name, fun r x => { r with name := x }⟩,
    ⟨"oci", .single "OciDiscovery" "image", oci, fun r x => { r with oci := x }⟩,
    ⟨"local", .single "LocalDiscovery" "path", «local», fun r x => { r with «local» := x }⟩]
  nodup := by decide
  required_mem := by simp
  required_text := by simp
  get_initial := by simp [FieldShape.absent]
  get_set := by simp
  get_set_of_ne := by simp
  ext r r' h := by
    cases r
    cases r'
    simpa using h

def PluginGroup.layout : Layout PluginGroup where
  name := "PluginGroup"
  initial := ⟨"", none, none, []⟩
  required := ["name"]
  slots := [⟨"name", .text, name, fun r x => { r with name := x }⟩,
    ⟨"version", .optionalText, version, fun r x => { r with version := x }⟩,
    ⟨"description", .optionalText, description, fun r x => { r with description := x }⟩,
    ⟨"plugins", .texts, plugins, fun r x => { r with plugins := x }⟩]
  nodup := by decide
  required_mem := by simp
  required_text := by simp
  get_initial := by simp [FieldShape.absent]
  get_set := by simp
  get_set_of_ne := by simp
  ext r r' h := by
    cases r
    cases r'
    simpa using h

def Essential.layout : Layout Essential where
  name := "Essential"
  initial := ⟨"", none, none⟩
  required := ["name"]
  slots := [⟨"name", .text, name, fun r x => { r with name := x }⟩,
    ⟨"version", .optionalText, version, fun r x => { r with version := x }⟩,
    ⟨"image", .optionalText, image, fun r x => { r with image := x }⟩]
  nodup := by decide
  required_mem := by simp
  required_text := by simp
  get_initial := by simp [FieldShape.absent]
  get_set := by simp
  get_set_of_ne := by simp
  ext r r' h := by
    cases r
    cases r'
    simpa using h

def CorePluginGroup.layout : Layout CorePluginGroup where
  name := "CorePluginGroup"
  initial := ⟨"", none, none⟩
  required := ["name"]
  slots := [⟨"name", .text, name, fun r x => { r with name := x }⟩,
    ⟨"version", .optionalText, version, fun r x => { r with version := x }⟩,
    ⟨"image", .optionalText, image, fun r x => { r with image := x }⟩]
  nodup := by decide
  required_mem := by simp
  required_text := by simp
  get_initial := by simp [FieldShape.absent]
  get_set := by simp
  get_set_of_ne := by simp
  ext r r' h := by
    cases r
    cases r'
    simpa using h

namespace Layout

variable {ρ : Type} {l : Layout ρ}

/-- A reader of the fields of a layout is the reader of the layout. -/
theorem read_eq {field : ρ → String → Value → Option (Decoding ρ)}
    (hknown : ∀ s ∈ l.slots, ∀ r x, field r s.key x = some (do return s.set r (← s.shape.read x)))
    (hother : ∀ name, (∀ s ∈ l.slots, s.key ≠ name) → ∀ r x, field r name x = none) :
    readRecord l.name l.initial l.required field = l.read := by
  have hfield : field = l.field := by
    funext r name x
    cases hslot : l.slot? name with
    | none => rw [hother name (slot?_eq_none_iff.1 hslot), Layout.field, hslot]; rfl
    | some s =>
      obtain ⟨hs, rfl⟩ := slot?_eq_some_iff.1 hslot
      rw [hknown s hs, field_of_mem hs]
  rw [hfield, read]

end Layout

theorem PluginDiscovery.readSingle_eq (record key : String) :
    (readSingle record key : Value → Decoding String) = (single record key).read := by
  refine Layout.read_eq (l := single record key) ?_ ?_
  · simp [single, FieldShape.read]
  · simp +contextual [single, eq_comm]

theorem PluginDiscovery.read_eq : (read : Value → Decoding PluginDiscovery) = layout.read := by
  refine Layout.read_eq (l := layout) ?_ fun name hname r x => ?_
  · simp [layout, FieldShape.read]
  · simp only [layout, List.forall_mem_cons] at hname
    split <;> simp_all

theorem PluginGroup.read_eq : (read : Value → Decoding PluginGroup) = layout.read := by
  refine Layout.read_eq (l := layout) ?_ fun name hname r x => ?_
  · simp [layout, FieldShape.read]
  · simp only [layout, List.forall_mem_cons] at hname
    split <;> simp_all

theorem Essential.read_eq : (read : Value → Decoding Essential) = layout.read := by
  refine Layout.read_eq (l := layout) ?_ fun name hname r x => ?_
  · simp [layout, FieldShape.read]
  · simp only [layout, List.forall_mem_cons] at hname
    split <;> simp_all

theorem CorePluginGroup.read_eq : (read : Value → Decoding CorePluginGroup) = layout.read := by
  refine Layout.read_eq (l := layout) ?_ fun name hname r x => ?_
  · simp [layout, FieldShape.read]
  · simp only [layout, List.forall_mem_cons] at hname
    split <;> simp_all

namespace RecordKind

def layout : (k : RecordKind) → k.isPlain = true → Layout k.Record
  | pluginGroup, _ => PluginGroup.layout
  | essential, _ => Essential.layout
  | corePluginGroup, _ => CorePluginGroup.layout
  | discoverySource, _ => PluginDiscovery.layout

variable {k : RecordKind} (hk : k.isPlain = true)

theorem read_eq_layout : (k.read : Value → Decoding k.Record) = (k.layout hk).read := by
  cases k with
  | context => cases hk
  | server => cases hk
  | pluginGroup => exact PluginGroup.read_eq
  | essential => exact Essential.read_eq
  | corePluginGroup => exact CorePluginGroup.read_eq
  | discoverySource => exact PluginDiscovery.read_eq

theorem encode_eq_layout (r : k.Record) :
    k.encode r = .ok (.mapping ((k.layout hk).entries r)) := by
  cases k with
  | context => cases hk
  | server => cases hk
  | pluginGroup =>
    obtain ⟨name, version, description, plugins⟩ := r
    cases version <;> cases description <;> cases plugins <;> rfl
  | essential =>
    obtain ⟨name, version, image⟩ := r
    cases version <;> cases image <;> rfl
  | corePluginGroup =>
    obtain ⟨name, version, image⟩ := r
    cases version <;> cases image <;> rfl
  | discoverySource =>
    obtain ⟨name, oci, path⟩ := r
    cases oci <;> cases path <;> rfl

end RecordKind

end SharedConfig
