import SharedConfig.Proofs.Form.Records
import SharedConfig.Proofs.Merge.Canonical
import SharedConfig.Proofs.Record

/-!
# SharedConfig.Proofs.Form.Plain

The trees of records come back from their values, and their keys are untagged texts.

That is so of every form that is made of texts and flags, and the trees of records have such forms.
The metadata of a context is the one part without a form of this sort; there it is so of the values
without tags whose keys are texts.

* `plain_of_ofValue`: the tree of such a value.
* `Form.IsPlain`: the forms of which all trees are so.
* `RecordKind.plain_encode`: the trees of records of any kind.
-/

namespace SharedConfig

open Node Yaml

/-! ## Values -/

namespace Yaml.Value

def PlainPart : Value → Prop
  | .mapping entries => ∀ e ∈ entries, ∃ key, e.1 = .string key
  | .tagged .. => False
  | _ => True

/-- A value without tags whose keys are texts, at any depth. -/
def IsPlain (v : Value) : Prop := ∀ w ∈ v.parts, PlainPart w

instance : DecidablePred PlainPart
  | .mapping entries =>
    decidable_of_iff (entries.all (fun e => match e.1 with | .string _ => true | _ => false) = true)
      <| by
        rw [List.all_eq_true]
        refine forall₂_congr fun e _ => ?_
        cases e.1 <;> simp
  | .tagged .. => isFalse id
  | .null | .bool _ | .number _ | .string _ | .sequence _ => isTrue trivial

instance (v : Value) : Decidable v.IsPlain := inferInstanceAs (Decidable (∀ w ∈ v.parts, PlainPart w))

theorem IsPlain.untagged {v : Value} (h : v.IsPlain) : ∀ w ∈ v.parts, w.isTagged = false := by
  intro w hw
  have hpart := h w hw
  cases w with
  | tagged tag u => exact hpart.elim
  | _ => rfl

end Yaml.Value

theorem hasTextKeys_ofValue {v : Value} (h : v.IsPlain) {n : Node} (hn : ofValue v = .ok n) :
    n.all hasTextKeys = true := by
  induction v using Value.value_induction generalizing n with
  | leaf v hkind htag =>
    obtain ⟨s, rfl⟩ := exists_scalar_of_ofValue hn hkind
    rfl
  | sequence items ih =>
    obtain ⟨-, hitems⟩ := Value.forall_parts_sequence.1 h
    rw [ofValue] at hn
    split at hn
    · cases hn
    · rename_i ns hns
      cases hn
      rw [all, Bool.and_eq_true, allItems_iff]
      exact ⟨rfl, forall_mem_of_forall₂ (ofItems_eq_ok_iff.1 hns) fun v hv n hn =>
        ih v hv (hitems v hv) hn⟩
  | mapping entries ih =>
    obtain ⟨hkeys, hentries⟩ := Value.forall_parts_mapping.1 h
    rw [ofValue] at hn
    split at hn
    · cases hn
    · rename_i m hm
      cases hn
      have hparts := forall_mem_of_forall₂ (ofEntries_eq_ok_iff.1 hm)
        (P := fun f => f.1 = .string f.1.text ∧ f.2.all hasTextKeys = true) fun e he f hf => by
          obtain ⟨key, hkey⟩ := hkeys e he
          have htext : Scalar.string key = f.1 := by
            simpa [hkey, ofValue, Node.string] using hf.1
          exact ⟨htext ▸ rfl, (ih e he).2 (hentries e he).2 hf.2⟩
      simp only [all, hasTextKeys, Bool.and_eq_true, List.all_eq_true, decide_eq_true_eq,
        allEntries_iff]
      exact ⟨fun f hf => (hparts f hf).1, fun f hf => (hparts f hf).2⟩
  | tagged tag v _ => exact (h _ (Value.self_mem_parts _)).elim

theorem plain_of_ofValue {v : Value} (hwf : v.WellFormed) (h : v.IsPlain) {n : Node}
    (hn : ofValue v = .ok n) : n.IsPlain := by
  have hvalue := toValue?_of_ofValue hn hwf (Value.plainlyTagged_of_untagged h.untagged)
  rw [Value.bareTags_of_untagged h.untagged] at hvalue
  exact ⟨⟨v, hvalue, hn⟩, hasTextKeys_ofValue h hn⟩

/-! ## Forms -/

namespace Form

/-- All trees of the form come back, and have no keys but untagged texts. -/
def IsPlain (f : Form) : Prop := ∀ n, f.Holds n → n.IsPlain

theorem plain_text : text.IsPlain := by
  rintro _ ⟨s, rfl, t, rfl⟩
  exact isPlain_scalar (isCanonical_string t)

theorem plain_flag : flag.IsPlain := by
  rintro _ ⟨b, rfl⟩
  exact isPlain_scalar (isCanonical_boolNode b)

theorem plain_list {f : Form} (h : f.IsPlain) : (list f).IsPlain := by
  rintro _ ⟨items, rfl, hitems⟩
  exact isPlain_sequence_iff.2 fun n hn => h n (hitems n hn)

theorem plain_record {fields : List (String × Form)} (h : ∀ e ∈ fields, e.2.IsPlain)
    (required : List String) : (record fields required).IsPlain := by
  rintro _ ⟨hd, m, rfl, -, hentries⟩
  refine isPlain_mapping (hd m rfl) fun e he => ?_
  obtain ⟨hkey, f, hf, hholds⟩ := hentries e he
  exact ⟨hkey, h _ (mem_of_lookup hf) _ hholds⟩

end Form

theorem Target.plain_form : Target.form.IsPlain := by
  rintro _ ⟨s, rfl, t, rfl⟩
  exact isPlain_scalar (isCanonical_string t.name)

theorem ServerType.plain_form : ServerType.form.IsPlain := by
  rintro _ ⟨s, rfl, t, rfl⟩
  exact isPlain_scalar (isCanonical_string t.name)

theorem ClusterServer.plain_form : ClusterServer.form.IsPlain :=
  Form.plain_record (by simp [Form.plain_text, Form.plain_flag]) _

theorem ManagementClusterServer.plain_form : ManagementClusterServer.form.IsPlain :=
  Form.plain_record (by simp [Form.plain_text]) _

theorem GlobalServerAuth.plain_form : GlobalServerAuth.form.IsPlain :=
  Form.plain_record (by simp [Form.plain_text]) _

theorem GlobalServer.plain_form : GlobalServer.form.IsPlain :=
  Form.plain_record (by simp [Form.plain_text, GlobalServerAuth.plain_form]) _

theorem Form.plain_single (key : String) : (Form.single key).IsPlain :=
  Form.plain_record (by simp [Form.plain_text]) _

theorem PluginDiscovery.plain_form : PluginDiscovery.form.IsPlain :=
  Form.plain_record (by simp [Form.plain_text, Form.plain_single]) _

theorem Server.plain_form : Server.form.IsPlain :=
  Form.plain_record (by simp [Form.plain_text, ServerType.plain_form, GlobalServer.plain_form,
    ManagementClusterServer.plain_form, Form.plain_list PluginDiscovery.plain_form]) _

/-! ## Plugins -/

def PluginGroup.form : Form :=
  .record [("name", .text), ("version", .text), ("description", .text), ("plugins", .list .text)]
    ["name"]

theorem PluginGroup.holds_encode (g : PluginGroup) : PluginGroup.form.Holds g.encode := by
  refine Encodes.holds ?_ (by simp) (by simp [SharedConfig.field])
  simpa only [List.append_assoc, List.append_nil] using
    Encodes.field (holds_text g.name) (.optionField holds_text g.version
      (.optionField holds_text g.description (.listField holds_text g.plugins .nil)))

/-- The records of a name and what may be known of an image. -/
def Form.imaged : Form := .record [("name", .text), ("version", .text), ("image", .text)] ["name"]

theorem Essential.holds_encode (e : Essential) : Form.imaged.Holds e.encode := by
  refine Encodes.holds ?_ (by simp) (by simp [SharedConfig.field])
  simpa only [List.append_assoc, List.append_nil] using
    Encodes.field (holds_text e.name) (.optionField holds_text e.version
      (.optionField holds_text e.image .nil))

theorem CorePluginGroup.holds_encode (g : CorePluginGroup) : Form.imaged.Holds g.encode := by
  refine Encodes.holds ?_ (by simp) (by simp [SharedConfig.field])
  simpa only [List.append_assoc, List.append_nil] using
    Encodes.field (holds_text g.name) (.optionField holds_text g.version
      (.optionField holds_text g.image .nil))

theorem PluginGroup.plain_form : PluginGroup.form.IsPlain :=
  Form.plain_record (by simp [Form.plain_text, Form.plain_list Form.plain_text]) _

theorem Form.plain_imaged : Form.imaged.IsPlain :=
  Form.plain_record (by simp [Form.plain_text]) _

/-! ## Contexts -/

/-- The metadata is a dictionary of values without tags whose keys are texts. -/
structure Context.HasPlainMetadata (c : Context) : Prop where
  wellFormed : c.WellFormedMetadata
  values : ∀ e ∈ c.additionalMetadata, e.2.IsPlain

theorem Encodes.plainEntries {fields : List (String × Form)} {m : Mapping} (h : Encodes fields m)
    (hfields : ∀ e ∈ fields, e.2.IsPlain) : PlainEntries m := by
  induction h with
  | nil => exact List.forall_mem_nil _
  | skip _ ih => exact ih (List.forall_mem_cons.1 hfields).2
  | @field key f fields m n hn _ ih =>
    obtain ⟨hf, hrest⟩ := List.forall_mem_cons.1 hfields
    exact List.forall_mem_cons.2 ⟨⟨rfl, hf n hn⟩, ih hrest⟩

theorem plain_dictionary {metadata : Dictionary Value} (h : ∀ e ∈ metadata, e.2.IsPlain) :
    (Value.mapping (metadata.map fun (k, v) => (Value.string k, v))).IsPlain := by
  intro w hw
  rcases parts_dictionary hw with rfl | ⟨k, rfl⟩ | ⟨e, he, hw⟩
  · exact List.forall_mem_map.2 fun e _ => ⟨e.1, rfl⟩
  · trivial
  · exact h e he w hw

theorem Context.HasPlainMetadata.plainEntries {c : Context} (hc : c.HasPlainMetadata) {m : Mapping}
    (hm : Context.metadataFields c.additionalMetadata = .ok m) : PlainEntries m := by
  unfold Context.metadataFields at hm
  split at hm
  · cases hm
    exact List.forall_mem_nil _
  · split at hm
    · cases hm
    · rename_i n hn
      cases hm
      have hwf := wellFormed_dictionary hc.wellFormed.sorted hc.wellFormed.values
      exact List.forall_mem_singleton.2 ⟨rfl, plain_of_ofValue hwf (plain_dictionary hc.values) hn⟩

theorem Context.plain_encode {c : Context} (hc : c.HasPlainMetadata) {n : Node}
    (h : c.encode = .ok n) : n.IsPlain := by
  obtain ⟨m, rfl, hfields, -⟩ := Context.encode_eq_mapping h
  refine isPlain_mapping hfields.nodup ?_
  unfold Context.encode at h
  cases hm : Context.metadataFields c.additionalMetadata with
  | error kind => rw [hm] at h; cases h
  | ok metadata =>
    rw [hm] at h
    cases h
    have hbase : Encodes [("name", .text), ("target", Target.form),
        ("globalOpts", GlobalServer.form), ("clusterOpts", ClusterServer.form),
        ("discoverySources", .list PluginDiscovery.form)] _ :=
      .field (holds_text c.name) (.field c.target.holds_name
        (.optionField GlobalServer.holds_encode c.globalOpts
        (.optionField ClusterServer.holds_encode c.clusterOpts
        (.listField PluginDiscovery.holds_encode c.discoverySources .nil))))
    have hplain := hbase.plainEntries (by simp [Form.plain_text, Target.plain_form,
      GlobalServer.plain_form, ClusterServer.plain_form,
      Form.plain_list PluginDiscovery.plain_form])
    refine PlainEntries.append ?_ (hc.plainEntries hm)
    simpa only [List.append_assoc, List.append_nil] using hplain

/-! ## All kinds -/

namespace RecordKind

def HasPlainMetadata : (k : RecordKind) → k.Record → Prop
  | context, c => Context.HasPlainMetadata c
  | _, _ => True

theorem plain_encode {k : RecordKind} {r : k.Record} (hr : k.HasPlainMetadata r) {n : Node}
    (hn : k.encode r = .ok n) : n.IsPlain := by
  cases k with
  | context => exact Context.plain_encode hr (encode_context_eq_ok.1 hn)
  | server => cases hn; exact Server.plain_form _ (Server.holds_encode r)
  | pluginGroup => cases hn; exact PluginGroup.plain_form _ (PluginGroup.holds_encode r)
  | essential => cases hn; exact Form.plain_imaged _ (Essential.holds_encode r)
  | corePluginGroup => cases hn; exact Form.plain_imaged _ (CorePluginGroup.holds_encode r)
  | discoverySource => cases hn; exact PluginDiscovery.plain_form _ (PluginDiscovery.holds_encode r)

end RecordKind

end SharedConfig
