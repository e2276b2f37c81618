import SharedConfig.Proofs.Entity
import SharedConfig.Record.Kind

/-!
# SharedConfig.Proofs.Encoding

The trees of records: mappings in which no key stands twice, with the name of the record first.

* `RecordKind.encode_eq_mapping`: the shape of the tree of a record of any kind.
* `RecordKind.entityName_encode`: a record is an entity of its name, unless that is empty.
-/

namespace SharedConfig

/-- The entries of the tree of a record, after its name, each at most once. -/
structure EncodedFields (name : String) (m : Mapping) : Prop where
  nodup : m.keys.Nodup
  name : m.get? "name" = some (.string name)

/-! ## Fields -/

theorem keys_field (key : String) (n : Node) : Mapping.keys (field key n) = [key] := rfl

theorem keys_optionField_sublist {ρ : Type} (key : String) (encode : ρ → Node) (o : Option ρ) :
    (Mapping.keys (optionField key encode o)).Sublist [key] := by
  cases o with
  | none => exact List.nil_sublist _
  | some r => exact List.Sublist.refl _

theorem keys_listField_sublist {ρ : Type} (key : String) (encode : ρ → Node) (l : List ρ) :
    (Mapping.keys (listField key encode l)).Sublist [key] := by
  cases l with
  | nil => exact List.nil_sublist _
  | cons r rs => exact List.Sublist.refl _

theorem keys_metadataFields_sublist {metadata : Dictionary Yaml.Value} {m : Mapping}
    (h : Context.metadataFields metadata = .ok m) : m.keys.Sublist ["additionalMetadata"] := by
  unfold Context.metadataFields at h
  split at h
  · cases h
    exact List.nil_sublist _
  · split at h
    · cases h
    · cases h
      exact List.Sublist.refl _

theorem get?_field (name : String) (n : Node) (key : String) :
    Mapping.get? (field name n) key = if name = key then some n else none := rfl

theorem get?_optionField {ρ : Type} (name : String) (encode : ρ → Node) (o : Option ρ)
    (key : String) :
    Mapping.get? (optionField name encode o) key =
      if name = key then o.map encode else none := by
  cases o with
  | none => simp
  | some r => exact get?_field name (encode r) key

theorem get?_listField_of_ne {ρ : Type} {name key : String} (h : name ≠ key) (encode : ρ → Node)
    (l : List ρ) : Mapping.get? (listField name encode l) key = none := by
  cases l with
  | nil => rfl
  | cons r rs => exact (get?_field name _ key).trans (if_neg h)

theorem get?_metadataFields_of_ne {metadata : Dictionary Yaml.Value} {m : Mapping}
    (h : Context.metadataFields metadata = .ok m) {key : String}
    (hkey : key ≠ "additionalMetadata") : m.get? key = none := by
  refine Mapping.get?_eq_none_iff.2 fun hmem => hkey ?_
  exact List.mem_singleton.1 ((keys_metadataFields_sublist h).subset hmem)

/-- The name comes first, and what follows has other keys, each at most once. -/
theorem EncodedFields.of_sublist (name : String) {rest : Mapping} {keys : List String}
    (h : rest.keys.Sublist keys) (hn : ("name" :: keys).Nodup) :
    EncodedFields name (field "name" (.string name) ++ rest) where
  nodup := by
    rw [Mapping.keys_append, keys_field]
    exact hn.sublist ((List.Sublist.refl ["name"]).append h)
  name := rfl

/-! ## Records -/

theorem Context.encode_eq_mapping {c : Context} {n : Node} (h : c.encode = .ok n) :
    ∃ m, n = .mapping m ∧ EncodedFields c.name m ∧
      Mapping.get? m "target" = some (.string c.target.name) := by
  unfold Context.encode at h
  cases hm : Context.metadataFields c.additionalMetadata with
  | error kind => rw [hm] at h; cases h
  | ok metadata =>
    rw [hm] at h
    cases h
    have hkeys : (Mapping.keys (field "target" (.string c.target.name) ++
        optionField "globalOpts" GlobalServer.encode c.globalOpts ++
        optionField "clusterOpts" ClusterServer.encode c.clusterOpts ++
        listField "discoverySources" PluginDiscovery.encode c.discoverySources ++
        metadata)).Sublist
          ["target", "globalOpts", "clusterOpts", "discoverySources", "additionalMetadata"] := by
      simp only [Mapping.keys_append]
      exact ((((List.Sublist.refl ["target"]).append (keys_optionField_sublist _ _ _)).append
        (keys_optionField_sublist _ _ _)).append (keys_listField_sublist _ _ _)).append
        (keys_metadataFields_sublist hm)
    refine ⟨_, rfl, ?_, rfl⟩
    simpa only [List.append_assoc] using
      EncodedFields.of_sublist c.name hkeys (by decide)

theorem texts_optionField {ρ : Type} (key : String) (encode : ρ → Node) (o : Option ρ) :
    ∀ k ∈ (optionField key encode o).map Prod.fst, k = .string k.text := by
  cases o <;> simp [optionField, field]

theorem texts_listField {ρ : Type} (key : String) (encode : ρ → Node) (l : List ρ) :
    ∀ k ∈ (listField key encode l).map Prod.fst, k = .string k.text := by
  cases l <;> simp [listField, field]

theorem texts_metadataFields {metadata : Dictionary Yaml.Value} {m : Mapping}
    (h : Context.metadataFields metadata = .ok m) : ∀ k ∈ m.map Prod.fst, k = .string k.text := by
  unfold Context.metadataFields at h
  split at h
  · cases h
    simp
  · split at h
    · cases h
    · cases h
      simp [field]

theorem Context.texts_encode {c : Context} {m : Mapping} (h : c.encode = .ok (.mapping m)) :
    ∀ k ∈ m.map Prod.fst, k = .string k.text := by
  unfold Context.encode at h
  cases hm : Context.metadataFields c.additionalMetadata with
  | error kind => rw [hm] at h; cases h
  | ok metadata =>
    rw [hm] at h
    cases h
    simp only [List.map_append, List.forall_mem_append]
    refine ⟨⟨⟨⟨⟨?_, ?_⟩, texts_optionField _ _ _⟩, texts_optionField _ _ _⟩,
      texts_listField _ _ _⟩, texts_metadataFields hm⟩
    · simp [field]
    · simp [field]

theorem Server.encode_eq_mapping (s : Server) :
    ∃ m, s.encode = .mapping m ∧ EncodedFields s.name m := by
  have hkeys : (Mapping.keys (field "type" (.string s.type.name) ++
      optionField "globalOpts" GlobalServer.encode s.globalOpts ++
      optionField "managementClusterOpts" ManagementClusterServer.encode s.managementClusterOpts ++
      listField "discoverySources" PluginDiscovery.encode s.discoverySources)).Sublist
        ["type", "globalOpts", "managementClusterOpts", "discoverySources"] := by
    simp only [Mapping.keys_append]
    exact (((List.Sublist.refl ["type"]).append (keys_optionField_sublist _ _ _)).append
      (keys_optionField_sublist _ _ _)).append (keys_listField_sublist _ _ _)
  refine ⟨_, rfl, ?_⟩
  simpa only [List.append_assoc] using EncodedFields.of_sublist s.name hkeys (by decide)

theorem PluginGroup.encode_eq_mapping (g : PluginGroup) :
    ∃ m, g.encode = .mapping m ∧ EncodedFields g.name m := by
  have hkeys : (Mapping.keys (optionField "version" .string g.version ++
      optionField "description" .string g.description ++
      listField "plugins" .string g.plugins)).Sublist ["version", "description", "plugins"] := by
    simp only [Mapping.keys_append]
    exact ((keys_optionField_sublist _ _ _).append (keys_optionField_sublist _ _ _)).append
      (keys_listField_sublist _ _ _)
  refine ⟨_, rfl, ?_⟩
  simpa only [List.append_assoc] using EncodedFields.of_sublist g.name hkeys (by decide)

theorem Essential.encode_eq_mapping (e : Essential) :
    ∃ m, e.encode = .mapping m ∧ EncodedFields e.name m := by
  have hkeys : (Mapping.keys (optionField "version" .string e.version ++
      optionField "image" .string e.image)).Sublist ["version", "image"] := by
    simp only [Mapping.keys_append]
    exact (keys_optionField_sublist _ _ _).append (keys_optionField_sublist _ _ _)
  refine ⟨_, rfl, ?_⟩
  simpa only [List.append_assoc] using EncodedFields.of_sublist e.name hkeys (by decide)

theorem CorePluginGroup.encode_eq_mapping (g : CorePluginGroup) :
    ∃ m, g.encode = .mapping m ∧ EncodedFields g.name m := by
  have hkeys : (Mapping.keys (optionField "version" .string g.version ++
      optionField "image" .string g.image)).Sublist ["version", "image"] := by
    simp only [Mapping.keys_append]
    exact (keys_optionField_sublist _ _ _).append (keys_optionField_sublist _ _ _)
  refine ⟨_, rfl, ?_⟩
  simpa only [List.append_assoc] using EncodedFields.of_sublist g.name hkeys (by decide)

theorem PluginDiscovery.encode_eq_mapping (d : PluginDiscovery) :
    ∃ m, d.encode = .mapping m ∧ EncodedFields d.name m := by
  have hkeys : (Mapping.keys
      (optionField "oci" (fun s => .mapping (field "image" (.string s))) d.oci ++
        optionField "local" (fun s => .mapping (field "path" (.string s))) d.local)).Sublist
        ["oci", "local"] := by
    simp only [Mapping.keys_append]
    exact (keys_optionField_sublist _ _ _).append (keys_optionField_sublist _ _ _)
  refine ⟨_, rfl, ?_⟩
  simpa only [List.append_assoc] using EncodedFields.of_sublist d.name hkeys (by decide)

namespace RecordKind

theorem encode_context_eq_ok {c : Context} {n : Node} :
    encode .context c = .ok n ↔ c.encode = .ok n := by
  cases hn : c.encode <;> simp [encode, hn]

theorem encode_eq_mapping {k : RecordKind} {r : k.Record} {n : Node} (h : k.encode r = .ok n) :
    ∃ m, n = .mapping m ∧ EncodedFields (k.recordName r) m := by
  cases k with
  | context =>
    obtain ⟨m, rfl, hm, -⟩ := Context.encode_eq_mapping (encode_context_eq_ok.1 h)
    exact ⟨m, rfl, hm⟩
  | server => cases h; exact Server.encode_eq_mapping r
  | pluginGroup => cases h; exact PluginGroup.encode_eq_mapping r
  | essential => cases h; exact Essential.encode_eq_mapping r
  | corePluginGroup => cases h; exact CorePluginGroup.encode_eq_mapping r
  | discoverySource => cases h; exact PluginDiscovery.encode_eq_mapping r

/-- The tree of a record is an entity of the name of the record, unless that is empty. -/
theorem entityName_encode {k : RecordKind} {r : k.Record} {n : Node} (h : k.encode r = .ok n) :
    n.entityName = if k.recordName r = "" then none else some (k.recordName r) := by
  obtain ⟨m, rfl, hm⟩ := encode_eq_mapping h
  have hname : (Node.mapping m).child? "name" = some (.string (k.recordName r)) := hm.name
  split
  · rename_i hempty
    cases he : (Node.mapping m).entityName with
    | none => rfl
    | some name =>
      obtain ⟨⟨v, hv, ht⟩, hne⟩ := Node.entityName_eq_some_iff.1 he
      rw [hname] at hv
      cases hv
      exact absurd (hempty ▸ (Option.some.inj ht).symm) hne
  · rename_i hne
    exact Node.entityName_eq_some_iff.2 ⟨⟨_, hname, rfl⟩, hne⟩

theorem entityName_of_encode {k : RecordKind} {r : k.Record} {n : Node} (h : k.encode r = .ok n)
    (hnamed : k.recordName r ≠ "") : n.entityName = some (k.recordName r) := by
  rw [entityName_encode h, if_neg hnamed]

theorem distinctKeys_encode {k : RecordKind} {r : k.Record} {n : Node} (h : k.encode r = .ok n) :
    n.DistinctKeys := by
  obtain ⟨m, rfl, hm⟩ := encode_eq_mapping h
  intro m' hm'
  cases hm'
  exact hm.nodup

/-- In the tree of a record no mapping has two keys of one text, and no sequence two entities of one
name. -/
def IsUnambiguous (k : RecordKind) (r : k.Record) : Prop :=
  ∀ tree, k.encode r = .ok tree → tree.Unambiguous

end RecordKind

/-! ## The other generation -/

section OtherGeneration

open Node

theorem keys_textField_sublist (key s : String) :
    (Mapping.keys (textField key s)).Sublist [key] := by
  unfold textField
  split
  · exact List.nil_sublist _
  · exact List.Sublist.refl _

theorem unambiguous_of_mem_textField {key s : String} {e : Scalar × Node}
    (h : e ∈ textField key s) : e.2.Unambiguous := by
  rw [textField, List.mem_ite_nil_left, field, List.mem_singleton] at h
  rw [h.2]
  rfl

theorem ManagementClusterServer.unambiguous_encode (s : ManagementClusterServer) :
    s.encode.Unambiguous := by
  refine unambiguous_mapping_iff.2 ⟨?_, fun e he => ?_⟩
  · have hkeys := ((keys_textField_sublist "endpoint" s.endpoint).append
      (keys_textField_sublist "path" s.path)).append (keys_textField_sublist "context" s.context)
    simp only [Mapping.keys_append]
    exact List.Nodup.sublist hkeys (by decide)
  · simp only [List.mem_append] at he
    rcases he with (he | he) | he
    all_goals exact unambiguous_of_mem_textField he

theorem ClusterServer.unambiguous_encode (c : ClusterServer) : c.encode.Unambiguous := by
  refine unambiguous_mapping_iff.2 ⟨?_, fun e he => ?_⟩
  · have hkeys := (((keys_textField_sublist "endpoint" c.endpoint).append
      (keys_textField_sublist "path" c.path)).append
      (keys_textField_sublist "context" c.context)).append
      (List.Sublist.refl ["isManagementCluster"])
    simp only [Mapping.keys_append]
    exact List.Nodup.sublist hkeys (by decide)
  · simp only [List.mem_append] at he
    rcases he with ((he | he) | he) | he
    · exact unambiguous_of_mem_textField he
    · exact unambiguous_of_mem_textField he
    · exact unambiguous_of_mem_textField he
    · rw [List.mem_singleton.1 he]
      rfl

theorem mem_optionField {ρ : Type} {key : String} {encode : ρ → Node} {o : Option ρ}
    {e : Scalar × Node} (h : e ∈ optionField key encode o) : ∃ r, o = some r ∧ e.2 = encode r := by
  cases o with
  | none => cases h
  | some r => exact ⟨r, rfl, by rw [List.mem_singleton.1 h]⟩

theorem Server.isUnambiguous_ofContext {c : Context} {tree : Node}
    (hc : RecordKind.context.encode c = .ok tree) (h : RecordKind.context.IsUnambiguous c) :
    RecordKind.server.IsUnambiguous (.ofContext c) := by
  replace h : tree.Unambiguous := h tree hc
  replace hc : c.encode = .ok tree := RecordKind.encode_context_eq_ok.1 hc
  intro server hserver
  obtain ⟨fields, rfl, hfields⟩ := RecordKind.encode_eq_mapping hserver
  cases hserver
  unfold Context.encode at hc
  split at hc
  · cases hc
  · cases hc
    have hshared := (unambiguous_mapping_iff.1 h).2
    simp only [List.forall_mem_append] at hshared
    refine unambiguous_mapping_iff.2 ⟨hfields.nodup, ?_⟩
    simp only [List.forall_mem_append]
    refine ⟨⟨⟨⟨hshared.1.1.1.1.1, ?_⟩, hshared.1.1.1.2⟩, fun e he => ?_⟩, hshared.1.2⟩
    · exact fun e he => by rw [List.mem_singleton.1 he]; rfl
    · obtain ⟨r, -, hr⟩ := mem_optionField he
      exact hr ▸ r.unambiguous_encode

theorem Context.isUnambiguous_ofServer {s : Server} (h : RecordKind.server.IsUnambiguous s) :
    RecordKind.context.IsUnambiguous (.ofServer s) := by
  intro context hcontext
  obtain ⟨fields, rfl, hfields⟩ := RecordKind.encode_eq_mapping hcontext
  cases hcontext
  have hshared := (unambiguous_mapping_iff.1 (h s.encode rfl)).2
  simp only [List.forall_mem_append] at hshared
  refine unambiguous_mapping_iff.2 ⟨hfields.nodup, ?_⟩
  simp only [List.forall_mem_append]
  refine ⟨⟨⟨⟨⟨hshared.1.1.1.1, ?_⟩, hshared.1.1.2⟩, fun e he => ?_⟩, hshared.2⟩, ?_⟩
  · exact fun e he => by rw [List.mem_singleton.1 he]; rfl
  · obtain ⟨r, -, hr⟩ := mem_optionField he
    exact hr ▸ r.unambiguous_encode
  · exact fun e he => nomatch he

end OtherGeneration

end SharedConfig
