import Mathlib.Data.String.Basic
import SharedConfig.Proofs.Form.Reading
import SharedConfig.Proofs.Value
import SharedConfig.Record.Kind

/-!
# SharedConfig.Proofs.Record

What a record is encoded as is read as that record.

An encoder leaves out what is empty, so reading starts from the record in which everything is empty
and goes through the fields that are there (`Restores`): a field that is left out is one that reading
does not change.  Metadata is the one part that comes from outside; it is restored if it is sorted and
has no tags.

* `Restores.record`: a record is restored from its fields.
* `RecordKind.decode_encode`: what is decoded from the tree of a record is the record.
* `Context.exists_encode_iff`: the contexts that have a tree.
* `records_come_back`: both together.
-/

namespace SharedConfig

open Node Yaml

/-! ## Trees that are read as something -/

section ReadsAs

variable {σ : Type} {read : Value → Decoding σ}

/-- A tree has a value, which is read as something, and is not null. -/
def ReadsAs (read : Value → Decoding σ) (n : Node) (x : σ) : Prop :=
  ∃ v, n.toValue? = some v ∧ v ≠ .null ∧ read v = .ok x

theorem ReadsAs.decode {n : Node} {x : σ} (h : ReadsAs read n x) : n.decode read = .ok x := by
  obtain ⟨v, hv, -, hx⟩ := h
  rw [Node.decode, hv]
  dsimp only
  rw [hx]

theorem readsAs_text (s : String) : ReadsAs readText (.string s) s :=
  ⟨.string s, rfl, by simp, rfl⟩

theorem readsAs_flag (b : Bool) : ReadsAs (Source.bool (m := Decoding)) (boolNode b) b :=
  ⟨.bool b, by cases b <;> rfl, by simp, rfl⟩

theorem Target.readsAs (t : Target) : ReadsAs Target.read (.string t.name) t :=
  ⟨.string t.name, rfl, by simp, by cases t <;> rfl⟩

theorem ServerType.readsAs (t : ServerType) : ReadsAs ServerType.read (.string t.name) t :=
  ⟨.string t.name, rfl, by simp, by cases t <;> rfl⟩

theorem ReadsAs.option {n : Node} {x : σ} (h : ReadsAs read n x) :
    ReadsAs (readOption read) n (some x) := by
  obtain ⟨v, hv, hne, hx⟩ := h
  exact ⟨v, hv, hne, readOption_eq_ok hne hx⟩

theorem readsAs_list {encode : σ → Node} {l : List σ} (h : ∀ x ∈ l, ReadsAs read (encode x) x) :
    ReadsAs (readList read) (.sequence (l.map encode)) l := by
  obtain ⟨vs, hvs, hread⟩ : ∃ vs, toItems? (l.map encode) = some vs ∧ vs.mapM read = .ok l := by
    induction l with
    | nil => exact ⟨[], rfl, rfl⟩
    | cons x l ih =>
      obtain ⟨⟨v, hv, -, hx⟩, hrest⟩ := List.forall_mem_cons.1 h
      obtain ⟨vs, hvs, hread⟩ := ih hrest
      refine ⟨v :: vs, ?_, ?_⟩
      · rw [List.map_cons, toItems?, hv, hvs]
      · rw [List.mapM_cons, hx, hread]
        rfl
  exact ⟨.sequence vs, by rw [toValue?, hvs], by simp, hread⟩

end ReadsAs

/-! ## Records -/

/-- From the entries of a mapping, which are some fields in their order, a record is read into
another one. -/
inductive Restores {ρ : Type} (set : ρ → String → Value → Option (Decoding ρ)) :
    List String → Mapping → ρ → ρ → Prop where
  | nil {r : ρ} : Restores set [] [] r r
  | skip {key : String} {keys : List String} {m : Mapping} {r r' : ρ} :
      Restores set keys m r r' → Restores set (key :: keys) m r r'
  | field {key : String} {keys : List String} {m : Mapping} {n : Node} {v : Value} {r s r' : ρ} :
      n.toValue? = some v → set r key v = some (.ok s) → Restores set keys m s r' →
      Restores set (key :: keys) (field key n ++ m) r r'

namespace Restores

variable {ρ σ : Type} {set : ρ → String → Value → Option (Decoding ρ)} {keys : List String}
  {m : Mapping} {r r' : ρ}

theorem keys_sublist (h : Restores set keys m r r') : m.keys.Sublist keys := by
  induction h with
  | nil => exact .slnil
  | skip _ ih => exact ih.cons _
  | field _ _ _ ih => exact ih.cons_cons _

/-- The entries of the value, and what is read from them. -/
theorem exists_entries (h : Restores set keys m r r') (hd : keys.Nodup) :
    ∃ es, EntriesOf es m ∧
      es.map Prod.fst = m.keys.map Value.string ∧
      ∀ seen, (∀ key ∈ seen, key ∉ keys) →
        readFields set es r seen = (.ok (r', m.keys.reverse ++ seen) : Decoding _) := by
  induction h with
  | nil => exact ⟨[], .nil, rfl, fun seen _ => rfl⟩
  | skip _ ih =>
    obtain ⟨es, hes, hkeys, hread⟩ := ih (List.nodup_cons.1 hd).2
    exact ⟨es, hes, hkeys, fun seen hseen => hread seen fun key hkey hmem =>
      hseen key hkey (List.mem_cons_of_mem _ hmem)⟩
  | @field key keys m n v r s r' hv hset _ ih =>
    obtain ⟨hkey, hd⟩ := List.nodup_cons.1 hd
    obtain ⟨es, hes, hkeys, hread⟩ := ih hd
    refine ⟨(.string key, v) :: es, .cons ⟨rfl, hv⟩ hes, ?_, fun seen hseen => ?_⟩
    · rw [List.map_cons, hkeys]
      rfl
    · have hname : (Source.fieldName (Value.string key) : Decoding String) = .ok key := rfl
      have hnew : seen.contains key = false := by
        rw [List.contains_eq_mem, decide_eq_false_iff_not]
        exact fun hmem => hseen key hmem List.mem_cons_self
      have hseen' : ∀ other ∈ key :: seen, other ∉ keys :=
        List.forall_mem_cons.2 ⟨hkey, fun other hmem hin =>
          hseen other hmem (List.mem_cons_of_mem _ hin)⟩
      rw [readFields, hname]
      dsimp only [bind, Except.bind]
      rw [hset]
      dsimp only
      rw [hnew]
      refine (hread (key :: seen) hseen').trans ?_
      simp [SharedConfig.field]

/-- A record is restored from its fields, if the required ones are among them. -/
theorem record (keys : List String) {initial : ρ} {encoded : Mapping} {required : List String}
    {name : String}
    (h : Restores set keys m initial r) (hd : keys.Nodup)
    (hrequired : ∀ key ∈ required, key ∈ m.keys) (hm : encoded = m) :
    ReadsAs (readRecord name initial required set) (.mapping encoded) r := by
  subst hm
  obtain ⟨es, hes, hkeys, hread⟩ := h.exists_entries hd
  have hdistinct : es.Pairwise fun a b => a.1.same b.1 = false := by
    have hnodup : (es.map Prod.fst).Nodup := by
      rw [hkeys]
      exact (hd.sublist h.keys_sublist).map fun _ _ => Value.string.inj
    rw [List.Nodup, List.pairwise_map] at hnodup
    refine hnodup.imp_of_mem fun {a b} ha hb hne => ?_
    obtain ⟨k, -, hk⟩ := List.mem_map.1 (hkeys ▸ List.mem_map_of_mem ha)
    obtain ⟨l, -, hl⟩ := List.mem_map.1 (hkeys ▸ List.mem_map_of_mem hb)
    rw [← hk, ← hl] at hne ⊢
    exact Bool.eq_false_iff.2 fun hsame => hne (congrArg _ (same_string.1 hsame))
  refine ⟨.mapping es, ?_, by simp, ?_⟩
  · rw [toValue?, toEntries?_eq_some hes (by simpa using hdistinct)]
    rfl
  · have hentries : (Source.entries ("struct " ++ name) (Value.mapping es) : Decoding _) = .ok es :=
      rfl
    rw [readRecord, hentries]
    dsimp only [bind, Except.bind]
    rw [hread [] (List.forall_mem_nil _)]
    exact requireFields_of_mem fun key hkey => by simpa using hrequired key hkey

variable (key : String)

theorem value {read : Value → Decoding σ} {n : Node} {x : σ} (hx : ReadsAs read n x)
    (put : ρ → σ → ρ) (hput : ∀ r v, set r key v = some (do return put r (← read v)))
    (h : Restores set keys m (put r x) r') :
    Restores set (key :: keys) (SharedConfig.field key n ++ m) r r' := by
  obtain ⟨v, hv, -, hx⟩ := hx
  refine .field hv ?_ h
  rw [hput, hx]
  rfl

theorem text (s : String) (put : ρ → String → ρ)
    (hput : ∀ r v, set r key v = some (do return put r (← readText v)))
    (hskip : put r "" = r) (h : Restores set keys m (put r s) r') :
    Restores set (key :: keys) (textField key s ++ m) r r' := by
  unfold textField
  split
  · rename_i hempty
    rw [hempty, hskip] at h
    exact .skip h
  · exact .value key (readsAs_text s) put hput h

theorem option {read : Value → Decoding σ} {encode : σ → Node} (o : Option σ)
    (ho : ∀ x, ReadsAs read (encode x) x) (put : ρ → Option σ → ρ)
    (hput : ∀ r v, set r key v = some (do return put r (← readOption read v)))
    (hskip : put r none = r) (h : Restores set keys m (put r o) r') :
    Restores set (key :: keys) (optionField key encode o ++ m) r r' := by
  cases o with
  | none =>
    rw [hskip] at h
    exact .skip h
  | some x => exact .value key (ho x).option put hput h

theorem list {read : Value → Decoding σ} {encode : σ → Node} (l : List σ)
    (hl : ∀ x, ReadsAs read (encode x) x) (put : ρ → List σ → ρ)
    (hput : ∀ r v, set r key v = some (do return put r (← readList read v)))
    (hskip : put r [] = r) (h : Restores set keys m (put r l) r') :
    Restores set (key :: keys) (listField key encode l ++ m) r r' := by
  cases l with
  | nil =>
    rw [hskip] at h
    exact .skip h
  | cons x l => exact .value key (readsAs_list fun y _ => hl y) put hput h

end Restores

/-! ## Clusters, endpoints and plugins -/

theorem ClusterServer.readsAs (c : ClusterServer) : ReadsAs ClusterServer.read c.encode c :=
  Restores.record ["endpoint", "path", "context", "isManagementCluster"]
    (.text "endpoint" c.endpoint (fun r y => { r with endpoint := y }) (fun _ _ => rfl) rfl
    (.text "path" c.path (fun r y => { r with path := y }) (fun _ _ => rfl) rfl
    (.text "context" c.context (fun r y => { r with context := y }) (fun _ _ => rfl) rfl
    (.value "isManagementCluster" (readsAs_flag c.isManagementCluster)
      (fun r y => { r with isManagementCluster := y }) (fun _ _ => rfl) .nil))))
    (by decide) (List.forall_mem_nil _) (by simp only [List.append_assoc, List.append_nil])

theorem ManagementClusterServer.readsAs (s : ManagementClusterServer) :
    ReadsAs ManagementClusterServer.read s.encode s :=
  Restores.record ["endpoint", "path", "context"]
    (.text "endpoint" s.endpoint (fun r y => { r with endpoint := y }) (fun _ _ => rfl) rfl
    (.text "path" s.path (fun r y => { r with path := y }) (fun _ _ => rfl) rfl
    (.text "context" s.context (fun r y => { r with context := y }) (fun _ _ => rfl) rfl .nil)))
    (by decide) (List.forall_mem_nil _) (by simp only [List.append_assoc, List.append_nil])

theorem GlobalServerAuth.readsAs (a : GlobalServerAuth) :
    ReadsAs GlobalServerAuth.read a.encode a :=
  Restores.record ["issuer", "userName", "accessToken", "idToken", "refreshToken",
      "expiration", "type"]
    (.option "issuer" a.issuer readsAs_text (fun r y => { r with issuer := y }) (fun _ _ => rfl) rfl
    (.option "userName" a.userName readsAs_text (fun r y => { r with userName := y })
      (fun _ _ => rfl) rfl
    (.option "accessToken" a.accessToken readsAs_text (fun r y => { r with accessToken := y })
      (fun _ _ => rfl) rfl
    (.option "idToken" a.idToken readsAs_text (fun r y => { r with idToken := y })
      (fun _ _ => rfl) rfl
    (.option "refreshToken" a.refreshToken readsAs_text (fun r y => { r with refreshToken := y })
      (fun _ _ => rfl) rfl
    (.option "expiration" a.expiration readsAs_text (fun r y => { r with expiration := y })
      (fun _ _ => rfl) rfl
    (.option "type" a.authType readsAs_text (fun r y => { r with authType := y })
      (fun _ _ => rfl) rfl .nil)))))))
    (by decide) (List.forall_mem_nil _) (by simp only [List.append_assoc, List.append_nil])

theorem GlobalServer.readsAs (g : GlobalServer) : ReadsAs GlobalServer.read g.encode g :=
  Restores.record ["endpoint", "auth"]
    (.text "endpoint" g.endpoint (fun r y => { r with endpoint := y }) (fun _ _ => rfl) rfl
    (.option "auth" g.auth GlobalServerAuth.readsAs (fun r y => { r with auth := y })
      (fun _ _ => rfl) rfl .nil))
    (by decide) (List.forall_mem_nil _) (by simp only [List.append_nil])

theorem PluginDiscovery.readsAs_single (record key s : String) :
    ReadsAs (readSingle record key) (.mapping (field key (.string s))) s :=
  Restores.record [key]
    (.value key (readsAs_text s) (fun _ y => y) (fun _ _ => by simp) .nil)
    (List.nodup_singleton key) (by simp [field]) (by simp only [List.append_nil])

theorem PluginDiscovery.readsAs (d : PluginDiscovery) : ReadsAs PluginDiscovery.read d.encode d :=
  Restores.record ["name", "oci", "local"]
    (.value "name" (readsAs_text d.name) (fun r y => { r with name := y }) (fun _ _ => rfl)
    (.option "oci" d.oci (readsAs_single "OciDiscovery" "image") (fun r y => { r with oci := y })
      (fun _ _ => rfl) rfl
    (.option "local" d.local (readsAs_single "LocalDiscovery" "path")
      (fun r y => { r with «local» := y }) (fun _ _ => rfl) rfl .nil)))
    (by decide) (by simp [field]) (by simp only [List.append_assoc, List.append_nil])

theorem PluginGroup.readsAs (g : PluginGroup) : ReadsAs PluginGroup.read g.encode g :=
  Restores.record ["name", "version", "description", "plugins"]
    (.value "name" (readsAs_text g.name) (fun r y => { r with name := y }) (fun _ _ => rfl)
    (.option "version" g.version readsAs_text (fun r y => { r with version := y })
      (fun _ _ => rfl) rfl
    (.option "description" g.description readsAs_text (fun r y => { r with description := y })
      (fun _ _ => rfl) rfl
    (.list "plugins" g.plugins readsAs_text (fun r y => { r with plugins := y })
      (fun _ _ => rfl) rfl .nil))))
    (by decide) (by simp [field]) (by simp only [List.append_assoc, List.append_nil])

theorem Essential.readsAs (e : Essential) : ReadsAs Essential.read e.encode e :=
  Restores.record ["name", "version", "image"]
    (.value "name" (readsAs_text e.name) (fun r y => { r with name := y }) (fun _ _ => rfl)
    (.option "version" e.version readsAs_text (fun r y => { r with version := y })
      (fun _ _ => rfl) rfl
    (.option "image" e.image readsAs_text (fun r y => { r with image := y })
      (fun _ _ => rfl) rfl .nil)))
    (by decide) (by simp [field]) (by simp only [List.append_assoc, List.append_nil])

theorem CorePluginGroup.readsAs (g : CorePluginGroup) : ReadsAs CorePluginGroup.read g.encode g :=
  Restores.record ["name", "version", "image"]
    (.value "name" (readsAs_text g.name) (fun r y => { r with name := y }) (fun _ _ => rfl)
    (.option "version" g.version readsAs_text (fun r y => { r with version := y })
      (fun _ _ => rfl) rfl
    (.option "image" g.image readsAs_text (fun r y => { r with image := y })
      (fun _ _ => rfl) rfl .nil)))
    (by decide) (by simp [field]) (by simp only [List.append_assoc, List.append_nil])

/-! ## Metadata -/

/-- A dictionary in the order of its keys, of values as documents have them. -/
structure Context.WellFormedMetadata (c : Context) : Prop where
  sorted : c.additionalMetadata.Pairwise fun a b => a.1 < b.1
  values : ∀ e ∈ c.additionalMetadata, e.2.WellFormed

/-- No value in the metadata has a tag, and no key in it. -/
def Context.HasUntaggedMetadata (c : Context) : Prop :=
  ∀ e ∈ c.additionalMetadata, ∀ w ∈ e.2.parts, w.isTagged = false

theorem Yaml.Value.bareTags_of_untagged {v : Value} (h : ∀ w ∈ v.parts, w.isTagged = false) :
    v.bareTags = v := by
  induction v using Value.value_induction with
  | leaf v hkind htag => exact bareTags_of_leaf hkind htag
  | sequence items ih =>
    rw [bareTags, bareItems_eq]
    refine congrArg _ ((List.map_congr_left fun v hv => ?_).trans (List.map_id items))
    exact ih v hv fun w hw => h w (parts_item hv w hw)
  | mapping entries ih =>
    rw [bareTags, bareEntries_eq]
    refine congrArg _ ((List.map_congr_left fun e he => ?_).trans (List.map_id entries))
    rw [(ih e he).1 fun w hw => h w (parts_key he w hw),
      (ih e he).2 fun w hw => h w (parts_entry he w hw)]
    rfl
  | tagged tag v ih => cases h _ (self_mem_parts _)

theorem Yaml.Value.plainlyTagged_of_untagged {v : Value} (h : ∀ w ∈ v.parts, w.isTagged = false) :
    v.PlainlyTagged := by
  intro w hw
  have htag := h w hw
  cases w with
  | tagged tag u => cases htag
  | _ => trivial

theorem Dictionary.insert_of_last {β : Type} {d : Dictionary β} {key : String} (value : β)
    (h : ∀ e ∈ d, e.1 < key) : Dictionary.insert key value d = d ++ [(key, value)] := by
  induction d with
  | nil => rfl
  | cons e d ih =>
    obtain ⟨k, old⟩ := e
    obtain ⟨hk, hd⟩ := List.forall_mem_cons.1 h
    rw [Dictionary.insert, if_neg (ne_of_lt hk), if_neg (lt_asymm hk), ih hd]
    rfl

/-- Entries in the order of their keys are put into a dictionary one after the other. -/
theorem readInto_of_sorted {metadata : Dictionary Value} (done : Dictionary Value)
    (h : (done ++ metadata).Pairwise fun a b => a.1 < b.1) :
    readInto Source.value (metadata.map fun (k, v) => (Value.string k, v)) done =
      (.ok (done ++ metadata) : Decoding (Dictionary Value)) := by
  induction metadata generalizing done with
  | nil => rw [List.append_nil]; rfl
  | cons e metadata ih =>
    obtain ⟨k, v⟩ := e
    have hlast : ∀ d ∈ done, d.1 < k := fun d hd =>
      (List.pairwise_append.1 h).2.2 d hd _ List.mem_cons_self
    have happend : done ++ (k, v) :: metadata = done ++ [(k, v)] ++ metadata := by simp
    rw [happend] at h ⊢
    refine Eq.trans ?_ (ih _ h)
    rw [← Dictionary.insert_of_last v hlast]
    rfl

section Metadata

variable {metadata : Dictionary Value}

theorem parts_dictionary {w : Value}
    (hw : w ∈ (Value.mapping (metadata.map fun (k, v) => (Value.string k, v))).parts) :
    w = .mapping (metadata.map fun (k, v) => (Value.string k, v)) ∨ (∃ k, w = .string k) ∨
      ∃ e ∈ metadata, w ∈ e.2.parts := by
  rcases List.mem_cons.1 hw with rfl | hw
  · exact .inl rfl
  · obtain ⟨e, he, hpart⟩ := Value.mem_entryParts.1 hw
    obtain ⟨f, hf, rfl⟩ := List.mem_map.1 he
    rcases hpart with hk | hv
    · exact .inr (.inl ⟨f.1, by simpa [Value.parts] using hk⟩)
    · exact .inr (.inr ⟨f, hf, hv⟩)

theorem wellFormed_dictionary (hsorted : metadata.Pairwise fun a b => a.1 < b.1)
    (hvalues : ∀ e ∈ metadata, e.2.WellFormed) :
    (Value.mapping (metadata.map fun (k, v) => (Value.string k, v))).WellFormed := by
  intro w hw
  rcases parts_dictionary hw with rfl | ⟨k, rfl⟩ | ⟨e, he, hw⟩
  · refine List.pairwise_map.2 (hsorted.imp fun {a b} hab => ?_)
    exact Bool.eq_false_iff.2 fun hsame => (ne_of_lt hab) (same_string.1 hsame)
  · trivial
  · exact hvalues e he w hw

/-- Metadata that is sorted and has no tags is restored. -/
theorem readsAs_metadata {n : Node} (hsorted : metadata.Pairwise fun a b => a.1 < b.1)
    (hvalues : ∀ e ∈ metadata, e.2.WellFormed)
    (huntagged : ∀ e ∈ metadata, ∀ w ∈ e.2.parts, w.isTagged = false)
    (hn : ofValue (.mapping (metadata.map fun (k, v) => (.string k, v))) = .ok n) :
    ReadsAs (readDictionary (Source.value (m := Decoding))) n metadata := by
  have hwf := wellFormed_dictionary hsorted hvalues
  have htags : ∀ w ∈ (Value.mapping (metadata.map fun (k, v) => (Value.string k, v))).parts,
      w.isTagged = false := by
    intro w hw
    rcases parts_dictionary hw with rfl | ⟨k, rfl⟩ | ⟨e, he, hw⟩
    · rfl
    · rfl
    · exact huntagged e he w hw
  have hvalue := toValue?_of_ofValue hn hwf (Value.plainlyTagged_of_untagged htags)
  rw [Value.bareTags_of_untagged htags] at hvalue
  exact ⟨_, hvalue, by simp, readInto_of_sorted [] hsorted⟩

end Metadata

theorem Restores.metadata {ρ : Type} {set : ρ → String → Value → Option (Decoding ρ)}
    {keys : List String} {m rest : Mapping} {r r' : ρ} {c : Context} (hc : c.WellFormedMetadata)
    (hu : c.HasUntaggedMetadata) (hm : Context.metadataFields c.additionalMetadata = .ok m)
    (put : ρ → Dictionary Value → ρ)
    (hput : ∀ r v, set r "additionalMetadata" v =
      some (do return put r (← readDictionary Source.value v)))
    (hskip : put r [] = r) (h : Restores set keys rest (put r c.additionalMetadata) r') :
    Restores set ("additionalMetadata" :: keys) (m ++ rest) r r' := by
  unfold Context.metadataFields at hm
  split at hm
  · rename_i hnone
    cases hm
    rw [hnone, hskip] at h
    exact .skip h
  · split at hm
    · cases hm
    · rename_i n hn
      cases hm
      exact .value _ (readsAs_metadata hc.sorted hc.values hu hn) put hput h

/-! ## Contexts and servers -/

theorem Context.readsAs {c : Context} (hc : c.WellFormedMetadata) (hu : c.HasUntaggedMetadata)
    {n : Node} (hn : c.encode = .ok n) : ReadsAs Context.read n c := by
  unfold Context.encode at hn
  cases hm : Context.metadataFields c.additionalMetadata with
  | error kind => rw [hm] at hn; cases hn
  | ok m =>
    rw [hm] at hn
    cases hn
    exact Restores.record ["name", "target", "globalOpts", "clusterOpts",
        "discoverySources", "additionalMetadata"]
      (.value "name" (readsAs_text c.name) (fun r y => { r with name := y }) (fun _ _ => rfl)
      (.value "target" c.target.readsAs (fun r y => { r with target := y }) (fun _ _ => rfl)
      (.option "globalOpts" c.globalOpts GlobalServer.readsAs
        (fun r y => { r with globalOpts := y }) (fun _ _ => rfl) rfl
      (.option "clusterOpts" c.clusterOpts ClusterServer.readsAs
        (fun r y => { r with clusterOpts := y }) (fun _ _ => rfl) rfl
      (.list "discoverySources" c.discoverySources PluginDiscovery.readsAs
        (fun r y => { r with discoverySources := y }) (fun _ _ => rfl) rfl
      (.metadata hc hu hm (fun r y => { r with additionalMetadata := y }) (fun _ _ => rfl)
        rfl .nil))))))
      (by decide) (by simp [field]) (by simp only [List.append_assoc, List.append_nil])

theorem Server.readsAs (s : Server) : ReadsAs Server.read s.encode s :=
  Restores.record ["name", "type", "globalOpts", "managementClusterOpts",
      "discoverySources"]
    (.value "name" (readsAs_text s.name) (fun r y => { r with name := y }) (fun _ _ => rfl)
    (.value "type" s.type.readsAs (fun r y => { r with type := y }) (fun _ _ => rfl)
    (.option "globalOpts" s.globalOpts GlobalServer.readsAs (fun r y => { r with globalOpts := y })
      (fun _ _ => rfl) rfl
    (.option "managementClusterOpts" s.managementClusterOpts ManagementClusterServer.readsAs
      (fun r y => { r with managementClusterOpts := y }) (fun _ _ => rfl) rfl
    (.list "discoverySources" s.discoverySources PluginDiscovery.readsAs
      (fun r y => { r with discoverySources := y }) (fun _ _ => rfl) rfl
      .nil)))))
    (by decide) (by simp [field]) (by simp only [List.append_assoc, List.append_nil])

/-! ## All kinds -/

namespace RecordKind

/-- A record that its tree tells in full. -/
def IsRestorable : (k : RecordKind) → k.Record → Prop
  | context, c => Context.WellFormedMetadata c ∧ Context.HasUntaggedMetadata c
  | _, _ => True

theorem decode_encode {k : RecordKind} {r : k.Record} (hr : k.IsRestorable r) {n : Node}
    (hn : k.encode r = .ok n) : k.decode n = .ok r := by
  cases k with
  | context =>
    cases he : Context.encode r with
    | error kind => rw [encode, he] at hn; cases hn
    | ok tree =>
      rw [encode, he] at hn
      cases hn
      exact (Context.readsAs hr.1 hr.2 he).decode
  | server => cases hn; exact (Server.readsAs r).decode
  | pluginGroup => cases hn; exact (PluginGroup.readsAs r).decode
  | essential => cases hn; exact (Essential.readsAs r).decode
  | corePluginGroup => cases hn; exact (CorePluginGroup.readsAs r).decode
  | discoverySource => cases hn; exact (PluginDiscovery.readsAs r).decode

end RecordKind

/-! ## Records that have a tree -/

/-- No key at any depth of the metadata is a collection. -/
def Context.HasScalarKeys (c : Context) : Prop :=
  ∀ e ∈ c.additionalMetadata, ∀ kind, ¬ e.2.HasCollectionKey kind

theorem hasCollectionKey_dictionary {metadata : Dictionary Value} {kind : NodeKind} :
    (Value.mapping (metadata.map fun (k, v) => (Value.string k, v))).HasCollectionKey kind ↔
      ∃ e ∈ metadata, e.2.HasCollectionKey kind := by
  constructor
  · rintro ⟨entries, hmem, hkey⟩
    rcases parts_dictionary hmem with hself | ⟨k, hk⟩ | ⟨e, he, hpart⟩
    · obtain rfl := Value.mapping.inj hself
      obtain ⟨e, he, hkind⟩ := hkey
      obtain ⟨f, -, rfl⟩ := List.mem_map.1 he
      cases hkind
    · cases hk
    · exact ⟨e, he, entries, hpart, hkey⟩
  · rintro ⟨e, he, hkey⟩
    have hentry : (Value.string e.1, e.2) ∈ metadata.map fun (k, v) => (Value.string k, v) :=
      List.mem_map_of_mem (f := fun (k, v) => (Value.string k, v)) he
    exact hkey.of_parts (Value.parts_entry hentry)

/-- A context has a tree unless a key in its metadata is a collection. -/
theorem Context.exists_encode_iff {c : Context} : (∃ n, c.encode = .ok n) ↔ c.HasScalarKeys := by
  have hmetadata : (∃ m, Context.metadataFields c.additionalMetadata = .ok m) ↔
      c.HasScalarKeys := by
    constructor
    · rintro ⟨m, hm⟩ e he kind hkey
      obtain ⟨kind', herror⟩ :=
        exists_ofValue_eq_error (hasCollectionKey_dictionary.2 ⟨e, he, hkey⟩)
      unfold Context.metadataFields at hm
      split at hm
      · rename_i hnone
        rw [hnone] at he
        cases he
      · rw [herror] at hm
        cases hm
    · intro h
      unfold Context.metadataFields
      split
      · exact ⟨[], rfl⟩
      · split
        · rename_i kind herror
          obtain ⟨e, he, hkey⟩ := hasCollectionKey_dictionary.1 (ofValue_eq_error herror)
          exact absurd hkey (h e he kind)
        · exact ⟨_, rfl⟩
  rw [← hmetadata, Context.encode]
  cases Context.metadataFields c.additionalMetadata with
  | error kind => simp
  | ok m => simp

instance (c : Context) : Decidable c.HasScalarKeys :=
  decidable_of_iff (c.encode.isOk = true) <| by
    rw [← Context.exists_encode_iff]
    cases c.encode <;> simp [Except.isOk, Except.toBool]

instance (c : Context) : Decidable c.HasUntaggedMetadata :=
  inferInstanceAs (Decidable (∀ e ∈ c.additionalMetadata, ∀ w ∈ e.2.parts, w.isTagged = false))

def RecordKind.HasScalarKeys : (k : RecordKind) → k.Record → Prop
  | context, c => Context.HasScalarKeys c
  | _, _ => True

theorem RecordKind.exists_encode_iff {k : RecordKind} {r : k.Record} :
    (∃ n, k.encode r = .ok n) ↔ k.HasScalarKeys r := by
  cases k with
  | context =>
    refine Iff.trans ?_ Context.exists_encode_iff
    rw [encode]
    cases Context.encode r <;> simp
  | _ => exact iff_of_true ⟨_, rfl⟩ trivial

/-- Every record has a tree and is decoded from it as it was, whatever its texts are and whichever
of its parts are there.  Metadata must have no tags and no keys that are collections. -/
theorem records_come_back :
    (∀ (k : RecordKind) (r : k.Record), k.IsRestorable r → k.HasScalarKeys r →
      ∃ n, k.encode r = .ok n ∧ k.decode n = .ok r) ∧
    ∀ a : GlobalServerAuth, a.encode.decode GlobalServerAuth.read = .ok a := by
  refine ⟨fun k r hr hkeys => ?_, fun a => (GlobalServerAuth.readsAs a).decode⟩
  obtain ⟨n, hn⟩ := RecordKind.exists_encode_iff.2 hkeys
  exact ⟨n, hn, RecordKind.decode_encode hr hn⟩

/-- Texts that look like nothing, null, a number and a flag; parts that are there with nothing in
them; and metadata with keys of every sort of scalar. -/
def Context.roundTripSample : Context where
  name := ""
  target := .missionControl
  globalOpts := some ⟨"", some ⟨some "", none, some "null", none, some "1.0", none, some "~"⟩⟩
  clusterOpts := some ⟨"0x10", "", "true", false⟩
  discoverySources := [⟨"", none, some ""⟩, ⟨"1", some "~", none⟩]
  additionalMetadata := [("", .null), ("1", .string "1"),
    ("a", .mapping [(.number (.int 1), .sequence [.number (.float .nan), .string ".nan"]),
      (.string "1", .mapping []), (.bool true, .string ""), (.null, .number (.int (-1)))])]

theorem records_come_back_sample :
    (∃ n, RecordKind.context.encode Context.roundTripSample = .ok n ∧
      RecordKind.context.decode n = .ok Context.roundTripSample) ∧
    (⟨none, some "", none, none, none, none, some "null"⟩ : GlobalServerAuth).encode.decode
      GlobalServerAuth.read = .ok ⟨none, some "", none, none, none, none, some "null"⟩ :=
  ⟨records_come_back.1 .context Context.roundTripSample
      ⟨⟨by decide, by decide +kernel⟩, by decide⟩
      (show Context.HasScalarKeys _ by decide +kernel),
    records_come_back.2 _⟩

end SharedConfig
