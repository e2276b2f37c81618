import SharedConfig.Proofs.Encoding
import SharedConfig.Proofs.Form.Reading

/-!
# SharedConfig.Proofs.Form.Records

The forms of contexts and servers: their trees have them as they are encoded, and can be read.

What an encoder writes is a part of its fields, in their order (`Encodes`), so it has the form of a
record as soon as each field has its own.  Only the metadata of a context comes from outside; it has
its form if no value in it is tagged.

* `Context.holds_encode`, `Server.holds_encode`: what is encoded has the form.
* `Context.reads`, `Server.reads`: what has the form can be read.
-/

namespace SharedConfig

open Node Yaml

/-! ## What encoders write -/

/-- Some of the fields, in their order, each with a tree of its form. -/
inductive Encodes : List (String × Form) → Mapping → Prop where
  | nil : Encodes [] []
  | skip {key : String} {f : Form} {fields : List (String × Form)} {m : Mapping} :
      Encodes fields m → Encodes ((key, f) :: fields) m
  | field {key : String} {f : Form} {fields : List (String × Form)} {m : Mapping} {n : Node} :
      f.Holds n → Encodes fields m → Encodes ((key, f) :: fields) (field key n ++ m)

namespace Encodes

variable {key : String} {f : Form} {fields : List (String × Form)} {m : Mapping}

theorem textField (s : String) (h : Encodes fields m) :
    Encodes ((key, .text) :: fields) (textField key s ++ m) := by
  unfold SharedConfig.textField
  split
  · exact .skip h
  · exact .field ⟨_, rfl, s, rfl⟩ h

theorem optionField {ρ : Type} {encode : ρ → Node} (hencode : ∀ r, f.Holds (encode r))
    (o : Option ρ) (h : Encodes fields m) :
    Encodes ((key, f) :: fields) (optionField key encode o ++ m) := by
  cases o with
  | none => exact .skip h
  | some r => exact .field (hencode r) h

theorem listField {ρ : Type} {encode : ρ → Node} (hencode : ∀ r, f.Holds (encode r)) (l : List ρ)
    (h : Encodes fields m) : Encodes ((key, .list f) :: fields) (listField key encode l ++ m) := by
  cases l with
  | nil => exact .skip h
  | cons r rs =>
    refine .field ⟨_, rfl, fun x hx => ?_⟩ h
    obtain ⟨s, -, rfl⟩ := List.mem_map.1 hx
    exact hencode s

theorem keys_sublist (h : Encodes fields m) : m.keys.Sublist (fields.map Prod.fst) := by
  induction h with
  | nil => exact .slnil
  | skip _ ih => exact ih.cons _
  | field _ _ ih => exact ih.cons_cons _

theorem lookup_of_tail {other : String} {g : Form} (hkey : key ∉ fields.map Prod.fst)
    (hg : fields.lookup other = some g) : List.lookup other ((key, f) :: fields) = some g := by
  have hmem : other ∈ fields.map Prod.fst := List.mem_map.2 ⟨(other, g), mem_of_lookup hg, rfl⟩
  have hne : (other == key) = false := beq_eq_false_iff_ne.2 fun h => hkey (h ▸ hmem)
  rw [List.lookup_cons, hne]
  exact hg

theorem entriesAre (h : Encodes fields m) (hd : (fields.map Prod.fst).Nodup) :
    EntriesAre (fun key v => ∃ f, fields.lookup key = some f ∧ f.Holds v) m := by
  induction h with
  | nil => exact List.forall_mem_nil _
  | skip _ ih =>
    obtain ⟨hkey, hd⟩ := List.nodup_cons.1 hd
    intro e he
    obtain ⟨htext, g, hg, hv⟩ := ih hd e he
    exact ⟨htext, g, lookup_of_tail hkey hg, hv⟩
  | @field key f fields m n hn _ ih =>
    obtain ⟨hkey, hd⟩ := List.nodup_cons.1 hd
    refine List.forall_mem_cons.2 ⟨⟨rfl, f, List.lookup_cons_self, hn⟩, fun e he => ?_⟩
    obtain ⟨htext, g, hg, hv⟩ := ih hd e he
    exact ⟨htext, g, lookup_of_tail hkey hg, hv⟩

theorem holds (h : Encodes fields m) (hd : (fields.map Prod.fst).Nodup) {required : List String}
    (hrequired : ∀ key ∈ required, key ∈ m.keys) :
    (Form.record fields required).Holds (.mapping m) := by
  refine ⟨?_, m, rfl, hrequired, h.entriesAre hd⟩
  intro m' hm'
  cases hm'
  exact hd.sublist h.keys_sublist

end Encodes

/-! ## Scalars -/

theorem holds_text (s : String) : Form.text.Holds (.string s) := ⟨_, rfl, s, rfl⟩

theorem holds_flag (b : Bool) : Form.flag.Holds (boolNode b) := ⟨b, rfl⟩

theorem reads_text : Reads .text readText := by
  rintro _ ⟨_, rfl, t, rfl⟩
  exact ⟨.string t, rfl, by simp, t, rfl⟩

theorem reads_flag : Reads .flag (Source.bool (m := Decoding)) := by
  rintro _ ⟨b, rfl⟩
  refine ⟨.bool b, ?_, by simp, b, rfl⟩
  cases b <;> rfl

def Target.form : Form := .scalar fun s => ∃ t : Target, s = .string t.name

def ServerType.form : Form := .scalar fun s => ∃ t : ServerType, s = .string t.name

theorem Target.holds_name (t : Target) : Target.form.Holds (.string t.name) := ⟨_, rfl, t, rfl⟩

theorem ServerType.holds_name (t : ServerType) : ServerType.form.Holds (.string t.name) :=
  ⟨_, rfl, t, rfl⟩

theorem Target.read_name (t : Target) :
    (Target.read (Value.string t.name) : Decoding Target) = .ok t := by
  cases t <;> rfl

theorem ServerType.read_name (t : ServerType) :
    (ServerType.read (Value.string t.name) : Decoding ServerType) = .ok t := by
  cases t <;> rfl

theorem Target.reads : Reads Target.form Target.read := by
  rintro _ ⟨_, rfl, t, rfl⟩
  exact ⟨.string t.name, rfl, by simp, t, t.read_name⟩

theorem ServerType.reads : Reads ServerType.form ServerType.read := by
  rintro _ ⟨_, rfl, t, rfl⟩
  exact ⟨.string t.name, rfl, by simp, t, t.read_name⟩

/-! ## Clusters and endpoints -/

def ClusterServer.form : Form :=
  .record [("endpoint", .text), ("path", .text), ("context", .text),
    ("isManagementCluster", .flag)] []

theorem ClusterServer.holds_encode (c : ClusterServer) : ClusterServer.form.Holds c.encode := by
  refine Encodes.holds ?_ (by decide) (List.forall_mem_nil _)
  simpa only [List.append_assoc, List.append_nil] using
    Encodes.textField c.endpoint (.textField c.path (.textField c.context
      (.field (holds_flag c.isManagementCluster) .nil)))

theorem ClusterServer.reads : Reads ClusterServer.form ClusterServer.read := by
  refine reads_record ?_ _ _ _
  refine List.forall_mem_cons.2 ⟨?_, List.forall_mem_cons.2 ⟨?_, List.forall_mem_cons.2 ⟨?_,
    List.forall_mem_singleton.2 ?_⟩⟩⟩
  · exact reads_text.field (fun r y => { r with endpoint := y }) fun _ _ => rfl
  · exact reads_text.field (fun r y => { r with path := y }) fun _ _ => rfl
  · exact reads_text.field (fun r y => { r with context := y }) fun _ _ => rfl
  · exact reads_flag.field (fun r y => { r with isManagementCluster := y }) fun _ _ => rfl

def ManagementClusterServer.form : Form :=
  .record [("endpoint", .text), ("path", .text), ("context", .text)] []

theorem ManagementClusterServer.holds_encode (s : ManagementClusterServer) :
    ManagementClusterServer.form.Holds s.encode := by
  refine Encodes.holds ?_ (by decide) (List.forall_mem_nil _)
  simpa only [List.append_assoc, List.append_nil] using
    Encodes.textField s.endpoint (.textField s.path (.textField s.context .nil))

theorem ManagementClusterServer.reads :
    Reads ManagementClusterServer.form ManagementClusterServer.read := by
  refine reads_record ?_ _ _ _
  refine List.forall_mem_cons.2 ⟨?_, List.forall_mem_cons.2 ⟨?_, List.forall_mem_singleton.2 ?_⟩⟩
  · exact reads_text.field (fun r y => { r with endpoint := y }) fun _ _ => rfl
  · exact reads_text.field (fun r y => { r with path := y }) fun _ _ => rfl
  · exact reads_text.field (fun r y => { r with context := y }) fun _ _ => rfl

def GlobalServerAuth.form : Form :=
  .record [("issuer", .text), ("userName", .text), ("accessToken", .text), ("idToken", .text),
    ("refreshToken", .text), ("expiration", .text), ("type", .text)] []

theorem GlobalServerAuth.holds_encode (a : GlobalServerAuth) :
    GlobalServerAuth.form.Holds a.encode := by
  refine Encodes.holds ?_ (by decide) (List.forall_mem_nil _)
  simpa only [List.append_assoc, List.append_nil] using
    Encodes.optionField holds_text a.issuer (.optionField holds_text a.userName
      (.optionField holds_text a.accessToken (.optionField holds_text a.idToken
      (.optionField holds_text a.refreshToken (.optionField holds_text a.expiration
      (.optionField holds_text a.authType .nil))))))

theorem GlobalServerAuth.reads : Reads GlobalServerAuth.form GlobalServerAuth.read := by
  refine reads_record ?_ _ _ _
  refine List.forall_mem_cons.2 ⟨?_, List.forall_mem_cons.2 ⟨?_, List.forall_mem_cons.2 ⟨?_,
    List.forall_mem_cons.2 ⟨?_, List.forall_mem_cons.2 ⟨?_, List.forall_mem_cons.2 ⟨?_,
    List.forall_mem_singleton.2 ?_⟩⟩⟩⟩⟩⟩
  · exact reads_text.option.field (fun r y => { r with issuer := y }) fun _ _ => rfl
  · exact reads_text.option.field (fun r y => { r with userName := y }) fun _ _ => rfl
  · exact reads_text.option.field (fun r y => { r with accessToken := y }) fun _ _ => rfl
  · exact reads_text.option.field (fun r y => { r with idToken := y }) fun _ _ => rfl
  · exact reads_text.option.field (fun r y => { r with refreshToken := y }) fun _ _ => rfl
  · exact reads_text.option.field (fun r y => { r with expiration := y }) fun _ _ => rfl
  · exact reads_text.option.field (fun r y => { r with authType := y }) fun _ _ => rfl

def GlobalServer.form : Form := .record [("endpoint", .text), ("auth", GlobalServerAuth.form)] []

theorem GlobalServer.holds_encode (g : GlobalServer) : GlobalServer.form.Holds g.encode := by
  refine Encodes.holds ?_ (by simp) (List.forall_mem_nil _)
  simpa only [List.append_assoc, List.append_nil] using
    Encodes.textField g.endpoint (.optionField GlobalServerAuth.holds_encode g.auth .nil)

theorem GlobalServer.reads : Reads GlobalServer.form GlobalServer.read := by
  refine reads_record ?_ _ _ _
  refine List.forall_mem_cons.2 ⟨?_, List.forall_mem_singleton.2 ?_⟩
  · exact reads_text.field (fun r y => { r with endpoint := y }) fun _ _ => rfl
  · exact GlobalServerAuth.reads.option.field (fun r y => { r with auth := y }) fun _ _ => rfl

/-! ## Sources of plugins -/

def Form.single (key : String) : Form := .record [(key, .text)] [key]

theorem Form.single_holds (key s : String) :
    (Form.single key).Holds (.mapping (SharedConfig.field key (.string s))) := by
  have h : Encodes [(key, .text)] (field key (.string s) ++ []) := .field (holds_text s) .nil
  exact h.holds (by simp) (by simp [SharedConfig.field])

theorem reads_single (record key : String) :
    Reads (.single key) (PluginDiscovery.readSingle record key) := by
  refine reads_record (List.forall_mem_singleton.2 ?_) _ _ _
  rintro _ ⟨_, rfl, t, rfl⟩
  exact ⟨.string t, rfl, fun _ => ⟨t, (if_pos rfl).trans rfl⟩⟩

def PluginDiscovery.form : Form :=
  .record [("name", .text), ("oci", .single "image"), ("local", .single "path")] ["name"]

theorem PluginDiscovery.holds_encode (d : PluginDiscovery) :
    PluginDiscovery.form.Holds d.encode := by
  refine Encodes.holds ?_ (by simp) (by simp [SharedConfig.field])
  simpa only [List.append_assoc, List.append_nil] using
    Encodes.field (holds_text d.name) (.optionField (Form.single_holds "image") d.oci
      (.optionField (Form.single_holds "path") d.local .nil))

theorem PluginDiscovery.reads : Reads PluginDiscovery.form PluginDiscovery.read := by
  refine reads_record ?_ _ _ _
  refine List.forall_mem_cons.2 ⟨?_, List.forall_mem_cons.2 ⟨?_, List.forall_mem_singleton.2 ?_⟩⟩
  · exact reads_text.field (fun r y => { r with name := y }) fun _ _ => rfl
  · exact (reads_single _ _).option.field (fun r y => { r with oci := y }) fun _ _ => rfl
  · exact (reads_single _ _).option.field (fun r y => { r with «local» := y }) fun _ _ => rfl

/-! ## Metadata -/

mutual

/-- Whether no value has a tag; keys may have one. -/
def Yaml.Value.isBare : Value → Bool
  | .sequence items => areBare items
  | .mapping es => haveBare es
  | .tagged _ _ => false
  | _ => true

def Yaml.Value.areBare : List Value → Bool
  | [] => true
  | v :: vs => v.isBare && areBare vs

def Yaml.Value.haveBare : List (Value × Value) → Bool
  | [] => true
  | (_, v) :: es => v.isBare && haveBare es

end

theorem ofEntries_cons_eq_ok {k v : Value} {es : List (Value × Value)} {m : Mapping}
    (h : ofEntries ((k, v) :: es) = .ok m) :
    ∃ key n rest, ofValue k = .ok (.scalar key) ∧ ofValue v = .ok n ∧ ofEntries es = .ok rest ∧
      m = (key, n) :: rest := by
  rw [ofEntries] at h
  rcases hk : ofValue k with kind | (key | items | entries | ⟨t, n⟩)
  · rw [hk] at h; cases h
  · rw [hk] at h
    dsimp only at h
    cases hn : ofValue v with
    | error kind => rw [hn] at h; cases h
    | ok n =>
      cases hrest : ofEntries es with
      | error kind => rw [hn, hrest] at h; cases h
      | ok rest =>
        rw [hn, hrest] at h
        cases h
        exact ⟨key, n, rest, rfl, rfl, rfl, rfl⟩
  all_goals rw [hk] at h; cases h

mutual

theorem all_isBare_ofValue (v : Value) {n : Node} (hv : v.isBare = true) (h : ofValue v = .ok n) :
    n.all Node.isBare = true := by
  cases v with
  | tagged t v => cases hv
  | sequence items =>
    rw [ofValue] at h
    cases hi : ofItems items with
    | error k => rw [hi] at h; cases h
    | ok ns =>
      rw [hi] at h
      cases h
      exact allItems_isBare_ofItems items hv hi
  | mapping es =>
    rw [ofValue] at h
    cases he : ofEntries es with
    | error k => rw [he] at h; cases h
    | ok m =>
      rw [he] at h
      cases h
      exact allEntries_isBare_ofEntries es hv he
  | number x => cases x <;> (cases h; rfl)
  | _ => cases h; rfl

theorem allItems_isBare_ofItems (vs : List Value) {ns : List Node} (hv : Value.areBare vs = true)
    (h : ofItems vs = .ok ns) : allItems Node.isBare ns = true := by
  cases vs with
  | nil => cases h; rfl
  | cons v vs =>
    simp only [Value.areBare, Bool.and_eq_true] at hv
    rw [ofItems] at h
    cases hn : ofValue v with
    | error k => rw [hn] at h; cases h
    | ok n =>
      cases hns : ofItems vs with
      | error k => rw [hn, hns] at h; cases h
      | ok ns' =>
        rw [hn, hns] at h
        cases h
        rw [allItems, all_isBare_ofValue v hv.1 hn, allItems_isBare_ofItems vs hv.2 hns]
        rfl

theorem allEntries_isBare_ofEntries (es : List (Value × Value)) {m : Mapping}
    (hv : Value.haveBare es = true) (h : ofEntries es = .ok m) :
    allEntries Node.isBare m = true := by
  cases es with
  | nil => cases h; rfl
  | cons e es =>
    obtain ⟨k, v⟩ := e
    simp only [Value.haveBare, Bool.and_eq_true] at hv
    obtain ⟨key, n, rest, -, hn, hrest, rfl⟩ := ofEntries_cons_eq_ok h
    rw [allEntries, all_isBare_ofValue v hv.1 hn, allEntries_isBare_ofEntries es hv.2 hrest]
    rfl

end

/-- The metadata of a context has no tagged values. -/
def Context.HasBareMetadata (c : Context) : Prop := ∀ e ∈ c.additionalMetadata, e.2.isBare = true

theorem entriesAre_ofEntries {metadata : Dictionary Value} (hv : ∀ e ∈ metadata, e.2.isBare = true)
    {m : Mapping} (h : ofEntries (metadata.map fun (k, v) => (.string k, v)) = .ok m) :
    EntriesAre (fun _ => Form.bare.Holds) m := by
  induction metadata generalizing m with
  | nil => cases h; exact List.forall_mem_nil _
  | cons e metadata ih =>
    obtain ⟨hbare, hrest⟩ := List.forall_mem_cons.1 hv
    obtain ⟨key, n, rest, hkey, hn, hes, rfl⟩ := ofEntries_cons_eq_ok h
    cases hkey
    exact List.forall_mem_cons.2 ⟨⟨rfl, all_isBare_ofValue e.2 hbare hn⟩, ih hrest hes⟩

theorem Encodes.metadataFields {metadata : Dictionary Value}
    (hv : ∀ e ∈ metadata, e.2.isBare = true) {m : Mapping}
    (h : Context.metadataFields metadata = .ok m) :
    Encodes [("additionalMetadata", .dictionary .bare)] m := by
  cases metadata with
  | nil => cases h; exact .skip .nil
  | cons e metadata =>
    rw [Context.metadataFields] at h
    · rw [ofValue] at h
      cases hm : ofEntries ((e :: metadata).map fun (k, v) => (.string k, v)) with
      | error kind => rw [hm] at h; cases h
      | ok entries =>
        rw [hm] at h
        cases h
        exact .field ⟨entries, rfl, List.forall_mem_nil _, entriesAre_ofEntries hv hm⟩ .nil
    · exact List.cons_ne_nil _ _

/-! ## Contexts and servers -/

def Context.form : Form :=
  .record [("name", .text), ("target", Target.form), ("globalOpts", GlobalServer.form),
    ("clusterOpts", ClusterServer.form), ("discoverySources", .list PluginDiscovery.form),
    ("additionalMetadata", .dictionary .bare)] ["name"]

theorem Context.holds_encode {c : Context} (hc : c.HasBareMetadata) {tree : Node}
    (h : c.encode = .ok tree) : Context.form.Holds tree := by
  unfold Context.encode at h
  cases hm : Context.metadataFields c.additionalMetadata with
  | error kind => rw [hm] at h; cases h
  | ok metadata =>
    rw [hm] at h
    cases h
    refine Encodes.holds ?_ (by simp) (by simp [SharedConfig.field])
    simpa only [List.append_assoc, List.append_nil] using
      Encodes.field (holds_text c.name) (.field c.target.holds_name
        (.optionField GlobalServer.holds_encode c.globalOpts
        (.optionField ClusterServer.holds_encode c.clusterOpts
        (.listField PluginDiscovery.holds_encode c.discoverySources (.metadataFields hc hm)))))

theorem Context.reads : Reads Context.form Context.read := by
  refine reads_record ?_ _ _ _
  refine List.forall_mem_cons.2 ⟨?_, List.forall_mem_cons.2 ⟨?_, List.forall_mem_cons.2 ⟨?_,
    List.forall_mem_cons.2 ⟨?_, List.forall_mem_cons.2 ⟨?_, List.forall_mem_singleton.2 ?_⟩⟩⟩⟩⟩
  · exact reads_text.field (fun r y => { r with name := y }) fun _ _ => rfl
  · exact Target.reads.field (fun r y => { r with target := y }) fun _ _ => rfl
  · exact GlobalServer.reads.option.field (fun r y => { r with globalOpts := y }) fun _ _ => rfl
  · exact ClusterServer.reads.option.field (fun r y => { r with clusterOpts := y }) fun _ _ => rfl
  · exact PluginDiscovery.reads.list.field
      (fun r y => { r with discoverySources := y }) fun _ _ => rfl
  · exact reads_dictionary.field (fun r y => { r with additionalMetadata := y }) fun _ _ => rfl

def Server.form : Form :=
  .record [("name", .text), ("type", ServerType.form), ("globalOpts", GlobalServer.form),
    ("managementClusterOpts", ManagementClusterServer.form),
    ("discoverySources", .list PluginDiscovery.form)] ["name"]

theorem Server.holds_encode (s : Server) : Server.form.Holds s.encode := by
  refine Encodes.holds ?_ (by simp) (by simp [SharedConfig.field])
  simpa only [List.append_assoc, List.append_nil] using
    Encodes.field (holds_text s.name) (.field s.type.holds_name
      (.optionField GlobalServer.holds_encode s.globalOpts
      (.optionField ManagementClusterServer.holds_encode s.managementClusterOpts
      (.listField PluginDiscovery.holds_encode s.discoverySources .nil))))

theorem Server.reads : Reads Server.form Server.read := by
  refine reads_record ?_ _ _ _
  refine List.forall_mem_cons.2 ⟨?_, List.forall_mem_cons.2 ⟨?_, List.forall_mem_cons.2 ⟨?_,
    List.forall_mem_cons.2 ⟨?_, List.forall_mem_singleton.2 ?_⟩⟩⟩⟩
  · exact reads_text.field (fun r y => { r with name := y }) fun _ _ => rfl
  · exact ServerType.reads.field (fun r y => { r with type := y }) fun _ _ => rfl
  · exact GlobalServer.reads.option.field (fun r y => { r with globalOpts := y }) fun _ _ => rfl
  · exact ManagementClusterServer.reads.option.field
      (fun r y => { r with managementClusterOpts := y }) fun _ _ => rfl
  · exact PluginDiscovery.reads.list.field
      (fun r y => { r with discoverySources := y }) fun _ _ => rfl

end SharedConfig
