import SharedConfig.Proofs.Decoding

/-!
# SharedConfig.Proofs.Decoding.Parts

What the parts of contexts and servers were read from.

A part of a record is what was read from the tree under the key of its field, and where there is
none it is what it starts as (`PartIs`).  So two records have a part in common as soon as the trees
that they were decoded from have the tree of that part in common (`PartIs.unique`), whatever else
is in these trees and in whatever order.

* `Context.parts_of_decode`, `Server.parts_of_decode`: the parts of the two generations.
* `ClusterServer.parts_of_decode`, `ManagementClusterServer.parts_of_decode`: those of the clusters.
* `RecordKind.name_eq_of_decode`, `Context.target_eq_of_decode`: what is in the tree is what is read.
-/

namespace SharedConfig

open Node Yaml

section Parts

variable {ρ σ : Type} {field : ρ → String → Value → Option (Decoding ρ)} {key : String}
  {part : ρ → σ} {readPart : Value → Decoding σ}

/-- A part is what is read from its tree, or what it starts as. -/
def PartIs (readPart : Value → Decoding σ) (initial : σ) (tree : Option Node) (x : σ) : Prop :=
  match tree with
  | some n => ∃ v, n.toValue? = some v ∧ readPart v = .ok x
  | none => x = initial

theorem PartIs.unique {initial x y : σ} {tree : Option Node} (hx : PartIs readPart initial tree x)
    (hy : PartIs readPart initial tree y) : x = y := by
  cases tree with
  | none => exact Eq.trans hx (Eq.symm hy)
  | some n =>
    obtain ⟨v, hv, hreadx⟩ := hx
    obtain ⟨w, hw, hready⟩ := hy
    cases hv.symm.trans hw
    exact Except.ok.inj (hreadx.symm.trans hready)

theorem PartIs.eq_of_read {initial x y : σ} {n : Node} {v : Value}
    (h : PartIs readPart initial (some n) x) (hv : n.toValue? = some v) (hy : readPart v = .ok y) :
    x = y := by
  have hpart : PartIs readPart initial (some n) y := ⟨v, hv, hy⟩
  exact h.unique hpart

theorem PartIs.eq_of_asText {initial x s : String} {v : Node}
    (h : PartIs readText initial (some v) x) (hv : v.asText = some s) : x = s := by
  obtain ⟨t, rfl, -, rfl⟩ := asText_eq_some_iff.1 hv
  obtain ⟨w, hw, hread⟩ := h
  rw [toValue?] at hw
  cases hw
  exact (text_of_toValue (textOf_eq_ok.1 hread)).symm

/-- A field that sets a part to what is read reads that part, if no other field touches it. -/
theorem ReadsPart.of_set (set : ρ → σ → ρ)
    (hset : ∀ r x, field r key x = some (do return set r (← readPart x)))
    (hown : ∀ r y, part (set r y) = y)
    (hother : ∀ name, name ≠ key → ∀ r x r', field r name x = some (.ok r') → part r' = part r) :
    ReadsPart field key part readPart where
  known r x := by
    rw [hset]
    exact Option.some_ne_none _
  own r x r' h := by
    rw [hset] at h
    obtain ⟨y, hy, rfl⟩ := set_eq_ok h
    rw [hown]
    exact hy
  other := hother

theorem readFields_absent (hpart : ReadsPart field key part readPart) {es : List (Value × Value)}
    (hes : ∀ k ∈ es.map Prod.fst, k.untagged ≠ .string key) {r r' : ρ} {seen seen' : List String}
    (h : readFields field es r seen = .ok (r', seen')) : part r' = part r := by
  induction es generalizing r seen with
  | nil =>
    rw [readFields] at h
    cases h
    rfl
  | cons e es ih =>
    obtain ⟨k, x⟩ := e
    obtain ⟨hk, hrest⟩ := List.forall_mem_cons.1 hes
    obtain ⟨name, hname, ⟨-, h⟩ | ⟨r1, hf, -, h⟩⟩ := readFields_cons h
    · exact ih hrest h
    · have hne : name ≠ key := fun he => hk (he ▸ hname)
      rw [ih hrest h, hpart.other name hne r x r1 hf]

theorem keys_of_toEntries? {m : Mapping} {done es : List (Value × Value)}
    (h : toEntries? m done = some es) :
    ∀ k ∈ es.map Prod.fst, k ∈ done.map Prod.fst ∨ ∃ e ∈ m, k = e.1.toValue := by
  induction m generalizing done with
  | nil =>
    cases h
    exact fun k hk => .inl hk
  | cons e m ih =>
    obtain ⟨w, -, hrest⟩ := toEntries?_cons.1 h
    intro k hk
    rcases ih hrest k hk with hk | ⟨e', he', hk⟩
    · rcases mem_keys_of_mem_insert hk with rfl | hk
      · exact .inr ⟨e, List.mem_cons_self, rfl⟩
      · exact .inl hk
    · exact .inr ⟨e', List.mem_cons_of_mem _ he', hk⟩

/-- A part of a record that was decoded from a mapping. -/
theorem part_of_decode (hpart : ReadsPart field key part readPart) {name : String} {initial r : ρ}
    {required : List String} {n : Node} {m : Mapping} (hm : n.asMapping = some m)
    (hkept : n.KeptByText) (h : n.decode (readRecord name initial required field) = .ok r) :
    PartIs readPart (part initial) (n.child? key) (part r) := by
  cases hc : n.child? key with
  | some c => exact decode_part hpart hkept h hc
  | none =>
    obtain ⟨v, hv, hread⟩ := decode_eq_ok h
    obtain ⟨es, seen, hes, hfields, -⟩ := readRecord_eq_ok hread
    obtain ⟨es', huntagged, hentries⟩ := untagged_of_asMapping hm hv
    simp only [Value.entriesOf, huntagged, Except.ok.injEq] at hes
    subst hes
    refine readFields_absent hpart (fun k hk hkey => ?_) hfields
    rcases keys_of_toEntries? hentries k hk with hk | ⟨e, he, rfl⟩
    · cases hk
    · rw [child?_of_asMapping hm, Mapping.get?_eq_none_iff] at hc
      exact hc (text_of_toValue hkey ▸ List.mem_map_of_mem he)

end Parts

section Records

variable {n : Node} {m : Mapping}

structure ClusterServer.PartsAre (n : Node) (r : ClusterServer) : Prop where
  endpoint : PartIs readText "" (n.child? "endpoint") r.endpoint
  path : PartIs readText "" (n.child? "path") r.path
  context : PartIs readText "" (n.child? "context") r.context

theorem ClusterServer.parts_of_decode {r : ClusterServer} (hm : n.asMapping = some m)
    (hkept : n.KeptByText) (h : n.decode ClusterServer.read = .ok r) : r.PartsAre n := by
  refine ⟨part_of_decode (.of_set (fun r y => { r with endpoint := y }) (fun _ _ => rfl)
      (fun _ _ => rfl) ?_) hm hkept h,
    part_of_decode (.of_set (fun r y => { r with path := y }) (fun _ _ => rfl)
      (fun _ _ => rfl) ?_) hm hkept h,
    part_of_decode (.of_set (fun r y => { r with context := y }) (fun _ _ => rfl)
      (fun _ _ => rfl) ?_) hm hkept h⟩
  -- a field leaves alone what it does not set
  all_goals
    intro name hname r x r' hr
    split at hr
    all_goals first
      | exact absurd rfl hname
      | (obtain ⟨y, -, rfl⟩ := set_eq_ok hr; rfl)
      | cases hr

structure ManagementClusterServer.PartsAre (n : Node) (r : ManagementClusterServer) : Prop where
  endpoint : PartIs readText "" (n.child? "endpoint") r.endpoint
  path : PartIs readText "" (n.child? "path") r.path
  context : PartIs readText "" (n.child? "context") r.context

theorem ManagementClusterServer.parts_of_decode {r : ManagementClusterServer}
    (hm : n.asMapping = some m) (hkept : n.KeptByText)
    (h : n.decode ManagementClusterServer.read = .ok r) : r.PartsAre n := by
  refine ⟨part_of_decode (.of_set (fun r y => { r with endpoint := y }) (fun _ _ => rfl)
      (fun _ _ => rfl) ?_) hm hkept h,
    part_of_decode (.of_set (fun r y => { r with path := y }) (fun _ _ => rfl)
      (fun _ _ => rfl) ?_) hm hkept h,
    part_of_decode (.of_set (fun r y => { r with context := y }) (fun _ _ => rfl)
      (fun _ _ => rfl) ?_) hm hkept h⟩
  all_goals
    intro name hname r x r' hr
    split at hr
    all_goals first
      | exact absurd rfl hname
      | (obtain ⟨y, -, rfl⟩ := set_eq_ok hr; rfl)
      | cases hr

/-- What the parts of a context were read from; the metadata is not one of them here. -/
structure Context.PartsAre (n : Node) (r : Context) : Prop where
  name : PartIs readText "" (n.child? "name") r.name
  target : PartIs Target.read .kubernetes (n.child? "target") r.target
  globalOpts : PartIs (readOption GlobalServer.read) none (n.child? "globalOpts") r.globalOpts
  clusterOpts : PartIs (readOption ClusterServer.read) none (n.child? "clusterOpts") r.clusterOpts
  discoverySources :
    PartIs (readList PluginDiscovery.read) [] (n.child? "discoverySources") r.discoverySources

theorem Context.parts_of_decode {r : Context} (hm : n.asMapping = some m)
    (hkept : n.KeptByText) (h : RecordKind.context.decode n = .ok r) : r.PartsAre n := by
  refine ⟨part_of_decode (.of_set (fun r y => { r with name := y }) (fun _ _ => rfl)
      (fun _ _ => rfl) ?_) hm hkept h,
    part_of_decode (.of_set (fun r y => { r with target := y }) (fun _ _ => rfl)
      (fun _ _ => rfl) ?_) hm hkept h,
    part_of_decode (.of_set (fun r y => { r with globalOpts := y }) (fun _ _ => rfl)
      (fun _ _ => rfl) ?_) hm hkept h,
    part_of_decode (.of_set (fun r y => { r with clusterOpts := y }) (fun _ _ => rfl)
      (fun _ _ => rfl) ?_) hm hkept h,
    part_of_decode (.of_set (fun r y => { r with discoverySources := y }) (fun _ _ => rfl)
      (fun _ _ => rfl) ?_) hm hkept h⟩
  all_goals
    intro name hname r x r' hr
    split at hr
    all_goals first
      | exact absurd rfl hname
      | (obtain ⟨y, -, rfl⟩ := set_eq_ok hr; rfl)
      | cases hr

structure Server.PartsAre (n : Node) (r : Server) : Prop where
  name : PartIs readText "" (n.child? "name") r.name
  type : PartIs ServerType.read .managementCluster (n.child? "type") r.type
  globalOpts : PartIs (readOption GlobalServer.read) none (n.child? "globalOpts") r.globalOpts
  managementClusterOpts : PartIs (readOption ManagementClusterServer.read) none
    (n.child? "managementClusterOpts") r.managementClusterOpts
  discoverySources :
    PartIs (readList PluginDiscovery.read) [] (n.child? "discoverySources") r.discoverySources

theorem Server.parts_of_decode {r : Server} (hm : n.asMapping = some m)
    (hkept : n.KeptByText) (h : RecordKind.server.decode n = .ok r) : r.PartsAre n := by
  refine ⟨part_of_decode (.of_set (fun r y => { r with name := y }) (fun _ _ => rfl)
      (fun _ _ => rfl) ?_) hm hkept h,
    part_of_decode (.of_set (fun r y => { r with type := y }) (fun _ _ => rfl)
      (fun _ _ => rfl) ?_) hm hkept h,
    part_of_decode (.of_set (fun r y => { r with globalOpts := y }) (fun _ _ => rfl)
      (fun _ _ => rfl) ?_) hm hkept h,
    part_of_decode (.of_set (fun r y => { r with managementClusterOpts := y }) (fun _ _ => rfl)
      (fun _ _ => rfl) ?_) hm hkept h,
    part_of_decode (.of_set (fun r y => { r with discoverySources := y }) (fun _ _ => rfl)
      (fun _ _ => rfl) ?_) hm hkept h⟩
  all_goals
    intro name hname r x r' hr
    split at hr
    all_goals first
      | exact absurd rfl hname
      | (obtain ⟨y, -, rfl⟩ := set_eq_ok hr; rfl)
      | cases hr

/-- Every record has a name, which is read from a field that must be there. -/
theorem RecordKind.readsPart_name (k : RecordKind) : ∃ (record : String) (initial : k.Record)
    (field : k.Record → String → Value → Option (Decoding k.Record)),
    k.read = readRecord record initial ["name"] field ∧
      ReadsPart field "name" k.recordName readText := by
  cases k
  all_goals
    refine ⟨_, _, _, rfl, .of_set (fun r y => { r with name := y }) (fun _ _ => rfl)
      (fun _ _ => rfl) ?_⟩
    -- no other field sets the name
    intro name hname r x r' hr
    split at hr
    all_goals first
      | exact absurd rfl hname
      | (obtain ⟨y, -, rfl⟩ := set_eq_ok hr; rfl)
      | cases hr

theorem RecordKind.name_eq_of_decode {k : RecordKind} {r : k.Record} (hkept : n.KeptByText)
    (h : k.decode n = .ok r) {name : String} (he : n.entityName = some name) :
    k.recordName r = name := by
  obtain ⟨record, initial, field, hread, hpart⟩ := k.readsPart_name
  rw [RecordKind.decode, hread] at h
  obtain ⟨⟨c, hc, htext⟩, -⟩ := entityName_eq_some_iff.1 he
  have hname : PartIs readText "" (some c) (k.recordName r) := decode_part hpart hkept h hc
  exact hname.eq_of_asText htext

theorem Context.name_eq_of_decode {c : Context} (hkept : n.KeptByText)
    (h : RecordKind.context.decode n = .ok c) {name : String} (he : n.entityName = some name) :
    c.name = name :=
  RecordKind.name_eq_of_decode hkept h he

theorem Server.name_eq_of_decode {s : Server} (hkept : n.KeptByText)
    (h : RecordKind.server.decode n = .ok s) {name : String} (he : n.entityName = some name) :
    s.name = name :=
  RecordKind.name_eq_of_decode hkept h he

/-- A context that was decoded is for the target whose name is under its key, tagged or not. -/
theorem Context.target_eq_of_decode {v : Node} {c : Context} {t : Target} (hkept : n.KeptByText)
    (h : RecordKind.context.decode n = .ok c) (hv : n.child? "target" = some v)
    (ht : v.core = .string t.name) : c.target = t := by
  obtain ⟨m, hm⟩ := exists_asMapping_of_child? hv
  have htarget := (Context.parts_of_decode hm hkept h).target
  rw [hv] at htarget
  obtain ⟨x, hx, hread⟩ := htarget
  obtain ⟨w, hw, hword⟩ := Target.read_eq_ok hread
  cases v with
  | scalar s =>
    cases ht
    rw [toValue?] at hx
    cases hx
    have hvariant : w = t.name := by
      simp only [Scalar.toValue, Scalar.string, Scalar.untaggedValue, Value.variantOf] at hw
      split at hw
      · exact (Except.ok.inj hw).symm
      · cases hw
    rw [hvariant, Target.ofWord?_name] at hword
    exact (Option.some.inj hword).symm
  | sequence items => cases ht
  | mapping m => cases ht
  | tagged tag u =>
    obtain ⟨y, hy, rfl⟩ := toValue?_tagged hx
    exact absurd hw (variantOf_tagged_ne_ok (untagged_of_core (n := u) ht hy))

end Records

end SharedConfig
