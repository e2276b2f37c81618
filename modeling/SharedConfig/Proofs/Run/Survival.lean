import SharedConfig.Proofs.Collection.Others
import SharedConfig.Proofs.Run

/-!
# SharedConfig.Proofs.Run.Survival

What every operation leaves alone: the entries of a document that are not the store's (`Node.foreign`),
and in each collection the items whose names it neither writes nor removes.

The keys of a document are looked up by their texts and the first one counts.  Dropping a feature may
empty the client options, and then drops them too; where their key stands twice, the second entry
comes to light (`second_options_come_to_light`).  No other operation drops a key that collections are
under.

* `Spared`: what survives, composed from step to step.
* `Mutation.run_spares`, `deleteFeature_optionsKept`: one operation.
* `unrelated_survives`: the law for every operation that succeeds.
-/

namespace SharedConfig

open Node

/-- The keys of a document that the store writes under. -/
def ownKeys : List String :=
  ["contexts", "servers", "currentContext", "currentServer", "clientOptions"]

namespace Node

/-- The entries of a document that are not the store's. -/
def foreign (n : Node) : Mapping :=
  (n.asMapping.getD []).filter fun e => decide (e.1.text ∉ ownKeys)

theorem foreign_eq {key : String} (hkey : key ∈ ownKeys) (n : Node) :
    n.foreign = (n.entriesExcept key).filter fun e => decide (e.1.text ∉ ownKeys) := by
  rw [foreign, entriesExcept, List.filter_filter]
  refine List.filter_congr fun e _ => ?_
  by_cases he : e.1.text = key
  · simp [he, hkey]
  · simp [he]

theorem OnlyUnder.foreign {key : String} {a b : Node} (h : OnlyUnder key a b)
    (hkey : key ∈ ownKeys) : b.foreign = a.foreign := by
  rw [foreign_eq hkey, foreign_eq hkey, h.entries]

end Node

theorem RecordKind.topKey_mem_ownKeys (k : RecordKind) : k.topKey ∈ ownKeys := by
  cases k <;> decide

theorem Selection.topKey_mem_ownKeys (sel : Selection) : sel.topKey ∈ ownKeys := by
  cases sel <;> simp [topKey, ownKeys]

/-! ## What is written and removed -/

/-- The names that a change writes or removes in the collection of a kind. -/
def Change.touched (k : RecordKind) : Change → List String
  | upsertContext c => if k = .context then [c.name] else []
  | upsertServer s => if k = .server then [s.name] else []
  | removeContext name _ => if k = .context then [name] else []
  | removeServer name _ => if k = .server then [name] else []
  | _ => []

namespace Mutation

def changes : Mutation → ChangeSet
  | apply cs => cs
  | setContext c current => .setContext c current
  | removeContext name => .removeContext name
  | setServer s current => .setServer s current
  | removeServer name => .removeServer name
  | setCurrentContext name => [.setCurrentContext name]
  | removeCurrentContext t => [.clearCurrentTarget t]
  | setCurrentServer name => [.setCurrentServer name]
  | removeCurrentServer name => [.clearCurrentServer name, .clearCurrentContext name]
  | _ => []

def touched (k : RecordKind) : Mutation → List String
  | set k' r => if k = k'.val then [k'.val.recordName r] else []
  | delete k' name => if k = k'.val then [name] else []
  | m => m.changes.flatMap (Change.touched k)

def deletesFeature : Mutation → Bool
  | deleteFeature .. => true
  | _ => false

theorem run_of_not_isOption {m : Mutation} (h : m.isOption = false) :
    m.run = ofChanges m.changes := by
  cases m <;> first | rfl | cases h

theorem touched_of_not_isOption {m : Mutation} (h : m.isOption = false) (k : RecordKind) :
    m.touched k = m.changes.flatMap (Change.touched k) := by
  cases m <;> first | rfl | cases h

end Mutation

/-! ## What survives -/

/-- What a change of the entities of some names leaves alone. -/
structure Spared (touched : RecordKind → List String) (before after : Node) : Prop where
  foreign : after.foreign = before.foreign
  others : ∀ k : RecordKind,
    Entity.others (touched k) (k.items after) = Entity.others (touched k) (k.items before)

namespace Spared

variable {touched : RecordKind → List String} {a b c : Node}

theorem refl (touched : RecordKind → List String) (a : Node) : Spared touched a a :=
  ⟨rfl, fun _ => rfl⟩

theorem trans (h : Spared touched a b) (h' : Spared touched b c) : Spared touched a c :=
  ⟨h'.foreign.trans h.foreign, fun k => (h'.others k).trans (h.others k)⟩

theorem of_collections {key : String} (h : OnlyUnder key a b) (hkey : key ∈ ownKeys)
    (hcollection : ∀ k, b.collection k = a.collection k) : Spared touched a b where
  foreign := h.foreign hkey
  others k := by rw [RecordKind.items_of_collection (hcollection k)]

theorem of_onlyEntity {k : RecordKind} {name : String} (h : OnlyEntity k name a b)
    (hname : name ∈ touched k) : Spared touched a b where
  foreign := h.frame.foreign k.topKey_mem_ownKeys
  others k' := by
    by_cases hk : k' = k
    · subst hk
      have hsub : ∀ other ∈ [name], other ∈ touched k' := by simpa using hname
      rw [← Entity.others_others hsub, h.items, Entity.others_others hsub]
    · rw [RecordKind.items_of_collection (h.collection k' hk)]

theorem of_onlySelection {sel : Selection} (h : OnlySelection sel a b) : Spared touched a b :=
  of_collections h.frame sel.topKey_mem_ownKeys h.collection

end Spared

/-! ## Changes -/

section Changes

open SharedConfig.Action

variable {touched : RecordKind → List String} {before : Node} {k : RecordKind}

theorem upsert_spares {r : k.Record} (h : k.recordName r ∈ touched k) :
    Keeps (Spared touched before) (Action.upsert k r) :=
  fun _ _ _ hrun hbefore => hbefore.trans (.of_onlyEntity (upsert_onlyEntity hrun) h)

theorem removeRecord_spares {name : String} (h : name ∈ touched k) (required : Bool) :
    Keeps (Spared touched before) (Action.removeRecord k name required) :=
  removeRecord_keeps
    (fun n hn => hn.trans (.of_onlyEntity (removeNamed_onlyEntity k name n) h)) required

/-- The steps that changes take besides updates and removals are on selections. -/
theorem spared_of_steps {table : StrategyTable} {cs : ChangeSet} {a b : Node}
    (h : Steps table (.apply cs) a b) : Spared touched a b := by
  refine h.keeps (fun hstep hspared => ?_) (.refl touched a)
  cases hstep with
  | options hoption _ => cases hoption
  | select _ honly _ => exact hspared.trans (.of_onlySelection honly)
  | unselect => exact hspared.trans (.of_onlySelection (dropSelection_onlySelection _ _))

theorem spares_of_steps {a : Action Bool}
    (h : ∀ root, Keeps (Steps .empty (.apply []) root) a) : Keeps (Spared touched before) a :=
  fun s x s' hrun hbefore => hbefore.trans (spared_of_steps (h s.root s x s' hrun .refl))

theorem Change.run_spares {c : Change} (h : ∀ k, ∀ name ∈ c.touched k, name ∈ touched k) :
    Keeps (Spared touched before) c.run := by
  cases c with
  | upsertContext c => exact upsert_spares (h .context c.name (List.mem_singleton_self _))
  | upsertServer s => exact upsert_spares (h .server s.name (List.mem_singleton_self _))
  | removeContext name required =>
    exact removeRecord_spares (h .context name (List.mem_singleton_self _)) required
  | removeServer name required =>
    exact removeRecord_spares (h .server name (List.mem_singleton_self _)) required
  | setCurrentContext name => exact spares_of_steps fun _ => setCurrentContext_steps name
  | setCurrentServer name => exact spares_of_steps fun _ => setCurrentServer_steps name
  | clearCurrentContext name => exact spares_of_steps fun _ => clearCurrentContext_steps name
  | clearCurrentTarget t => exact spares_of_steps fun _ => clearCurrentTarget_steps t
  | clearCurrentServer name => exact spares_of_steps fun _ => clearCurrentServer_steps name

theorem ChangeSet.run_spares (cs : ChangeSet) :
    Keeps (Spared (fun k => cs.flatMap (Change.touched k)) before) cs.run :=
  ChangeSet.run_keeps fun c hc => Change.run_spares fun _ _ hname => List.mem_flatMap.2 ⟨c, hc, hname⟩

end Changes

/-! ## Client options -/

namespace Node

def keyCount (key : String) (n : Node) : Nat := (Mapping.keys (n.asMapping.getD [])).count key

variable {β : Type} {n : Node} {key : String}

theorem keyCount_of_asMapping {m : Mapping} (h : n.asMapping = some m) :
    n.keyCount key = m.keys.count key := by
  rw [keyCount, h, Option.getD_some]

theorem keyCount_editAt {edit : Node → Node × β} {path : KeyPath} (hpath : path ≠ []) :
    (editAt false edit path n).1.keyCount key = n.keyCount key := by
  cases path with
  | nil => exact absurd rfl hpath
  | cons s rest =>
    rcases editAt_cons_cases false edit s rest n with ⟨he, -⟩ | ⟨m, c, hm, hc, he⟩
    · rw [he]
    · rcases editedChild_eq_some hc with ⟨hget, -⟩ | ⟨hcreate, -⟩
      · have hmem : (Scalar.string s.name).text ∈ m.keys := Mapping.mem_keys_of_get? hget
        rw [he, keyCount_of_asMapping (asMapping_setCore _ _), keyCount_of_asMapping hm,
          Mapping.keys_insert_of_mem m _ _ hmem]
      · cases hcreate

theorem keyCount_dropKey_le (other : String) :
    (dropKey other n).1.keyCount key ≤ n.keyCount key := by
  unfold dropKey
  cases hm : n.asMapping with
  | none => exact Nat.le_refl _
  | some m =>
    dsimp only
    rw [keyCount_of_asMapping (asMapping_setCore _ _), keyCount_of_asMapping hm]
    exact ((Mapping.erase_sublist m other).map _).count_le key

theorem child?_dropKey (h : n.keyCount key ≤ 1) : (dropKey key n).1.child? key = none := by
  unfold dropKey
  cases hm : n.asMapping with
  | none => simp [child?, hm]
  | some m =>
    rw [keyCount_of_asMapping hm] at h
    dsimp only
    rw [child?_setCore, Mapping.get?_erase_of_count h]

theorem child?_of_isEmptyValue (h : n.isEmptyValue = true) (key : String) :
    n.child? key = none := by
  cases n with
  | mapping m =>
    obtain rfl : m = [] := List.isEmpty_iff.1 h
    rfl
  | tagged t n => cases h
  | _ => rfl

/-- What every removal that a pruning makes keeps, the pruning keeps. -/
theorem pruneFrom_induction {P : Node → Prop} {steps : List PathStep}
    (h : ∀ leaf above, leaf :: above <:+ steps → ∀ n,
      (n.locate (leaf :: above).reverse).any isEmptyValue = true → P n →
        P (n.removeKey (leaf :: above).reverse).1) (hn : P n) : P (pruneFrom steps n).1 := by
  induction steps generalizing n with
  | nil => exact hn
  | cons leaf above ih =>
    rw [pruneFrom]
    dsimp only
    split
    · rename_i hempty
      refine ih (fun leaf' above' hsuffix => h leaf' above' ?_) ?_
      · exact hsuffix.trans (List.suffix_cons leaf above)
      · exact h leaf above (List.suffix_refl _) n hempty hn
    · exact hn

end Node

section Options

open SharedConfig.Action

/-- The records that are written by themselves are under one key of the client options. -/
theorem options_apart {key : String} (h : key ≠ "cli") (rest : List String) (k : RecordKind) :
    ¬ "clientOptions" :: key :: rest <+: k.collectionNames ∧
      ¬ k.collectionNames <+: "clientOptions" :: key :: rest := by
  cases k <;> simp [RecordKind.collectionNames, List.cons_prefix_cons, h, Ne.symm h]

def SameCollections (before after : Node) : Prop := ∀ k, after.collection k = before.collection k

section

variable {touched : RecordKind → List String} {before : Node} {key leaf : String}
  {above rest : List String}
  (hpath : above ++ [leaf] = "clientOptions" :: key :: rest) (hkey : key ≠ "cli")

include hpath hkey

/-- An edit under another key of the client options leaves the collections alone. -/
theorem sameCollections_editAbove (create : Bool) {β : Type} {edit : Node → Node × β}
    (hedit : ∀ n, OnlyUnder leaf n (edit n).1) (n : Node) :
    SameCollections n (editAt create edit (KeyPath.of above .mapping) n).1 := by
  intro k
  obtain ⟨h, h'⟩ := options_apart hkey rest k
  rw [← hpath] at h h'
  rw [collection_eq_at?, collection_eq_at?, at?_editAbove_apart create hedit h h']

theorem sameCollections_setScalar (value : String) (n : Node) :
    SameCollections n (n.setScalar (KeyPath.of (above ++ [leaf]) .scalar) value).1 := by
  rw [setScalar_of]
  exact sameCollections_editAbove hpath hkey true (writeKey_onlyUnder leaf value) n

theorem sameCollections_removeKey (kind : NodeKind) (n : Node) :
    SameCollections n (n.removeKey (KeyPath.of (above ++ [leaf]) kind)).1 := by
  rw [removeKey_of]
  exact sameCollections_editAbove hpath hkey false (dropKey_onlyUnder leaf) n

theorem setScalar_spares (value : String) :
    Keeps (Spared touched before)
      (Action.setScalar (KeyPath.of (above ++ [leaf]) .scalar) value) := by
  refine setScalar_keeps fun n hn => hn.trans ?_
  have hsame := sameCollections_setScalar hpath hkey value n
  rw [hpath] at hsame ⊢
  exact .of_collections (setScalar_onlyUnder ⟨"clientOptions", .mapping⟩ _ value n) (by decide) hsame

theorem removeKey_spares :
    Keeps (Spared touched before) (Action.removeKey (KeyPath.of (above ++ [leaf]) .scalar)) := by
  refine removeKey_keeps fun n hn => hn.trans ?_
  have hsame := sameCollections_removeKey hpath hkey .scalar n
  rw [hpath] at hsame ⊢
  exact .of_collections (removeKey_onlyUnder ⟨"clientOptions", .mapping⟩ _ n) (by decide) hsame

end

/-- No collection is under client options that are empty. -/
theorem sameCollections_dropKey {n : Node} (hcount : n.keyCount "clientOptions" ≤ 1)
    (hempty : (n.locate (KeyPath.of ["clientOptions"] .mapping)).any isEmptyValue = true) :
    SameCollections n (dropKey "clientOptions" n).1 := by
  intro k
  by_cases hk : k.topKey = "clientOptions"
  · obtain ⟨leaf, hnames⟩ : ∃ leaf, k.collectionNames = ["clientOptions", "cli", leaf] := by
      cases k <;> first | exact ⟨_, rfl⟩ | exact absurd hk (by decide)
    obtain ⟨c, hlocate, hc⟩ := (Option.any_eq_true _ _).1 hempty
    obtain ⟨c', hchild, -, hc'⟩ := locate_cons_eq_some_iff.1 hlocate
    cases hc'
    rw [collection_eq_at?, collection_eq_at?, hnames, at?_cons, at?_cons, child?_dropKey hcount,
      hchild, Option.bind_some, at?_cons, child?_of_isEmptyValue hc]
    rfl
  · exact (dropKey_onlyUnder "clientOptions" n).collection hk

/-- The collections are as they were, and the key of the client options does not stand twice. -/
structure OptionsKept (before after : Node) : Prop where
  once : after.keyCount "clientOptions" ≤ 1
  collections : SameCollections before after

variable {before n : Node}

theorem OptionsKept.step {a b : Node} (h : OptionsKept before a)
    (hcount : b.keyCount "clientOptions" ≤ a.keyCount "clientOptions")
    (hsame : SameCollections a b) : OptionsKept before b :=
  ⟨Nat.le_trans hcount h.once, fun k => (hsame k).trans (h.collections k)⟩

theorem optionsKept_removeKey {key leaf : String} {above rest : List String}
    (hpath : above ++ [leaf] = "clientOptions" :: key :: rest) (hkey : key ≠ "cli")
    (kind : NodeKind) (h : OptionsKept before n) :
    OptionsKept before (n.removeKey (KeyPath.of (above ++ [leaf]) kind)).1 := by
  refine h.step (Nat.le_of_eq ?_) (sameCollections_removeKey hpath hkey kind n)
  have habove : KeyPath.of above .mapping ≠ [] := by
    intro hnil
    have hnames := KeyPath.names_of above .mapping
    rw [hnil] at hnames
    rw [← hnames] at hpath
    cases hpath
  rw [removeKey_of, keyCount_editAt habove]

theorem optionsKept_pruneEmpty (plugin : String) (h : OptionsKept before n) :
    OptionsKept before
      (n.pruneEmpty (KeyPath.of ["clientOptions", "features", plugin] .mapping)).1 := by
  refine pruneFrom_induction (fun leaf above hsuffix n hempty hn => ?_) h
  replace hsuffix : leaf :: above <:+
    [⟨plugin, .mapping⟩, ⟨"features", .mapping⟩, ⟨"clientOptions", .mapping⟩] := hsuffix
  simp only [List.suffix_cons_iff, List.suffix_nil] at hsuffix
  rcases hsuffix with hpath | hpath | hpath | hpath
  · rw [hpath]
    have hkeys : ["clientOptions", "features"] ++ [plugin] = ["clientOptions", "features", plugin] :=
      rfl
    exact optionsKept_removeKey hkeys (by decide) .mapping hn
  · rw [hpath]
    have hkeys : ["clientOptions"] ++ ["features"] = ["clientOptions", "features"] := rfl
    exact optionsKept_removeKey hkeys (by decide) .mapping hn
  · -- what is dropped last are the client options, and only if they are empty
    rw [hpath] at hempty ⊢
    exact hn.step (keyCount_dropKey_le _) (sameCollections_dropKey hn.once hempty)
  · cases hpath

theorem deleteFeature_optionsKept (plugin key : String) :
    Keeps (OptionsKept before) (Action.deleteFeature plugin key) := by
  have hkeys : ["clientOptions", "features", plugin] ++ [key] =
      "clientOptions" :: "features" :: [plugin, key] := rfl
  refine Keeps.bind (removeKey_keeps fun n hn => ?_) fun removed => ?_
  · exact optionsKept_removeKey hkeys (by decide) .scalar hn
  · cases removed with
    | true => exact Keeps.bind (prune_keeps fun n => optionsKept_pruneEmpty plugin) fun _ => Keeps.pure _
    | false => exact Keeps.pure _

end Options

/-! ## Operations -/

section Operations

open SharedConfig.Action

variable {before : Node}

/-- An operation other than the dropping of a feature. -/
theorem Mutation.run_spares {m : Mutation} (hm : m.deletesFeature = false) :
    Keeps (Spared (fun k => m.touched k) before) m.run := by
  cases hoption : m.isOption with
  | false =>
    have htouched : (fun k => m.touched k) = fun k => m.changes.flatMap (Change.touched k) :=
      funext (touched_of_not_isOption hoption)
    rw [run_of_not_isOption hoption, htouched]
    exact Keeps.map (ChangeSet.run_spares m.changes) _
  | true =>
    cases m with
    | set k r => exact Keeps.map (upsert_spares (by simp [touched])) _
    | delete k name =>
      exact Keeps.bind (removeRecord_spares (by simp [touched]) true) fun _ => Keeps.pure _
    | setFeature plugin key value =>
      have hkeys : ["clientOptions", "features", plugin] ++ [key] =
          "clientOptions" :: "features" :: [plugin, key] := rfl
      exact Keeps.map (setScalar_spares hkeys (by decide) value) _
    | setEnv key value =>
      have hkeys : ["clientOptions", "env"] ++ [key] = "clientOptions" :: "env" :: [key] := rfl
      exact Keeps.map (setScalar_spares hkeys (by decide) value) _
    | deleteEnv key =>
      have hkeys : ["clientOptions", "env"] ++ [key] = "clientOptions" :: "env" :: [key] := rfl
      exact Keeps.map (removeKey_spares hkeys (by decide)) _
    | deleteFeature plugin key => cases hm
    | _ => cases hoption

theorem Mutation.applyTo_eq_ok {m : Mutation} {table : StrategyTable} {root after : Node}
    {answer : Outcome} (h : m.applyTo table root = .ok (answer, after)) :
    ∃ s, m.run (.new root table) = (.ok answer, s) ∧ s.root = after := by
  unfold applyTo at h
  cases hcheck : m.check with
  | error e => rw [hcheck] at h; cases h
  | ok u =>
    rw [hcheck] at h
    dsimp only at h
    rcases hrun : m.run (.new root table) with ⟨e | x, s⟩
    · rw [hrun] at h; cases h
    · rw [hrun] at h
      cases h
      exact ⟨s, rfl, rfl⟩

end Operations

/-- Of an operation that succeeds: the entries of the document that are not the store's are the same
and in the same order, and so are in each collection the items whose names it neither writes nor
removes.  If it drops a feature, and the collection is under the client options, then their key must
not stand twice. -/
theorem unrelated_survives {m : Mutation} {table : StrategyTable} {root after : Node}
    {answer : Outcome} (h : m.applyTo table root = .ok (answer, after)) :
    after.foreign = root.foreign ∧
      ∀ k : RecordKind, (m.deletesFeature = true → k.isPlain = true →
          root.keyCount "clientOptions" ≤ 1) →
        Entity.others (m.touched k) (k.items after) = Entity.others (m.touched k) (k.items root) ∧
          (m.touched k = [] → k.items after = k.items root) := by
  obtain ⟨s, hrun, rfl⟩ := Mutation.applyTo_eq_ok h
  cases hm : m.deletesFeature with
  | false =>
    have hspared := Mutation.run_spares hm (.new root table) answer s hrun (.refl _ root)
    refine ⟨hspared.foreign, fun k _ => ⟨hspared.others k, fun hnone => ?_⟩⟩
    have hitems := hspared.others k
    simp only [hnone, Entity.others_nil] at hitems
    exact hitems
  | true =>
    cases m with
    | deleteFeature plugin key =>
      have hframe := run_onlyUnder_options rfl (.new root table) answer s hrun (.refl _ root)
      refine ⟨hframe.foreign (by decide), fun k honce => ?_⟩
      have hitems : k.items s.root = k.items root := by
        refine RecordKind.items_of_collection ?_
        by_cases hk : k.topKey = "clientOptions"
        · have hplain : k.isPlain = true := by
            cases k <;> first | rfl | exact absurd hk (by decide)
          have hkept := Action.Keeps.map (deleteFeature_optionsKept plugin key) _ _ _ _ hrun
            ⟨honce rfl hplain, fun _ => rfl⟩
          exact hkept.collections k
        · exact hframe.collection hk
      rw [hitems]
      exact ⟨rfl, fun _ => rfl⟩
    | _ => cases hm

/-- With the last feature the client options go; a second entry for them has been hidden so far, and
the essential plugins that it holds come to light. -/
theorem second_options_come_to_light :
    let essentials : Node := .sequence [.mapping [(.string "name", .string "a")]]
    let document : Node := .mapping [
      (.string "clientOptions", .mapping
        [(.string "features", .mapping [(.string "p", .mapping [(.string "k", .string "v")])])]),
      (⟨"clientOptions", .str, some "t"⟩, .mapping
        [(.string "cli", .mapping [(.string "essentials", essentials)])]),
      (.string "x", .string "y")]
    ∃ answer after,
      (Mutation.deleteFeature "p" "k").applyTo .empty document = .ok (answer, after) ∧
      (Mutation.deleteFeature "p" "k").touched .essential = [] ∧
      RecordKind.essential.items document = [] ∧ RecordKind.essential.items after ≠ [] :=
  ⟨_, _, rfl, by decide, by decide, by decide⟩

/-- A feature is dropped beside essential plugins and an entry that is not the store's. -/
theorem unrelated_survives_beside_feature :
    let document : Node := .mapping [
      (⟨"x", .int, some "t"⟩, .string "y"),
      (.string "clientOptions", .mapping [
        (.string "features", .mapping [(.string "p", .mapping [(.string "k", .string "v")])]),
        (.string "cli", .mapping [(.string "essentials", .sequence
          [.mapping [(.string "name", .string "a")], .string "note"])])])]
    ∃ answer after,
      (Mutation.deleteFeature "p" "k").applyTo .empty document = .ok (answer, after) ∧
      document.keyCount "clientOptions" ≤ 1 ∧ after ≠ document ∧
      after.foreign = [(⟨"x", .int, some "t"⟩, .string "y")] ∧
      RecordKind.essential.items after =
        [.mapping [(.string "name", .string "a")], .string "note"] := by
  intro document
  obtain ⟨answer, after, happly, hchanged⟩ : ∃ answer after,
      (Mutation.deleteFeature "p" "k").applyTo .empty document = .ok (answer, after) ∧
        after ≠ document := ⟨_, _, rfl, by decide⟩
  have honce : document.keyCount "clientOptions" ≤ 1 := by decide
  obtain ⟨hforeign, hitems⟩ := unrelated_survives happly
  exact ⟨answer, after, happly, honce, hchanged, hforeign.trans (by decide),
    ((hitems .essential fun _ _ => honce).2 (by decide)).trans (by decide)⟩

end SharedConfig
