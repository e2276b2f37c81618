import SharedConfig.Proofs.Edit.Writing
import SharedConfig.Proofs.Run.Survival

/-!
# SharedConfig.Proofs.Run.Overwriting

Collections under writes of texts.

A write goes into the mappings above its end and adds to them, and it leaves alone all that is beside
its way; so every collection is still there with all that it held, except one that stands at the end
of the path, or below it.  That one is replaced: a write asks only what is above its end.

* `Contains`: a collection that has grown.
* `setScalar_keepsCollections`: one write.
* `collections_outlive_texts`: one write, and the operations that write texts.
* `text_replaces_collection`: a collection at the end of a path is lost.
-/

namespace SharedConfig

namespace KeyPath

theorem of_append (keys more : List String) :
    of (keys ++ more) .mapping = of keys .mapping ++ of more .mapping := by
  induction keys with
  | nil => rfl
  | cons key keys ih => rw [List.cons_append, of_cons, of_cons, ih, List.cons_append]

end KeyPath

namespace Node

/-! ## Collections that grow -/

/-- A collection of the same shape and with the same tags, that holds all that another one holds:
the same items, and every entry where it was, with another value only if its key is on the way. -/
structure Contains (onWay : String → Prop) (before after : Node) : Prop where
  kind : after.kind = before.kind
  tags : after.tags = before.tags
  items : after.asSequence = before.asSequence
  entries : ∀ m, before.asMapping = some m → ∃ m', after.asMapping = some m' ∧
    ∀ (i : Nat) k v, m[i]? = some (k, v) → ∃ v', m'[i]? = some (k, v') ∧ (v' = v ∨ onWay k.text)

namespace Contains

variable {onWay wider : String → Prop} {a b c : Node}

theorem refl (onWay : String → Prop) (a : Node) : Contains onWay a a :=
  ⟨rfl, rfl, rfl, fun m hm => ⟨m, hm, fun _ _ v hv => ⟨v, hv, .inl rfl⟩⟩⟩

theorem trans (h : Contains onWay a b) (h' : Contains onWay b c) : Contains onWay a c where
  kind := h'.kind.trans h.kind
  tags := h'.tags.trans h.tags
  items := h'.items.trans h.items
  entries m hm := by
    obtain ⟨m', hm', hentries⟩ := h.entries m hm
    obtain ⟨m'', hm'', hentries'⟩ := h'.entries m' hm'
    refine ⟨m'', hm'', fun i k v hv => ?_⟩
    obtain ⟨v', hv', hsame⟩ := hentries i k v hv
    obtain ⟨v'', hv'', hsame'⟩ := hentries' i k v' hv'
    refine ⟨v'', hv'', ?_⟩
    rcases hsame' with rfl | hway
    · exact hsame
    · exact .inr hway

theorem mono (h : Contains onWay a b) (hwider : ∀ key, onWay key → wider key) :
    Contains wider a b where
  kind := h.kind
  tags := h.tags
  items := h.items
  entries m hm := by
    obtain ⟨m', hm', hentries⟩ := h.entries m hm
    refine ⟨m', hm', fun i k v hv => ?_⟩
    obtain ⟨v', hv', hsame⟩ := hentries i k v hv
    exact ⟨v', hv', hsame.imp_right (hwider k.text)⟩

end Contains

theorem getElem?_insert (m : Mapping) (key : Scalar) (w : Node) {i : Nat} {k : Scalar} {v : Node}
    (h : m[i]? = some (k, v)) :
    ∃ v', (m.insert key w)[i]? = some (k, v') ∧ (v' = v ∨ k.text = key.text) := by
  induction m generalizing i with
  | nil => simp at h
  | cons e m ih =>
    obtain ⟨k', v'⟩ := e
    rw [Mapping.insert]
    cases i with
    | zero =>
      cases h
      split
      · rename_i hk
        exact ⟨w, rfl, .inr hk⟩
      · exact ⟨v, rfl, .inl rfl⟩
    | succ i =>
      split
      · exact ⟨v, h, .inl rfl⟩
      · exact ih h

theorem insert_contains {n : Node} {m : Mapping} (hm : n.asMapping = some m) (key : Scalar)
    (v : Node) : Contains (· = key.text) n (n.setCore (.mapping (m.insert key v))) where
  kind := by rw [kind_setCore, kind_eq_mapping_iff.2 ⟨m, hm⟩]; rfl
  tags := by rw [tags_setCore]; exact List.append_nil _
  items := by
    have hnone : n.asSequence = none := asSequence_eq_none (by
      rw [kind_eq_mapping_iff.2 ⟨m, hm⟩]
      decide)
    rw [asSequence_setCore, hnone]
    rfl
  entries old hold := by
    obtain rfl : m = old := Option.some.inj (hm.symm.trans hold)
    exact ⟨m.insert key v, asMapping_setCore n _, fun _ _ _ => getElem?_insert m key v⟩

section Edit

variable {β : Type} {create : Bool} {edit : Node → Node × β}

theorem writeKey_contains (key value : String) (n : Node) :
    Contains (· = key) n (writeKey key value n).1 := by
  cases hm : n.asMapping with
  | none => rw [writeKey, hm]; exact .refl _ n
  | some m =>
    rw [writeKey_of_asMapping hm]
    split
    · exact .refl _ n
    · exact insert_contains hm (.string key) _

theorem editAt_contains (create : Bool) (edit : Node → Node × β) (s : PathStep) (rest : KeyPath)
    (n : Node) : Contains (· = s.name) n (editAt create edit (s :: rest) n).1 := by
  rcases editAt_cons_cases create edit s rest n with ⟨he, -⟩ | ⟨m, c, hm, -, he⟩
  · rw [he]; exact .refl _ n
  · rw [he]; exact insert_contains hm (.string s.name) _

/-- An edit that passes through a collection goes on in it, unless it is stopped above. -/
theorem at?_editAt_through {path rest : KeyPath} {n c : Node} (hc : n.at? path.names = some c)
    (hk : c.kind ≠ .scalar) :
    ∃ c', (editAt create edit (path ++ rest) n).1.at? path.names = some c' ∧
      (c' = c ∨ c' = (editAt create edit rest c).1) := by
  induction path generalizing n with
  | nil =>
    cases hc
    exact ⟨_, rfl, .inr rfl⟩
  | cons s path ih =>
    have hnames : KeyPath.names (s :: path) = s.name :: KeyPath.names path := rfl
    rw [hnames] at hc ⊢
    rcases editAt_cons_cases create edit s (path ++ rest) n with ⟨he, -⟩ | ⟨m, x, hm, hx, he⟩
    · exact ⟨c, by rw [List.cons_append, he]; exact hc, .inl rfl⟩
    · rw [at?_cons, child?_of_asMapping hm] at hc
      obtain ⟨d, hd, hc⟩ := Option.bind_eq_some_iff.1 hc
      rw [List.cons_append, he, at?_cons, child?_setCore_insert, Option.bind_some]
      rcases editedChild_eq_some hx with ⟨hget, -⟩ | ⟨-, -, hno⟩
      · obtain rfl : x = d := Option.some.inj (hget.symm.trans hd)
        exact ih hc
      -- a null that is filled is no collection, and there is none below it
      · obtain ⟨-, u, rfl⟩ := eq_scalar_of_isVacant (hno d hd)
        cases hnames : KeyPath.names path with
        | nil =>
          rw [hnames] at hc
          cases hc
          exact absurd rfl hk
        | cons key keys =>
          rw [hnames, at?_of_childless (fun _ => rfl) (List.cons_ne_nil key keys)] at hc
          cases hc

end Edit

/-! ## Writes -/

/-- Every collection is found where it was and holds all that it held, unless it stood at or below
one of the places that texts were written at. -/
def KeepsCollections (written : List (List String)) (before after : Node) : Prop :=
  ∀ (q : KeyPath) (c : Node), locate q before = some c → c.kind ≠ .scalar →
    (∀ names ∈ written, ¬ names <+: q.names) →
      ∃ c', locate q after = some c' ∧
        Contains (fun key => ∃ names ∈ written, q.names ++ [key] <+: names) c c'

namespace KeepsCollections

variable {written more : List (List String)} {a b c : Node}

theorem refl (written : List (List String)) (a : Node) : KeepsCollections written a a :=
  fun _ x hx _ _ => ⟨x, hx, .refl _ x⟩

theorem trans (h : KeepsCollections written a b) (h' : KeepsCollections written b c) :
    KeepsCollections written a c := by
  intro q x hx hk hq
  obtain ⟨y, hy, hxy⟩ := h q x hx hk hq
  obtain ⟨z, hz, hyz⟩ := h' q y hy (by rwa [hxy.kind]) hq
  exact ⟨z, hz, hxy.trans hyz⟩

theorem mono (h : KeepsCollections written a b) (hmore : ∀ names ∈ written, names ∈ more) :
    KeepsCollections more a b := by
  intro q x hx hk hq
  obtain ⟨y, hy, hxy⟩ := h q x hx hk fun names hnames => hq names (hmore names hnames)
  exact ⟨y, hy, hxy.mono fun key ⟨names, hnames, hway⟩ => ⟨names, hmore names hnames, hway⟩⟩

end KeepsCollections

/-- What took the place of a node and has its shape is found as that was. -/
theorem locate_of_replaced {path : KeyPath} {n n' x x' : Node} (h : locate path n = some x)
    (hat : n'.at? path.names = some x') (hkind : x'.kind = x.kind) : locate path n' = some x' := by
  cases hlast : path.getLast? with
  | none =>
    obtain rfl := List.getLast?_eq_none_iff.1 hlast
    exact hat
  | some last =>
    obtain ⟨hpath, -, hk⟩ := (locate_eq_some_iff hlast).1 h
    exact (locate_eq_some_iff hlast).2 ⟨hpath, hat, hkind.trans hk⟩

section Writes

variable {above : List String} {key value : String}

theorem setScalar_keepsCollections (above : List String) (key value : String) (root : Node) :
    KeepsCollections [above ++ [key]] root
      (root.setScalar (KeyPath.of (above ++ [key]) .scalar) value).1 := by
  intro q c hc hk hq
  replace hq := hq _ (List.mem_singleton_self _)
  rw [setScalar_of]
  by_cases hway : q.names <+: above ++ [key]
  · rcases List.prefix_concat_iff.1 hway with hend | habove
    · exact absurd (hend ▸ List.prefix_rfl) hq
    obtain ⟨below, rfl⟩ := habove
    have hat : root.at? (KeyPath.names (KeyPath.of q.names .mapping)) = some c := by
      rw [KeyPath.names_of]
      exact at?_of_locate hc
    obtain ⟨c', hc', hgrown⟩ := @at?_editAt_through _ true (writeKey key value)
      (KeyPath.of q.names .mapping) (KeyPath.of below .mapping) root c hat hk
    rw [← KeyPath.of_append, KeyPath.names_of] at hc'
    have hcontains : Contains (fun k => q.names ++ [k] <+: q.names ++ below ++ [key]) c c' := by
      rcases hgrown with rfl | rfl
      · exact .refl _ c'
      · cases below with
        | nil =>
          refine (writeKey_contains key value c).mono fun k hk => ?_
          have hend : q.names ++ [k] = q.names ++ [] ++ [key] := by rw [hk, List.append_nil]
          exact hend ▸ List.prefix_rfl
        | cons s below =>
          rw [KeyPath.of_cons]
          refine (editAt_contains true _ ⟨s, .mapping⟩ _ c).mono fun k hk => ?_
          rw [hk, List.append_assoc, List.prefix_append_right_inj]
          exact List.prefix_append [s] (below ++ [key])
    exact ⟨c', locate_of_replaced hc hc' hcontains.kind,
      hcontains.mono fun k hk => ⟨_, List.mem_singleton_self _, hk⟩⟩
  · refine ⟨c, ?_, .refl _ c⟩
    rw [← hc]
    exact locate_congr (at?_editAbove_apart true (writeKey_onlyUnder key value) hq hway root)

/-- Of what stood at the end of the path of a text that was written, or below, nothing is left. -/
theorem asText_of_setScalar {root : Node}
    (h : (root.setScalar (KeyPath.of (above ++ [key]) .scalar) value).2 = true) {q : KeyPath}
    (hq : above ++ [key] <+: q.names) {c : Node}
    (hc : locate q (root.setScalar (KeyPath.of (above ++ [key]) .scalar) value).1 = some c) :
    c.asText = some value := by
  have hread := getScalar_setScalar h
  rw [getScalar_of (by simp)] at hread
  obtain ⟨v, hv, htext⟩ := Option.bind_eq_some_iff.1 hread
  obtain ⟨below, hbelow⟩ := hq
  have hat := at?_of_locate hc
  rw [← hbelow, at?_append, hv, Option.bind_some] at hat
  cases below with
  | nil =>
    cases hat
    exact htext
  | cons k below =>
    cases v with
    | scalar s =>
      rw [at?_of_childless (fun _ => rfl) (List.cons_ne_nil k below)] at hat
      cases hat
    | _ => cases htext

end Writes

end Node

open Node

/-! ## Operations -/

namespace Action

theorem setScalar_keepsCollections {written : List (List String)} {before : Node}
    {above : List String} {key : String} (h : above ++ [key] ∈ written) (value : String) :
    Keeps (KeepsCollections written before)
      (Action.setScalar (KeyPath.of (above ++ [key]) .scalar) value) :=
  setScalar_keeps fun n hn => hn.trans <| (Node.setScalar_keepsCollections above key value n).mono
    fun _ hnames => List.mem_singleton.1 hnames ▸ h

theorem setSelection_keepsCollections {written : List (List String)} {before : Node}
    (sel : Selection) (h : sel.above ++ [sel.leaf] ∈ written) (name : String) :
    Keeps (KeepsCollections written before) (Action.setScalar sel.path name) := by
  rw [Selection.path_eq]
  exact setScalar_keepsCollections h name

end Action

namespace Mutation

/-- Whether an operation writes nothing but texts. -/
def writesTexts : Mutation → Bool
  | setFeature .. | setEnv .. | setCurrentContext _ | setCurrentServer _ => true
  | _ => false

def textNames (root : Node) : Mutation → List (List String)
  | setFeature plugin key _ => [["clientOptions", "features", plugin, key]]
  | setEnv key _ => [["clientOptions", "env", key]]
  | setCurrentContext name =>
    match RecordKind.context.find name root with
    | .ok c => ["currentContext", c.target.name] ::
        if c.target.isCluster && RecordKind.server.contains name root then [["currentServer"]] else []
    | .error _ => []
  | setCurrentServer name =>
    ["currentServer"] :: match RecordKind.context.find name root with
      | .ok c => [["currentContext", c.target.name]]
      | .error _ => []
  | _ => []

end Mutation

section Operations

open SharedConfig.Action

variable {name : String} {s s' : Session} {changed : Bool}

theorem setCurrentContext_keepsCollections
    (h : Action.setCurrentContext name s = (.ok changed, s')) :
    KeepsCollections ((Mutation.setCurrentContext name).textNames s.root) s.root s'.root := by
  obtain ⟨c, u, hc, h⟩ := bind_eq_ok.1 h
  obtain ⟨hfind, rfl⟩ := ask_eq_ok.1 hc
  obtain ⟨written, v, hset, h⟩ := bind_eq_ok.1 h
  have hselect : Action.setScalar (Selection.context c.target).path name s = (.ok written, v) := hset
  have hv : ∀ more, KeepsCollections (["currentContext", c.target.name] :: more) s.root v.root :=
    fun more => setSelection_keepsCollections (.context c.target) List.mem_cons_self name s written v
      hselect (.refl _ s.root)
  -- the first of the two writes has changed no server
  have hservers := RecordKind.contains_of_collection
    ((setScalar_selection hselect).1.collection .server) name
  obtain ⟨root, w, hw, h⟩ := bind_eq_ok.1 h
  obtain ⟨rfl, rfl⟩ := root_eq_ok.1 hw
  rw [hservers] at h
  simp only [Mutation.textNames, hfind]
  split at h
  · rename_i hcond
    obtain ⟨more, t, ht, h⟩ := bind_eq_ok.1 h
    obtain ⟨-, rfl⟩ := pure_eq_ok.1 h
    rw [if_pos hcond]
    exact setSelection_keepsCollections .server (List.mem_cons_of_mem _ (List.mem_singleton_self _))
      name v more t ht (hv _)
  · obtain ⟨-, rfl⟩ := pure_eq_ok.1 h
    exact hv _

theorem setCurrentServer_keepsCollections
    (h : Action.setCurrentServer name s = (.ok changed, s')) :
    KeepsCollections ((Mutation.setCurrentServer name).textNames s.root) s.root s'.root := by
  obtain ⟨root, u, hu, h⟩ := bind_eq_ok.1 h
  obtain ⟨rfl, rfl⟩ := root_eq_ok.1 hu
  split at h
  · obtain ⟨written, v, hset, h⟩ := bind_eq_ok.1 h
    have hselect : Action.setScalar Selection.server.path name s = (.ok written, v) := hset
    have hv : KeepsCollections ((Mutation.setCurrentServer name).textNames s.root) s.root v.root :=
      setSelection_keepsCollections .server List.mem_cons_self name s written v hselect (.refl _ _)
    obtain ⟨root, w, hw, h⟩ := bind_eq_ok.1 h
    obtain ⟨rfl, rfl⟩ := root_eq_ok.1 hw
    split at h
    · obtain ⟨c, w, hc, h⟩ := bind_eq_ok.1 h
      obtain ⟨hfind, rfl⟩ := ask_eq_ok.1 hc
      -- the first of the two writes has changed no context
      rw [RecordKind.find_of_collection ((setScalar_selection hselect).1.collection .context)] at hfind
      obtain ⟨more, t, ht, h⟩ := bind_eq_ok.1 h
      obtain ⟨-, rfl⟩ := pure_eq_ok.1 h
      refine setSelection_keepsCollections (.context c.target) ?_ name v more t ht hv
      simp only [Mutation.textNames, hfind]
      exact List.mem_cons_of_mem _ (List.mem_singleton_self _)
    · obtain ⟨-, rfl⟩ := pure_eq_ok.1 h
      exact hv
  · exact absurd h fail_ne_ok

theorem exists_run_of_single {c : Change} {answer : Outcome} {s s' : Session}
    (h : Mutation.ofChanges [c] s = (.ok answer, s')) : ∃ changed, c.run s = (.ok changed, s') := by
  obtain ⟨report, h, -⟩ := map_eq_ok.1 h
  obtain ⟨changed, u, hu, h⟩ := bind_eq_ok.1 h
  obtain ⟨-, rfl⟩ := pure_eq_ok.1 h
  exact ⟨changed, hu⟩

theorem Mutation.run_keepsCollections {m : Mutation} (hm : m.writesTexts = true)
    {answer : Outcome} (h : m.run s = (.ok answer, s')) :
    KeepsCollections (m.textNames s.root) s.root s'.root := by
  cases m with
  | setFeature plugin key value =>
    obtain ⟨changed, h, -⟩ := map_eq_ok.1 h
    have hmem : ["clientOptions", "features", plugin] ++ [key] ∈
        [["clientOptions", "features", plugin, key]] := List.mem_singleton_self _
    exact setScalar_keepsCollections hmem value s changed s' h (.refl _ _)
  | setEnv key value =>
    obtain ⟨changed, h, -⟩ := map_eq_ok.1 h
    have hmem : ["clientOptions", "env"] ++ [key] ∈ [["clientOptions", "env", key]] :=
      List.mem_singleton_self _
    exact setScalar_keepsCollections hmem value s changed s' h (.refl _ _)
  | setCurrentContext name =>
    obtain ⟨changed, h⟩ := exists_run_of_single h
    exact setCurrentContext_keepsCollections h
  | setCurrentServer name =>
    obtain ⟨changed, h⟩ := exists_run_of_single h
    exact setCurrentServer_keepsCollections h
  | _ => cases hm

end Operations

/-- A write of a text keeps every collection that stands neither at the end of its path nor below;
of what stands there nothing is left.  So do the operations that write texts. -/
theorem collections_outlive_texts {path : KeyPath} (hpath : path.ThroughMappings)
    {last : PathStep} (hlast : path.getLast? = some last) (htext : last.kind = .scalar)
    (value : String) (root : Node) :
    KeepsCollections [path.names] root (root.setScalar path value).1 ∧
      ((root.setScalar path value).2 = false → (root.setScalar path value).1 = root) ∧
      ((root.setScalar path value).2 = true → ∀ (q : KeyPath) c, path.names <+: q.names →
        locate q (root.setScalar path value).1 = some c → c.asText = some value) ∧
      ∀ (m : Mutation) table answer after, m.writesTexts = true →
        m.applyTo table root = .ok (answer, after) →
          KeepsCollections (m.textNames root) root after := by
  obtain ⟨above, hof, hnames, -⟩ := KeyPath.exists_of_last hpath hlast
  rw [htext] at hof
  refine ⟨?_, setScalar_unchanged, fun h q c hq hc => ?_, fun m table answer after hm h => ?_⟩
  · rw [hnames, hof]
    exact Node.setScalar_keepsCollections above last.name value root
  · rw [hnames] at hq
    rw [hof] at h hc
    exact asText_of_setScalar h hq hc
  · obtain ⟨s, hrun, rfl⟩ := Mutation.applyTo_eq_ok h
    exact Mutation.run_keepsCollections hm hrun

/-- A variable is written into a tagged mapping, where a null was: what is next to it and the
mapping that it came into are still there. -/
theorem collections_outlive_variable :
    let holding := fun b : Node => Node.mapping [
      (.string "contexts", .sequence [.mapping [(.string "name", .string "a")]]),
      (.string "clientOptions", .tagged "t" (.mapping [(.string "env", .mapping
        [(.string "A", .sequence [.string "x"]), (.string "B", b)])]))]
    let root := holding (.scalar .null)
    let after := holding (.string "v")
    let path : KeyPath := KeyPath.of ["clientOptions", "env", "B"] .scalar
    let last : PathStep := ⟨"B", .scalar⟩
    let env : KeyPath := KeyPath.of ["clientOptions", "env"] .mapping
    path.ThroughMappings ∧ path.getLast? = some last ∧ last.kind = .scalar ∧
      root.setScalar path "v" = (after, true) ∧ KeepsCollections [path.names] root after ∧
      (∃ c c', locate env root = some c ∧ c.kind ≠ .scalar ∧
        ¬ path.names <+: env.names ∧ locate env after = some c' ∧
        Contains (fun key => ∃ names ∈ [path.names], env.names ++ [key] <+: names) c c') ∧
      (Mutation.setEnv "B" "v").writesTexts = true ∧
      (Mutation.setEnv "B" "v").applyTo .empty root = .ok (.changed true, after) ∧
      KeepsCollections ((Mutation.setEnv "B" "v").textNames root) root after := by
  intro holding root after path last env
  have hpath : path.ThroughMappings := by decide
  have hlast : path.getLast? = some last := rfl
  have hset : root.setScalar path "v" = (after, true) := by decide
  have happly : (Mutation.setEnv "B" "v").applyTo .empty root = .ok (.changed true, after) := by
    decide
  obtain ⟨hkeeps, -, -, hoperations⟩ := collections_outlive_texts hpath hlast rfl "v" root
  rw [hset] at hkeeps
  have hbefore : locate env root = some (.mapping
      [(.string "A", .sequence [.string "x"]), (.string "B", .scalar .null)]) := by decide
  have hapart : ¬ path.names <+: env.names := by decide
  obtain ⟨c', hfound, hcontains⟩ := hkeeps env _ hbefore (by decide) (by simpa using hapart)
  exact ⟨hpath, hlast, rfl, hset, hkeeps, ⟨_, c', hbefore, by decide, hapart, hfound, hcontains⟩, rfl,
    happly, hoperations (.setEnv "B" "v") .empty _ after rfl happly⟩

/-- A mapping that stands where a variable is written is lost. -/
theorem text_replaces_collection :
    let root : Node := .mapping [(.string "clientOptions", .mapping [(.string "env",
      .mapping [(.string "K", .mapping [(.string "x", .string "y")])])])]
    let after : Node := .mapping [(.string "clientOptions", .mapping [(.string "env",
      .mapping [(.string "K", .string "v")])])]
    let path : KeyPath := KeyPath.of ["clientOptions", "env", "K"] .scalar
    let q : KeyPath := KeyPath.of ["clientOptions", "env", "K"] .mapping
    root.kind = .mapping ∧ path.ThroughMappings ∧
      locate q root = some (.mapping [(.string "x", .string "y")]) ∧
      root.setScalar path "v" = (after, true) ∧ locate q after = none ∧
      (Mutation.setEnv "K" "v").applyTo .empty root = .ok (.changed true, after) := by
  decide

end SharedConfig
