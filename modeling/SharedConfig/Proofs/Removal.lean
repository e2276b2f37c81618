import SharedConfig.Proofs.Action
import SharedConfig.Proofs.Selection

/-!
# SharedConfig.Proofs.Removal

The removal of a context together with its server, and of a server together with its context.  In
either order the four changes are one pass over the document (`Node.without`): the entities of the
name leave both collections, its selections are dropped, and nothing else is touched.

* `clearContext_eq`, `clearServer_eq`: dropping the selections of a name, as one pass.
* `removal_leaves_nothing`: both removals succeed exactly if there is something to remove, and then
  leave nothing of the name behind and everything else as it was.
-/

namespace SharedConfig

open Node

/-! ## Dropping the selections of a name -/

def Node.clearContext (name : String) (root : Node) : Node :=
  (targetsSelecting name root).foldl (fun n t => n.dropSelection (.context t)) root

def Node.clearServer (name : String) (root : Node) : Node :=
  if Selection.server.read root = some name then root.dropSelection .server else root

/-- The selections for targets, without those of a name. -/
def Node.unselect (name : String) (v : Node) : Node :=
  v.mapEntries fun t x =>
    if t ∈ Target.all.map Target.name ∧ x.asText = some name then none else some x

theorem mem_targetsSelecting {name : String} {root : Node} {t : Target} :
    t ∈ targetsSelecting name root ↔ (Selection.context t).read root = some name := by
  have hall : t ∈ Target.all := by cases t <;> simp [Target.all]
  simp [targetsSelecting, hall, Selection.read, Selection.path]

section

variable {root : Node} {name : String}

theorem foldl_dropSelection_keyed (h : root.WellKeyed) (ts : List Target) :
    (ts.foldl (fun n t => n.dropSelection (.context t)) root).WellKeyed := by
  induction ts generalizing root with
  | nil => exact h
  | cons t ts ih => exact ih ((dropSelection_onlySelection (.context t) root).keyed h)

theorem foldl_dropSelection_eq (h : root.WellKeyed) (ts : List Target) :
    ts.foldl (fun n t => n.dropSelection (.context t)) root = root.mapEntries fun key v =>
      some (if key = "currentContext" then
        v.mapEntries fun u x => if u ∈ ts.map Target.name then none else some x else v) := by
  induction ts generalizing root with
  | nil =>
    refine (mapEntries_some root).symm.trans (mapEntries_congr h.top fun key v _ => ?_)
    simp [mapEntries_some]
  | cons t ts ih =>
    rw [List.foldl_cons, ih ((dropSelection_onlySelection (.context t) root).keyed h),
      dropSelection_context_eq h, mapEntries_mapEntries]
    refine mapEntries_congr h.top fun key v _ => ?_
    by_cases hkey : key = "currentContext"
    · simp only [hkey, if_true, Option.bind_some, mapEntries_mapEntries, List.map_cons,
        List.mem_cons]
      congr 2
      funext u x
      by_cases hu : u = t.name <;> simp [hu]
    · simp [hkey]

theorem clearContext_eq (h : root.WellKeyed) (name : String) :
    root.clearContext name = root.mapEntries fun key v =>
      some (if key = "currentContext" then v.unselect name else v) := by
  rw [clearContext, foldl_dropSelection_eq h]
  refine mapEntries_congr h.top fun key v hv => ?_
  by_cases hkey : key = "currentContext"
  · subst hkey
    rw [if_pos rfl, if_pos rfl, unselect]
    refine congrArg some (mapEntries_congr (h.selections v hv) fun u x hx => ?_)
    -- a target selects the name exactly if that is what is under its key
    have hiff : u ∈ (targetsSelecting name root).map Target.name ↔
        u ∈ Target.all.map Target.name ∧ x.asText = some name := by
      have hread : ∀ t : Target, t.name = u →
          (Selection.context t).read root = x.asText := fun t ht => by
        rw [Selection.read_context, hv, Option.bind_some, ht, hx, Option.bind_some]
      simp only [List.mem_map, mem_targetsSelecting]
      constructor
      · rintro ⟨t, ht, hu⟩
        exact ⟨⟨t, by cases t <;> simp [Target.all], hu⟩, (hread t hu).symm.trans ht⟩
      · rintro ⟨⟨t, -, hu⟩, ht⟩
        exact ⟨t, (hread t hu).trans ht, hu⟩
    simp only [hiff]
  · rw [if_neg hkey, if_neg hkey]

theorem clearServer_eq (h : root.WellKeyed) (name : String) :
    root.clearServer name = root.mapEntries fun key v =>
      if key = "currentServer" ∧ v.asText = some name then none else some v := by
  rw [clearServer]
  split
  · rename_i hsel
    -- the only value under the key is the name, so the pass drops the entry
    rw [dropSelection_server_eq h]
    refine mapEntries_congr h.top fun key v hv => ?_
    by_cases hkey : key = "currentServer"
    · subst hkey
      rw [Selection.read_server, hv, Option.bind_some] at hsel
      simp [hsel]
    · simp [hkey]
  · rename_i hsel
    refine (mapEntries_some root).symm.trans (mapEntries_congr h.top fun key v hv => ?_)
    rw [if_neg]
    rintro ⟨rfl, ht⟩
    rw [Selection.read_server, hv] at hsel
    exact hsel ht

theorem clearContext_onlyUnder (name : String) (root : Node) :
    OnlyUnder "currentContext" root (root.clearContext name) := by
  rw [clearContext]
  induction targetsSelecting name root generalizing root with
  | nil => exact .refl _ root
  | cons t ts ih => exact (dropSelection_onlySelection (.context t) root).frame.trans (ih _)

theorem clearServer_onlyUnder (name : String) (root : Node) :
    OnlyUnder "currentServer" root (root.clearServer name) := by
  rw [clearServer]
  split
  · exact (dropSelection_onlySelection .server root).frame
  · exact .refl _ root

theorem clearContext_keyed (h : root.WellKeyed) (name : String) :
    (root.clearContext name).WellKeyed :=
  foldl_dropSelection_keyed h _

theorem clearServer_keyed (h : root.WellKeyed) (name : String) :
    (root.clearServer name).WellKeyed := by
  rw [clearServer]
  split
  · exact (dropSelection_onlySelection .server root).keyed h
  · exact h

theorem removeNamed_keyed (h : root.WellKeyed) (k : RecordKind) (name : String) :
    (root.removeNamed k name).WellKeyed :=
  h.of_onlyUnder (removeNamed_onlyUnder k name root) (by cases k <;> simp [RecordKind.topKey])

/-! ## The document without a name -/

/-- What becomes of an entry of a document when all that has a name is removed. -/
def entryWithout (name key : String) (v : Node) : Option Node :=
  if key = "contexts" ∨ key = "servers" then some (v.eraseItems name)
  else if key = "currentContext" then some (v.unselect name)
  else if key = "currentServer" ∧ v.asText = some name then none
  else some v

theorem entryWithout_selections (name : String) (v : Node) :
    entryWithout name "currentContext" v = some (v.unselect name) := rfl

theorem entryWithout_server (name : String) (v : Node) :
    entryWithout name "currentServer" v = if v.asText = some name then none else some v := by
  rw [entryWithout, if_neg (by decide), if_neg (by decide)]
  simp only [true_and]

def Node.without (name : String) (root : Node) : Node := root.mapEntries (entryWithout name)

def Node.dropContext (name : String) (root : Node) : Node :=
  (((root.clearContext name).removeNamed .context name).removeNamed .server name).clearServer name

def Node.dropServer (name : String) (root : Node) : Node :=
  (((root.clearServer name).removeNamed .server name).removeNamed .context name).clearContext name

theorem collection_dropContext {k : RecordKind} (hk : k = .context ∨ k = .server) (name : String)
    (root : Node) :
    (root.dropContext name).collection k = (root.collection k).map (Entity.erase name) := by
  rw [dropContext]
  rcases hk with rfl | rfl
  · rw [(clearServer_onlyUnder name _).collection (by decide),
      (removeNamed_onlyUnder .server name _).collection (by decide), collection_removeNamed,
      (clearContext_onlyUnder name root).collection (by decide)]
  · rw [(clearServer_onlyUnder name _).collection (by decide), collection_removeNamed,
      (removeNamed_onlyUnder .context name _).collection (by decide),
      (clearContext_onlyUnder name root).collection (by decide)]

theorem collection_dropServer {k : RecordKind} (hk : k = .context ∨ k = .server) (name : String)
    (root : Node) :
    (root.dropServer name).collection k = (root.collection k).map (Entity.erase name) := by
  rw [dropServer]
  rcases hk with rfl | rfl
  · rw [(clearContext_onlyUnder name _).collection (by decide), collection_removeNamed,
      (removeNamed_onlyUnder .server name _).collection (by decide),
      (clearServer_onlyUnder name root).collection (by decide)]
  · rw [(clearContext_onlyUnder name _).collection (by decide),
      (removeNamed_onlyUnder .context name _).collection (by decide), collection_removeNamed,
      (clearServer_onlyUnder name root).collection (by decide)]

/-! The four changes are under four keys, so their order does not count. -/

theorem dropContext_eq (h : root.WellKeyed) (name : String) :
    root.dropContext name = root.without name := by
  have h1 := clearContext_keyed h name
  have h2 := removeNamed_keyed h1 .context name
  have h3 := removeNamed_keyed h2 .server name
  rw [dropContext, clearServer_eq h3, removeNamed_eq h2.top rfl, removeNamed_eq h1.top rfl,
    clearContext_eq h, mapEntries_mapEntries, mapEntries_mapEntries, mapEntries_mapEntries]
  refine mapEntries_congr h.top fun key v _ => ?_
  by_cases hc : key = "contexts"
  · simp [hc, entryWithout, RecordKind.topKey]
  · by_cases hs : key = "servers"
    · simp [hs, entryWithout, RecordKind.topKey]
    · by_cases hsel : key = "currentContext"
      · simp [hsel, entryWithout, RecordKind.topKey]
      · simp [hc, hs, hsel, entryWithout, RecordKind.topKey]

theorem dropServer_eq (h : root.WellKeyed) (name : String) :
    root.dropServer name = root.without name := by
  have h1 := clearServer_keyed h name
  have h2 := removeNamed_keyed h1 .server name
  have h3 := removeNamed_keyed h2 .context name
  rw [dropServer, clearContext_eq h3, removeNamed_eq h2.top rfl, removeNamed_eq h1.top rfl,
    clearServer_eq h, mapEntries_mapEntries, mapEntries_mapEntries, mapEntries_mapEntries]
  refine mapEntries_congr h.top fun key v _ => ?_
  by_cases hc : key = "contexts"
  · simp [hc, entryWithout, RecordKind.topKey]
  · by_cases hs : key = "servers"
    · simp [hs, entryWithout, RecordKind.topKey]
    · by_cases hsel : key = "currentContext"
      · simp [hsel, entryWithout, RecordKind.topKey]
      · by_cases hcur : key = "currentServer" ∧ v.asText = some name
        · simp [hcur, entryWithout]
        · simp [hc, hs, hsel, hcur, entryWithout, RecordKind.topKey]

theorem without_keyed (h : root.WellKeyed) (name : String) : (root.without name).WellKeyed where
  top := h.top.mapEntries
  selections c hc := by
    rw [without, child?_mapEntries h.top] at hc
    obtain ⟨v, hv, hc⟩ := Option.bind_eq_some_iff.1 hc
    cases hc
    exact (h.selections v hv).mapEntries

theorem collection_without (h : root.WellKeyed) {k : RecordKind}
    (hk : k = .context ∨ k = .server) (name : String) :
    (root.without name).collection k = (root.collection k).map (Entity.erase name) := by
  rw [← dropContext_eq h, collection_dropContext hk]

theorem child?_unselect {c : Node} (hc : c.DistinctKeys) (t : Target) (name : String) :
    (c.unselect name).child? t.name =
      (c.child? t.name).bind fun x => if x.asText = some name then none else some x := by
  have ht : t.name ∈ Target.all.map Target.name :=
    List.mem_map_of_mem (by cases t <;> simp [Target.all])
  rw [unselect, child?_mapEntries hc]
  simp only [ht, true_and]

theorem read_without (h : root.WellKeyed) (sel : Selection) (name : String) :
    sel.read (root.without name) =
      if sel.read root = some name then none else sel.read root := by
  have hdrop : ∀ v : Option Node,
      (v.bind fun x => if x.asText = some name then none else some x).bind asText =
        if v.bind asText = some name then none else v.bind asText := by
    intro v
    cases v with
    | none => rfl
    | some x => by_cases hx : x.asText = some name <;> simp [hx]
  cases sel with
  | server =>
    have hentry : entryWithout name "currentServer" = fun v =>
        if v.asText = some name then none else some v := funext (entryWithout_server name)
    rw [Selection.read_server, Selection.read_server, without, child?_mapEntries h.top, hentry]
    exact hdrop _
  | context t =>
    rw [Selection.read_context, Selection.read_context, without, child?_mapEntries h.top]
    cases hc : root.child? "currentContext" with
    | none => rfl
    | some c =>
      rw [Option.bind_some, entryWithout_selections, Option.bind_some, Option.bind_some,
        child?_unselect (h.selections c hc)]
      exact hdrop _

end

/-- All of a name was removed from a document, and nothing else. -/
structure Removed (name : String) (before after : Node) : Prop where
  /-- Its contexts and its servers are gone, and the other items are there in their order. -/
  items : ∀ k : RecordKind, k.isPlain = false →
    after.collection k = (before.collection k).map (Entity.erase name)
  absent : ∀ k : RecordKind, k.isPlain = false → k.contains name after = false
  /-- Its selections are gone, and the other ones are as they were. -/
  selections : ∀ sel : Selection,
    sel.read after = if sel.read before = some name then none else sel.read before
  others : ∀ key, key ∉ ["contexts", "servers", "currentContext", "currentServer"] →
    after.child? key = before.child? key
  /-- The whole document, entry by entry. -/
  document : after = before.without name

theorem removed_without {root : Node} (h : root.WellKeyed) (name : String) :
    Removed name root (root.without name) where
  items k hk := collection_without h ((RecordKind.isPlain_eq_false k).1 hk) name
  absent k hk := by
    have hitems := collection_without h ((RecordKind.isPlain_eq_false k).1 hk) name
    refine Bool.eq_false_iff.2 fun hc => ?_
    rw [RecordKind.contains_iff, RecordKind.names, hitems] at hc
    cases hcoll : root.collection k with
    | none => simp [hcoll, Entity.names] at hc
    | some items => simp [hcoll, Entity.names_erase] at hc
  selections sel := read_without h sel name
  others key hkey := by
    simp only [List.mem_cons, List.not_mem_nil, or_false, not_or] at hkey
    rw [without, child?_mapEntries h.top]
    cases root.child? key <;> simp [entryWithout, hkey]
  document := rfl

/-! ## The two removals -/

/-- A change that always succeeds, and what it makes of a document. -/
def Total (c : Change) (f : Node → Node) : Prop :=
  ∀ s, ∃ changed s', c.run s = (.ok changed, s') ∧ s'.root = f s.root

namespace Action

theorem clearTargets_apply (ts : List Target) (s : Session) :
    ∃ removed s', clearTargets ts s = (.ok removed, s') ∧
      s'.root = ts.foldl (fun n t => n.dropSelection (.context t)) s.root := by
  induction ts generalizing s with
  | nil => exact ⟨_, s, rfl, rfl⟩
  | cons t ts ih =>
    obtain ⟨removed, u, hu, hroot⟩ := removeKey_selection (.context t) s
    replace hu : removeKey (currentContextPath t) s = (.ok removed, u) := hu
    obtain ⟨more, s', hs', hroot'⟩ := ih u
    refine ⟨removed || more, s', ?_, ?_⟩
    · rw [clearTargets, bind_of_ok hu, bind_of_ok hs', pure_apply]
    · rw [hroot', hroot, List.foldl_cons]

theorem clearCurrentContext_total (name : String) :
    Total (.clearCurrentContext name) (Node.clearContext name) := by
  intro s
  obtain ⟨removed, s', hs', hroot⟩ := clearTargets_apply (targetsSelecting name s.root) s
  refine ⟨removed, s', ?_, hroot⟩
  exact (bind_of_ok (root_eq_ok.2 ⟨rfl, rfl⟩) _).trans hs'

theorem clearCurrentServer_total (name : String) :
    Total (.clearCurrentServer name) (Node.clearServer name) := by
  intro s
  rw [Change.run, clearCurrentServer, bind_of_ok (root_eq_ok.2 ⟨rfl, rfl⟩), clearServer]
  by_cases hsel : s.root.getScalar currentServerPath = some name
  · obtain ⟨removed, s', hs', hroot⟩ := removeKey_selection .server s
    have hread : Selection.server.read s.root = some name := hsel
    exact ⟨removed, s', by rw [if_pos hsel]; exact hs', by rw [if_pos hread]; exact hroot⟩
  · have hread : ¬ Selection.server.read s.root = some name := hsel
    exact ⟨false, s, by rw [if_neg hsel]; rfl, by rw [if_neg hread]⟩

theorem removeRecord_apply (k : RecordKind) (name : String) {required : Bool} {s : Session}
    (h : required = true → k.contains name s.root = true) :
    ∃ removed s', removeRecord k name required s = (.ok removed, s') ∧
      s'.root = s.root.removeNamed k name := by
  obtain ⟨s', hs', hroot⟩ := remove_apply k name s
  refine ⟨k.contains name s.root, s', ?_, hroot⟩
  rw [removeRecord, bind_of_ok hs', if_neg]
  · rfl
  · simpa using h

theorem removeRecord_of_absent {k : RecordKind} {name : String} {s : Session}
    (h : k.contains name s.root = false) :
    ∃ s', removeRecord k name true s = (.error (.notFound k.name name), s') := by
  obtain ⟨s', hs', -⟩ := remove_apply k name s
  refine ⟨s', ?_⟩
  rw [removeRecord, bind_of_ok hs', if_pos (by simp [h])]
  rfl

end Action

namespace ChangeSet

open SharedConfig.Action

/-- The four steps of a removal: between two that drop the selections, the required record and then
the one beside it are removed. -/
theorem run_removal {k k' : RecordKind} {name : String} {first required beside last : Change}
    {f g : Node → Node}
    (hfirst : Total first f) (hrequired : required.run = removeRecord k name true)
    (hbeside : beside.run = removeRecord k' name false) (hlast : Total last g) {s : Session}
    (hsame : k.contains name (f s.root) = k.contains name s.root) :
    (k.contains name s.root = false →
      (run [first, required, beside, last] s).1 = .error (.notFound k.name name)) ∧
    (k.contains name s.root = true →
      ∃ report s', run [first, required, beside, last] s = (.ok report, s') ∧
        s'.root = g (((f s.root).removeNamed k name).removeNamed k' name)) := by
  obtain ⟨_, s1, h1, hroot1⟩ := hfirst s
  obtain ⟨done1, hrun1⟩ := runAfter_cons_of_ok h1 ⟨false, 0⟩ [required, beside, last]
  -- only the second step can fail, and the first one leaves alone what it depends on
  rw [← hroot1] at hsame
  constructor
  · intro habsent
    obtain ⟨s2, h2⟩ := removeRecord_of_absent (hsame.trans habsent)
    rw [← hrequired] at h2
    rw [run, hrun1, runAfter_cons_of_error h2]
  · intro hpresent
    obtain ⟨_, s2, h2, hroot2⟩ := removeRecord_apply k name fun _ => hsame.trans hpresent
    have hfree : false = true → k'.contains name s2.root = true := fun hf => by cases hf
    obtain ⟨_, s3, h3, hroot3⟩ := removeRecord_apply k' name hfree
    obtain ⟨_, s4, h4, hroot4⟩ := hlast s3
    rw [← hrequired] at h2
    rw [← hbeside] at h3
    obtain ⟨done2, hrun2⟩ := runAfter_cons_of_ok h2 done1 [beside, last]
    obtain ⟨done3, hrun3⟩ := runAfter_cons_of_ok h3 done2 [last]
    obtain ⟨done4, hrun4⟩ := runAfter_cons_of_ok h4 done3 []
    refine ⟨done4, s4, ?_, ?_⟩
    · rw [run, hrun1, hrun2, hrun3, hrun4]
      rfl
    · rw [hroot4, hroot3, hroot2, hroot1]

theorem run_removeContext (name : String) (s : Session) :
    (RecordKind.context.contains name s.root = false →
      (run (removeContext name) s).1 = .error (.notFound RecordKind.context.name name)) ∧
    (RecordKind.context.contains name s.root = true →
      ∃ report s', run (removeContext name) s = (.ok report, s') ∧
        s'.root = s.root.dropContext name) :=
  run_removal (clearCurrentContext_total name) rfl rfl (clearCurrentServer_total name)
    ((clearContext_onlyUnder name s.root).contains (by decide) name)

theorem run_removeServer (name : String) (s : Session) :
    (RecordKind.server.contains name s.root = false →
      (run (removeServer name) s).1 = .error (.notFound RecordKind.server.name name)) ∧
    (RecordKind.server.contains name s.root = true →
      ∃ report s', run (removeServer name) s = (.ok report, s') ∧
        s'.root = s.root.dropServer name) :=
  run_removal (clearCurrentServer_total name) rfl rfl (clearCurrentContext_total name)
    ((clearServer_onlyUnder name s.root).contains (by decide) name)

end ChangeSet

/-- Changes that fail if there is no record of a kind and a name, and else remove all of that name.
-/
structure RemovesAll (changes : ChangeSet) (k : RecordKind) (name : String) (s : Session) : Prop where
  fails : k.contains name s.root = false → (changes.run s).1 = .error (.notFound k.name name)
  succeeds : k.contains name s.root = true →
    ∃ report s', changes.run s = (.ok report, s') ∧ Removed name s.root s'.root

/-- The removal of a context with its server, and of a server with its context: each fails exactly
if there is no record of its kind, and else removes all of the name and nothing else. -/
theorem removal_leaves_nothing {s : Session} (h : s.root.WellKeyed) (name : String) :
    RemovesAll (.removeContext name) .context name s ∧
      RemovesAll (.removeServer name) .server name s := by
  have hremoved := removed_without h name
  obtain ⟨hcontext, hcontext'⟩ := ChangeSet.run_removeContext name s
  obtain ⟨hserver, hserver'⟩ := ChangeSet.run_removeServer name s
  refine ⟨⟨hcontext, fun hpresent => ?_⟩, ⟨hserver, fun hpresent => ?_⟩⟩
  · obtain ⟨report, s', hrun, hroot⟩ := hcontext' hpresent
    exact ⟨report, s', hrun, by rw [hroot, dropContext_eq h]; exact hremoved⟩
  · obtain ⟨report, s', hrun, hroot⟩ := hserver' hpresent
    exact ⟨report, s', hrun, by rw [hroot, dropServer_eq h]; exact hremoved⟩

/-- Of two contexts one is removed, with its server and its selections. -/
theorem removal_leaves_other_context :
    let document : Node := .mapping [
      (.string "contexts", .sequence [.mapping [(.string "name", .string "a")],
        .mapping [(.string "name", .string "b")]]),
      (.string "servers", .sequence [.mapping [(.string "name", .string "a")]]),
      (.string "currentContext",
        .mapping [(.string "kubernetes", .string "a"), (.string "tanzu", .string "b")]),
      (.string "currentServer", .string "a")]
    document.WellKeyed ∧ RecordKind.context.contains "a" document = true ∧
      ∃ report s', ChangeSet.run (.removeContext "a") (.new document .empty) = (.ok report, s') ∧
        Removed "a" document s'.root := by
  intro document
  have hkeyed : document.WellKeyed := by
    constructor
    · intro m hm
      cases hm
      decide
    · intro c hc m hm
      cases hc
      cases hm
      decide
  have hpresent : RecordKind.context.contains "a" document = true := by decide
  exact ⟨hkeyed, hpresent,
    (removal_leaves_nothing (s := .new document .empty) hkeyed "a").1.succeeds hpresent⟩

end SharedConfig
