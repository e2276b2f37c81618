import SharedConfig.Proofs.Collection
import SharedConfig.Store.Change

/-!
# SharedConfig.Proofs.Selection

The selections of a document: of a context for each target, and of a server.  An action on one of
them leaves the others and all collections alone (`OnlySelection`).

* `setScalar_selection`: a selection that was made is read back.
* `read_dropSelection`: a selection that was dropped is none, unless its key stands twice.
* `dropSelection_server_eq`, `dropSelection_context_eq`: dropping a selection as one pass over the
  document.
-/

namespace SharedConfig

open Node

/-- A selection of a record. -/
inductive Selection where
  | context (t : Target)
  | server
  deriving DecidableEq, Repr

namespace Selection

def kind : Selection → RecordKind
  | context _ => .context
  | server => .server

def path : Selection → KeyPath
  | context t => currentContextPath t
  | server => currentServerPath

/-- The keys above the last one of the path. -/
def above : Selection → List String
  | context _ => ["currentContext"]
  | server => []

def leaf : Selection → String
  | context t => t.name
  | server => "currentServer"

/-- The key of the document that the selection is under. -/
def topKey : Selection → String
  | context _ => "currentContext"
  | server => "currentServer"

def read (sel : Selection) (root : Node) : Option String := root.getScalar sel.path

theorem path_eq (sel : Selection) : sel.path = KeyPath.of (sel.above ++ [sel.leaf]) .scalar := by
  cases sel <;> rfl

theorem read_eq (sel : Selection) (root : Node) :
    sel.read root = (root.at? (sel.above ++ [sel.leaf])).bind asText := by
  rw [read, path_eq, getScalar_of (by simp)]

theorem read_context (t : Target) (root : Node) :
    (context t).read root =
      ((root.child? "currentContext").bind (Node.child? t.name)).bind asText := by
  have hleaf : Node.at? [t.name] = Node.child? t.name := funext (at?_singleton t.name)
  rw [read_eq, above, leaf, List.singleton_append, at?_cons, hleaf]

theorem read_server (root : Node) : server.read root = (root.child? "currentServer").bind asText := by
  rw [read_eq, above, leaf, List.nil_append, at?_singleton]

theorem topKey_ne (sel : Selection) (k : RecordKind) : k.topKey ≠ sel.topKey := by
  cases sel <;> cases k <;> simp [topKey, RecordKind.topKey]

end Selection

theorem Target.name_injective {t u : Target} (h : t.name = u.name) : t = u :=
  currentContextPath_injective (by rw [currentContextPath, h, currentContextPath])

theorem Node.OnlyUnder.read {key : String} {a b : Node} (h : OnlyUnder key a b) {sel : Selection}
    (hk : sel.topKey ≠ key) : sel.read b = sel.read a := by
  cases sel with
  | context t =>
    have hchild : b.child? "currentContext" = a.child? "currentContext" := h.child? hk
    rw [Selection.read_context, Selection.read_context, hchild]
  | server =>
    have hchild : b.child? "currentServer" = a.child? "currentServer" := h.child? hk
    rw [Selection.read_server, Selection.read_server, hchild]

theorem Upserted.read {k : RecordKind} {r : k.Record} {table : StrategyTable} {a b : Node}
    (h : Upserted k r table a b) (sel : Selection) : sel.read b = sel.read a :=
  h.frame.read (sel.topKey_ne k).symm

/-- No text stands twice among the keys of a document, and among those of its selections. -/
structure Node.WellKeyed (root : Node) : Prop where
  top : root.DistinctKeys
  selections : ∀ c, root.child? "currentContext" = some c → c.DistinctKeys

theorem distinctKeys_empty (kind : NodeKind) : (Node.empty kind).DistinctKeys := by
  intro m hm
  cases kind <;> cases hm
  exact List.nodup_nil

theorem wellKeyed_empty : (Node.mapping []).WellKeyed where
  top := distinctKeys_empty .mapping
  selections _ h := nomatch h

theorem Node.WellKeyed.of_onlyUnder {key : String} {a b : Node} (h : a.WellKeyed)
    (hu : OnlyUnder key a b) (hk : "currentContext" ≠ key) : b.WellKeyed where
  top := hu.distinct h.top
  selections c hc := h.selections c (by rw [← hu.child? hk]; exact hc)

/-- A change of one selection alone. -/
structure OnlySelection (sel : Selection) (before after : Node) : Prop where
  frame : OnlyUnder sel.topKey before after
  others : ∀ other, other ≠ sel → other.read after = other.read before
  keyed : before.WellKeyed → after.WellKeyed

namespace OnlySelection

variable {sel : Selection} {a b : Node}

theorem collection (h : OnlySelection sel a b) (k : RecordKind) : b.collection k = a.collection k :=
  h.frame.collection (sel.topKey_ne k)

theorem names (h : OnlySelection sel a b) (k : RecordKind) : k.names b = k.names a :=
  h.frame.names (sel.topKey_ne k)

end OnlySelection

section Edits

variable {β : Type} {create : Bool}

/-- An edit under one key of the mapping at a key keeps the keys of that mapping apart. -/
theorem distinctKeys_editAt_singleton {edit : Node → Node × β} {key : String}
    (hedit : ∀ n, OnlyUnder key n (edit n).1) {s : PathStep} {n : Node}
    (h : ∀ c, n.child? s.name = some c → c.DistinctKeys) {c : Node}
    (hc : (editAt create edit [s] n).1.child? s.name = some c) : c.DistinctKeys := by
  rcases editAt_cons_cases create edit s [] n with ⟨he, -⟩ | ⟨m, x, hm, hx, he⟩
  · rw [he] at hc
    exact h c hc
  · rw [he, child?_setCore_insert] at hc
    cases hc
    refine (hedit x).distinct ?_
    rcases editedChild_eq_some hx with ⟨hget, -⟩ | ⟨-, rfl, -⟩
    · exact h x (by rw [child?_of_asMapping hm, hget])
    · exact distinctKeys_empty s.kind

/-- An edit under the last key of the path of a selection is a change of that selection alone. -/
theorem onlySelection_editAbove (create : Bool) {edit : Node → Node × β} (sel : Selection)
    (hedit : ∀ n, OnlyUnder sel.leaf n (edit n).1) (root : Node) :
    OnlySelection sel root (editAt create edit (KeyPath.of sel.above .mapping) root).1 := by
  cases sel with
  | server =>
    have hframe : OnlyUnder "currentServer" root (edit root).1 := hedit root
    exact ⟨hframe, fun other hne => hframe.read (by cases other <;> simp_all [Selection.topKey]),
      fun h => h.of_onlyUnder hframe (by simp)⟩
  | context t =>
    have hframe : OnlyUnder "currentContext" root
        (editAt create edit (KeyPath.of ["currentContext"] .mapping) root).1 :=
      editAt_onlyUnder create edit ⟨"currentContext", .mapping⟩ [] root
    refine ⟨hframe, fun other hne => ?_, fun h => ⟨hframe.distinct h.top, fun c hc => ?_⟩⟩
    -- the selections for other targets are under the same key of the document, beside this one
    · cases other with
      | server => exact hframe.read (by simp [Selection.topKey])
      | context u =>
        have hname : u.name ≠ t.name := fun he =>
          hne (congrArg Selection.context (Target.name_injective he))
        rw [Selection.read_eq, Selection.read_eq]
        exact congrArg (Option.bind · asText)
          (at?_editAbove create hedit hname ["currentContext"] [] root)
    · exact distinctKeys_editAt_singleton hedit h.selections hc

end Edits

/-! ## Making a selection -/

theorem root_of_setScalar {path : KeyPath} {value : String} {s s' : Session} {changed : Bool}
    (h : Action.setScalar path value s = (.ok changed, s')) :
    s'.root = (s.root.setScalar path value).1 := by
  simp only [Action.setScalar] at h
  split at h
  · cases h; rfl
  · split at h
    · cases h; rfl
    · cases h

theorem setScalar_selection {sel : Selection} {value : String} {s s' : Session} {changed : Bool}
    (h : Action.setScalar sel.path value s = (.ok changed, s')) :
    OnlySelection sel s.root s'.root ∧ sel.read s'.root = some value := by
  have hroot := root_of_setScalar h
  constructor
  · rw [hroot, Selection.path_eq, setScalar_of]
    exact onlySelection_editAbove true sel (writeKey_onlyUnder sel.leaf value) s.root
  · cases hw : (s.root.setScalar sel.path value).2 with
    | true =>
      rw [hroot, Selection.read, Selection.path_eq]
      rw [Selection.path_eq] at hw
      exact getScalar_setScalar hw
    | false =>
      simp only [Action.setScalar, hw, Bool.false_eq_true, if_false] at h
      split at h
      · rename_i hsame
        cases h
        exact hsame
      · cases h

/-! ## Dropping a selection -/

def Node.dropSelection (sel : Selection) (root : Node) : Node := (root.removeKey sel.path).1

theorem dropSelection_onlySelection (sel : Selection) (root : Node) :
    OnlySelection sel root (root.dropSelection sel) := by
  rw [dropSelection, Selection.path_eq, removeKey_of]
  exact onlySelection_editAbove false sel (dropKey_onlyUnder sel.leaf) root

/-- Dropping a selection, as one pass over the document. -/
theorem dropSelection_server_eq {root : Node} (h : root.WellKeyed) :
    root.dropSelection .server =
      root.mapEntries fun key v => if key = "currentServer" then none else some v := by
  rw [dropSelection, Selection.path_eq, removeKey_of]
  exact dropKey_eq h.top "currentServer"

theorem dropSelection_context_eq {root : Node} (h : root.WellKeyed) (t : Target) :
    root.dropSelection (.context t) = root.mapEntries fun key v =>
      some (if key = "currentContext" then
        v.mapEntries fun u x => if u = t.name then none else some x else v) := by
  have hedit : root.dropSelection (.context t) =
      (editAt false (dropKey t.name) [⟨"currentContext", .mapping⟩] root).1 := by
    rw [dropSelection, Selection.path_eq, removeKey_of]
    rfl
  rw [hedit, editAt_singleton_eq h.top]
  refine mapEntries_congr h.top fun key v hv => ?_
  by_cases hkey : key = "currentContext"
  · subst hkey
    by_cases hk : v.kind = .mapping
    · simp [hk, dropKey_eq (h.selections v hv)]
    · simp [hk, mapEntries_of_none (asMapping_eq_none hk)]
  · simp [hkey]

theorem read_dropSelection {root : Node} (h : root.WellKeyed) (sel : Selection) :
    sel.read (root.dropSelection sel) = none := by
  cases sel with
  | server =>
    rw [Selection.read_server, dropSelection_server_eq h, child?_mapEntries h.top]
    cases root.child? "currentServer" <;> simp
  | context t =>
    rw [Selection.read_context, dropSelection_context_eq h, child?_mapEntries h.top]
    cases hc : root.child? "currentContext" with
    | none => rfl
    | some c =>
      have hchild := child?_mapEntries (f := fun u x => if u = t.name then none else some x)
        (h.selections c hc) t.name
      simp only [Option.bind_some, if_true, hchild]
      cases c.child? t.name <;> simp

theorem Action.removeKey_selection (sel : Selection) (s : Session) :
    ∃ changed s', Action.removeKey sel.path s = (.ok changed, s') ∧
      s'.root = s.root.dropSelection sel :=
  ⟨_, _, rfl, rfl⟩

end SharedConfig
