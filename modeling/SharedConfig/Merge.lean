import SharedConfig.Entity
import SharedConfig.Strategy

/-!
# SharedConfig.Merge

The merge of a new subtree into a stored one: what the new one does not mention stays, and tags of
the stored one stay around untagged new content.

Main statements:

* `reconcile_none` — without a stored subtree the new one is taken as it is;
* `replaceBy_self` — replacing a node by itself changes nothing;
* `mergeNode_tagged` — a tagged new node takes the place of the stored one.
-/

namespace SharedConfig

def joinPath (path key : String) : String := if path = "" then key else path ++ "." ++ key

/-- The new node in place of the stored one, and whether that is a change. -/
def replaceBy (candidate existing : Node) : Node × Bool :=
  if existing = candidate then (existing, false) else (candidate, true)

theorem replaceBy_self (n : Node) : replaceBy n n = (n, false) := by simp [replaceBy]

/-- The items of two sequences that are not merged name by name. -/
def replaceItems (candidate existing : List Node) : List Node × Bool :=
  if existing = candidate then (existing, false) else (candidate, true)

mutual

/-- Merge a new node into the stored one at a path.  The answer says whether that changed it. -/
def mergeNode (table : StrategyTable) (path : String) : Node → Node → Node × Bool
  | .scalar s, existing =>
    if table.select path = .merge ∧ s.tag = none then
      match existing.core with
      | .scalar e =>
        let (core, changed) := replaceBy (.scalar s) (.scalar e)
        (existing.setCore core, changed)
      | _ => replaceBy (.scalar s) existing
    else replaceBy (.scalar s) existing
  | .sequence items, existing =>
    if table.select path = .merge then
      match existing.core with
      | .sequence old =>
        let (new, changed) :=
          if Entity.allNamed old && Entity.allNamed items then mergeItems table path items old
          else replaceItems items old
        (existing.setCore (.sequence new), changed)
      | _ => replaceBy (.sequence items) existing
    else replaceBy (.sequence items) existing
  | .mapping entries, existing =>
    if table.select path = .merge then
      match existing.core with
      | .mapping old =>
        let (new, changed) := mergeEntries table path entries old
        (existing.setCore (.mapping new), changed)
      | _ => replaceBy (.mapping entries) existing
    else replaceBy (.mapping entries) existing
  | .tagged t n, existing => replaceBy (.tagged t n) existing

def mergeEntries (table : StrategyTable) (path : String) :
    List (Scalar × Node) → Mapping → Mapping × Bool
  | [], m => (m, false)
  | (key, value) :: rest, m =>
    match m.get? key.text with
    | some old =>
      let (new, changed) := mergeNode table (joinPath path key.text) value old
      let (m, more) := mergeEntries table path rest (m.insert key new)
      (m, changed || more)
    | none => ((mergeEntries table path rest (m.insert key value)).1, true)

def mergeItems (table : StrategyTable) (path : String) : List Node → List Node → List Node × Bool
  | [], items => (items, false)
  | item :: rest, items =>
    match item.entityName with
    | none => mergeItems table path rest items
    | some name =>
      match Entity.find? name items with
      | some old =>
        let (new, changed) := mergeNode table path item old
        let (items, more) := mergeItems table path rest (Entity.put name new items)
        (items, changed || more)
      | none => ((mergeItems table path rest (items ++ [item])).1, true)

end

theorem mergeNode_tagged (table : StrategyTable) (path tag : String) (n existing : Node) :
    mergeNode table path (.tagged tag n) existing = replaceBy (.tagged tag n) existing := by
  rw [mergeNode]

theorem mergeEntries_nil (table : StrategyTable) (path : String) (m : Mapping) :
    mergeEntries table path [] m = (m, false) := by
  rw [mergeEntries]

theorem mergeItems_nil (table : StrategyTable) (path : String) (items : List Node) :
    mergeItems table path [] items = (items, false) := by
  rw [mergeItems]

/-- Merge a new node with what is stored, if anything is. -/
def reconcile (candidate : Node) (existing : Option Node) (path : String) (table : StrategyTable) :
    Node × Bool :=
  match existing with
  | none => (candidate, true)
  | some e => mergeNode table path candidate e

theorem reconcile_none (candidate : Node) (path : String) (table : StrategyTable) :
    reconcile candidate none path table = (candidate, true) := rfl

/-- Why a node cannot be put into a collection. -/
inductive MergeError where
  /-- The node is no entity. -/
  | missingName (path : String)
  deriving DecidableEq, Repr

def MergeError.message : MergeError → String
  | .missingName path => "entity for '" ++ path ++ "' must be a mapping with a non-empty name"

/-- Put an entity into a collection: merged with the first one of its name, or last. -/
def upsertEntity (table : StrategyTable) (path : String) (candidate : Node) (items : List Node) :
    Except MergeError (List Node × Bool) :=
  match candidate.entityName with
  | none => .error (.missingName path)
  | some name =>
    match Entity.find? name items with
    | some old =>
      let (new, changed) := mergeNode table path candidate old
      .ok (Entity.put name new items, changed)
    | none => .ok (items ++ [candidate], true)

/-- Drop the entities of a name.  The answer says whether there were any. -/
def removeEntity (name : String) (items : List Node) : List Node × Bool :=
  let kept := Entity.erase name items
  (kept, decide (kept.length ≠ items.length))

end SharedConfig
