import SharedConfig.Mapping
import SharedConfig.KeyPath

/-!
# SharedConfig.Node.Locate

The node at a path, and edits of the node at a path.  What is absent and what has another shape than
expected are both not found; an untagged null where a collection is expected counts as absent.

Main statements:

* `Node.locate_root`, `Node.editAt_root` — the empty path leads to the root.
-/

namespace SharedConfig.Node

/-- Whether a node is an untagged null where a collection is expected. -/
def isVacant (n : Node) (expected : NodeKind) : Bool :=
  decide (expected ≠ .scalar) &&
    match n.asScalar with
    | some s => s.isNull && s.tag.isNone
    | none => false

inductive Lookup where
  | absent
  | mistyped
  | present (n : Node)

/-- What a step finds in a mapping. -/
def lookupStep (m : Mapping) (step : PathStep) : Lookup :=
  match m.get? step.name with
  | none => .absent
  | some n =>
    if n.isVacant step.kind then .absent
    else if n.kind = step.kind then .present n
    else .mistyped

def locate : KeyPath → Node → Option Node
  | [], n => some n
  | step :: rest, n =>
    match n.asMapping with
    | none => none
    | some m =>
      match lookupStep m step with
      | .present child => locate rest child
      | _ => none

/-- The child that an edit goes into: the present one, or a new empty one where it may be created.
-/
def editedChild (create : Bool) (m : Mapping) (step : PathStep) : Option Node :=
  match lookupStep m step with
  | .present child => some child
  | .absent => if create then some (.empty step.kind) else none
  | .mistyped => none

/-- Edit the node at a path.  The edit answers something, which is lost with a path that leads
nowhere; `create` makes absent nodes on the way. -/
def editAt {β : Type} (create : Bool) (edit : Node → Node × β) : KeyPath → Node → Node × Option β
  | [], n =>
    let (n, answer) := edit n
    (n, some answer)
  | step :: rest, n =>
    match n.asMapping with
    | none => (n, none)
    | some m =>
      match editedChild create m step with
      | none => (n, none)
      | some child =>
        let (child, answer) := editAt create edit rest child
        (n.setCore (.mapping (m.insert (.string step.name) child)), answer)

@[simp] theorem locate_root (n : Node) : n.locate [] = some n := rfl

@[simp] theorem editAt_root {β : Type} (create : Bool) (edit : Node → Node × β) (n : Node) :
    editAt create edit [] n = ((edit n).1, some (edit n).2) := rfl

/-- The text of the leaf at a path, unless it is null. -/
def getScalar (path : KeyPath) (root : Node) : Option String :=
  match root.locate path with
  | some n => n.asText
  | none => none

/-- Write a text at a key of a mapping, unless it is there; the answer says whether it was written.
-/
def writeKey (key value : String) (n : Node) : Node × Bool :=
  match n.asMapping with
  | none => (n, false)
  | some m =>
    if (match m.get? key with | some old => old.asText | none => none) = some value then (n, false)
    else (n.setCore (.mapping (m.insert (.string key) (.string value))), true)

def dropKey (key : String) (n : Node) : Node × Bool :=
  match n.asMapping with
  | none => (n, false)
  | some m => (n.setCore (.mapping (m.erase key)), m.contains key)

/-- Write a text at a path, and make the mappings above it where they are absent.  The answer says
whether the text was written. -/
def setScalar (path : KeyPath) (value : String) (root : Node) : Node × Bool :=
  match path.splitLeaf with
  | none => (root, false)
  | some (parent, key) =>
    let (root, answer) := editAt true (writeKey key value) parent root
    (root, answer.getD false)

def removeKey (path : KeyPath) (root : Node) : Node × Bool :=
  match path.splitLeaf with
  | none => (root, false)
  | some (parent, key) =>
    let (root, answer) := editAt false (dropKey key) parent root
    (root, answer.getD false)

/-- Drop empty nodes from the end of a path upwards; the path is given from its end. -/
def pruneFrom : List PathStep → Node → Node × Bool
  | [], root => (root, false)
  | leaf :: above, root =>
    let path : KeyPath := (leaf :: above).reverse
    if (root.locate path).any isEmptyValue then
      let (root, removed) := root.removeKey path
      let (root, more) := pruneFrom above root
      (root, removed || more)
    else (root, false)

/-- Drop the nodes along a path that are left empty, deepest first.  The answer says whether any
was dropped. -/
def pruneEmpty (path : KeyPath) (root : Node) : Node × Bool := pruneFrom path.reverse root

end SharedConfig.Node
