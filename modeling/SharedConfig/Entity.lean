import SharedConfig.Mapping

/-!
# SharedConfig.Entity

Entities: mappings with a name, and sequences of them.

Main statements:

* `Entity.find?_put_self` — an entity that was put under its name is found.
-/

namespace SharedConfig

/-- The name of an entity: a mapping whose `name` is a non-empty text. -/
def Node.entityName (n : Node) : Option String :=
  match n.asMapping with
  | none => none
  | some m =>
    match m.get? "name" with
    | none => none
    | some v =>
      match v.asText with
      | some s => if s = "" then none else some s
      | none => none

namespace Entity

def names (items : List Node) : List String := items.filterMap Node.entityName

def find? (name : String) (items : List Node) : Option Node :=
  items.find? fun n => decide (n.entityName = some name)

def index? (name : String) (items : List Node) : Option Nat :=
  items.findIdx? fun n => decide (n.entityName = some name)

/-- Put a node in the place of the first entity of a name, or last. -/
def put (name : String) (node : Node) : List Node → List Node
  | [] => [node]
  | n :: rest => if n.entityName = some name then node :: rest else n :: put name node rest

/-- Drop all entities of a name. -/
def erase (name : String) (items : List Node) : List Node :=
  items.filter fun n => decide (n.entityName ≠ some name)

def allNamed (items : List Node) : Bool := items.all fun n => n.entityName.isSome

theorem find?_put_self {name : String} {node : Node} (h : node.entityName = some name)
    (items : List Node) : find? name (put name node items) = some node := by
  induction items with
  | nil => simp [put, find?, h]
  | cons n rest ih =>
    by_cases hn : n.entityName = some name
    · simp [put, find?, hn, h]
    · simp only [find?] at ih
      simp [put, find?, hn, ih]

end Entity

end SharedConfig
