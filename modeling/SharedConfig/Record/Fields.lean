import SharedConfig.Node

/-!
# SharedConfig.Record.Fields

Fields of encoded records.  What is empty or absent is left out, so that it hides nothing that is
stored.

Main statements:

* `optionField_none`, `listField_nil` — what is absent leaves no field.
-/

namespace SharedConfig

def field (name : String) (n : Node) : Mapping := [(.string name, n)]

/-- A text, unless it is empty. -/
def textField (name s : String) : Mapping := if s = "" then [] else field name (.string s)

def optionField {ρ : Type} (name : String) (encode : ρ → Node) : Option ρ → Mapping
  | none => []
  | some r => field name (encode r)

/-- A list, unless it is empty. -/
def listField {ρ : Type} (name : String) (encode : ρ → Node) : List ρ → Mapping
  | [] => []
  | rs => field name (.sequence (rs.map encode))

def boolNode (b : Bool) : Node := .scalar ⟨if b then "true" else "false", .bool, none⟩

@[simp] theorem optionField_none {ρ : Type} (name : String) (encode : ρ → Node) :
    optionField name encode none = [] := rfl

@[simp] theorem listField_nil {ρ : Type} (name : String) (encode : ρ → Node) :
    listField name encode [] = [] := rfl

end SharedConfig
