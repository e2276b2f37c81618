import SharedConfig.Yaml.Value.Reader
import SharedConfig.Text.Quoted

/-!
# SharedConfig.Record.Error

Why a value is not a record, with what was found in its place.
-/

namespace SharedConfig

open Yaml

/-- What was found where something else was expected. -/
inductive Found where
  | null
  | bool (b : Bool)
  | number (n : Number)
  | string (s : String)
  | sequence
  | mapping
  /-- A tag, where what is below it is not looked at. -/
  | tagged
  deriving DecidableEq, Repr

namespace Found

/-- What a value is, seen through its tags. -/
def ofValue : Value → Found
  | .null => .null
  | .bool b => .bool b
  | .number n => .number n
  | .string s => .string s
  | .sequence _ => .sequence
  | .mapping _ => .mapping
  | .tagged _ v => ofValue v

def text : Found → String
  | .null => "unit value"
  | .bool b => "boolean `" ++ (if b then "true" else "false") ++ "`"
  | .number (.int i) => "integer `" ++ toString i ++ "`"
  | .number (.float x) => "floating point `" ++ x.write Binary64.plainStyle ++ "`"
  | .string s => "string " ++ quoted s
  | .sequence => "sequence"
  | .mapping => "map"
  | .tagged => "enum"

end Found

/-- Why a value is not a record. -/
inductive DecodeError where
  | missingField (name : String)
  | duplicateField (name : String)
  | unknownVariant (name : String) (expected : List String)
  | invalidType (found : Found) (expected : String)
  | invalidValue (found : Found) (expected : String)
  /-- The text of the record cannot be read. -/
  | unreadable (cause : ReadError)
  deriving DecidableEq, Repr

namespace DecodeError

/-- Words in backticks, as alternatives. -/
def alternatives : List String → String
  | [a, b] => "`" ++ a ++ "` or `" ++ b ++ "`"
  | names => "one of " ++ ", ".intercalate (names.map fun n => "`" ++ n ++ "`")

def message : DecodeError → String
  | missingField name => "missing field `" ++ name ++ "`"
  | duplicateField name => "duplicate field `" ++ name ++ "`"
  | unknownVariant name expected =>
    "unknown variant `" ++ name ++ "`, expected " ++ alternatives expected
  | invalidType found expected => "invalid type: " ++ found.text ++ ", expected " ++ expected
  | invalidValue found expected => "invalid value: " ++ found.text ++ ", expected " ++ expected
  | unreadable cause => cause.message

end DecodeError

end SharedConfig
