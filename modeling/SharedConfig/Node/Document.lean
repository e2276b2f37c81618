import SharedConfig.Node.Value
import SharedConfig.Text.Blank
import SharedConfig.Yaml.Value.Reader
import SharedConfig.Yaml.Printer

/-!
# SharedConfig.Node.Document

Documents as texts.  The root of a document is a mapping; a document without content is the empty
mapping.
-/

namespace SharedConfig

open Yaml

/-- Why a document cannot be read or written. -/
inductive NodeError where
  /-- The text is not of the notation, or has no value. -/
  | unreadable (cause : ReadError)
  /-- The tree has no text. -/
  | unwritable (cause : PrintError)
  /-- A key is a collection. -/
  | nonScalarKey (kind : NodeKind)
  /-- The root is not a mapping. -/
  | rootNotMapping (kind : NodeKind)
  deriving DecidableEq, Repr

def NodeError.message : NodeError → String
  | .unreadable cause => "invalid YAML: " ++ cause.message
  | .unwritable cause => "invalid YAML: " ++ cause.message
  | .nonScalarKey kind => "unsupported " ++ kind.name ++ " used as mapping key"
  | .rootNotMapping kind => "document root must be a mapping, found " ++ kind.name

namespace Node

def rootOfValue (v : Value) : Except NodeError Node :=
  match ofValue v with
  | .error kind => .error (.nonScalarKey kind)
  | .ok (.mapping m) => .ok (.mapping m)
  | .ok (.scalar s) => if s.isNull then .ok (.mapping []) else .error (.rootNotMapping .scalar)
  | .ok other => .error (.rootNotMapping other.kind)

def parseDocument (text : String) : Except NodeError Node :=
  if isBlankText text then .ok (.mapping [])
  else
    match Value.ofText text with
    | .error e => .error (.unreadable e)
    | .ok v => rootOfValue v

/-- What becomes of a tree that is written. -/
inductive Printed where
  | text (s : String)
  | refused (cause : PrintError)
  /-- The tree has no value. -/
  | impossible
  deriving DecidableEq, Repr

def print (n : Node) : Printed :=
  match n.toValue? with
  | none => .impossible
  | some v =>
    match v.print with
    | .ok s => .text s
    | .error e => .refused e

end Node

end SharedConfig
