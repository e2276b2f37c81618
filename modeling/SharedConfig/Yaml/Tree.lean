import SharedConfig.Yaml.Token

/-!
# SharedConfig.Yaml.Tree

The tree of a document as it is written: scalars are not yet resolved, aliases not yet expanded.
-/

namespace SharedConfig.Yaml

/-- What may stand before a node: a tag, in full, and an anchor. -/
structure Properties where
  tag : Option Tag
  anchor : Option Nat
  deriving DecidableEq, Repr, Inhabited

def Properties.none : Properties := ⟨.none, .none⟩

/-- A node of a document as it is written. -/
inductive Tree where
  | scalar (text : String) (style : ScalarStyle) (props : Properties)
  | sequence (items : List Tree) (props : Properties)
  | mapping (entries : List (Tree × Tree)) (props : Properties)
  | alias (slot : Nat)
  deriving Repr, Inhabited

namespace Tree

def empty : Tree := .scalar "" .plain .none

mutual

/-- The number of scalars, aliases and brackets of a node. -/
def weight : Tree → Nat
  | .scalar .. => 1
  | .alias _ => 1
  | .sequence items _ => 2 + weightItems items
  | .mapping entries _ => 2 + weightEntries entries

def weightItems : List Tree → Nat
  | [] => 0
  | t :: ts => weight t + weightItems ts

def weightEntries : List (Tree × Tree) → Nat
  | [] => 0
  | (k, v) :: es => weight k + weight v + weightEntries es

end

/-- The slot of a node with an anchor, and the node. -/
def ownAnchor (t : Tree) (props : Properties) : List (Nat × Tree) :=
  match props.anchor with
  | some slot => [(slot, t)]
  | none => []

mutual

/-- The anchored nodes with their slots, in the order in which they begin. -/
def anchored : Tree → List (Nat × Tree)
  | .scalar text style props => ownAnchor (.scalar text style props) props
  | .alias _ => []
  | .sequence items props => ownAnchor (.sequence items props) props ++ anchoredItems items
  | .mapping entries props => ownAnchor (.mapping entries props) props ++ anchoredEntries entries

def anchoredItems : List Tree → List (Nat × Tree)
  | [] => []
  | t :: ts => anchored t ++ anchoredItems ts

def anchoredEntries : List (Tree × Tree) → List (Nat × Tree)
  | [] => []
  | (k, v) :: es => anchored k ++ anchored v ++ anchoredEntries es

end

end Tree

/-- A document: its root, if it has one, with the anchored nodes, the last one of a slot first. -/
structure Document where
  root : Option Tree
  anchors : List (Nat × Tree)

namespace Document

def ofRoot : Option Tree → Document
  | none => ⟨none, []⟩
  | some t => ⟨some t, t.anchored.reverse⟩

/-- How many aliases may be expanded in all. -/
def aliasLimit (d : Document) : Nat :=
  match d.root with
  | none => 100
  | some t => t.weight * 100

end Document

end SharedConfig.Yaml
