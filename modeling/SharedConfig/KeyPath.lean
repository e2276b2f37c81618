import SharedConfig.Node

/-!
# SharedConfig.KeyPath

Paths of keys from the root, each step with the shape that is expected there.

Main statements:

* `KeyPath.parent?_child` — for paths of mappings, a child's parent is the path itself.
-/

namespace SharedConfig

/-- A step: a key and the shape expected at it. -/
structure PathStep where
  name : String
  kind : NodeKind
  deriving DecidableEq, Repr, Inhabited

/-- A path from the root. -/
abbrev KeyPath := List PathStep

/-- Why a dotted text is no path. -/
inductive PathError where
  /-- Between two dots, or at an end, there is nothing. -/
  | emptySegment (dotted : String)
  deriving DecidableEq, Repr

def PathError.message : PathError → String
  | .emptySegment dotted => "path '" ++ dotted ++ "' contains empty segment"

namespace KeyPath

/-- The path of some names: mappings, and a last step of the given shape. -/
def of : List String → NodeKind → KeyPath
  | [], _ => []
  | [name], kind => [⟨name, kind⟩]
  | name :: rest, kind => ⟨name, .mapping⟩ :: of rest kind

def segments : List Char → List (List Char)
  | [] => [[]]
  | c :: rest =>
    match segments rest with
    | [] => [[c]]
    | s :: ss => if c = '.' then [] :: s :: ss else (c :: s) :: ss

/-- The path of a dotted text. -/
def withLeaf (dotted : String) (kind : NodeKind) : Except PathError KeyPath :=
  if dotted = "" then .ok []
  else
    let names := segments dotted.toList
    if names.any List.isEmpty then .error (.emptySegment dotted)
    else .ok (of (names.map String.ofList) kind)

def names (p : KeyPath) : List String := p.map PathStep.name

/-- The dotted form of a path. -/
def dotted (p : KeyPath) : String := ".".intercalate p.names

def parent? (p : KeyPath) : Option KeyPath :=
  match p with
  | [] => none
  | s :: rest => some (s :: rest).dropLast

/-- Every step taken to be a mapping. -/
def asMappings (p : KeyPath) : KeyPath := p.map fun s => ⟨s.name, .mapping⟩

/-- The path with its last step taken to be a mapping. -/
def extendable : KeyPath → KeyPath
  | [] => []
  | [s] => [⟨s.name, .mapping⟩]
  | s :: rest => s :: extendable rest

/-- The path one step longer; what was last has now something below it, so it is a mapping. -/
def child (p : KeyPath) (name : String) (kind : NodeKind) : KeyPath :=
  p.extendable ++ [⟨name, kind⟩]

/-- The path to the mapping that holds the last key, and that key. -/
def splitLeaf (p : KeyPath) : Option (KeyPath × String) :=
  match p.getLast?, p.parent? with
  | some leaf, some parent => some (parent.asMappings, leaf.name)
  | _, _ => none

theorem extendable_of_mappings {p : KeyPath} (h : ∀ s ∈ p, s.kind = .mapping) :
    p.extendable = p := by
  induction p using extendable.induct with
  | case1 => rfl
  | case2 s =>
    have := h s (by simp)
    obtain ⟨name, kind⟩ := s
    simp_all [extendable]
  | case3 s rest hne ih =>
    rw [extendable, ih fun t ht => h t (by simp [ht])]
    exact hne

theorem parent?_child {p : KeyPath} (h : ∀ s ∈ p, s.kind = .mapping) (name : String)
    (kind : NodeKind) : (p.child name kind).parent? = some p := by
  rw [child, extendable_of_mappings h]
  cases p with
  | nil => rfl
  | cons s rest => simp [parent?, List.dropLast_cons_of_ne_nil]

end KeyPath

end SharedConfig
