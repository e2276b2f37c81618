/-!
# SharedConfig.Node

The tree of a shared document: scalars with the kind they were written in, sequences, mappings in
document order, and tagged collections.

Main statements:

* `Node.kind_tagged` — a tag does not change what a collection is;
* `Node.kind_empty` — an empty node has the kind it was made for.
-/

namespace SharedConfig

/-- What a scalar was written as. -/
inductive ScalarKind where
  | null
  | bool
  | int
  | float
  | str
  deriving DecidableEq, Repr, Inhabited

/-- A leaf: its text, the kind it was written as, and its tag. -/
structure Scalar where
  text : String
  kind : ScalarKind
  tag : Option String
  deriving DecidableEq, Repr, Inhabited

namespace Scalar

def string (s : String) : Scalar := ⟨s, .str, none⟩

def null : Scalar := ⟨"", .null, none⟩

/-- Whether a scalar is a null, tagged or not. -/
def isNull (s : Scalar) : Bool := decide (s.kind = .null)

@[simp] theorem text_string (s : String) : (string s).text = s := rfl

end Scalar

/-- The shape of a node. -/
inductive NodeKind where
  | mapping
  | sequence
  | scalar
  deriving DecidableEq, Repr, Inhabited

def NodeKind.name : NodeKind → String
  | .mapping => "mapping"
  | .sequence => "sequence"
  | .scalar => "scalar"

/-- A node of a document tree.  Tags of scalars are kept with the scalar. -/
inductive Node where
  | scalar (s : Scalar)
  | sequence (items : List Node)
  | mapping (entries : List (Scalar × Node))
  | tagged (tag : String) (node : Node)
  deriving Inhabited

/-- The entries of a mapping in document order. -/
abbrev Mapping := List (Scalar × Node)

namespace Node

/-! ## Equality -/

mutual

def decEq : (a b : Node) → Decidable (a = b)
  | .scalar s, .scalar t => if h : s = t then isTrue (by rw [h]) else isFalse (by simpa using h)
  | .sequence a, .sequence b =>
    match decEqItems a b with
    | isTrue h => isTrue (by rw [h])
    | isFalse h => isFalse (by simpa using h)
  | .mapping a, .mapping b =>
    match decEqEntries a b with
    | isTrue h => isTrue (by rw [h])
    | isFalse h => isFalse (by simpa using h)
  | .tagged t a, .tagged u b =>
    match decEq a b with
    | isTrue h => if ht : t = u then isTrue (by rw [h, ht]) else isFalse (by simp [ht])
    | isFalse h => isFalse (by simp [h])
  | .scalar _, .sequence _ | .scalar _, .mapping _ | .scalar _, .tagged .. => isFalse (by simp)
  | .sequence _, .scalar _ | .sequence _, .mapping _ | .sequence _, .tagged .. => isFalse (by simp)
  | .mapping _, .scalar _ | .mapping _, .sequence _ | .mapping _, .tagged .. => isFalse (by simp)
  | .tagged .., .scalar _ | .tagged .., .sequence _ | .tagged .., .mapping _ => isFalse (by simp)

def decEqItems : (a b : List Node) → Decidable (a = b)
  | [], [] => isTrue rfl
  | [], _ :: _ => isFalse (by simp)
  | _ :: _, [] => isFalse (by simp)
  | a :: as, b :: bs =>
    match decEq a b, decEqItems as bs with
    | isTrue h, isTrue hs => isTrue (by rw [h, hs])
    | isFalse h, _ => isFalse (by simp [h])
    | _, isFalse h => isFalse (by simp [h])

def decEqEntries : (a b : List (Scalar × Node)) → Decidable (a = b)
  | [], [] => isTrue rfl
  | [], _ :: _ => isFalse (by simp)
  | _ :: _, [] => isFalse (by simp)
  | (k, a) :: as, (l, b) :: bs =>
    match decEq a b, decEqEntries as bs with
    | isTrue h, isTrue hs =>
      if hk : k = l then isTrue (by rw [h, hs, hk]) else isFalse (by simp [hk])
    | isFalse h, _ => isFalse (by simp [h])
    | _, isFalse h => isFalse (by simp [h])

end

instance : DecidableEq Node := decEq

/-! ## Views -/

def string (s : String) : Node := .scalar (.string s)

def empty : NodeKind → Node
  | .mapping => .mapping []
  | .sequence => .sequence []
  | .scalar => .scalar .null

/-- A node without the tags around it. -/
def core : Node → Node
  | .tagged _ n => n.core
  | n => n

/-- A node with what its tags hold replaced. -/
def setCore : Node → Node → Node
  | .tagged t n, new => .tagged t (n.setCore new)
  | _, new => new

/-- The shape of a node, seen through its tags. -/
def kind : Node → NodeKind
  | .scalar _ => .scalar
  | .sequence _ => .sequence
  | .mapping _ => .mapping
  | .tagged _ n => n.kind

/-- The entries of a mapping, seen through its tags. -/
def asMapping : Node → Option Mapping
  | .mapping m => some m
  | .tagged _ n => n.asMapping
  | _ => none

def asSequence : Node → Option (List Node)
  | .sequence items => some items
  | .tagged _ n => n.asSequence
  | _ => none

/-- The scalar of a leaf that no tag is wrapped around. -/
def asScalar : Node → Option Scalar
  | .scalar s => some s
  | _ => none

/-- The text of a leaf that is no null. -/
def asText (n : Node) : Option String :=
  match n.asScalar with
  | some s => if s.isNull then none else some s.text
  | none => none

def tag : Node → Option String
  | .tagged t _ => some t
  | .scalar s => s.tag
  | _ => none

/-- Whether a node holds nothing; a tagged collection always counts as something. -/
def isEmptyValue : Node → Bool
  | .mapping m => m.isEmpty
  | .sequence items => items.isEmpty
  | .scalar s => s.isNull
  | .tagged .. => false

@[simp] theorem kind_tagged (t : String) (n : Node) : (Node.tagged t n).kind = n.kind := rfl

@[simp] theorem kind_empty (k : NodeKind) : (empty k).kind = k := by cases k <;> rfl

@[simp] theorem kind_core (n : Node) : n.core.kind = n.kind := by
  induction n using Node.core.induct with
  | case1 t n ih => simpa [core] using ih
  | case2 n h => rw [core]; exact h

end Node

end SharedConfig
