import SharedConfig.Dictionary
import SharedConfig.Text.Blank

/-!
# SharedConfig.Strategy

How a stored subtree meets a new one: field by field, or replaced as a whole; and the table that
says so for paths.

Main statements:

* `StrategyTable.select_empty` — what the table does not mention is merged.
-/

namespace SharedConfig

/-- How a stored subtree meets a new one. -/
inductive PatchStrategy where
  | merge
  | replace
  deriving DecidableEq, Repr, Inhabited

namespace PatchStrategy

def name : PatchStrategy → String
  | merge => "merge"
  | replace => "replace"

/-- The strategy that a word names, in any case and with white space around it. -/
def ofText? (s : String) : Option PatchStrategy :=
  let word := lowercase (String.ofList (trim s.toList))
  if word = "merge" then some merge
  else if word = "replace" then some replace
  else none

end PatchStrategy

/-- Strategies by dotted path, in the order of the paths. -/
structure StrategyTable where
  entries : Dictionary PatchStrategy
  deriving DecidableEq, Repr

namespace StrategyTable

def empty : StrategyTable := ⟨[]⟩

def get? (t : StrategyTable) (path : String) : Option PatchStrategy := t.entries.lookup path

/-- The strategy for a path; what is not mentioned is merged. -/
def select (t : StrategyTable) (path : String) : PatchStrategy := (t.get? path).getD .merge

def insert (t : StrategyTable) (path : String) (s : PatchStrategy) : StrategyTable :=
  ⟨Dictionary.insert path s t.entries⟩

def erase (t : StrategyTable) (path : String) : StrategyTable :=
  ⟨Dictionary.erase path t.entries⟩

/-- The table of some entries, later ones over earlier ones. -/
def ofList (entries : List (String × PatchStrategy)) : StrategyTable :=
  ⟨Dictionary.ofList entries⟩

@[simp] theorem select_empty (path : String) : empty.select path = .merge := rfl

end StrategyTable

end SharedConfig
