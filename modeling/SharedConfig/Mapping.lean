import SharedConfig.Node

/-!
# SharedConfig.Mapping

Mappings as dictionaries: keys are looked up by their text, the first entry with it counts, and the
order of entries is the order of the document.

Main statements:

* `Mapping.get?_insert_self`, `Mapping.get?_insert_of_ne` — an insertion is read back, and nothing
  else changes;
* `Mapping.keys_insert_of_mem` — inserting a present key moves nothing.
-/

namespace SharedConfig.Mapping

def keys (m : Mapping) : List String := m.map fun e => e.1.text

/-- The value of the first entry whose key has a text. -/
def get? (m : Mapping) (key : String) : Option Node :=
  match m with
  | [] => none
  | (k, v) :: rest => if k.text = key then some v else get? rest key

def contains (m : Mapping) (key : String) : Bool := (m.get? key).isSome

/-- Set the value at a key; a present key keeps its place and its scalar, an absent one comes last.
-/
def insert (m : Mapping) (key : Scalar) (value : Node) : Mapping :=
  match m with
  | [] => [(key, value)]
  | (k, v) :: rest =>
    if k.text = key.text then (k, value) :: rest else (k, v) :: insert rest key value

/-- Drop the first entry whose key has a text. -/
def erase (m : Mapping) (key : String) : Mapping :=
  match m with
  | [] => []
  | (k, v) :: rest => if k.text = key then rest else (k, v) :: erase rest key

/-- The value at a key, and the mapping in which it is present. -/
def getOrInsert (m : Mapping) (key : String) (default : Node) : Node × Mapping :=
  match m.get? key with
  | some v => (v, m)
  | none => (default, m.insert (.string key) default)

/-- Replace each value by what a function makes of its key and of itself. -/
def mapValues (m : Mapping) (f : Scalar → Node → Node) : Mapping := m.map fun e => (e.1, f e.1 e.2)

def setAll (m : Mapping) (value : Node) : Mapping := m.mapValues fun _ _ => value

def ofList (entries : List (Scalar × Node)) : Mapping :=
  entries.foldl (fun m e => m.insert e.1 e.2) []

@[simp] theorem get?_nil (key : String) : get? [] key = none := rfl

@[simp] theorem get?_insert_self (m : Mapping) (key : Scalar) (value : Node) :
    (m.insert key value).get? key.text = some value := by
  induction m with
  | nil => simp [insert, get?]
  | cons e m ih =>
    obtain ⟨k, v⟩ := e
    by_cases h : k.text = key.text <;> simp [insert, get?, h, ih]

theorem get?_insert_of_ne (m : Mapping) (key : Scalar) (value : Node) {other : String}
    (h : key.text ≠ other) : (m.insert key value).get? other = m.get? other := by
  induction m with
  | nil => simp [insert, get?, h]
  | cons e m ih =>
    obtain ⟨k, v⟩ := e
    by_cases hk : k.text = key.text
    · simp [insert, get?, hk, h]
    · by_cases ho : k.text = other
      · subst ho
        simp [insert, get?, hk]
      · simp [insert, get?, hk, ho, ih]

theorem keys_insert_of_mem (m : Mapping) (key : Scalar) (value : Node) (h : key.text ∈ m.keys) :
    (m.insert key value).keys = m.keys := by
  induction m with
  | nil => simp [keys] at h
  | cons e m ih =>
    obtain ⟨k, v⟩ := e
    by_cases hk : k.text = key.text
    · simp [insert, keys, hk]
    · have : key.text ∈ keys m := by
        rcases List.mem_cons.1 h with h | h
        · exact absurd h.symm hk
        · exact h
      simpa [insert, keys, hk] using ih this

end SharedConfig.Mapping
