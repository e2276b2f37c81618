/-!
# SharedConfig.Dictionary

Dictionaries from texts to anything, in the order of their keys.

Main statements:

* `Dictionary.lookup_insert_of_ne` — nothing changes but what was put in.
-/

namespace SharedConfig

/-- Entries in the order of their keys, each key once. -/
abbrev Dictionary (β : Type) := List (String × β)

namespace Dictionary

variable {β : Type}

/-- Put an entry in its place, or over the entry of its key. -/
def insert (key : String) (value : β) : Dictionary β → Dictionary β
  | [] => [(key, value)]
  | (k, old) :: rest =>
    if k = key then (k, value) :: rest
    else if key < k then (key, value) :: (k, old) :: rest
    else (k, old) :: insert key value rest

def erase (key : String) (d : Dictionary β) : Dictionary β :=
  d.filter fun e => decide (e.1 ≠ key)

/-- The dictionary of some entries, later ones over earlier ones. -/
def ofList (entries : List (String × β)) : Dictionary β :=
  entries.foldl (fun d e => insert e.1 e.2 d) []

theorem lookup_insert_of_ne {key other : String} (h : other ≠ key) (value : β)
    (d : Dictionary β) : (insert key value d).lookup other = d.lookup other := by
  have hne : (other == key) = false := beq_eq_false_iff_ne.2 h
  induction d with
  | nil => simp [insert, List.lookup_cons, hne]
  | cons e d ih =>
    obtain ⟨k, old⟩ := e
    by_cases hk : k = key
    · subst hk
      simp [insert, List.lookup_cons, hne]
    · by_cases hlt : key < k
      · simp [insert, hk, hlt, List.lookup_cons, hne]
      · simp [insert, hk, hlt, List.lookup_cons, ih]

end Dictionary

end SharedConfig
