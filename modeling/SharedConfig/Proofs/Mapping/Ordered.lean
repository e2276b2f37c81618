import Mathlib.Data.List.Nodup
import Mathlib.Logic.Function.Basic
import SharedConfig.Proofs.Mapping

/-!
# SharedConfig.Proofs.Mapping.Ordered

What a mapping is to those who use it: an ordered dictionary, with a text for each entry.

A mapping is a list of entries that is scanned from its start.  An `OrderedDictionary` is an order of
texts and a function that finds the entry of each, and nothing is scanned.  Where no text stands
twice, a mapping lists the entries of such a dictionary, and it does so whatever is done to it.

* `entries_insert`, `entries_erase`, `entries_mapValues`: what operations are made of.
* `step_entries`, `run_entries`: one operation, and any number of them.
* `acts_as_ordered_dictionary`: mappings in which no text stands twice.
-/

namespace SharedConfig

/-! ## Ordered dictionaries -/

/-- An order of texts, and for each of them an entry whose key has this text. -/
structure OrderedDictionary where
  order : List String
  entry : String → Option (Scalar × Node)
  nodup_order : order.Nodup
  mem_order : ∀ t, t ∈ order ↔ (entry t).isSome
  text_key : ∀ t e, entry t = some e → e.1.text = t

namespace OrderedDictionary

variable (d : OrderedDictionary)

def entries : Mapping := d.order.filterMap d.entry

def get? (t : String) : Option Node := (d.entry t).map Prod.snd

/-- The key under which a value is set: the one that is there, if one is. -/
def keyFor (key : Scalar) : Scalar := (d.entry key.text).elim key Prod.fst

theorem text_keyFor (key : Scalar) : (d.keyFor key).text = key.text := by
  unfold keyFor
  cases h : d.entry key.text with
  | none => rfl
  | some e => exact d.text_key key.text e h

/-- Set the value under a key.  An entry of its text keeps its place and its key, a new entry comes
last. -/
def insert (key : Scalar) (value : Node) : OrderedDictionary where
  order := if key.text ∈ d.order then d.order else d.order ++ [key.text]
  entry := Function.update d.entry key.text (some (d.keyFor key, value))
  nodup_order := by
    split
    · exact d.nodup_order
    · rename_i h
      rw [← List.concat_eq_append]
      exact d.nodup_order.concat h
  mem_order t := by
    have hkept : t ∈ (if key.text ∈ d.order then d.order else d.order ++ [key.text]) ↔
        t = key.text ∨ t ∈ d.order := by
      split
      · rename_i h
        exact ⟨.inr, fun ht => ht.elim (fun heq => heq ▸ h) id⟩
      · rw [List.mem_append, List.mem_singleton, or_comm]
    rw [hkept, Function.update_apply, d.mem_order]
    by_cases h : t = key.text <;> simp [h]
  text_key t e he := by
    rw [Function.update_apply] at he
    split at he
    · rename_i h
      cases he
      rw [h, text_keyFor]
    · exact d.text_key t e he

def erase (t : String) : OrderedDictionary where
  order := d.order.erase t
  entry := Function.update d.entry t none
  nodup_order := d.nodup_order.erase t
  mem_order u := by
    rw [d.nodup_order.mem_erase_iff, Function.update_apply, d.mem_order]
    by_cases h : u = t <;> simp [h]
  text_key u e he := by
    rw [Function.update_apply] at he
    split at he
    · cases he
    · exact d.text_key u e he

def mapValues (f : Scalar → Node → Node) : OrderedDictionary where
  order := d.order
  entry t := (d.entry t).map fun e => (e.1, f e.1 e.2)
  nodup_order := d.nodup_order
  mem_order t := by rw [Option.isSome_map, d.mem_order]
  text_key t e he := by
    obtain ⟨old, hold, rfl⟩ := Option.map_eq_some_iff.1 he
    exact d.text_key t old hold

/-- Replace the value under a text by what a function makes of it. -/
def modify (t : String) (f : Node → Node) : OrderedDictionary :=
  d.mapValues fun k v => if k.text = t then f v else v

/-- The dictionary whose entries are those of a mapping in which no text stands twice. -/
def ofMapping (m : Mapping) (h : m.keys.Nodup) : OrderedDictionary where
  order := m.keys
  entry t := m.find? fun e => e.1.text = t
  nodup_order := h
  mem_order t := by simp [Mapping.keys, List.find?_isSome]
  text_key t e he := by simpa using List.find?_some he

end OrderedDictionary

/-! ## Operations -/

namespace Mapping

/-- What can be done to a mapping.  A value is written through the reference that a look-up gives,
and all values are through those that an iteration gives; to rebuild a mapping is to collect what it
is made of. -/
inductive Operation where
  | insert (key : Scalar) (value : Node)
  | remove (key : String)
  | getOrInsert (key : String) (default : Node)
  | write (key : String) (f : Node → Node)
  | writeAll (f : Scalar → Node → Node)
  | rebuild

/-- What an operation gives: a value, unless there was none, or all entries as they were. -/
inductive Answer where
  | value (v : Option Node)
  | entries (es : List (Scalar × Node))
  deriving DecidableEq

def step (m : Mapping) : Operation → Answer × Mapping
  | .insert key value => (.value (m.get? key.text), m.insert key value)
  | .remove key => (.value (m.get? key), m.erase key)
  | .getOrInsert key default =>
    let (v, m) := m.getOrInsert key default
    (.value (some v), m)
  | .write key f =>
    match m.get? key with
    | some v => (.value (some v), m.insert (.string key) (f v))
    | none => (.value none, m)
  | .writeAll f => (.entries m, m.mapValues f)
  | .rebuild => (.entries m, ofList m)

def run (m : Mapping) : List Operation → List Answer × Mapping
  | [] => ([], m)
  | op :: ops =>
    let (a, m) := m.step op
    let (as, m) := m.run ops
    (a :: as, m)

end Mapping

namespace OrderedDictionary

open Mapping (Operation Answer)

def step (d : OrderedDictionary) : Operation → Answer × OrderedDictionary
  | .insert key value => (.value (d.get? key.text), d.insert key value)
  | .remove key => (.value (d.get? key), d.erase key)
  | .getOrInsert key default =>
    match d.get? key with
    | some v => (.value (some v), d)
    | none => (.value (some default), d.insert (.string key) default)
  | .write key f => (.value (d.get? key), d.modify key f)
  | .writeAll f => (.entries d.entries, d.mapValues f)
  | .rebuild => (.entries d.entries, d)

def run (d : OrderedDictionary) : List Operation → List Answer × OrderedDictionary
  | [] => ([], d)
  | op :: ops =>
    let (a, d) := d.step op
    let (as, d) := d.run ops
    (a :: as, d)

/-! ## The entries of a dictionary -/

section Entries

variable (d : OrderedDictionary)

theorem exists_entry {t : String} (ht : t ∈ d.order) : ∃ e, d.entry t = some e ∧ e.1.text = t := by
  obtain ⟨e, he⟩ := Option.isSome_iff_exists.1 ((d.mem_order t).1 ht)
  exact ⟨e, he, d.text_key t e he⟩

theorem entry_eq_none {t : String} (ht : t ∉ d.order) : d.entry t = none := by
  rw [d.mem_order, Bool.not_eq_true, Option.isSome_eq_false_iff] at ht
  exact Option.isNone_iff_eq_none.1 ht

theorem keys_entries : d.entries.keys = d.order := by
  have htexts : ∀ t ∈ d.order, (d.entry t).map (fun e => e.1.text) = some t := by
    intro t ht
    obtain ⟨e, he, htext⟩ := d.exists_entry ht
    rw [he, Option.map_some, htext]
  rw [Mapping.keys, entries, List.map_filterMap, List.filterMap_congr htexts, List.filterMap_some]

theorem nodup_keys_entries : d.entries.keys.Nodup := by
  rw [keys_entries]
  exact d.nodup_order

theorem get?_entries (t : String) : d.entries.get? t = d.get? t := by
  by_cases ht : t ∈ d.order
  · obtain ⟨e, he, htext⟩ := d.exists_entry ht
    have hmem : (e.1, e.2) ∈ d.entries := List.mem_filterMap.2 ⟨t, ht, he⟩
    have hget := Mapping.get?_of_mem d.nodup_keys_entries hmem
    rw [htext] at hget
    rw [hget, get?, he, Option.map_some]
  · rw [get?, d.entry_eq_none ht, Option.map_none, Mapping.get?_eq_none_iff, keys_entries]
    exact ht

theorem entries_mapValues (f : Scalar → Node → Node) :
    (d.mapValues f).entries = d.entries.mapValues f := by
  rw [Mapping.mapValues, entries, entries, List.map_filterMap]
  rfl

/-- What is found under a text is the one value that a modification replaces. -/
theorem entries_modify (t : String) (f : Node → Node) :
    (d.modify t f).entries = match d.get? t with
      | some v => d.entries.insert (.string t) (f v)
      | none => d.entries := by
  rw [modify, entries_mapValues, Mapping.mapValues]
  cases h : d.get? t with
  | some v =>
    have hget : d.entries.get? t = some v := by rw [get?_entries, h]
    have hpresent : t ∈ d.entries.keys := Mapping.mem_keys_of_get? hget
    dsimp only
    rw [Mapping.insert_eq_map d.nodup_keys_entries (.string t) hpresent, Scalar.text_string]
    refine List.map_congr_left fun e he => ?_
    by_cases htext : e.1.text = t
    · have hfirst : (e.1, e.2) ∈ d.entries := he
      have hv := Mapping.get?_of_mem d.nodup_keys_entries hfirst
      rw [htext, hget] at hv
      cases hv
      rw [if_pos htext, if_pos htext]
    · rw [if_neg htext, if_neg htext]
  | none =>
    dsimp only
    have habsent : t ∉ d.entries.keys := by rw [← Mapping.get?_eq_none_iff, get?_entries, h]
    refine (List.map_congr_left fun e he => ?_).trans (List.map_id _)
    have htext : e.1.text ≠ t := fun heq => habsent (heq ▸ List.mem_map_of_mem he)
    rw [if_neg htext]
    rfl

theorem entries_insert (key : Scalar) (value : Node) :
    (d.insert key value).entries = d.entries.insert key value := by
  by_cases hkey : key.text ∈ d.order
  · have hpresent : key.text ∈ d.entries.keys := by rwa [keys_entries]
    rw [Mapping.insert_eq_map d.nodup_keys_entries key hpresent, entries, entries, List.map_filterMap]
    simp only [insert, if_pos hkey]
    refine List.filterMap_congr fun t ht => ?_
    obtain ⟨e, he, htext⟩ := d.exists_entry ht
    rw [Function.update_apply, he, Option.map_some, htext]
    by_cases h : t = key.text
    · rw [if_pos h, if_pos h, keyFor, ← h, he]
      rfl
    · rw [if_neg h, if_neg h]
  · have habsent : key.text ∉ d.entries.keys := by rwa [keys_entries]
    rw [Mapping.insert_of_absent habsent, entries, entries]
    simp only [insert, if_neg hkey, List.filterMap_append]
    congr 1
    · refine List.filterMap_congr fun t ht => Function.update_of_ne ?_ _ _
      rintro rfl
      exact hkey ht
    · rw [List.filterMap_cons_some (Function.update_self _ _ _), keyFor, d.entry_eq_none hkey]
      rfl

theorem entries_erase (t : String) : (d.erase t).entries = d.entries.erase t := by
  rw [Mapping.erase_eq_filter d.nodup_keys_entries, entries, entries, List.filter_filterMap]
  simp only [erase, d.nodup_order.erase_eq_filter, List.filterMap_filter]
  refine List.filterMap_congr fun u hu => ?_
  obtain ⟨e, he, htext⟩ := d.exists_entry hu
  rw [he, Option.filter_some, htext]
  by_cases h : u = t
  · simp [h]
  · simp [h, he]

theorem entries_ofMapping {m : Mapping} (h : m.keys.Nodup) : (ofMapping m h).entries = m := by
  have hfound : ∀ e ∈ m, m.find? (fun x => x.1.text = e.1.text) = some e :=
    fun e he => Mapping.find?_of_mem h he
  simp only [entries, ofMapping, Mapping.keys, List.filterMap_map]
  exact (List.filterMap_congr hfound).trans List.filterMap_some

/-! ## Steps and runs -/

theorem step_entries (op : Operation) :
    d.entries.step op = ((d.step op).1, (d.step op).2.entries) := by
  cases op with
  | insert key value => rw [Mapping.step, step, get?_entries, entries_insert]
  | remove key => rw [Mapping.step, step, get?_entries, entries_erase]
  | getOrInsert key default =>
    rw [Mapping.step, step, Mapping.getOrInsert, get?_entries]
    cases d.get? key with
    | some v => rfl
    | none => rw [entries_insert]
  | write key f =>
    rw [Mapping.step, step, get?_entries, entries_modify]
    cases d.get? key <;> rfl
  | writeAll f => rw [Mapping.step, step, entries_mapValues]
  | rebuild => rw [Mapping.step, step, Mapping.ofList_of_nodup d.nodup_keys_entries]

theorem run_entries (ops : List Operation) :
    d.entries.run ops = ((d.run ops).1, (d.run ops).2.entries) := by
  induction ops generalizing d with
  | nil => rfl
  | cons op ops ih =>
    rw [Mapping.run, run, step_entries]
    dsimp only
    rw [ih]

end Entries

end OrderedDictionary

/-- Whatever is done to a mapping in which no text stands twice, in any order, it is an ordered
dictionary: none ever does, and the entries, the answers and what is found under each text are those
of the dictionary that started with the same entries. -/
theorem Mapping.acts_as_ordered_dictionary {m : Mapping} (h : m.keys.Nodup)
    (ops : List Operation) :
    let d := OrderedDictionary.ofMapping m h
    (m.run ops).2.keys.Nodup ∧ (m.run ops).2 = (d.run ops).2.entries ∧
      (m.run ops).1 = (d.run ops).1 ∧ ∀ key, (m.run ops).2.get? key = (d.run ops).2.get? key := by
  intro d
  have hrun := d.run_entries ops
  rw [OrderedDictionary.entries_ofMapping] at hrun
  rw [hrun]
  exact ⟨(d.run ops).2.nodup_keys_entries, rfl, rfl, (d.run ops).2.get?_entries⟩

/-- The number `8080` stays a number where the text is inserted, and the tagged key comes back last
and without its tag once it was removed. -/
theorem Mapping.acts_as_ordered_dictionary_by_text :
    let port : Scalar := ⟨"8080", .int, none⟩
    let one (tag : Option String) : Scalar := ⟨"1", .int, tag⟩
    let m : Mapping := [(port, .string "a"), (one (some "Ext"), .string "b")]
    let ops : List Operation := [.insert (.string "8080") (.string "c"), .getOrInsert "log" (.scalar .null),
      .write "1" fun _ => .string "d", .writeAll fun k v => if k.text = "log" then .string "e" else v,
      .rebuild, .remove "1", .insert (one none) (.string "f"), .remove "none"]
    let after : Mapping := [(port, .string "c"), (.string "log", .string "e"), (one none, .string "f")]
    ∃ h : m.keys.Nodup,
      let d := OrderedDictionary.ofMapping m h
      (m.run ops).2 = after ∧ after.keys.Nodup ∧ (d.run ops).2.entries = after ∧
        (d.run ops).1.take 3 =
          [.value (some (.string "a")), .value (some (.scalar .null)), .value (some (.string "b"))] ∧
        (d.run ops).2.get? "1" = some (.string "f") := by
  intro port one m ops after
  have hm : m.keys.Nodup := by decide
  have hafter : (m.run ops).2 = after := by decide
  have hanswers : (m.run ops).1.take 3 =
      [.value (some (.string "a")), .value (some (.scalar .null)), .value (some (.string "b"))] := by
    decide
  obtain ⟨hkeys, hentries, hsame, hget⟩ := acts_as_ordered_dictionary hm ops
  refine ⟨hm, hafter, hafter ▸ hkeys, hentries.symm.trans hafter, hsame ▸ hanswers, ?_⟩
  rw [← hget, hafter]
  rfl

end SharedConfig
