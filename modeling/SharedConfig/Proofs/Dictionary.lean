import Mathlib.Data.String.Basic
import SharedConfig.Dictionary

/-!
# SharedConfig.Proofs.Dictionary

Dictionaries as maps: every key stands once and in its place, and of the entries that a dictionary is
made from the last one of a key counts.

* `sorted_insert`, `mem_insert`: one entry is put in.
* `sorted_ofList`, `mem_ofList`: a dictionary of some entries.
-/

namespace SharedConfig
namespace Dictionary

variable {β : Type}

def Sorted (d : Dictionary β) : Prop := d.Pairwise fun a b => a.1 < b.1

/-- The values of a key among some entries, in their order. -/
def valuesOf (key : String) (entries : List (String × β)) : List β :=
  entries.filterMap fun e => if e.1 = key then some e.2 else none

variable {d : Dictionary β} {key : String} {value : β}

theorem mem_insert (h : d.Sorted) {e : String × β} :
    e ∈ insert key value d ↔ e = (key, value) ∨ e ∈ d ∧ e.1 ≠ key := by
  induction d with
  | nil => simp [insert]
  | cons f d ih =>
    obtain ⟨k, old⟩ := f
    obtain ⟨hlt, hd⟩ := List.pairwise_cons.1 h
    rw [insert]
    split
    · rename_i hk
      subst hk
      have hne : e ∈ d → e.1 ≠ k := fun he => ne_of_gt (hlt e he)
      simp only [List.mem_cons]
      constructor
      · rintro (he | he)
        · exact .inl he
        · exact .inr ⟨.inr he, hne he⟩
      · rintro (he | ⟨rfl | he, hkey⟩)
        · exact .inl he
        · exact absurd rfl hkey
        · exact .inr he
    · rename_i hk
      split
      · rename_i hbefore
        have hne : e ∈ (k, old) :: d → e.1 ≠ key := by
          intro he
          rcases List.mem_cons.1 he with rfl | he
          · exact hk
          · exact ne_of_gt (lt_trans hbefore (hlt e he))
        rw [List.mem_cons]
        exact or_congr_right ⟨fun he => ⟨he, hne he⟩, fun he => he.1⟩
      · rw [List.mem_cons, ih hd, List.mem_cons]
        constructor
        · rintro (rfl | he | he)
          · exact .inr ⟨.inl rfl, hk⟩
          · exact .inl he
          · exact .inr ⟨.inr he.1, he.2⟩
        · rintro (he | ⟨he | he, hkey⟩)
          · exact .inr (.inl he)
          · exact .inl he
          · exact .inr (.inr ⟨he, hkey⟩)

theorem sorted_insert (h : d.Sorted) (key : String) (value : β) : (insert key value d).Sorted := by
  induction d with
  | nil => exact List.pairwise_singleton _ _
  | cons f d ih =>
    obtain ⟨k, old⟩ := f
    obtain ⟨hlt, hd⟩ := List.pairwise_cons.1 h
    rw [insert]
    split
    · rename_i hk
      subst hk
      exact List.pairwise_cons.2 ⟨hlt, hd⟩
    · rename_i hk
      split
      · rename_i hbefore
        refine List.pairwise_cons.2 ⟨fun e he => ?_, h⟩
        rcases List.mem_cons.1 he with rfl | he
        · exact hbefore
        · exact lt_trans hbefore (hlt e he)
      · rename_i hafter
        refine List.pairwise_cons.2 ⟨fun e he => ?_, ih hd⟩
        rcases (mem_insert hd).1 he with rfl | ⟨he, -⟩
        · exact lt_of_le_of_ne (not_lt.1 hafter) hk
        · exact hlt e he

theorem sorted_foldl_insert (entries : List (String × β)) (h : d.Sorted) :
    (entries.foldl (fun d e => insert e.1 e.2 d) d).Sorted := by
  induction entries generalizing d with
  | nil => exact h
  | cons e entries ih => exact ih (sorted_insert h e.1 e.2)

/-- Entries that are put in one after the other: the last one of a key is there, and where there is
none, what was there before. -/
theorem mem_foldl_insert (entries : List (String × β)) (h : d.Sorted) :
    (key, value) ∈ entries.foldl (fun d e => insert e.1 e.2 d) d ↔
      (valuesOf key entries).getLast? = some value ∨
        valuesOf key entries = [] ∧ (key, value) ∈ d := by
  induction entries generalizing d with
  | nil => simp [valuesOf]
  | cons e entries ih =>
    obtain ⟨k, v⟩ := e
    rw [List.foldl_cons, ih (sorted_insert h k v), mem_insert h]
    by_cases hk : k = key
    · subst hk
      have hvalues : valuesOf k ((k, v) :: entries) = v :: valuesOf k entries := by simp [valuesOf]
      rw [hvalues, List.getLast?_cons]
      cases hlast : (valuesOf k entries).getLast? with
      | none => simp [List.getLast?_eq_none_iff.1 hlast, eq_comm]
      | some w =>
        have hne : valuesOf k entries ≠ [] := by
          intro hnil
          rw [hnil] at hlast
          cases hlast
        simp [hne]
    · have hvalues : valuesOf key ((k, v) :: entries) = valuesOf key entries := by
        simp [valuesOf, hk]
      rw [hvalues]
      simp [Ne.symm hk]

theorem sorted_ofList (entries : List (String × β)) : (ofList entries).Sorted :=
  sorted_foldl_insert entries .nil

theorem mem_ofList {entries : List (String × β)} :
    (key, value) ∈ ofList entries ↔ (valuesOf key entries).getLast? = some value := by
  rw [ofList, mem_foldl_insert entries .nil]
  simp

end Dictionary
end SharedConfig
