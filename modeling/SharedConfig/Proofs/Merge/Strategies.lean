import SharedConfig.Proofs.Merge.Places
import SharedConfig.Record.Kind

/-!
# SharedConfig.Proofs.Merge.Strategies

What a merge reads of its table: the strategies at its path and at the paths of the places below it.

Tags and entities do not lengthen a path, and a key lengthens it by itself and a dot, whatever its
text is; so every path that is looked up begins with the path of the merge and a dot.

* `mergeNode_congr`: merges with tables that select alike, place by place, are the same merge.
* `strategies_act_below`: an entry acts at its path and below it, and nowhere else.
-/

namespace SharedConfig

open Node

/-! ## Merges with two tables -/

/-- What one table selects from one path on, another one selects from another path on. -/
def SelectAlike (t : StrategyTable) (p : String) (u : StrategyTable) (q : String) : Prop :=
  ∀ place, t.select (dottedFrom p place) = u.select (dottedFrom q place)

section Congr

variable {t u : StrategyTable} {p q : String}

theorem SelectAlike.below (h : SelectAlike t p u q) (key : String) :
    SelectAlike t (joinPath p key) u (joinPath q key) :=
  fun place => h (key :: place)

theorem mergeItems_congr {items : List Node}
    (hi : ∀ n ∈ items, ∀ o, mergeNode t p n o = mergeNode u q n o) (old : List Node) :
    mergeItems t p items old = mergeItems u q items old := by
  induction items generalizing old with
  | nil => rw [mergeItems_nil, mergeItems_nil]
  | cons n rest ih =>
    obtain ⟨hn, hrest⟩ := List.forall_mem_cons.1 hi
    rw [mergeItems, mergeItems]
    cases n.entityName with
    | none => exact ih hrest old
    | some name =>
      dsimp only
      cases Entity.find? name old with
      | none => dsimp only; rw [ih hrest]
      | some o => dsimp only; rw [hn o, ih hrest]

theorem mergeEntries_congr {entries : Mapping}
    (he : ∀ e ∈ entries, ∀ o, mergeNode t (joinPath p e.1.text) e.2 o =
      mergeNode u (joinPath q e.1.text) e.2 o) (old : Mapping) :
    mergeEntries t p entries old = mergeEntries u q entries old := by
  induction entries generalizing old with
  | nil => rw [mergeEntries_nil, mergeEntries_nil]
  | cons e rest ih =>
    obtain ⟨key, value⟩ := e
    obtain ⟨hvalue, hrest⟩ := List.forall_mem_cons.1 he
    replace hvalue : ∀ o, mergeNode t (joinPath p key.text) value o =
      mergeNode u (joinPath q key.text) value o := hvalue
    rw [mergeEntries, mergeEntries]
    cases old.get? key.text with
    | none => dsimp only; rw [ih hrest]
    | some o => dsimp only; rw [hvalue o, ih hrest]

/-- A merge depends on its table and its path by what is selected from the path on. -/
theorem mergeNode_congr (h : SelectAlike t p u q) (candidate existing : Node) :
    mergeNode t p candidate existing = mergeNode u q candidate existing := by
  induction candidate using tree_induction generalizing p q existing with
  | tagged tag n ih => rw [mergeNode_tagged, mergeNode_tagged]
  | scalar s =>
    have hself : t.select p = u.select q := h []
    rw [mergeNode, mergeNode, hself]
  | sequence items ih =>
    have hself : t.select p = u.select q := h []
    have hitems : ∀ old, mergeItems t p items old = mergeItems u q items old :=
      mergeItems_congr fun n hn => ih n hn h
    simp only [mergeNode, hself, hitems]
  | mapping entries ih =>
    have hself : t.select p = u.select q := h []
    have hentries : ∀ old, mergeEntries t p entries old = mergeEntries u q entries old :=
      mergeEntries_congr fun e he => ih e he (h.below e.1.text)
    simp only [mergeNode, hself, hentries]

end Congr

/-! ## Paths below a path -/

/-- A dotted path is another one, or begins with it and a dot. -/
def IsWithin (path key : String) : Prop := key = path ∨ ∃ rest, key = path ++ "." ++ rest

theorem isWithin_iff {path key : String} :
    IsWithin path key ↔ key = path ∨ (path ++ ".").toList <+: key.toList := by
  refine or_congr_right ⟨?_, ?_⟩
  · rintro ⟨rest, rfl⟩
    exact ⟨rest.toList, String.toList_append.symm⟩
  · rintro ⟨rest, h⟩
    refine ⟨String.ofList rest, String.toList_inj.1 ?_⟩
    simp only [← h, String.toList_append, String.toList_ofList]

instance (path key : String) : Decidable (IsWithin path key) :=
  decidable_of_iff _ isWithin_iff.symm

/-- Two tables select the same strategies at a path and at all that begins with it and a dot. -/
def StrategyTable.AgreeWithin (t u : StrategyTable) (path : String) : Prop :=
  ∀ key, IsWithin path key → t.select key = u.select key

section Within

variable {path : String}

theorem isWithin_joinPath (hpath : path ≠ "") {p : String} (h : IsWithin path p) (key : String) :
    IsWithin path (joinPath p key) := by
  have hne : p ≠ "" := by
    rcases h with rfl | ⟨rest, rfl⟩
    · exact hpath
    · simp [hpath]
  rw [joinPath, if_neg hne]
  rcases h with rfl | ⟨rest, rfl⟩
  · exact .inr ⟨key, rfl⟩
  · exact .inr ⟨rest ++ "." ++ key, by simp only [String.append_assoc]⟩

theorem isWithin_dottedFrom (hpath : path ≠ "") {p : String} (h : IsWithin path p)
    (place : List String) : IsWithin path (dottedFrom p place) := by
  induction place generalizing p with
  | nil => exact h
  | cons key place ih => exact ih (isWithin_joinPath hpath h key)

theorem StrategyTable.AgreeWithin.selectAlike {t u : StrategyTable} (hpath : path ≠ "")
    (h : t.AgreeWithin u path) : SelectAlike t path u path :=
  fun place => h _ (isWithin_dottedFrom hpath (.inl rfl) place)

theorem StrategyTable.select_insert_of_ne (t : StrategyTable) {key other : String}
    (h : other ≠ key) (s : PatchStrategy) : (t.insert key s).select other = t.select other := by
  rw [select, get?, insert, Dictionary.lookup_insert_of_ne h, select, get?]

theorem StrategyTable.agreeWithin_insert (t : StrategyTable) {key : String}
    (h : ¬ IsWithin path key) (s : PatchStrategy) : (t.insert key s).AgreeWithin t path := by
  intro other hother
  refine t.select_insert_of_ne ?_ s
  rintro rfl
  exact h hother

end Within

/-- What is at or below the collection of one kind is not so of another one. -/
theorem RecordKind.not_isWithin {k other : RecordKind} (h : k ≠ other) {key : String}
    (hkey : IsWithin other.collection.dotted key) : ¬ IsWithin k.collection.dotted key := by
  have hstart : ∀ {path}, IsWithin path key → path.toList <+: key.toList := by
    rintro path (rfl | ⟨rest, rfl⟩)
    · exact List.prefix_rfl
    · simp only [String.append_assoc, String.toList_append]
      exact List.prefix_append _ _
  intro hself
  have hprefix := List.prefix_or_prefix_of_prefix (hstart hself) (hstart hkey)
  -- of the paths of two kinds neither begins with the other
  revert h hprefix
  cases k <;> cases other <;> decide

/-- Tables that select the same strategies at the path of a merge and below it merge alike, with the
same answer.  So an entry that is neither there nor below has no influence, though its text may
begin with the path; and an entry for the collection of one kind has none on the merges of another.
-/
theorem strategies_act_below (candidate existing : Node) :
    (∀ (path : String) (t u : StrategyTable), path ≠ "" → t.AgreeWithin u path →
      mergeNode t path candidate existing = mergeNode u path candidate existing) ∧
    (∀ (path : String) (t : StrategyTable) (key : String) (s : PatchStrategy), path ≠ "" →
      ¬ IsWithin path key →
      mergeNode (t.insert key s) path candidate existing = mergeNode t path candidate existing) ∧
    ∀ (k other : RecordKind) (t : StrategyTable) (key : String) (s : PatchStrategy), k ≠ other →
      IsWithin other.collection.dotted key →
      mergeNode (t.insert key s) k.collection.dotted candidate existing =
        mergeNode t k.collection.dotted candidate existing := by
  have hsame : ∀ (path : String) (t u : StrategyTable), path ≠ "" → t.AgreeWithin u path →
      mergeNode t path candidate existing = mergeNode u path candidate existing :=
    fun path t u hpath h => mergeNode_congr (h.selectAlike hpath) candidate existing
  refine ⟨hsame, fun path t key s hpath hkey => hsame _ _ _ hpath (t.agreeWithin_insert hkey s),
    fun k other t key s hne hkey => hsame _ _ _ ?_ (t.agreeWithin_insert (k.not_isWithin hne hkey) s)⟩
  cases k <;> decide

/-- Under a key without a text, a tag, a key with a dot in it and a named item, only the entry that
is below the path acts. -/
theorem strategies_act_below_odd_keys :
    let named := fun v : Node => Node.sequence [.mapping [(.string "name", .string "n"), (.string "v", v)]]
    let holding := fun (a b c : Node) (rest : Mapping) => Node.mapping [
      (.string "", .tagged "Ext" (.mapping ((.string "x", a) :: rest))), (.string "a.b", named b),
      (.string "opts", .mapping [(.string "y", c)])]
    let stored := holding (.string "1") (.string "2") (.string "3") [(.string "z", .string "4")]
    let new : Node := .mapping [(.string "", .mapping [(.string "x", .string "5")]),
      (.string "a.b", named (.string "6")), (.string "opts", .mapping [])]
    let merged : Node := .mapping [
      (.string "", .tagged "Ext" (.mapping [(.string "x", .string "5"), (.string "z", .string "4")])),
      (.string "a.b", named (.string "6")), (.string "opts", .mapping [])]
    let u := StrategyTable.empty.insert "contexts.opts" .replace
    let t := (u.insert "contexts2.opts" .replace).insert "context" .replace
    "contexts" ≠ "" ∧ t.AgreeWithin u "contexts" ∧ ¬ IsWithin "contexts" "contexts2" ∧
      RecordKind.context ≠ .server ∧ IsWithin RecordKind.server.collection.dotted "servers.opts" ∧
      mergeNode u "contexts" new stored = (merged, true) ∧
      mergeNode t "contexts" new stored = (merged, true) ∧
      mergeNode (t.insert "contexts2" .replace) "contexts" new stored = (merged, true) ∧
      mergeNode (t.insert "servers.opts" .replace) RecordKind.context.collection.dotted new stored =
        (merged, true) := by
  intro named holding stored new merged u t
  have hagree : t.AgreeWithin u "contexts" := fun key hkey =>
    ((StrategyTable.agreeWithin_insert _ (by decide) .replace) key hkey).trans
      ((StrategyTable.agreeWithin_insert _ (by decide) .replace) key hkey)
  have hother : ¬ IsWithin "contexts" "contexts2" := by decide
  have hserver : IsWithin RecordKind.server.collection.dotted "servers.opts" := by decide
  have hmerged : mergeNode u "contexts" new stored = (merged, true) := by decide
  obtain ⟨hsame, hinsert, hkinds⟩ := strategies_act_below new stored
  have ht := (hsame "contexts" t u (by decide) hagree).trans hmerged
  exact ⟨by decide, hagree, hother, by decide, hserver, hmerged, ht,
    (hinsert "contexts" t "contexts2" .replace (by decide) hother).trans ht,
    (hkinds .context .server t "servers.opts" .replace (by decide) hserver).trans ht⟩

end SharedConfig
