import SharedConfig.Proofs.Collection.Others
import SharedConfig.Proofs.Run.Edits

/-!
# SharedConfig.Proofs.Run.Names

The names of a collection along a run of updates and removals, kept beside it as a plain list
(`Edit.onNames`).  An update merges a record into the stored one field by field, its name included;
that it leaves the name of the stored one is what `Upserted.names` rests on.

* `Edit.names_of_run`, `Edit.unnamed_of_run`: one edit that succeeds.
* `names_along_edits`: the law for every run.
-/

namespace SharedConfig

namespace Edit

/-- A record with a name is written, or the records of a name are removed. -/
def IsOfRecords : Edit → Prop
  | upsert k r => k.recordName r ≠ ""
  | remove _ _ => True
  | _ => False

/-- What an edit that succeeds makes of the names of a kind: a new name comes last, one that is
there keeps its place, and a removed one is deleted. -/
def onNames (k : RecordKind) (names : List String) : Edit → List String
  | upsert k' r =>
    if k' = k then
      if k'.recordName r ∈ names then names else names ++ [k'.recordName r]
    else names
  | remove k' name => if k' = k then names.erase name else names
  | _ => names

variable {k : RecordKind} {e : Edit}

theorem IsOfRecords.isNamed (h : e.IsOfRecords) : e.IsNamed := by
  cases e with
  | upsert k r => exact h
  | _ => trivial

theorem onNames_nodup {names : List String} (h : names.Nodup) (e : Edit) :
    (onNames k names e).Nodup := by
  cases e with
  | upsert k' r =>
    rw [onNames]
    split
    · split
      · exact h
      · rename_i hnew
        refine List.nodup_append.2 ⟨h, by simp, fun a ha b hb => ?_⟩
        rw [List.mem_singleton.1 hb]
        exact fun he => hnew (he ▸ ha)
    · exact h
  | remove k' name =>
    rw [onNames]
    split
    · exact h.erase name
    · exact h
  | _ => exact h

variable {s s' : Session} {changed : Bool}

theorem onlyEntity_of_run (he : e.IsOfRecords) (h : e.run s = (.ok changed, s')) :
    ∃ k' name, OnlyEntity k' name s.root s'.root := by
  cases e with
  | upsert k' r => exact ⟨k', k'.recordName r, Action.upsert_onlyEntity h⟩
  | remove k' name =>
    obtain ⟨t, hrun, hroot⟩ := Action.remove_apply k' name s
    cases hrun.symm.trans h
    rw [hroot]
    exact ⟨k', name, removeNamed_onlyEntity k' name s.root⟩
  | _ => cases he

/-- Where the names of a kind are apart, they are after an edit what the list makes of them. -/
theorem names_of_run (he : e.IsOfRecords) (hd : (k.names s.root).Nodup)
    (h : e.run s = (.ok changed, s')) : k.names s'.root = e.onNames k (k.names s.root) := by
  cases e with
  | upsert k' r =>
    rw [onNames]
    split
    · rename_i hkind
      subst hkind
      exact (Action.upsert_eq_ok h).names
    · rename_i hkind
      have hcollection := (Action.upsert_onlyEntity h).collection k (Ne.symm hkind)
      rw [RecordKind.names, hcollection, RecordKind.names]
  | remove k' name =>
    obtain ⟨t, hrun, hroot⟩ := Action.remove_apply k' name s
    cases hrun.symm.trans h
    rw [onNames, hroot]
    split
    · rename_i hkind
      subst hkind
      -- all of the name go, and where the names are apart that is one
      rw [RecordKind.names_eq, RecordKind.items_of_erase (collection_removeNamed k' name s.root),
        Entity.names_erase, ← RecordKind.names_eq, hd.erase_eq_filter]
      refine List.filter_congr fun other _ => ?_
      by_cases hother : other = name <;> simp [hother]
    · rename_i hkind
      have hcollection :=
        (removeNamed_onlyEntity k' name s.root).collection k (Ne.symm hkind)
      rw [RecordKind.names, hcollection, RecordKind.names]
  | _ => cases he

theorem unnamed_of_run (he : e.IsOfRecords) (h : e.run s = (.ok changed, s')) :
    Entity.unnamed (k.items s'.root) = Entity.unnamed (k.items s.root) := by
  obtain ⟨k', name, honly⟩ := onlyEntity_of_run he h
  by_cases hkind : k = k'
  · subst hkind
    rw [← Entity.unnamed_others [name], honly.items, Entity.unnamed_others]
  · rw [RecordKind.items_of_collection (honly.collection k hkind)]

end Edit

/-- The edits of a run that succeed. -/
def Session.succeeding : List Edit → Session → List Edit
  | [], _ => []
  | e :: edits, s =>
    if (e.run s).1.isOk then e :: succeeding edits (e.run s).2 else succeeding edits (e.run s).2

/-- The names of a collection whose names are apart are along a run those of the list that the edits
that succeed make, and stay apart; the items without a name are as they were. -/
theorem names_along_edits {edits : List Edit} (hedits : ∀ e ∈ edits, e.IsOfRecords) {s : Session}
    {k : RecordKind} (hd : (k.names s.root).Nodup) :
    k.names (s.after edits).root =
        (s.succeeding edits).foldl (Edit.onNames k) (k.names s.root) ∧
      (k.names (s.after edits).root).Nodup ∧
      Entity.unnamed (k.items (s.after edits).root) = Entity.unnamed (k.items s.root) := by
  induction edits generalizing s with
  | nil => exact ⟨rfl, hd, rfl⟩
  | cons e edits ih =>
    obtain ⟨he, hrest⟩ := List.forall_mem_cons.1 hedits
    rw [Session.after_cons, Session.succeeding]
    rcases hrun : e.run s with ⟨error | changed, s'⟩
    · have hsame := (Edit.run_truthful he.isNamed s).unchanged
      rw [hrun] at hsame
      obtain rfl : s' = s := hsame (by simp)
      exact ih hrest hd
    · have hstep := Edit.names_of_run he hd hrun
      have hd' : (k.names s'.root).Nodup := by
        rw [hstep]
        exact Edit.onNames_nodup hd e
      obtain ⟨hnames, hnodup, hunnamed⟩ := ih hrest hd'
      refine ⟨?_, hnodup, hunnamed.trans (Edit.unnamed_of_run he hrun)⟩
      rw [hnames, hstep]
      rfl

/-- A server that is set again keeps its place; one that is removed and set again comes last. -/
theorem names_along_edits_of_servers :
    let document : Node := .mapping [(.string "servers", .sequence
      [.mapping [(.string "name", .string "a")], .string "note",
        .mapping [(.string "name", .string "b")]])]
    let edits : List Edit := [.upsert .server (.new "c" .global), .upsert .server (.new "a" .global),
      .remove .server "a", .upsert .server (.new "b" .global), .upsert .server (.new "a" .global)]
    let session : Session := .new document .empty
    (∀ e ∈ edits, e.IsOfRecords) ∧ (RecordKind.server.names session.root).Nodup ∧
      RecordKind.server.names (session.after edits).root = ["b", "c", "a"] ∧
      Entity.unnamed (RecordKind.server.items (session.after edits).root) = [.string "note"] := by
  intro document edits session
  have hedits : ∀ e ∈ edits, e.IsOfRecords := by
    simp [edits, Edit.IsOfRecords, RecordKind.recordName, Server.new]
  have hd : (RecordKind.server.names session.root).Nodup := by decide
  obtain ⟨hnames, -, hunnamed⟩ := names_along_edits hedits hd
  exact ⟨hedits, hd, hnames.trans (by decide), hunnamed.trans (by decide)⟩

end SharedConfig
