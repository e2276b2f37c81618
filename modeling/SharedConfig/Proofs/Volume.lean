import SharedConfig.Store.Volume

/-!
# SharedConfig.Proofs.Volume

What the operations on files do to what is there.

* `makeParent_extends`: making directories makes nothing but directories, and loses nothing.
* `lock_extends`: a lock makes its file where there is none, and leaves all else alone.
* `Extends.entry`: whatever a path led to, it still leads to.
* `textAt_replace`: what was put in the place of a file is read there.
-/

namespace SharedConfig
namespace Volume

variable {v v' : Volume} {p q : Place}

theorem ne_nil_of_at? (h : v.at? p ≠ some .directory) : p ≠ [] := by
  rintro rfl
  exact h rfl

theorem lookup_filter_ne (entries : List (Place × Entry)) (h : q ≠ p) :
    (entries.filter fun x => decide (x.1 ≠ p)).lookup q = entries.lookup q := by
  induction entries with
  | nil => rfl
  | cons x rest ih =>
    obtain ⟨place, e⟩ := x
    by_cases hp : place = p
    · have hq : (q == place) = false := by
        rw [hp]
        exact beq_false_of_ne h
      rw [List.filter_cons_of_neg (by simp [hp]), ih, List.lookup_cons, hq]
    · rw [List.filter_cons_of_pos (by simp [hp]), List.lookup_cons, List.lookup_cons, ih]

theorem at?_put_of_ne (v : Volume) (h : q ≠ p) (e : Entry) : (v.put p e).at? q = v.at? q := by
  unfold at? put
  have hq : (q == p) = false := beq_false_of_ne h
  rw [List.lookup_cons, hq, lookup_filter_ne v.entries h]

/-! ## Places -/

/-- The place that names lead to from the working directory. -/
def placeOf (names : List String) : Place := names.foldl step []

theorem walk_eq_ok {names : List String} {here : Place} (h : v.walk names here = .ok p) :
    p = names.foldl step here := by
  induction names generalizing here with
  | nil => exact (Except.ok.inj h).symm
  | cons name rest ih =>
    rw [walk] at h
    rw [List.foldl_cons]
    split at h
    · cases h
    · split at h
      · rename_i hlast
        rw [List.isEmpty_iff.1 hlast]
        exact (Except.ok.inj h).symm
      · split at h
        · exact ih h
        · cases h
        · cases h

/-- The first few of some names lead to a place. -/
def LeadThrough (names : List String) (p : Place) : Prop :=
  ∃ first, first <+: names ∧ placeOf first = p

theorem LeadThrough.mono {few names : List String} (hfew : few <+: names) (h : LeadThrough few p) :
    LeadThrough names p := by
  obtain ⟨first, hfirst, hp⟩ := h
  exact ⟨first, hfirst.trans hfew, hp⟩

/-! ## What succeeds -/

theorem makeDirectory_eq_ok {names : List String} (h : v.makeDirectory names = .ok v') :
    ∃ p, v.walk names [] = .ok p ∧ v.at? p = none ∧ v' = v.put p .directory := by
  unfold makeDirectory at h
  split at h
  · cases h
  · split at h
    · cases h
    · rename_i p hwalk
      split at h
      · cases h
      · rename_i hfree
        cases h
        exact ⟨p, hwalk, hfree, rfl⟩

theorem fileAt_eq_ok {path : PathName} {id : Nat} (h : v.fileAt path = .ok (id, v')) :
    v' = v ∨ ∃ p, v.follow path = .ok p ∧ v.at? p = none ∧
      v' = { v.put p (.file v.nextId (.text "")) with nextId := v.nextId + 1 } := by
  unfold fileAt at h
  split at h
  · cases h
  · rename_i p hfollow
    split at h
    · cases h
    · split at h
      · cases h
      · cases h
        exact .inl rfl
      · rename_i hfree
        cases h
        exact .inr ⟨p, hfollow, hfree, rfl⟩

theorem replace_eq_ok {path : PathName} {s : String} (h : v.replace path s = .ok v') :
    ∃ p, v.follow path = .ok p ∧ v.at? p ≠ some .directory ∧ path.endsInSlash = false ∧
      v' = { v.put p (.file v.nextId (.text s)) with nextId := v.nextId + 1 } := by
  unfold replace at h
  split at h
  · cases h
  · rename_i p hfollow
    split at h
    · cases h
    · split at h
      · cases h
      · rename_i hslash
        split at h
        · cases h
        · rename_i hfile
          cases h
          exact ⟨p, hfollow, hfile, Bool.eq_false_iff.2 hslash, rfl⟩

/-! ## What is made -/

/-- What was there is there as before.  All that is new are directories at some places, and empty
files at others. -/
def Extends (made fresh : Place → Prop) (v v' : Volume) : Prop :=
  ∀ p, v'.at? p = v.at? p ∨ v.at? p = none ∧
    (made p ∧ v'.at? p = some .directory ∨ fresh p ∧ ∃ id, v'.at? p = some (.file id (.text "")))

/-- Nothing but directories was made. -/
abbrev ExtendsBare (made : Place → Prop) : Volume → Volume → Prop := Extends made fun _ => False

namespace Extends

variable {made fresh : Place → Prop} {u : Volume}

theorem refl (made fresh : Place → Prop) (v : Volume) : Extends made fresh v v := fun _ => .inl rfl

theorem trans (h : Extends made fresh v v') (h' : Extends made fresh v' u) :
    Extends made fresh v u := by
  intro p
  rcases h p with hsame | ⟨hnone, hmade⟩
  · rcases h' p with hsame' | ⟨hnone', hmade'⟩
    · exact .inl (hsame'.trans hsame)
    · exact .inr ⟨hsame.symm.trans hnone', hmade'⟩
  · rcases h' p with hsame' | ⟨-, hmade'⟩
    · rw [← hsame'] at hmade
      exact .inr ⟨hnone, hmade⟩
    · exact .inr ⟨hnone, hmade'⟩

theorem mono {made' fresh' : Place → Prop} (h : Extends made fresh v v')
    (hmade : ∀ p, made p → made' p) (hfresh : ∀ p, fresh p → fresh' p) :
    Extends made' fresh' v v' :=
  fun p => (h p).imp_right fun hp =>
    ⟨hp.1, hp.2.imp (And.imp_left (hmade p)) (And.imp_left (hfresh p))⟩

theorem of_bare (h : ExtendsBare made v v') : Extends made fresh v v' :=
  h.mono (fun _ hp => hp) fun _ hp => hp.elim

theorem of_put (hfree : v.at? q = none) {e : Entry}
    (he : made q ∧ e = .directory ∨ fresh q ∧ ∃ id, e = .file id (.text "")) :
    Extends made fresh v (v.put q e) := by
  intro p
  by_cases hp : p = q
  · subst hp
    have hne : p ≠ [] := ne_nil_of_at? (v := v) (by simp [hfree])
    have hput := v.at_put_self hne e
    refine .inr ⟨hfree, he.imp (And.imp_right fun h => hput.trans (congrArg some h)) ?_⟩
    rintro ⟨hfresh, id, rfl⟩
    exact ⟨hfresh, id, hput⟩
  · exact .inl (at?_put_of_ne v hp e)

theorem at? (h : Extends made fresh v v') {e : Entry} (he : v.at? p = some e) :
    v'.at? p = some e := by
  rcases h p with hsame | ⟨hnone, -⟩
  · rw [hsame, he]
  · rw [hnone] at he
    cases he

end Extends

/-! ## Directories -/

theorem makeDirectory_extends {names : List String} (h : v.makeDirectory names = .ok v') :
    ExtendsBare (fun p => placeOf names = p) v v' := by
  obtain ⟨p, hwalk, hfree, rfl⟩ := makeDirectory_eq_ok h
  exact .of_put hfree (.inl ⟨(walk_eq_ok hwalk).symm, rfl⟩)

theorem ensureDirectory_extends (v : Volume) (names : List String) :
    ExtendsBare (fun p => placeOf names = p) v (v.ensureDirectory names).2 := by
  unfold ensureDirectory
  cases h : v.makeDirectory names with
  | error e => exact .refl _ _ v
  | ok v' => exact makeDirectory_extends h

/-- Whatever is so of making one directory, and from there on, is so of making all on the way. -/
theorem makeDirectories_induction {R : Volume → Volume → Prop} (refl : ∀ v, R v v)
    (trans : ∀ {u v w}, R u v → R v w → R u w) {names : List String}
    (step : ∀ v first, first <+: names.reverse → R v (v.ensureDirectory first).2) (v : Volume) :
    R v (v.makeDirectories names).2 := by
  induction names generalizing v with
  | nil => exact refl v
  | cons name above ih =>
    have hlast := fun u => step u _ List.prefix_rfl
    have habove := ih fun u first hfirst => step u first (hfirst.trans (by simp))
    rw [makeDirectories]
    have hfirst := hlast v
    split
    · -- the directories above are made, and then this one is tried again
      rename_i w hmissing
      rw [hmissing] at hfirst
      have hmade := trans hfirst (habove w)
      split
      · rename_i e u hfailed
        rw [hfailed] at hmade
        exact hmade
      · rename_i u hdone
        rw [hdone] at hmade
        exact trans hmade (hlast u)
    · exact hfirst

theorem makeDirectories_extends (v : Volume) (names : List String) :
    ExtendsBare (LeadThrough names.reverse) v (v.makeDirectories names).2 := by
  refine makeDirectories_induction (.refl _ _) .trans (fun u first hfirst => ?_) v
  exact (u.ensureDirectory_extends first).mono (fun _ hp => ⟨first, hfirst, hp⟩) fun _ hp => hp

theorem makeParent_extends (v : Volume) (path : PathName) :
    ExtendsBare (LeadThrough path.names.dropLast) v (v.makeParent path).2 := by
  have h := v.makeDirectories_extends path.names.dropLast.reverse
  rwa [List.reverse_reverse] at h

/-! ## The lock -/

theorem fileAt_extends {made : Place → Prop} {path : PathName} {id : Nat}
    (h : v.fileAt path = .ok (id, v')) : Extends made (fun p => v.follow path = .ok p) v v' := by
  rcases fileAt_eq_ok h with rfl | ⟨p, hfollow, hfree, rfl⟩
  · exact .refl _ _ _
  · have hmade : Extends made (fun p => v.follow path = .ok p) v
        (v.put p (.file v.nextId (.text ""))) :=
      .of_put hfree (.inr ⟨hfollow, v.nextId, rfl⟩)
    exact hmade

theorem lock_cases (v : Volume) (path : String) :
    (v.lock path).2 = (v.makeParent (.ofText path)).2 ∨
      ∃ id u locked, (v.makeParent (.ofText path)).2.fileAt (.ofText path) = .ok (id, u) ∧
        (v.lock path).2 = { u with locked := locked } := by
  unfold lock
  dsimp only
  rcases v.makeParent (.ofText path) with ⟨e | _, w⟩
  · exact .inl rfl
  · dsimp only
    cases w.fileAt (.ofText path) with
    | error e => exact .inl rfl
    | ok made =>
      obtain ⟨id, u⟩ := made
      dsimp only
      split
      · exact .inr ⟨id, u, u.locked, rfl, rfl⟩
      · exact .inr ⟨id, u, _, rfl, rfl⟩

theorem lock_extends (v : Volume) (path : String) :
    Extends (LeadThrough (PathName.ofText path).names.dropLast)
      (fun p => (v.makeParent (.ofText path)).2.follow (.ofText path) = .ok p) v
      (v.lock path).2 := by
  have hparent := v.makeParent_extends (.ofText path)
  rcases v.lock_cases path with heq | ⟨id, u, locked, hfile, heq⟩
  · rw [heq]
    exact .of_bare hparent
  · rw [heq]
    -- what is at a place does not hang on the locks
    have hmade : Extends _ _ v u := .trans (.of_bare hparent) (fileAt_extends hfile)
    exact hmade

/-! Giving up a lock is not seen at a path. -/

@[simp] theorem at?_unlock (v : Volume) (id : Nat) (p : Place) :
    (v.unlock id).at? p = v.at? p := rfl

theorem walk_unlock (v : Volume) (id : Nat) (names : List String) (here : Place) :
    (v.unlock id).walk names here = v.walk names here := by
  induction names generalizing here with
  | nil => rfl
  | cons name rest ih => simp only [walk, at?_unlock, ih]

theorem textAt_unlock (v : Volume) (id : Nat) (path : PathName) :
    (v.unlock id).textAt path = v.textAt path := by
  simp only [textAt, entry, resolve, follow, walk_unlock, at?_unlock]

/-! ## What paths lead to -/

theorem walk_of_directories (hkeep : ∀ q, v.at? q = some .directory → v'.at? q = some .directory)
    {names : List String} {here : Place} (h : v.walk names here = .ok p) :
    v'.walk names here = .ok p := by
  induction names generalizing here with
  | nil => exact h
  | cons name rest ih =>
    rw [walk] at h ⊢
    split at h
    · cases h
    · rename_i hlong
      rw [if_neg hlong]
      split at h
      · rename_i hlast
        rw [if_pos hlast]
        exact h
      · rename_i hlast
        rw [if_neg hlast]
        split at h
        · rename_i hdirectory
          rw [hkeep _ hdirectory]
          exact ih h
        · cases h
        · cases h

theorem follow_of_directories (hkeep : ∀ q, v.at? q = some .directory → v'.at? q = some .directory)
    {path : PathName} (h : v.follow path = .ok p) : v'.follow path = .ok p := by
  unfold follow at h ⊢
  split at h
  · cases h
  · rename_i hzero
    rw [if_neg hzero]
    split at h
    · cases h
    · rename_i hempty
      rw [if_neg hempty]
      exact walk_of_directories hkeep h

/-- A path with a slash at its end leads to directories alone. -/
theorem entry_eq_ok_iff {path : PathName} {e : Entry} :
    v.entry path = .ok e ↔
      ∃ p, v.follow path = .ok p ∧ v.at? p = some e ∧
        (path.endsInSlash = true → e = .directory) := by
  unfold entry resolve
  cases hfollow : v.follow path with
  | error e => simp
  | ok p =>
    cases hat : v.at? p with
    | none => simp [hat]
    | some found =>
      cases found with
      | directory =>
        simp only [hat, Except.ok.injEq, exists_eq_left', Option.some.injEq]
        exact ⟨fun h => ⟨h, fun _ => h.symm⟩, fun h => h.1⟩
      | file id contents =>
        cases hslash : path.endsInSlash with
        | true =>
          simp only [hat, if_true]
          constructor
          · intro h
            cases h
          · rintro ⟨q, hqp, hq, hdirectory⟩
            obtain rfl := Except.ok.inj hqp
            rw [hat] at hq
            cases hq
            cases hdirectory trivial
        | false => simp [hat]

/-- What a path led to, it leads to as long as all that was there is there. -/
theorem Extends.entry {made fresh : Place → Prop} (h : Extends made fresh v v') {path : PathName}
    {e : Entry} (he : v.entry path = .ok e) : v'.entry path = .ok e := by
  obtain ⟨p, hfollow, hat, hslash⟩ := entry_eq_ok_iff.1 he
  have hfollow' := follow_of_directories (fun q hq => h.at? hq) hfollow
  exact entry_eq_ok_iff.2 ⟨p, hfollow', h.at? hat, hslash⟩

theorem textAt_of_entry {path : PathName} {id : Nat} {s : String}
    (h : v.entry path = .ok (.file id (.text s))) : v.textAt path = .ok s := by
  rw [textAt, h]

theorem textAt_replace {path : PathName} {s : String} (h : v.replace path s = .ok v') :
    v'.textAt path = .ok s := by
  obtain ⟨p, hfollow, hfile, hslash, rfl⟩ := replace_eq_ok h
  have hat := v.at_put_self (ne_nil_of_at? hfile) (.file v.nextId (.text s))
  refine textAt_of_entry (entry_eq_ok_iff.2 ⟨p,
    follow_of_directories (fun q hq => ?_) hfollow, hat, fun htrue => ?_⟩)
  · -- no directory is at the place, so the path leads there as before
    have hne : q ≠ p := by
      rintro rfl
      exact hfile hq
    exact (at?_put_of_ne v hne _).trans hq
  · rw [hslash] at htrue
    cases htrue

end Volume
end SharedConfig
