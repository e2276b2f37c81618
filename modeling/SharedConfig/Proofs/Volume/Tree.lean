import Mathlib.Data.List.Induction
import Mathlib.Data.List.Infix
import SharedConfig.Proofs.Volume

/-!
# SharedConfig.Proofs.Volume.Tree

Files and directories as a tree, and what is missing from it.

A path without two dots leads downwards, name by name.  In a tree it leads nowhere exactly if nothing
is at the place of its names and no file is above that place (`IsFree`); and a place stays free as long
as neither it nor a file above it is made, whatever directories are.

* `isFree_of_missing`, `missing_of_isFree`: what it is for a path to lead to nothing.
* `Extends.missing`: a path that leads to nothing still does so.
* `IsTree.lock`, `IsTree.replace`: trees stay trees.
-/

namespace SharedConfig

/-- Each name on the way can be that of a file, and leads further down. -/
def PathName.IsPlain (path : PathName) : Prop :=
  ∀ name ∈ path.way, name ≠ ".." ∧ name.utf8ByteSize ≤ 255

def PathName.place (path : PathName) : Place := Volume.placeOf path.way

namespace Volume

variable {v v' : Volume} {p q here : Place} {names : List String}

/-- Whatever there is, it is in a directory. -/
def IsTree (v : Volume) : Prop :=
  ∀ x ∈ v.entries, x.1 ≠ [] → v.at? x.1.dropLast = some .directory

instance (v : Volume) : Decidable v.IsTree :=
  inferInstanceAs (Decidable (∀ x ∈ v.entries, x.1 ≠ [] → v.at? x.1.dropLast = some .directory))

theorem IsTree.directory_above (h : v.IsTree) {name : String} {e : Entry}
    (he : v.at? (p ++ [name]) = some e) : v.at? p = some .directory := by
  rw [at?, if_neg (by simp)] at he
  obtain ⟨before, after, hentries, -⟩ := List.lookup_eq_some_iff.1 he
  have hparent := h (p ++ [name], e) (by simp [hentries]) (by simp)
  rwa [List.dropLast_concat] at hparent

theorem IsTree.directory_of_prefix (h : v.IsTree) (hq : q <+: p) (hne : q ≠ p) {e : Entry}
    (he : v.at? p = some e) : v.at? q = some .directory := by
  induction p using List.reverseRecOn generalizing e with
  | nil => exact absurd (List.prefix_nil.1 hq) hne
  | append_singleton p name ih =>
    have hp := h.directory_above he
    rcases List.prefix_concat_iff.1 hq with rfl | hq
    · exact absurd rfl hne
    · by_cases heq : q = p
      · rw [heq, hp]
      · exact ih hq heq hp

/-! ## What is missing -/

theorem follow_eq_ok {path : PathName} (h : v.follow path = .ok p) : p = path.place := by
  unfold follow at h
  split at h
  · cases h
  · split at h
    · cases h
    · exact walk_eq_ok h

/-- Nothing is at a place, and no file is at it or above it. -/
def IsFree (v : Volume) (p : Place) : Prop :=
  v.at? p = none ∧ ∀ q id contents, q <+: p → v.at? q ≠ some (.file id contents)

theorem IsFree.ne_nil (h : v.IsFree p) : p ≠ [] := ne_nil_of_at? (v := v) (by simp [h.1])

theorem step_of_ne {name : String} (h : name ≠ "..") (here : Place) :
    step here name = if name = "." then here else here ++ [name] := by
  rw [step, if_neg h]

theorem prefix_step {name : String} (h : name ≠ "..") (here : Place) : here <+: step here name := by
  rw [step_of_ne h]
  split
  · exact List.prefix_rfl
  · exact List.prefix_append _ _

theorem prefix_foldl_step (h : ∀ name ∈ names, name ≠ "..") (here : Place) :
    here <+: names.foldl step here := by
  induction names generalizing here with
  | nil => exact List.prefix_rfl
  | cons name rest ih =>
    obtain ⟨hname, hrest⟩ := List.forall_mem_cons.1 h
    exact (prefix_step hname here).trans (ih hrest _)

/-- Above the first place on the way where nothing is, there are directories. -/
theorem IsTree.isFree_of_step (h : v.IsTree) (hhere : v.at? here = some .directory) {name : String}
    (hname : name ≠ "..") (hnone : v.at? (step here name) = none) (hp : step here name <+: p) :
    v.IsFree p := by
  have hbelow : ∀ q e, step here name <+: q → v.at? q ≠ some e := by
    intro q e hq he
    by_cases heq : step here name = q
    · rw [heq, he] at hnone
      cases hnone
    · rw [h.directory_of_prefix hq heq he] at hnone
      cases hnone
  refine ⟨Option.eq_none_iff_forall_ne_some.2 fun e => hbelow p e hp, fun q id contents hq he => ?_⟩
  rcases List.prefix_or_prefix_of_prefix hq hp with hle | hle
  · -- at the place of a step downwards there is nothing, and above it there are directories
    have hup : q <+: here := by
      rw [step_of_ne hname] at hle hnone
      split at hle
      · exact hle
      · rename_i hdot
        rw [if_neg hdot] at hnone
        rcases List.prefix_concat_iff.1 hle with rfl | hle
        · rw [he] at hnone
          cases hnone
        · exact hle
    by_cases heq : q = here
    · rw [heq, hhere] at he
      cases he
    · rw [h.directory_of_prefix hup heq hhere] at he
      cases he
  · exact hbelow q _ hle he

theorem isFree_of_walk (h : v.IsTree) (hnames : ∀ name ∈ names, name ≠ "..")
    (hhere : v.at? here = some .directory)
    (hwalk : v.walk names here = .error .missing ∨ ∃ p, v.walk names here = .ok p ∧ v.at? p = none) :
    v.IsFree (names.foldl step here) := by
  induction names generalizing here with
  | nil =>
    rcases hwalk with hwalk | ⟨p, hwalk, hnone⟩
    · cases hwalk
    · cases hwalk
      rw [hhere] at hnone
      cases hnone
  | cons name rest ih =>
    obtain ⟨hname, hrest⟩ := List.forall_mem_cons.1 hnames
    have hdown := prefix_foldl_step hrest (step here name)
    rw [walk] at hwalk
    by_cases hlong : 255 < name.utf8ByteSize
    · simp [hlong] at hwalk
    rw [if_neg hlong] at hwalk
    by_cases hlast : rest.isEmpty
    · rw [if_pos hlast] at hwalk
      rcases hwalk with hwalk | ⟨p, hwalk, hnone⟩
      · cases hwalk
      · cases hwalk
        exact h.isFree_of_step hhere hname hnone hdown
    · rw [if_neg hlast] at hwalk
      cases hat : v.at? (step here name) with
      | none => exact h.isFree_of_step hhere hname hat hdown
      | some e =>
        rw [hat] at hwalk
        cases e with
        | directory => exact ih hrest hat hwalk
        | file id contents => simp at hwalk

theorem walk_of_isFree (hnames : ∀ name ∈ names, name ≠ ".." ∧ name.utf8ByteSize ≤ 255)
    (hfree : v.IsFree (names.foldl step here)) :
    v.walk names here = .error .missing ∨ v.walk names here = .ok (names.foldl step here) := by
  induction names generalizing here with
  | nil => exact .inr rfl
  | cons name rest ih =>
    obtain ⟨⟨hname, hshort⟩, hrest⟩ := List.forall_mem_cons.1 hnames
    rw [walk, if_neg (Nat.not_lt.2 hshort)]
    split
    · rename_i hlast
      rw [List.isEmpty_iff.1 hlast]
      exact .inr rfl
    · cases hat : v.at? (step here name) with
      | none => exact .inl rfl
      | some e =>
        cases e with
        | directory => exact ih hrest hfree
        | file id contents =>
          have hdown := prefix_foldl_step (fun n hn => (hrest n hn).1) (step here name)
          exact absurd hat (hfree.2 _ id contents hdown)

theorem entry_eq_missing_iff {path : PathName} :
    v.entry path = .error .missing ↔
      v.follow path = .error .missing ∨ ∃ p, v.follow path = .ok p ∧ v.at? p = none := by
  unfold entry resolve
  cases hfollow : v.follow path with
  | error e => simp
  | ok p =>
    cases hat : v.at? p with
    | none => simp [hat]
    | some e =>
      cases e with
      | directory => simp [hat]
      | file id contents => cases hslash : path.endsInSlash <;> simp [hat]

/-- The empty path leads nowhere by itself. -/
theorem isFree_of_missing {path : PathName} (h : v.IsTree) (hplain : path.IsPlain)
    (hmissing : v.entry path = .error .missing) :
    path.hasZero = false ∧ (path.isEmpty = true ∨ v.IsFree path.place) := by
  rw [entry_eq_missing_iff, follow] at hmissing
  split at hmissing
  · simp at hmissing
  · rename_i hzero
    refine ⟨Bool.eq_false_iff.2 hzero, ?_⟩
    split at hmissing
    · exact .inl ‹_›
    · exact .inr (isFree_of_walk h (fun name hname => (hplain name hname).1) rfl hmissing)

theorem missing_of_isFree {path : PathName} (hplain : path.IsPlain) (hzero : path.hasZero = false)
    (hfree : path.isEmpty = true ∨ v.IsFree path.place) : v.entry path = .error .missing := by
  rw [entry_eq_missing_iff, follow, if_neg (by simp [hzero])]
  split
  · exact .inl rfl
  · rename_i hempty
    have hfree := hfree.resolve_left hempty
    exact (walk_of_isFree hplain hfree).imp_right fun hwalk => ⟨_, hwalk, hfree.1⟩

theorem Extends.isFree {made fresh : Place → Prop} (h : Extends made fresh v v') (hp : v.IsFree p)
    (hmade : ¬ made p) (hfresh : ∀ q, fresh q → ¬ q <+: p) : v'.IsFree p := by
  constructor
  · rcases h p with hsame | ⟨-, ⟨hdirectory, -⟩ | ⟨hfile, -⟩⟩
    · rw [hsame, hp.1]
    · exact absurd hdirectory hmade
    · exact absurd List.prefix_rfl (hfresh p hfile)
  · intro q id contents hq he
    rcases h q with hsame | ⟨-, ⟨-, hdirectory⟩ | ⟨hfile, -⟩⟩
    · exact hp.2 q id contents hq (hsame.symm.trans he)
    · rw [hdirectory] at he
      cases he
    · exact hfresh q hfile hq

theorem Extends.missing {made fresh : Place → Prop} (h : Extends made fresh v v') (htree : v.IsTree)
    {path : PathName} (hplain : path.IsPlain) (hmade : v.IsFree path.place → ¬ made path.place)
    (hfresh : ∀ q, fresh q → ¬ q <+: path.place) (hmissing : v.entry path = .error .missing) :
    v'.entry path = .error .missing := by
  obtain ⟨hzero, hfree⟩ := isFree_of_missing htree hplain hmissing
  exact missing_of_isFree hplain hzero
    (hfree.imp_right fun hfree => h.isFree hfree (hmade hfree) hfresh)

/-! ## What stays a tree -/

theorem IsTree.put (h : v.IsTree) (hp : p ≠ []) (habove : v.at? p.dropLast = some .directory)
    (hfile : v.at? p ≠ some .directory) (e : Entry) : (v.put p e).IsTree := by
  -- no directory goes, so what was above an entry is there still
  have hkept : ∀ q, v.at? q = some .directory → (v.put p e).at? q = some .directory := by
    intro q hq
    have hne : q ≠ p := by
      rintro rfl
      exact hfile hq
    rw [at?_put_of_ne v hne, hq]
  intro x hx hne
  rcases List.mem_cons.1 hx with rfl | hx
  · exact hkept _ habove
  · exact hkept _ (h x (List.mem_filter.1 hx).1 hne)

/-- A place that names lead to, and where no directory is, is in a directory. -/
theorem IsTree.directory_of_walk (h : v.IsTree) (hhere : v.at? here = some .directory)
    (hwalk : v.walk names here = .ok p) (hfile : v.at? p ≠ some .directory) :
    v.at? p.dropLast = some .directory := by
  induction names generalizing here with
  | nil =>
    cases hwalk
    exact absurd hhere hfile
  | cons name rest ih =>
    rw [walk] at hwalk
    split at hwalk
    · cases hwalk
    · split at hwalk
      · cases hwalk
        unfold step at hfile ⊢
        split at hfile
        · exact absurd hhere hfile
        · split at hfile
          · refine absurd ?_ hfile
            by_cases hroot : here = []
            · rw [hroot]
              rfl
            · have hlast := List.dropLast_append_getLast hroot
              rw [← hlast] at hhere
              exact h.directory_above hhere
          · rename_i hdot hdots
            rwa [if_neg hdot, if_neg hdots, List.dropLast_concat]
      · split at hwalk
        · exact ih ‹_› hwalk
        · cases hwalk
        · cases hwalk

theorem IsTree.put_of_walk (h : v.IsTree) (hwalk : v.walk names [] = .ok p)
    (hfile : v.at? p ≠ some .directory) (e : Entry) : (v.put p e).IsTree :=
  h.put (ne_nil_of_at? hfile) (h.directory_of_walk rfl hwalk hfile) hfile e

theorem IsTree.put_of_follow (h : v.IsTree) {path : PathName} (hfollow : v.follow path = .ok p)
    (hfile : v.at? p ≠ some .directory) (e : Entry) : (v.put p e).IsTree := by
  unfold follow at hfollow
  split at hfollow
  · cases hfollow
  · split at hfollow
    · cases hfollow
    · exact h.put_of_walk hfollow hfile e

theorem IsTree.ensureDirectory (h : v.IsTree) (names : List String) :
    (v.ensureDirectory names).2.IsTree := by
  unfold Volume.ensureDirectory
  cases hmake : v.makeDirectory names with
  | error e => exact h
  | ok v' =>
    obtain ⟨p, hwalk, hfree, rfl⟩ := makeDirectory_eq_ok hmake
    exact h.put_of_walk hwalk (by simp [hfree]) .directory

theorem IsTree.makeParent (h : v.IsTree) (path : PathName) : (v.makeParent path).2.IsTree := by
  have hkept := @makeDirectories_induction (fun v w => v.IsTree → w.IsTree) (fun _ hv => hv)
    (fun huv hvw hu => hvw (huv hu)) path.names.dropLast.reverse
    (fun _ first _ hu => hu.ensureDirectory first) v
  exact hkept h

theorem IsTree.fileAt (h : v.IsTree) {path : PathName} {id : Nat}
    (hfile : v.fileAt path = .ok (id, v')) : v'.IsTree := by
  rcases fileAt_eq_ok hfile with rfl | ⟨p, hfollow, hfree, rfl⟩
  · exact h
  · exact h.put_of_follow hfollow (by simp [hfree]) _

theorem IsTree.lock (h : v.IsTree) (path : String) : (v.lock path).2.IsTree := by
  rcases v.lock_cases path with heq | ⟨id, u, locked, hfile, heq⟩
  · rw [heq]
    exact h.makeParent _
  · rw [heq]
    have hu : u.IsTree := (h.makeParent _).fileAt hfile
    exact hu

theorem IsTree.replace (h : v.IsTree) {path : PathName} {s : String}
    (hreplace : v.replace path s = .ok v') : v'.IsTree := by
  obtain ⟨p, hfollow, hfile, -, rfl⟩ := replace_eq_ok hreplace
  exact h.put_of_follow hfollow hfile _

end Volume
end SharedConfig
