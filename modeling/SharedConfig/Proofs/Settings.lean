import SharedConfig.Proofs.Volume.Tree
import SharedConfig.Store.Settings

/-!
# SharedConfig.Proofs.Settings

The paths of a store.  The directories on the way to the lock are made before the document is looked
for, and then the lock file; none of them may be the document, nor the lock file a directory that the
document is in (`Settings.IsApart`).  Two files in one directory are apart.

* `ofText_pathIn`: the path of a file in a directory.
* `isApart_inDirectory`: the usual files are apart.
-/

namespace SharedConfig

open Volume (placeOf LeadThrough step)

namespace PathName

/-! ## Names -/

theorem pieces_ne_nil (s : List Char) : pieces s ≠ [] := by
  cases s with
  | nil => exact List.cons_ne_nil _ _
  | cons c rest =>
    rw [pieces]
    cases pieces rest with
    | nil => exact List.cons_ne_nil _ _
    | cons p ps => dsimp only; split <;> exact List.cons_ne_nil _ _

theorem pieces_append_slash (a b : List Char) :
    pieces (a ++ '/' :: b) = pieces a ++ pieces b := by
  induction a with
  | nil =>
    cases h : pieces b with
    | nil => exact absurd h (pieces_ne_nil b)
    | cons p ps => simp [pieces, h]
  | cons c a ih =>
    rw [List.cons_append, pieces, pieces, ih]
    cases h : pieces a with
    | nil => exact absurd h (pieces_ne_nil a)
    | cons p ps =>
      dsimp only [List.cons_append]
      split <;> rfl

theorem pieces_of_not_mem {s : List Char} (h : '/' ∉ s) : pieces s = [s] := by
  induction s with
  | nil => rfl
  | cons c rest ih =>
    rw [List.mem_cons, not_or] at h
    rw [pieces, ih h.2]
    exact if_neg (Ne.symm h.1)

theorem ne_dot_of_mem_names {s name : String} (h : name ∈ (ofText s).names) : name ≠ "." := by
  obtain ⟨piece, hpiece, rfl⟩ := List.mem_map.1 h
  intro hdot
  have hidle : piece = ['.'] := String.toList_ofList.symm.trans (congrArg String.toList hdot)
  rw [List.mem_filter, hidle] at hpiece
  exact absurd hpiece.2 (by decide)

/-- A path in a directory leads on from the directory by the name of the file. -/
theorem ofText_pathIn (directory name : String) (hslash : '/' ∉ name.toList)
    (hname : isIdle name.toList = false) :
    (ofText (Settings.pathIn directory name)).way = (ofText directory).names ++ [name] := by
  obtain ⟨before, hpieces, hbefore⟩ : ∃ before,
      pieces (Settings.pathIn directory name).toList = before ++ [name.toList] ∧
        before.filter (fun p => !isIdle p) =
          (pieces directory.toList).filter fun p => !isIdle p := by
    have hlast := pieces_of_not_mem hslash
    unfold Settings.pathIn
    by_cases hempty : directory = ""
    · subst hempty
      exact ⟨[], by simpa using hlast, rfl⟩
    · have hrelative : ¬ name.toList.head? = some '/' := fun h =>
        hslash (List.mem_of_mem_head? h)
      rw [if_neg (by simp [hempty, hrelative])]
      split
      · rename_i hend
        obtain ⟨above, habove⟩ := List.getLast?_eq_some_iff.1 hend
        refine ⟨pieces above, ?_, ?_⟩
        · rw [String.toList_append, habove, List.append_assoc, List.singleton_append,
            pieces_append_slash, hlast]
        · rw [habove, pieces_append_slash, List.filter_append]
          exact (List.append_nil _).symm
      · refine ⟨pieces directory.toList, ?_, rfl⟩
        rw [String.toList_append, String.toList_append, List.append_assoc, ← hlast]
        exact pieces_append_slash _ _
  have hnames : (ofText (Settings.pathIn directory name)).names =
      (ofText directory).names ++ [name] := by
    simp only [ofText, hpieces, List.filter_append, hbefore, List.map_append]
    simp [hname]
  have hdot : (ofText (Settings.pathIn directory name)).endsInDot = false := by
    have hne : name.toList ≠ [] ∧ name.toList ≠ ['.'] := by simpa [isIdle] using hname
    simp [ofText, hpieces, hne.1, hne.2]
  rw [way, hdot, hnames]
  rfl

/-! ## Places -/

theorem foldl_step_of_names {names : List String} (h : ∀ n ∈ names, n ≠ "." ∧ n ≠ "..")
    (here : Place) : names.foldl step here = here ++ names := by
  induction names generalizing here with
  | nil => exact (List.append_nil here).symm
  | cons n rest ih =>
    obtain ⟨hn, hrest⟩ := List.forall_mem_cons.1 h
    rw [List.foldl_cons, ih hrest, step, if_neg hn.1, if_neg hn.2, List.append_assoc]
    rfl

theorem placeOf_names {names : List String} (h : ∀ n ∈ names, n ≠ "." ∧ n ≠ "..") :
    placeOf names = names := by
  rw [placeOf, foldl_step_of_names h, List.nil_append]

theorem names_prefix_way (path : PathName) : path.names <+: path.way := by
  unfold way
  split
  · exact List.prefix_append _ _
  · exact List.prefix_rfl

section Plain

variable {s : String}

theorem IsPlain.names (h : (ofText s).IsPlain) : ∀ n ∈ (ofText s).names, n ≠ "." ∧ n ≠ ".." :=
  fun n hn => ⟨ne_dot_of_mem_names hn, (h n ((names_prefix_way _).subset hn)).1⟩

theorem IsPlain.place_eq (h : (ofText s).IsPlain) : (ofText s).place = (ofText s).names := by
  have hnames := placeOf_names h.names
  unfold place way
  split
  · rw [placeOf, List.foldl_append]
    exact hnames
  · exact hnames

/-- The directories that a plain path is in are not what it leads to. -/
theorem IsPlain.not_leadThrough (h : (ofText s).IsPlain) (hne : (ofText s).place ≠ []) :
    ¬ LeadThrough (ofText s).names.dropLast (ofText s).place := by
  rintro ⟨first, hfirst, hplace⟩
  rw [h.place_eq] at hne hplace
  have hnames : ∀ n ∈ first, n ≠ "." ∧ n ≠ ".." := fun n hn =>
    h.names n ((List.dropLast_prefix _).subset (hfirst.subset hn))
  rw [placeOf_names hnames] at hplace
  have hlength := hfirst.length_le
  rw [hplace, List.length_dropLast] at hlength
  have hpos := List.length_pos_iff.2 hne
  omega

end Plain

end PathName

namespace Settings

/-- The document is at a plain path, and neither it nor a directory that it is in is on the way to
the lock in the form that the way is made in: directories, and a file at its end. -/
structure IsApart (s : Settings) : Prop where
  plain : (PathName.ofText s.documentPath).IsPlain
  document : ¬ LeadThrough (PathName.ofText s.lockPath).way (PathName.ofText s.documentPath).place
  lock : ¬ (PathName.ofText s.lockPath).place <+: (PathName.ofText s.documentPath).place

theorem isApart_inDirectory {directory : String}
    (h : ∀ n ∈ (PathName.ofText directory).names, n ≠ ".." ∧ n.utf8ByteSize ≤ 255) :
    (inDirectory directory).IsApart := by
  have hdocument : (PathName.ofText (inDirectory directory).documentPath).way = _ :=
    PathName.ofText_pathIn directory "config.yaml" (by decide) (by decide)
  have hlock : (PathName.ofText (inDirectory directory).lockPath).way = _ :=
    PathName.ofText_pathIn directory ".config.yaml.lock" (by decide) (by decide)
  have hnames : ∀ last, last ≠ "." ∧ last ≠ ".." →
      ∀ n ∈ (PathName.ofText directory).names ++ [last], n ≠ "." ∧ n ≠ ".." := by
    intro last hlast n hn
    rcases List.mem_append.1 hn with hn | hn
    · exact ⟨PathName.ne_dot_of_mem_names hn, (h n hn).1⟩
    · rw [List.mem_singleton.1 hn]
      exact hlast
  have hdocumentPlace := PathName.placeOf_names (hnames "config.yaml" (by decide))
  have hlockPlace := PathName.placeOf_names (hnames ".config.yaml.lock" (by decide))
  constructor
  case plain =>
    intro n hn
    rw [hdocument] at hn
    rcases List.mem_append.1 hn with hn | hn
    · exact h n hn
    · rw [List.mem_singleton.1 hn]
      decide
  case document =>
    rintro ⟨first, hfirst, hplace⟩
    rw [hlock] at hfirst
    rw [PathName.place, hdocument, hdocumentPlace, PathName.placeOf_names fun n hn =>
      hnames _ (by decide) n (hfirst.subset hn)] at hplace
    rw [hplace, List.prefix_append_right_inj] at hfirst
    exact absurd hfirst (by decide)
  case lock =>
    rw [PathName.place, PathName.place, hdocument, hlock, hdocumentPlace, hlockPlace,
      List.prefix_append_right_inj]
    decide

end Settings
end SharedConfig
