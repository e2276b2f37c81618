import Mathlib.Data.List.Induction
import SharedConfig.Proofs.Edit.Writing

/-!
# SharedConfig.Proofs.Dotted

Paths as dotted texts, printed and read.

A text is cut at its dots, and the pieces with dots between them are the text again; so what is read
is printed as it was, and names without dots are read as they were printed.

* `mem_segments_iff`: the pieces of a text are what stands in it between two dots or ends.
* `dotted_of_segments`, `withLeaf_dotted_of`: the text of the path of a text, and the path of the text
  of some names.
* `dotted_round_trip_and_parent_child`: reading and printing, and the way to a child and back.
-/

namespace SharedConfig
namespace KeyPath

/-! ## Segments -/

/-- Without a dot, and between two dots once a dot is put at either end of the text. -/
def IsSegment (seg s : List Char) : Prop :=
  '.' ∉ seg ∧ '.' :: seg ++ ['.'] <:+: '.' :: s ++ ['.']

instance (seg s : List Char) : Decidable (IsSegment seg s) :=
  inferInstanceAs (Decidable ('.' ∉ seg ∧ '.' :: seg ++ ['.'] <:+: '.' :: s ++ ['.']))

theorem segments_eq_splitOn (s : List Char) : segments s = s.splitOn '.' := by
  induction s with
  | nil => rfl
  | cons c rest ih =>
    rw [segments, ih, List.splitOn_eq_splitOnP, List.splitOn_eq_splitOnP,
      List.splitOnP_cons_eq_if_modifyHead]
    cases h : List.splitOnP (· == '.') rest with
    | nil => exact absurd h (List.splitOnP_ne_nil _ rest)
    | cons seg segs => by_cases hc : c = '.' <;> simp [hc]

theorem segments_ne_nil (s : List Char) : segments s ≠ [] := by
  rw [segments_eq_splitOn]
  exact List.splitOn_ne_nil '.' s

theorem intercalate_segments (s : List Char) : ['.'].intercalate (segments s) = s := by
  rw [segments_eq_splitOn, List.intercalate_splitOn]

theorem segments_intercalate {segs : List (List Char)} (hne : segs ≠ [])
    (h : ∀ seg ∈ segs, '.' ∉ seg) : segments (['.'].intercalate segs) = segs := by
  rw [segments_eq_splitOn, List.splitOn_intercalate '.' h hne]

theorem segments_append (a b : List Char) :
    segments (a ++ '.' :: b) = segments a ++ segments b := by
  simp only [segments_eq_splitOn, List.splitOn_eq_splitOnP]
  exact List.splitOnP_append_cons a b rfl

theorem segments_of_not_mem {seg : List Char} (h : '.' ∉ seg) : segments seg = [seg] := by
  rw [segments_eq_splitOn, List.splitOn_eq_singleton h]

theorem not_mem_of_mem_segments {s seg : List Char} (h : seg ∈ segments s) : '.' ∉ seg := by
  induction s generalizing seg with
  | nil =>
    rw [List.mem_singleton.1 h]
    exact List.not_mem_nil
  | cons c rest ih =>
    rw [segments] at h
    cases hrest : segments rest with
    | nil => exact absurd hrest (segments_ne_nil rest)
    | cons first others =>
      rw [hrest] at h ih
      dsimp only at h
      split at h
      · rcases List.mem_cons.1 h with rfl | h
        · exact List.not_mem_nil
        · exact ih h
      · rename_i hc
        rcases List.mem_cons.1 h with rfl | h
        · rw [List.mem_cons, not_or]
          exact ⟨Ne.symm hc, ih List.mem_cons_self⟩
        · exact ih (List.mem_cons_of_mem _ h)

theorem segments_between_dots (s : List Char) :
    segments ('.' :: s ++ ['.']) = [] :: (segments s ++ [[]]) := by
  have hsplit : '.' :: s ++ ['.'] = [] ++ '.' :: (s ++ '.' :: []) := rfl
  rw [hsplit, segments_append, segments_append]
  rfl

theorem intercalate_append_cons {a b : List (List Char)} (ha : a ≠ []) (hb : b ≠ [])
    (seg : List Char) : ['.'].intercalate (a ++ seg :: b) =
      ['.'].intercalate a ++ ('.' :: seg ++ ['.']) ++ ['.'].intercalate b := by
  induction a with
  | nil => exact absurd rfl ha
  | cons x a ih =>
    cases a with
    | nil =>
      rw [List.singleton_append, List.intercalate_cons_cons, List.intercalate_cons_of_ne_nil hb]
      simp
    | cons y a =>
      rw [List.cons_append, List.intercalate_cons_of_ne_nil (by simp), ih (List.cons_ne_nil y a),
        List.intercalate_cons_cons]
      simp

/-- The segments of a text are the pieces without dots that stand between two of its dots or ends.
-/
theorem mem_segments_iff {seg s : List Char} : seg ∈ segments s ↔ IsSegment seg s := by
  constructor
  · intro h
    refine ⟨not_mem_of_mem_segments h, ?_⟩
    obtain ⟨a, b, hab⟩ := List.append_of_mem h
    refine ⟨['.'].intercalate ([] :: a), ['.'].intercalate (b ++ [[]]), ?_⟩
    rw [← intercalate_segments ('.' :: s ++ ['.']), segments_between_dots, hab,
      ← intercalate_append_cons (List.cons_ne_nil _ _) (by simp)]
    simp
  · rintro ⟨hdot, before, after, h⟩
    have hcut : segments before ++ seg :: segments after = [] :: (segments s ++ [[]]) := by
      rw [← segments_between_dots, ← h]
      have hsplit : before ++ ('.' :: seg ++ ['.']) ++ after =
          before ++ '.' :: (seg ++ '.' :: after) := by simp
      rw [hsplit, segments_append, segments_append, segments_of_not_mem hdot]
      rfl
    -- without the first and the last piece both are the segments of the text
    cases hbefore : segments before with
    | nil => exact absurd hbefore (segments_ne_nil before)
    | cons first others =>
      have hne := segments_ne_nil after
      rw [hbefore, List.cons_append, ← List.dropLast_concat_getLast hne] at hcut
      have hinner : (others ++ seg :: (segments after).dropLast) ++ [(segments after).getLast hne] =
          segments s ++ [[]] := by simpa using (List.cons.inj hcut).2
      rw [← List.append_inj_left' hinner rfl]
      exact List.mem_append_right _ List.mem_cons_self

/-! ## Reading and printing -/

theorem toList_dotted (p : KeyPath) :
    p.dotted.toList = ['.'].intercalate (p.names.map String.toList) :=
  String.toList_intercalate

theorem dotted_of_segments (s : String) (kind : NodeKind) :
    dotted (of ((segments s.toList).map String.ofList) kind) = s := by
  have htexts : (segments s.toList).map (String.toList ∘ String.ofList) = segments s.toList := by
    refine (List.map_congr_left fun seg _ => ?_).trans (List.map_id _)
    exact String.toList_ofList
  rw [← String.toList_inj, toList_dotted, names_of, List.map_map, htexts, intercalate_segments]

theorem throughMappings_of_names (names : List String) (kind : NodeKind) :
    (of names kind).ThroughMappings ∧ ∀ last, (of names kind).getLast? = some last →
      last.kind = kind := by
  cases names using List.reverseRecOn with
  | nil => exact ⟨fun s hs => (nomatch hs), fun last hlast => (nomatch hlast)⟩
  | append_singleton above name =>
    rw [of_append_singleton]
    constructor
    · intro s hs
      rw [List.dropLast_concat] at hs
      exact Node.kind_of_mem_of hs
    · intro last hlast
      rw [List.getLast?_concat] at hlast
      cases hlast
      rfl

theorem withLeaf_of_ne {s : String} (hs : s ≠ "") (kind : NodeKind) :
    withLeaf s kind = if IsSegment [] s.toList then .error (.emptySegment s)
      else .ok (of ((segments s.toList).map String.ofList) kind) := by
  have hany : (segments s.toList).any List.isEmpty = true ↔ IsSegment [] s.toList := by
    rw [← mem_segments_iff]
    simp
  rw [withLeaf, if_neg hs]
  by_cases h : IsSegment [] s.toList
  · simp only [hany.2 h, if_true, if_pos h]
  · simp only [Bool.eq_false_iff.2 fun hc => h (hany.1 hc), if_neg h, Bool.false_eq_true, if_false]

/-- The laws of reading a dotted text: it is a path exactly if it is empty or no segment of it is,
the path is through mappings and is printed as the text, and else the error carries the text. -/
structure ReadsDotted (s : String) (kind : NodeKind) : Prop where
  succeeds : (∃ p, withLeaf s kind = .ok p) ↔ s = "" ∨ ∀ seg, IsSegment seg s.toList → seg ≠ []
  path : ∀ p, withLeaf s kind = .ok p → p.dotted = s ∧ p.ThroughMappings ∧
    ∀ last, p.getLast? = some last → last.kind = kind
  error : ∀ e, withLeaf s kind = .error e → e = .emptySegment s

theorem readsDotted (s : String) (kind : NodeKind) : ReadsDotted s kind := by
  by_cases hs : s = ""
  · subst hs
    refine ⟨⟨fun _ => .inl rfl, fun _ => ⟨[], rfl⟩⟩, fun p h => ?_, fun e h => nomatch h⟩
    cases h
    exact ⟨rfl, throughMappings_of_names [] kind⟩
  · have hread := withLeaf_of_ne hs kind
    by_cases hempty : IsSegment [] s.toList
    · rw [if_pos hempty] at hread
      constructor
      · rw [hread]
        constructor
        · rintro ⟨p, h⟩
          cases h
        · rintro (h | h)
          · exact absurd h hs
          · exact absurd rfl (h [] hempty)
      · intro p h
        rw [hread] at h
        cases h
      · intro e h
        rw [hread] at h
        cases h
        rfl
    · rw [if_neg hempty] at hread
      constructor
      · refine ⟨fun _ => .inr ?_, fun _ => ⟨_, hread⟩⟩
        rintro seg hseg rfl
        exact hempty hseg
      · intro p h
        rw [hread] at h
        cases h
        exact ⟨dotted_of_segments s kind, throughMappings_of_names _ kind⟩
      · intro e h
        rw [hread] at h
        cases h

theorem withLeaf_dotted_of {names : List String} (h : ∀ n ∈ names, n ≠ "" ∧ '.' ∉ n.toList)
    (kind : NodeKind) : withLeaf (of names kind).dotted kind = .ok (of names kind) := by
  cases names with
  | nil => rfl
  | cons first rest =>
    have hsegments : segments (of (first :: rest) kind).dotted.toList =
        (first :: rest).map String.toList := by
      rw [toList_dotted, names_of, segments_intercalate (by simp)]
      intro seg hseg
      obtain ⟨n, hn, rfl⟩ := List.mem_map.1 hseg
      exact (h n hn).2
    have hempty : ¬ IsSegment [] (of (first :: rest) kind).dotted.toList := by
      rw [← mem_segments_iff, hsegments, List.mem_map]
      rintro ⟨n, hn, hnil⟩
      exact (h n hn).1 (String.toList_eq_nil_iff.1 hnil)
    have hne : (of (first :: rest) kind).dotted ≠ "" := by
      intro hnil
      rw [hnil] at hempty
      exact hempty (by decide)
    rw [withLeaf_of_ne hne, if_neg hempty, hsegments]
    simp

/-- Dotted texts are read and printed consistently: what is read is printed as it was, and names
without dots are read as they were printed.  Below a path of mappings each child leads back to it.
-/
theorem dotted_round_trip_and_parent_child :
    (∀ (s : String) (kind : NodeKind), ReadsDotted s kind) ∧
    (∀ (names : List String) (kind : NodeKind), (∀ n ∈ names, n ≠ "" ∧ '.' ∉ n.toList) →
      withLeaf (of names kind).dotted kind = .ok (of names kind)) ∧
    ∀ (p : KeyPath) (name : String) (kind : NodeKind), (∀ s ∈ p, s.kind = .mapping) →
      (p.child name kind).parent? = some p :=
  ⟨readsDotted, fun _ kind h => withLeaf_dotted_of h kind,
    fun _ name kind h => parent?_child h name kind⟩

/-- Three names without dots, a text with nothing between two of its dots, and a child of a mapping.
-/
theorem dotted_round_trip_and_parent_child_of_names :
    let names := ["clientOptions", "cli", "essentials"]
    let options := of ["clientOptions"] .mapping
    (∀ n ∈ names, n ≠ "" ∧ '.' ∉ n.toList) ∧
      withLeaf "clientOptions.cli.essentials" .sequence = .ok (of names .sequence) ∧
      (of names .sequence).dotted = "clientOptions.cli.essentials" ∧
      (∀ seg, IsSegment seg "clientOptions.cli.essentials".toList → seg ≠ []) ∧
      IsSegment [] "cli..env".toList ∧ withLeaf "cli..env" .scalar = .error (.emptySegment "cli..env") ∧
      (∀ s ∈ options, s.kind = .mapping) ∧
      (options.child "features" .scalar).parent? = some options := by
  intro names options
  obtain ⟨hread, hback, hparent⟩ := dotted_round_trip_and_parent_child
  have hnames : ∀ n ∈ names, n ≠ "" ∧ '.' ∉ n.toList := by decide
  have hoptions : ∀ s ∈ options, s.kind = .mapping := by decide
  have hempty : IsSegment [] "cli..env".toList :=
    ⟨List.not_mem_nil, ".cli".toList, "env.".toList, by decide⟩
  have hprinted : (of names .sequence).dotted = "clientOptions.cli.essentials" := by decide
  have hpath := hback names .sequence hnames
  rw [hprinted] at hpath
  have hlaws := hread "clientOptions.cli.essentials" .sequence
  refine ⟨hnames, hpath, (hlaws.path _ hpath).1, ?_, hempty, ?_, hoptions,
    hparent options "features" .scalar hoptions⟩
  · exact (hlaws.succeeds.1 ⟨_, hpath⟩).resolve_left (by decide)
  · cases h : withLeaf "cli..env" .scalar with
    | ok p =>
      rcases (hread "cli..env" .scalar).succeeds.1 ⟨p, h⟩ with hnil | hfull
      · exact absurd hnil (by decide)
      · exact absurd rfl (hfull [] hempty)
    | error e => rw [(hread "cli..env" .scalar).error e h]

end KeyPath
end SharedConfig
