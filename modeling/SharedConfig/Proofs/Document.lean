import SharedConfig.Node.Document
import SharedConfig.Proofs.Tree
import SharedConfig.Proofs.Value.Reading
import SharedConfig.Proofs.Value.Writing

/-!
# SharedConfig.Proofs.Document

Documents that were read, written again.

A tag that is nothing but its exclamation mark is read as an empty one.  On a scalar it is left out
when the document is written; on a collection it stops the writing (`written_fails`).  A mapping
whose only key is tagged is refused by the notation, unless the mapping has a tag itself.  Every
other document is written, and if its text is read as the value it was written from, the document
that was read first is read again.

* `toValue?_eq_none_iff`: the trees that have no value.
* `isWritable_of_toValue?`: in the value of another tree only a lone tagged key is refused.
* `document_written`: both for a document that was read, and what is read from its text.
-/

namespace SharedConfig

open Yaml

namespace Node

/-! ## Trees without a value -/

/-- Whether a node is no collection with an empty tag. -/
def keepsTag : Node → Bool
  | .tagged tag _ => decide (tag ≠ "")
  | _ => true

theorem toItems?_eq_none_iff {items : List Node} :
    toItems? items = none ↔ ∃ n ∈ items, n.toValue? = none := by
  induction items with
  | nil => simp [toItems?]
  | cons n ns ih =>
    rw [toItems?, List.exists_mem_cons_iff, ← ih]
    cases n.toValue? <;> cases toItems? ns <;> simp

theorem toEntries?_eq_none_iff {m : Mapping} {done : List (Value × Value)} :
    toEntries? m done = none ↔ ∃ e ∈ m, e.2.toValue? = none := by
  induction m generalizing done with
  | nil => simp [toEntries?]
  | cons e m ih =>
    obtain ⟨key, n⟩ := e
    rw [toEntries?, List.exists_mem_cons_iff]
    cases n.toValue? with
    | none => simp
    | some v => simp [ih]

theorem allItems_eq_false_iff {p : Node → Bool} {items : List Node} :
    allItems p items = false ↔ ∃ n ∈ items, n.all p = false := by
  rw [← Bool.not_eq_true, allItems_iff]
  simp

theorem allEntries_eq_false_iff {p : Node → Bool} {m : Mapping} :
    allEntries p m = false ↔ ∃ e ∈ m, e.2.all p = false := by
  rw [← Bool.not_eq_true, allEntries_iff]
  simp

theorem toValue?_eq_none_iff (n : Node) : n.toValue? = none ↔ n.all keepsTag = false := by
  induction n using tree_induction with
  | scalar s => simp [toValue?, Node.all, keepsTag]
  | sequence items ih =>
    have hitems : toItems? items = none ↔ allItems keepsTag items = false := by
      rw [toItems?_eq_none_iff, allItems_eq_false_iff]
      exact exists_congr fun n => and_congr_right (ih n)
    have hself : keepsTag (.sequence items) = true := rfl
    rw [Node.all, hself, Bool.true_and, ← hitems, toValue?]
    cases toItems? items <;> simp
  | mapping m ih =>
    have hentries : toEntries? m [] = none ↔ allEntries keepsTag m = false := by
      rw [toEntries?_eq_none_iff, allEntries_eq_false_iff]
      exact exists_congr fun e => and_congr_right (ih e)
    have hself : keepsTag (.mapping m) = true := rfl
    rw [Node.all, hself, Bool.true_and, ← hentries, toValue?]
    cases toEntries? m [] <;> simp
  | tagged tag n ih =>
    rw [Node.all, Bool.and_eq_false_iff, ← ih, toValue?, keepsTag]
    cases n.toValue? with
    | none => simp
    | some v => by_cases h : tag = "" <;> simp [h]

theorem exists_toValue?_iff {n : Node} : (∃ v, n.toValue? = some v) ↔ n.all keepsTag = true := by
  rw [← Option.ne_none_iff_exists', Ne, toValue?_eq_none_iff, Bool.not_eq_false]

theorem print_eq_impossible_iff (n : Node) : n.print = .impossible ↔ n.all keepsTag = false := by
  rw [← toValue?_eq_none_iff, print]
  cases n.toValue? with
  | none => simp
  | some v => cases hv : v.print <;> simp [hv]

/-! ## Trees that were read -/

theorem untaggedValue_leaf (s : Scalar) :
    s.untaggedValue.collectionKind? = none ∧ s.untaggedValue.isTagged = false := by
  unfold Scalar.untaggedValue
  dsimp only
  split
  · exact ⟨rfl, rfl⟩
  · split_ifs <;> exact ⟨rfl, rfl⟩
  · split
    · exact ⟨rfl, rfl⟩
    · split <;> exact ⟨rfl, rfl⟩
  · split_ifs
    · exact ⟨rfl, rfl⟩
    · exact ⟨rfl, rfl⟩
    · exact ⟨rfl, rfl⟩
    · split <;> exact ⟨rfl, rfl⟩
  · exact ⟨rfl, rfl⟩

theorem toValue_writable (s : Scalar) : s.toValue.collectionKind? = none ∧ s.toValue.IsWritable := by
  obtain ⟨hkind, htag⟩ := untaggedValue_leaf s
  have hleaf : s.untaggedValue.IsWritable := by
    refine (Value.forall_parts_leaf hkind htag).2 ?_
    cases hv : s.untaggedValue with
    | mapping entries => rw [hv] at hkind; cases hkind
    | tagged tag v => rw [hv] at htag; cases htag
    | _ => trivial
  unfold Scalar.toValue
  split
  · split_ifs
    · exact ⟨hkind, hleaf⟩
    · exact ⟨hkind, Value.forall_parts_tagged.2 ⟨htag, hleaf⟩⟩
  · exact ⟨hkind, hleaf⟩

theorem forall_mem_insert {P Q : Value → Prop} {key value : Value} {done : List (Value × Value)}
    (hkey : P key) (hvalue : Q value) (h : ∀ e ∈ done, P e.1 ∧ Q e.2) :
    ∀ e ∈ Value.insert key value done, P e.1 ∧ Q e.2 := by
  induction done with
  | nil => exact List.forall_mem_singleton.2 ⟨hkey, hvalue⟩
  | cons d done ih =>
    obtain ⟨hd, hdone⟩ := List.forall_mem_cons.1 h
    rw [Value.insert]
    split_ifs
    · exact List.forall_mem_cons.2 ⟨⟨hd.1, hvalue⟩, hdone⟩
    · exact List.forall_mem_cons.2 ⟨hd, ih hdone⟩

theorem forall_mem_toItems? {Q : Value → Prop} {items : List Node} {vs : List Value}
    (h : toItems? items = some vs) (hitems : ∀ n ∈ items, ∀ v, n.toValue? = some v → Q v) :
    ∀ v ∈ vs, Q v := by
  induction items generalizing vs with
  | nil =>
    cases h
    exact List.forall_mem_nil _
  | cons n ns ih =>
    obtain ⟨hn, hns⟩ := List.forall_mem_cons.1 hitems
    rw [toItems?] at h
    split at h
    · rename_i hv hvs
      cases h
      exact List.forall_mem_cons.2 ⟨hn _ hv, ih hvs hns⟩
    · cases h

theorem forall_mem_toEntries? {P Q : Value → Prop} {m : Mapping} {done es : List (Value × Value)}
    (h : toEntries? m done = some es) (hkeys : ∀ key : Scalar, P key.toValue)
    (hm : ∀ e ∈ m, ∀ v, e.2.toValue? = some v → Q v) (hdone : ∀ e ∈ done, P e.1 ∧ Q e.2) :
    ∀ e ∈ es, P e.1 ∧ Q e.2 := by
  induction m generalizing done with
  | nil =>
    cases h
    exact hdone
  | cons e m ih =>
    obtain ⟨hn, hrest⟩ := List.forall_mem_cons.1 hm
    rw [toEntries?] at h
    split at h
    · rename_i v hv
      exact ih h hrest (forall_mem_insert (hkeys _) (hn v hv) hdone)
    · cases h

/-- Whether a node is no tag around a scalar or another tag. -/
def isSinglyTagged : Node → Bool
  | .tagged _ (.scalar _) => false
  | .tagged _ (.tagged ..) => false
  | _ => true

/-- The value of a tree in which no tag is around another. -/
theorem isWritable_of_toValue? {n : Node} {w : Value} (htags : n.all isSinglyTagged = true)
    (h : n.toValue? = some w) : w.IsWritable := by
  induction n using tree_induction generalizing w with
  | scalar s =>
    cases h
    exact (toValue_writable s).2
  | sequence items ih =>
    rw [all, Bool.and_eq_true, allItems_iff] at htags
    rw [toValue?] at h
    split at h
    · rename_i vs hvs
      cases h
      exact Value.forall_parts_sequence.2 ⟨trivial,
        forall_mem_toItems? hvs fun n hn v hv => ih n hn (htags.2 n hn) hv⟩
    · cases h
  | mapping m ih =>
    rw [all, Bool.and_eq_true, allEntries_iff] at htags
    rw [toValue?] at h
    split at h
    · rename_i es hes
      cases h
      have hentries := forall_mem_toEntries? (P := fun k => k.collectionKind? = none ∧ k.IsWritable)
        (Q := Value.IsWritable) hes toValue_writable
        (fun e he v hv => ih e he (htags.2 e he) hv) (List.forall_mem_nil _)
      exact Value.forall_parts_mapping.2 ⟨fun e he => (hentries e he).1.1,
        fun e he => ⟨(hentries e he).1.2, (hentries e he).2⟩⟩
    · cases h
  | tagged tag n ih =>
    rw [all, Bool.and_eq_true] at htags
    rw [toValue?] at h
    split at h
    · rename_i v hv
      split_ifs at h
      cases h
      refine Value.forall_parts_tagged.2 ⟨?_, ih htags.2 hv⟩
      show v.isTagged = false
      cases n with
      | scalar s => cases htags.1
      | sequence items =>
        rw [toValue?] at hv
        split at hv <;> cases hv
        rfl
      | mapping m =>
        rw [toValue?] at hv
        split at hv <;> cases hv
        rfl
      | tagged u n => cases htags.1
    · cases h

theorem forall_mem_of_forall₂ {α β : Type} {R : α → β → Prop} {P : β → Prop} {as : List α}
    {bs : List β} (h : List.Forall₂ R as bs) (hP : ∀ a ∈ as, ∀ b, R a b → P b) : ∀ b ∈ bs, P b := by
  induction h with
  | nil => exact List.forall_mem_nil _
  | cons hab _ ih =>
    obtain ⟨ha, has⟩ := List.forall_mem_cons.1 hP
    exact List.forall_mem_cons.2 ⟨ha _ hab, ih has⟩

/-- In the tree of a value as reading leaves it no tag is around another. -/
theorem singlyTagged_of_ofValue {v : Value} {n : Node} (h : ofValue v = .ok n) (hread : v.IsRead) :
    n.all isSinglyTagged = true := by
  induction v using Value.value_induction generalizing n with
  | leaf v hkind htag =>
    obtain ⟨s, rfl⟩ := exists_scalar_of_ofValue h hkind
    rfl
  | sequence items ih =>
    obtain ⟨-, hitems⟩ := Value.forall_parts_sequence.1 hread
    rw [ofValue] at h
    split at h
    · cases h
    · rename_i ns hns
      cases h
      rw [all, Bool.and_eq_true, allItems_iff]
      exact ⟨rfl, forall_mem_of_forall₂ (ofItems_eq_ok_iff.1 hns) fun v hv n hn =>
        ih v hv hn (hitems v hv)⟩
  | mapping entries ih =>
    obtain ⟨-, hentries⟩ := Value.forall_parts_mapping.1 hread
    rw [ofValue] at h
    split at h
    · cases h
    · rename_i m hm
      cases h
      rw [all, Bool.and_eq_true, allEntries_iff]
      exact ⟨rfl, forall_mem_of_forall₂ (ofEntries_eq_ok_iff.1 hm) fun e he f hf =>
        (ih e he).2 hf.2 (hentries e he).2⟩
  | tagged tag v ih =>
    obtain ⟨hself, hv⟩ := Value.forall_parts_tagged.1 hread
    rw [ofValue] at h
    split at h
    · cases h
    · rename_i n' hn
      cases h
      have hn' := ih hn hv
      cases n' with
      | scalar s => rfl
      | sequence items => exact Bool.and_eq_true_iff.2 ⟨rfl, hn'⟩
      | mapping m => exact Bool.and_eq_true_iff.2 ⟨rfl, hn'⟩
      | tagged u n'' =>
        -- the tree of a value without a tag has none around it
        have hone : v.isTagged = false := hself.2.2
        cases v with
        | number x => cases x <;> cases hn
        | sequence items => rw [ofValue] at hn; split at hn <;> cases hn
        | mapping entries => rw [ofValue] at hn; split at hn <;> cases hn
        | tagged t w => cases hone
        | _ => cases hn

/-! ## Documents -/

/-- The root of a document is that of the value of the text, or the empty mapping where there is no
content. -/
theorem parseDocument_eq_ok {text : String} {r : Node} (h : parseDocument text = .ok r) :
    r = .mapping [] ∨
      ∃ v m, Value.ofText text = .ok v ∧ ofValue v = .ok r ∧ r = .mapping m := by
  unfold parseDocument at h
  split at h
  · cases h
    exact .inl rfl
  · split at h
    · cases h
    · rename_i v hv
      unfold rootOfValue at h
      split at h
      · cases h
      · rename_i m hm
        cases h
        exact .inr ⟨v, m, hv, hm, rfl⟩
      · split at h
        · cases h
          exact .inl rfl
        · cases h
      · cases h

/-- The text of a document that is read as the value it was written from is read as the document,
if that value has its tree. -/
theorem parseDocument_of_print {m : Mapping} {w : Value} {s : String}
    (hw : toValue? (.mapping m) = some w) (hprint : w.print = .ok s) (hagain : Value.ofText s = .ok w)
    (hback : ofValue w = .ok (.mapping m)) : parseDocument s = .ok (.mapping m) := by
  obtain ⟨entries, rfl⟩ : ∃ entries, w = .mapping entries := by
    rw [toValue?] at hw
    split at hw
    · exact ⟨_, (Option.some.inj hw).symm⟩
    · cases hw
  rw [parseDocument, not_blank_of_print hprint, hagain]
  simp [rootOfValue, hback]

/-- A document that was read is a mapping in which no tag is around another; if the tags of the text
have names, its value has the document as its tree. -/
theorem root_of_parseDocument {text : String} {r : Node} (h : parseDocument text = .ok r) :
    (∃ m, r = .mapping m) ∧ r.all isSinglyTagged = true ∧
      ((∀ v, Value.ofText text = .ok v → v.HasNamedTags) →
        ∀ w, r.toValue? = some w → ofValue w = .ok r) := by
  rcases parseDocument_eq_ok h with rfl | ⟨v, m, hv, hr, rfl⟩
  · refine ⟨⟨[], rfl⟩, rfl, fun _ w hw => ?_⟩
    cases hw
    rfl
  · have hread := Value.isRead_of_ofText hv
    refine ⟨⟨m, rfl⟩, singlyTagged_of_ofValue hr hread, fun hnames w hw => ?_⟩
    have hplain := hread.plainlyTagged (hnames v hv)
    cases (toValue?_of_ofValue hr hread.wellFormed hplain).symm.trans hw
    exact (ofValue_bareTags v).trans hr

/-- A document that was read cannot be written exactly if a collection in it has an empty tag, and
is refused exactly for a lone tagged key.  Else it is written; and if the tags of its text have
names and what is written is read as the value it was written from, it is read again. -/
theorem document_written {text : String} {r : Node} (h : parseDocument text = .ok r) :
    (r.print = .impossible ↔ r.all keepsTag = false) ∧
      (r.all keepsTag = true → ∃ w, r.toValue? = some w ∧
        if w.hasLoneTaggedKey false = true then r.print = .refused .taggedOnlyKey
        else ∃ s, r.print = .text s ∧ ((∀ v, Value.ofText text = .ok v → v.HasNamedTags) →
          Value.ofText s = .ok w → parseDocument s = .ok r)) := by
  refine ⟨print_eq_impossible_iff r, fun hkeeps => ?_⟩
  obtain ⟨⟨m, rfl⟩, htags, hback⟩ := root_of_parseDocument h
  obtain ⟨w, hw⟩ : ∃ w, toValue? (.mapping m) = some w := by
    refine Option.ne_none_iff_exists'.1 fun hnone => ?_
    rw [(toValue?_eq_none_iff _).1 hnone] at hkeeps
    cases hkeeps
  refine ⟨w, hw, ?_⟩
  have hwritten : WrittenUnless (w.hasLoneTaggedKey false) w.print :=
    writtenUnless_write (isWritable_of_toValue? htags hw) .root none nofun
  cases hprint : w.print with
  | error e =>
    rw [hprint] at hwritten
    rw [if_pos hwritten.1, print, hw]
    simp only [hprint, hwritten.2]
  | ok s =>
    rw [hprint] at hwritten
    have hnot : w.hasLoneTaggedKey false = false := hwritten
    rw [if_neg (by simp [hnot]), print, hw]
    simp only [hprint]
    exact ⟨s, rfl, fun hnames hagain => parseDocument_of_print hw hprint hagain (hback hnames w hw)⟩

theorem document_written_tagged_list : ∃ r s,
    parseDocument "a: !t [1, x]\n" = .ok r ∧ r.print = .text s ∧ parseDocument s = .ok r := by
  have hvalue : Value.ofText "a: !t [1, x]\n" = .ok (.mapping [(.string "a",
      .tagged "t" (.sequence [.number (.int 1), .string "x"]))]) := by decide +kernel
  have hread : parseDocument "a: !t [1, x]\n" = .ok (.mapping [(.string "a",
      .tagged "t" (.sequence [.scalar ⟨"1", .int, none⟩, .scalar (.string "x")]))]) := by
    decide +kernel
  have hagain : Value.ofText "a: !t\n- 1\n- x\n" = .ok (.mapping [(.string "a",
      .tagged "t" (.sequence [.number (.int 1), .string "x"]))]) := by decide +kernel
  obtain ⟨w, hw, hwritten⟩ := (document_written hread).2 (by decide)
  cases hw
  obtain ⟨s, hs, hback⟩ := hwritten
  cases hs
  refine ⟨_, _, hread, rfl, hback (fun v hv => ?_) hagain⟩
  cases hvalue.symm.trans hv
  intro tag w hmem
  simp only [Value.parts, Value.itemParts, Value.entryParts, List.mem_cons, List.mem_append,
    List.not_mem_nil, or_false, reduceCtorEq, false_or, Value.tagged.injEq] at hmem
  rw [hmem.1]
  decide

/-- A mapping whose tag is an exclamation mark alone is read and cannot be written. -/
theorem written_fails : ∃ r, parseDocument "vendor: ! \x7ba: 1\x7d\n" = .ok r ∧
    r.print = .impossible :=
  ⟨.mapping [(.string "vendor", .tagged "" (.mapping [(.string "a", .scalar ⟨"1", .int, none⟩)]))],
    by decide +kernel, by decide +kernel⟩

end Node

end SharedConfig
