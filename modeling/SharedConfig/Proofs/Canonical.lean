import SharedConfig.Proofs.Decoding
import SharedConfig.Proofs.Document
import SharedConfig.Proofs.Tree

/-!
# SharedConfig.Proofs.Canonical

The trees that come back from their values.

Keys are looked up by their texts, but in the value they are equal by kind and tag.  A mapping comes
back if each of its keys does and no two of them are equal as values; one entry fewer in the value is
one entry lost for good, so there is no other way.  A new key is an untagged text, and the only key
that comes back and is equal to it as a value has its text too; so a key that is absent by its text
is apart from all others.

* `isCanonical_sequence_iff`, `isCanonical_mapping_iff`, `isCanonical_tagged_iff`: a tree comes back
  if its parts do.
* `IsCanonical.setMapping`, `IsCanonical.setSequence`: other contents under the same tags.
* `IsCanonical.insert`, `IsCanonical.erase`: the edits of a mapping.
-/

namespace SharedConfig

open Yaml

namespace Node

/-- A tree that is the tree of its value. -/
def IsCanonical (n : Node) : Prop := ∃ v, n.toValue? = some v ∧ ofValue v = .ok n

instance (n : Node) : Decidable n.IsCanonical :=
  match h : n.toValue? with
  | none => isFalse fun ⟨v, hv, _⟩ => by
    rw [h] at hv
    cases hv
  | some v => decidable_of_iff (ofValue v = .ok n) (by simp [IsCanonical, h])

/-! ## Scalars -/

theorem isCanonical_scalar_iff {s : Scalar} :
    (Node.scalar s).IsCanonical ↔ ofValue s.toValue = .ok (.scalar s) := by
  simp [IsCanonical, toValue?]

theorem isCanonical_string (s : String) : (Node.string s).IsCanonical := ⟨.string s, rfl, rfl⟩

theorem isCanonical_boolNode (b : Bool) : (boolNode b).IsCanonical := by
  refine ⟨.bool b, ?_, rfl⟩
  cases b <;> rfl

theorem isCanonical_empty (kind : NodeKind) : (Node.empty kind).IsCanonical := by
  cases kind <;> exact ⟨_, rfl, rfl⟩

/-- Of the scalars that come back only the text itself is equal to a text as a value. -/
theorem eq_string_of_same {k : Scalar} (h : (Node.scalar k).IsCanonical) {key : String}
    (hsame : k.toValue.same (.string key) = true) : k = .string key := by
  rw [isCanonical_scalar_iff] at h
  cases hv : k.toValue with
  | string s =>
    rw [hv] at h hsame
    obtain rfl : s = key := by simpa [Value.same] using hsame
    exact (Node.scalar.inj (Except.ok.inj h)).symm
  | _ => rw [hv] at hsame; cases hsame

/-! ## Sequences -/

theorem forall₂_of_toItems? {items : List Node} {vs : List Value} (h : toItems? items = some vs) :
    List.Forall₂ (fun v n => n.toValue? = some v) vs items := by
  induction items generalizing vs with
  | nil =>
    cases h
    exact .nil
  | cons n ns ih =>
    rw [toItems?] at h
    split at h
    · rename_i hv hvs
      cases h
      exact .cons hv (ih hvs)
    · cases h

theorem exists_forall₂ {α β : Type} {R : α → β → Prop} {bs : List β} (h : ∀ b ∈ bs, ∃ a, R a b) :
    ∃ as, List.Forall₂ R as bs := by
  induction bs with
  | nil => exact ⟨[], .nil⟩
  | cons b bs ih =>
    obtain ⟨⟨a, ha⟩, hrest⟩ := List.forall_mem_cons.1 h
    obtain ⟨as, has⟩ := ih hrest
    exact ⟨a :: as, .cons ha has⟩

theorem isCanonical_sequence_iff {items : List Node} :
    (Node.sequence items).IsCanonical ↔ ∀ n ∈ items, n.IsCanonical := by
  constructor
  · rintro ⟨v, hv, hback⟩
    rw [toValue?] at hv
    split at hv
    · rename_i vs hvs
      cases hv
      rw [ofValue] at hback
      split at hback
      · cases hback
      · rename_i ns hns
        cases hback
        have hboth := (forall₂_of_toItems? hvs).mp (fun v n hto hof => And.intro hto hof)
          (ofItems_eq_ok_iff.1 hns)
        exact forall_mem_of_forall₂ hboth fun v _ n hn => ⟨v, hn⟩
    · cases hv
  · intro h
    obtain ⟨vs, hvs⟩ := exists_forall₂ h
    refine ⟨.sequence vs, ?_, ?_⟩
    · rw [toValue?, toItems?_eq_some (hvs.imp fun _ _ hn => hn.1)]
    · rw [ofValue, ofItems_eq_ok_iff.2 (hvs.imp fun _ _ hn => hn.2)]

/-! ## Mappings -/

/-- Keys that come back, and that no two of are equal as values. -/
structure CanonicalKeys (keys : List Scalar) : Prop where
  each : ∀ k ∈ keys, (Node.scalar k).IsCanonical
  apart : keys.Pairwise fun a b => a.toValue.same b.toValue = false

theorem insert_cases (key value : Value) (done : List (Value × Value)) :
    (Value.insert key value done).length = done.length ∨
      (∀ e ∈ done, e.1.same key = false) ∧
        Value.insert key value done = done ++ [(key, value)] := by
  induction done with
  | nil => exact .inr ⟨List.forall_mem_nil _, rfl⟩
  | cons e done ih =>
    obtain ⟨k, v⟩ := e
    rw [Value.insert]
    cases hk : k.same key with
    | true => exact .inl rfl
    | false =>
      rcases ih with hlen | ⟨hnew, hinsert⟩
      · exact .inl (congrArg (· + 1) hlen)
      · exact .inr ⟨List.forall_mem_cons.2 ⟨hk, hnew⟩, congrArg ((k, v) :: ·) hinsert⟩

theorem length_insert_le (key value : Value) (done : List (Value × Value)) :
    (Value.insert key value done).length ≤ done.length + 1 := by
  rcases insert_cases key value done with hlen | ⟨-, hinsert⟩
  · omega
  · rw [hinsert, List.length_append, List.length_singleton]

theorem length_toEntries?_le {m : Mapping} {done es : List (Value × Value)}
    (h : toEntries? m done = some es) : es.length ≤ done.length + m.length := by
  induction m generalizing done with
  | nil =>
    cases h
    exact Nat.le_refl _
  | cons e m ih =>
    obtain ⟨key, n⟩ := e
    obtain ⟨v, -, hrest⟩ := toEntries?_cons.1 h
    have hlen := ih hrest
    have hinsert := length_insert_le key.toValue v done
    rw [List.length_cons]
    omega

/-- If no entry is lost, no key was equal to one before it. -/
theorem entries_of_length {m : Mapping} {done es : List (Value × Value)}
    (h : toEntries? m done = some es) (hlen : done.length + m.length ≤ es.length)
    (hdone : done.Pairwise fun a b => a.1.same b.1 = false) :
    ∃ new, es = done ++ new ∧ (es.Pairwise fun a b => a.1.same b.1 = false) ∧
      EntriesOf new m := by
  induction m generalizing done with
  | nil =>
    cases h
    exact ⟨[], (List.append_nil _).symm, hdone, .nil⟩
  | cons e m ih =>
    obtain ⟨key, n⟩ := e
    obtain ⟨v, hv, hrest⟩ := toEntries?_cons.1 h
    have hle := length_toEntries?_le hrest
    rw [List.length_cons] at hlen
    rcases insert_cases key.toValue v done with hshort | ⟨hnew, hinsert⟩
    · omega
    · rw [hinsert] at hrest
      have hdone' : (done ++ [(key.toValue, v)]).Pairwise fun a b => a.1.same b.1 = false := by
        refine List.pairwise_append.2 ⟨hdone, List.pairwise_singleton _ _, fun a ha b hb => ?_⟩
        rw [List.mem_singleton.1 hb]
        exact hnew a ha
      obtain ⟨new, hes, hapart, hpairs⟩ := ih hrest (by simp; omega) hdone'
      exact ⟨(key.toValue, v) :: new, by simpa using hes, hapart, .cons ⟨rfl, hv⟩ hpairs⟩

theorem pairwise_same_iff {es : List (Value × Value)} {m : Mapping}
    (h : List.Forall₂ (fun e f => f.1.toValue = e.1) es m) :
    (es.Pairwise fun a b => a.1.same b.1 = false) ↔
      (m.map Prod.fst).Pairwise fun a b => a.toValue.same b.toValue = false := by
  have hkeys : es.map Prod.fst = (m.map Prod.fst).map Scalar.toValue := by
    induction h with
    | nil => rfl
    | cons he _ ih => rw [List.map_cons, List.map_cons, List.map_cons, ih, he]
  have hes : (es.map Prod.fst).Pairwise (fun a b => a.same b = false) ↔
      es.Pairwise fun a b => a.1.same b.1 = false := List.pairwise_map
  rw [← hes, hkeys, List.pairwise_map]

theorem isCanonical_mapping_iff {m : Mapping} :
    (Node.mapping m).IsCanonical ↔
      CanonicalKeys (m.map Prod.fst) ∧ ∀ e ∈ m, e.2.IsCanonical := by
  constructor
  · rintro ⟨v, hv, hback⟩
    rw [toValue?] at hv
    split at hv
    · rename_i es hes
      cases hv
      rw [ofValue] at hback
      split at hback
      · cases hback
      · rename_i m' hm
        cases hback
        have hof := ofEntries_eq_ok_iff.1 hm
        obtain ⟨new, hnew, hapart, hto⟩ :=
          entries_of_length hes (by rw [hof.length_eq]; simp) List.Pairwise.nil
        rw [List.nil_append] at hnew
        subst hnew
        have hboth := hto.mp (fun e f hto hof => And.intro hto hof) hof
        have hparts : ∀ f ∈ m, (Node.scalar f.1).IsCanonical ∧ f.2.IsCanonical := by
          refine forall_mem_of_forall₂ hboth fun e _ f hf => ?_
          obtain ⟨⟨hkey, hn⟩, hkeyBack, hnBack⟩ := hf
          exact ⟨isCanonical_scalar_iff.2 (hkey ▸ hkeyBack), e.2, hn, hnBack⟩
        have heach : ∀ k ∈ m.map Prod.fst, (Node.scalar k).IsCanonical :=
          List.forall_mem_map.2 fun f hf => (hparts f hf).1
        have hkeys := (pairwise_same_iff (hto.imp fun _ _ h => h.1)).1 hapart
        exact ⟨⟨heach, hkeys⟩, fun f hf => (hparts f hf).2⟩
    · cases hv
  · rintro ⟨hkeys, hvalues⟩
    have hexists : ∀ f ∈ m, ∃ e : Value × Value, (f.1.toValue = e.1 ∧ f.2.toValue? = some e.2) ∧
        ofValue e.1 = .ok (.scalar f.1) ∧ ofValue e.2 = .ok f.2 := by
      intro f hf
      obtain ⟨v, hto, hof⟩ := hvalues f hf
      have hkey := isCanonical_scalar_iff.1 (hkeys.each f.1 (List.mem_map_of_mem hf))
      exact ⟨(f.1.toValue, v), ⟨rfl, hto⟩, hkey, hof⟩
    obtain ⟨es, hes⟩ := exists_forall₂ hexists
    have hto := hes.imp fun _ _ h => h.1
    have hapart := (pairwise_same_iff (hto.imp fun _ _ h => h.1)).2 hkeys.apart
    refine ⟨.mapping es, ?_, ?_⟩
    · rw [toValue?, toEntries?_eq_some hto (by simpa using hapart)]
      rfl
    · rw [ofValue, ofEntries_eq_ok_iff.2 (hes.imp fun _ _ h => h.2)]

/-! ## Tags -/

theorem collectionKind?_ne_scalar (v : Value) : v.collectionKind? ≠ some .scalar := by
  induction v using Value.value_induction with
  | leaf v hkind _ => rw [hkind]; exact nofun
  | sequence items _ => exact nofun
  | mapping entries _ => exact nofun
  | tagged tag v ih => exact ih

theorem eq_scalar_of_ofValue {v : Value} {n : Node} (h : ofValue v = .ok n)
    (hkind : n.kind = .scalar) : ∃ s, n = .scalar s := by
  refine exists_scalar_of_ofValue h (Option.eq_none_iff_forall_ne_some.2 fun kind hk => ?_)
  have hshape := shape_of_ofValue h
  rw [hk] at hshape
  rw [← hshape.2, hkind] at hk
  exact collectionKind?_ne_scalar v hk

theorem IsCanonical.eq_scalar {n : Node} (h : n.IsCanonical) (hkind : n.kind = .scalar) :
    ∃ s, n = .scalar s := by
  obtain ⟨v, -, hv⟩ := h
  exact eq_scalar_of_ofValue hv hkind

theorem isCanonical_tagged_iff {tag : String} {n : Node} :
    (Node.tagged tag n).IsCanonical ↔
      n.IsCanonical ∧ n.kind ≠ .scalar ∧ tag ≠ "" ∧ plainTag tag = tag := by
  have hattach : ∀ name, n.kind ≠ .scalar → n.attachTag name = .tagged name n := by
    intro name hkind
    cases n with
    | scalar s => exact absurd rfl hkind
    | _ => rfl
  constructor
  · rintro ⟨v, hv, hback⟩
    rw [toValue?] at hv
    split at hv
    · rename_i w hw
      split_ifs at hv with hname
      cases hv
      rw [ofValue] at hback
      split at hback
      · cases hback
      · rename_i n' hn
        cases n' with
        | scalar s => cases hback
        | _ =>
          obtain ⟨hplain, rfl⟩ := Node.tagged.inj (Except.ok.inj hback)
          refine ⟨⟨w, hw, hn⟩, fun hkind => ?_, hname, hplain⟩
          obtain ⟨s, hs⟩ := eq_scalar_of_ofValue hn hkind
          cases hs
    · cases hv
  · rintro ⟨⟨v, hv, hback⟩, hkind, hname, hplain⟩
    refine ⟨.tagged tag v, ?_, ?_⟩
    · rw [toValue?, hv]
      exact if_neg hname
    · rw [ofValue, hback, hplain, ← hattach tag hkind]

/-- Under the tags of a tree that comes back anything else does that is no scalar. -/
theorem IsCanonical.setCore {n new : Node} (h : n.IsCanonical) (hnew : new.IsCanonical)
    (hkind : new.kind ≠ .scalar) : (n.setCore new).IsCanonical := by
  induction n using tagged_induction with
  | tagged tag n ih =>
    obtain ⟨hn, -, hname⟩ := isCanonical_tagged_iff.1 h
    exact isCanonical_tagged_iff.2 ⟨ih hn, by rwa [kind_setCore], hname⟩
  | _ => exact hnew

theorem IsCanonical.setMapping {n : Node} {m : Mapping} (h : n.IsCanonical)
    (hm : (Node.mapping m).IsCanonical) : (n.setCore (.mapping m)).IsCanonical :=
  h.setCore hm (by simp [kind])

theorem IsCanonical.setSequence {n : Node} {items : List Node} (h : n.IsCanonical)
    (hitems : ∀ x ∈ items, x.IsCanonical) : (n.setCore (.sequence items)).IsCanonical :=
  h.setCore (isCanonical_sequence_iff.2 hitems) (by simp [kind])

theorem IsCanonical.core {n : Node} (h : n.IsCanonical) : n.core.IsCanonical := by
  induction n using tagged_induction with
  | tagged tag n ih => exact ih (isCanonical_tagged_iff.1 h).1
  | _ => exact h

theorem IsCanonical.asMapping {n : Node} {m : Mapping} (h : n.IsCanonical)
    (hm : n.asMapping = some m) : (Node.mapping m).IsCanonical :=
  asMapping_eq_some_iff.1 hm ▸ h.core

theorem IsCanonical.asSequence {n : Node} {items : List Node} (h : n.IsCanonical)
    (hitems : n.asSequence = some items) : (Node.sequence items).IsCanonical :=
  asSequence_eq_some_iff.1 hitems ▸ h.core

/-! ## Edits of a mapping -/

section Mapping

variable {m : Mapping}

theorem IsCanonical.get? (h : (Node.mapping m).IsCanonical) {key : String} {n : Node}
    (hn : m.get? key = some n) : n.IsCanonical := by
  obtain ⟨e, he, rfl⟩ := Mapping.exists_mem_of_get? hn
  exact (isCanonical_mapping_iff.1 h).2 e he

theorem CanonicalKeys.insert (h : CanonicalKeys (m.map Prod.fst)) (key : String) (value : Node) :
    CanonicalKeys ((m.insert (.string key) value).map Prod.fst) := by
  rw [Mapping.map_fst_insert]
  split
  · exact h
  · rename_i habsent
    refine ⟨List.forall_mem_append.2 ⟨h.each, List.forall_mem_singleton.2 (isCanonical_string key)⟩,
      List.pairwise_append.2 ⟨h.apart, List.pairwise_singleton _ _, fun k hk b hb => ?_⟩⟩
    rw [List.mem_singleton.1 hb]
    refine Bool.eq_false_iff.2 fun hsame => habsent ?_
    obtain rfl := eq_string_of_same (h.each k hk) hsame
    rw [Mapping.keys_eq_map]
    exact List.mem_map_of_mem hk

theorem IsCanonical.insert (h : (Node.mapping m).IsCanonical) (key : String) {value : Node}
    (hvalue : value.IsCanonical) : (Node.mapping (m.insert (.string key) value)).IsCanonical := by
  obtain ⟨hkeys, hvalues⟩ := isCanonical_mapping_iff.1 h
  exact isCanonical_mapping_iff.2
    ⟨hkeys.insert key value, Mapping.forall_mem_insert hvalue hvalues⟩

theorem IsCanonical.erase (h : (Node.mapping m).IsCanonical) (key : String) :
    (Node.mapping (m.erase key)).IsCanonical := by
  obtain ⟨hkeys, hvalues⟩ := isCanonical_mapping_iff.1 h
  have hsub := Mapping.erase_sublist m key
  exact isCanonical_mapping_iff.2
    ⟨⟨fun k hk => hkeys.each k ((hsub.map _).subset hk), hkeys.apart.sublist (hsub.map _)⟩,
      fun e he => hvalues e (hsub.subset he)⟩

end Mapping

end Node
end SharedConfig
