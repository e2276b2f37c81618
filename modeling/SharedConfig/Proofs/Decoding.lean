import SharedConfig.Proofs.Entity
import SharedConfig.Proofs.Frame
import SharedConfig.Record.Kind

/-!
# SharedConfig.Proofs.Decoding

Records that were decoded, field by field.

Keys of a tree are told apart by their texts, keys of a value as values.  Where no text stands twice
in the tree and all keys of the value are texts, as they are in what a record was read from, the two
agree, and a field of the record was read from what is under its key.

* `DistinctKeys.keptByText`: what is under a key of the tree is under that text in the value.
* `readFields_part`: a part of a record was read from every entry with the name of its field.
* `decode_part`: the two together.
-/

namespace SharedConfig

open Yaml

/-! ## The keys of values -/

theorem untagged_of_same {a b : Value} {s : String} (h : a.same b = true)
    (ha : a.untagged = .string s) : b.untagged = .string s := by
  induction a using Value.untagged.induct generalizing b with
  | case1 t a ih =>
    cases b with
    | tagged u b =>
      simp only [Value.same, Bool.and_eq_true] at h
      have hb : b.untagged = .string s := ih h.2 ha
      exact hb
    | _ => simp [Value.same] at h
  | case2 a hne =>
    cases a with
    | string x =>
      cases ha
      cases b <;> simp [Value.same] at h
      rw [h]
      rfl
    | tagged t a => exact absurd rfl (hne t a)
    | _ => cases ha

theorem untaggedValue_eq_string {s : Scalar} {t : String} (h : s.untaggedValue.untagged = .string t) :
    s.text = t := by
  unfold Scalar.untaggedValue at h
  dsimp only at h
  repeat' split at h
  all_goals first
    | exact Value.string.inj h
    | cases h

/-- A key that is a text in the value is the text that it is in the tree. -/
theorem text_of_toValue {s : Scalar} {t : String} (h : s.toValue.untagged = .string t) :
    s.text = t := by
  unfold Scalar.toValue at h
  split at h
  · split at h
    · exact untaggedValue_eq_string h
    · exact untaggedValue_eq_string h
  · exact untaggedValue_eq_string h

section Insert

variable {key value k v : Value} {es : List (Value × Value)}

theorem mem_insert_of_not_same (h : (k, v) ∈ es) (hk : k.same key = false) :
    (k, v) ∈ Value.insert key value es := by
  induction es with
  | nil => cases h
  | cons e es ih =>
    obtain ⟨k', v'⟩ := e
    rw [Value.insert]
    rcases List.mem_cons.1 h with he | he
    · cases he
      rw [if_neg (by simp [hk])]
      exact List.mem_cons_self
    · split
      · exact List.mem_cons_of_mem _ he
      · exact List.mem_cons_of_mem _ (ih he)

theorem mem_keys_insert (h : k ∈ es.map Prod.fst) :
    k ∈ (Value.insert key value es).map Prod.fst := by
  induction es with
  | nil => cases h
  | cons e es ih =>
    obtain ⟨k', v'⟩ := e
    rw [Value.insert]
    rw [List.map_cons, List.mem_cons] at h
    split
    · exact List.mem_cons.2 h
    · exact List.mem_cons.2 (h.imp_right ih)

theorem mem_keys_of_mem_insert (h : k ∈ (Value.insert key value es).map Prod.fst) :
    k = key ∨ k ∈ es.map Prod.fst := by
  induction es with
  | nil => exact .inl (List.mem_singleton.1 h)
  | cons e es ih =>
    obtain ⟨k', w⟩ := e
    rw [Value.insert] at h
    split at h
    · exact .inr h
    · rcases List.mem_cons.1 h with rfl | h
      · exact .inr List.mem_cons_self
      · exact (ih h).imp_right (List.mem_cons_of_mem _)

theorem exists_mem_insert (key value : Value) (es : List (Value × Value)) :
    ∃ k, (k, value) ∈ Value.insert key value es ∧ (k = key ∨ k.same key = true) := by
  induction es with
  | nil => exact ⟨key, List.mem_cons_self, .inl rfl⟩
  | cons e es ih =>
    obtain ⟨k', v'⟩ := e
    rw [Value.insert]
    split
    · rename_i hsame
      exact ⟨k', List.mem_cons_self, .inr hsame⟩
    · obtain ⟨k, hk, hkey⟩ := ih
      exact ⟨k, List.mem_cons_of_mem _ hk, hkey⟩

end Insert

/-! ## The value of a mapping -/

section Entries

variable {m : Mapping} {done es : List (Value × Value)} {k v : Value} {t : String}

theorem toEntries?_cons {key : Scalar} {n : Node} :
    Node.toEntries? ((key, n) :: m) done = some es ↔
      ∃ w, n.toValue? = some w ∧
        Node.toEntries? m (Value.insert key.toValue w done) = some es := by
  rw [Node.toEntries?]
  cases n.toValue? <;> simp

theorem mem_keys_toEntries? (h : Node.toEntries? m done = some es) (hk : k ∈ done.map Prod.fst) :
    k ∈ es.map Prod.fst := by
  induction m generalizing done with
  | nil =>
    cases h
    exact hk
  | cons e m ih =>
    obtain ⟨w, -, hrest⟩ := toEntries?_cons.1 h
    exact ih hrest (mem_keys_insert hk)

theorem mem_toEntries?_of_mem (h : Node.toEntries? m done = some es) (hmem : (k, v) ∈ done)
    (hk : k.untagged = .string t) (ht : t ∉ m.keys) : (k, v) ∈ es := by
  induction m generalizing done with
  | nil =>
    cases h
    exact hmem
  | cons e m ih =>
    obtain ⟨key, n⟩ := e
    rw [Mapping.keys_cons, List.mem_cons, not_or] at ht
    obtain ⟨w, -, hrest⟩ := toEntries?_cons.1 h
    refine ih hrest (mem_insert_of_not_same hmem ?_) ht.2
    cases hs : k.same key.toValue with
    | false => rfl
    | true => exact absurd (text_of_toValue (untagged_of_same hs hk)).symm ht.1

/-- What is under a key of the tree is under the same text in the value. -/
theorem exists_mem_toEntries? (h : Node.toEntries? m done = some es) (hd : m.keys.Nodup)
    (htexts : ∀ k ∈ es.map Prod.fst, ∃ s, k.untagged = .string s) {n : Node}
    (hn : m.get? t = some n) :
    ∃ k v, (k, v) ∈ es ∧ k.untagged = .string t ∧ n.toValue? = some v := by
  induction m generalizing done with
  | nil => simp at hn
  | cons e m ih =>
    obtain ⟨key, n'⟩ := e
    rw [Mapping.keys_cons, List.nodup_cons] at hd
    obtain ⟨w, hw, hrest⟩ := toEntries?_cons.1 h
    rw [Mapping.get?_cons] at hn
    split at hn
    · rename_i hkey
      cases hn
      -- the key that stays in the value is this one or an equal one; either way it is this text
      obtain ⟨k, hk, hsame⟩ := exists_mem_insert key.toValue w done
      obtain ⟨s, hs⟩ := htexts k (mem_keys_toEntries? hrest (List.mem_map_of_mem hk))
      have hst : s = t := by
        rcases hsame with rfl | hsame
        · exact (text_of_toValue hs).symm.trans hkey
        · exact (text_of_toValue (untagged_of_same hsame hs)).symm.trans hkey
      subst hst
      exact ⟨k, w, mem_toEntries?_of_mem hrest hk hs (hkey ▸ hd.1), hs, hw⟩
    · exact ih hrest hd.2 hn

end Entries

/-! ## Fields -/

section Fields

variable {ρ σ : Type} {field : ρ → String → Value → Option (Decoding ρ)}

theorem textOf_eq_ok {expected s : String} {v : Value} :
    Value.textOf expected v = .ok s ↔ v.untagged = .string s := by
  unfold Value.textOf
  cases hv : v.untagged <;> simp [Value.mismatch]

theorem readFields_cons {k x : Value} {rest : List (Value × Value)} {r : ρ} {seen : List String}
    {out : ρ × List String} (h : readFields field ((k, x) :: rest) r seen = .ok out) :
    ∃ name, k.untagged = .string name ∧
      ((field r name x = none ∧ readFields field rest r seen = .ok out) ∨
        ∃ r', field r name x = some (.ok r') ∧ name ∉ seen ∧
          readFields field rest r' (name :: seen) = .ok out) := by
  rw [readFields] at h
  cases hk : Value.textOf "field identifier" k with
  | error e =>
    have hname : (Source.fieldName k : Decoding String) = .error e := hk
    rw [hname] at h
    cases h
  | ok name =>
    have hname : (Source.fieldName k : Decoding String) = .ok name := hk
    rw [hname] at h
    dsimp only [bind, Except.bind] at h
    refine ⟨name, textOf_eq_ok.1 hk, ?_⟩
    cases hf : field r name x with
    | none =>
      rw [hf] at h
      exact .inl ⟨rfl, h⟩
    | some read =>
      rw [hf] at h
      dsimp only at h
      split at h
      · cases h
      · rename_i hseen
        split at h
        · cases h
        · rename_i r'
          exact .inr ⟨r', rfl, by simpa using hseen, h⟩

theorem readFields_texts {es : List (Value × Value)} {r : ρ} {seen : List String}
    {out : ρ × List String} (h : readFields field es r seen = .ok out) :
    ∀ k ∈ es.map Prod.fst, ∃ s, k.untagged = .string s := by
  induction es generalizing r seen with
  | nil => intro k hk; cases hk
  | cons e es ih =>
    obtain ⟨k, x⟩ := e
    obtain ⟨name, hname, ⟨-, hrest⟩ | ⟨r', -, -, hrest⟩⟩ := readFields_cons h
    all_goals
      intro k' hk'
      rcases List.mem_cons.1 hk' with rfl | hk'
      · exact ⟨name, hname⟩
      · exact ih hrest k' hk'

/-- A field is where a part of the record is read, and no other field touches that part. -/
structure ReadsPart (field : ρ → String → Value → Option (Decoding ρ)) (key : String)
    (part : ρ → σ) (readPart : Value → Decoding σ) : Prop where
  known : ∀ r x, field r key x ≠ none
  own : ∀ r x r', field r key x = some (.ok r') → readPart x = .ok (part r')
  other : ∀ name, name ≠ key → ∀ r x r', field r name x = some (.ok r') → part r' = part r

variable {key : String} {part : ρ → σ} {readPart : Value → Decoding σ}

/-- A part of a record was read from every entry with the name of its field. -/
theorem readFields_part (hpart : ReadsPart field key part readPart) {es : List (Value × Value)}
    {r r' : ρ} {seen seen' : List String} (h : readFields field es r seen = .ok (r', seen')) :
    (key ∈ seen → part r' = part r) ∧
      ∀ k x, (k, x) ∈ es → k.untagged = .string key → readPart x = .ok (part r') := by
  induction es generalizing r seen with
  | nil =>
    rw [readFields] at h
    cases h
    exact ⟨fun _ => rfl, fun _ _ hmem => by cases hmem⟩
  | cons e es ih =>
    obtain ⟨k, x⟩ := e
    obtain ⟨name, hname, ⟨hf, hrest⟩ | ⟨r1, hf, hseen, hrest⟩⟩ := readFields_cons h
    · obtain ⟨hkeep, hread⟩ := ih hrest
      refine ⟨hkeep, fun k' x' hmem hk' => ?_⟩
      rcases List.mem_cons.1 hmem with he | hmem
      · cases he
        rw [hname] at hk'
        cases hk'
        exact absurd hf (hpart.known r x)
      · exact hread k' x' hmem hk'
    -- the field was set now, and once it was seen no later entry can set it again
    · obtain ⟨hkeep, hread⟩ := ih hrest
      constructor
      · intro hmem
        have hne : name ≠ key := fun he => hseen (he ▸ hmem)
        rw [hkeep (List.mem_cons_of_mem _ hmem), hpart.other name hne r x r1 hf]
      · intro k' x' hmem hk'
        rcases List.mem_cons.1 hmem with he | hmem
        · cases he
          rw [hname] at hk'
          cases hk'
          rw [hkeep List.mem_cons_self]
          exact hpart.own r x r1 hf
        · exact hread k' x' hmem hk'

theorem requireFields_eq_ok {r r' : ρ} {seen required : List String}
    (h : requireFields r seen required = (.ok r' : Decoding ρ)) :
    r' = r ∧ ∀ name ∈ required, name ∈ seen := by
  induction required with
  | nil => exact ⟨(Except.ok.inj h).symm, List.forall_mem_nil _⟩
  | cons name required ih =>
    rw [requireFields] at h
    split at h
    · rename_i hname
      exact ⟨(ih h).1, List.forall_mem_cons.2 ⟨by simpa using hname, (ih h).2⟩⟩
    · cases h

theorem readRecord_eq_ok {name : String} {initial r : ρ} {required : List String} {x : Value}
    (h : readRecord name initial required field x = (.ok r : Decoding ρ)) :
    ∃ es seen, Value.entriesOf ("struct " ++ name) x = .ok es ∧
      readFields field es initial [] = .ok (r, seen) ∧ ∀ name ∈ required, name ∈ seen := by
  rw [readRecord] at h
  cases hes : Value.entriesOf ("struct " ++ name) x with
  | error e =>
    have hentries : (Source.entries ("struct " ++ name) x : Decoding _) = .error e := hes
    rw [hentries] at h
    cases h
  | ok es =>
    have hentries : (Source.entries ("struct " ++ name) x : Decoding _) = .ok es := hes
    rw [hentries] at h
    dsimp only [bind, Except.bind] at h
    split at h
    · cases h
    · rename_i out hout
      obtain ⟨r', seen⟩ := out
      obtain ⟨rfl, hrequired⟩ := requireFields_eq_ok h
      exact ⟨es, seen, rfl, hout, hrequired⟩

theorem toValue?_tagged {t : String} {n : Node} {v : Value}
    (h : (Node.tagged t n).toValue? = some v) : ∃ w, n.toValue? = some w ∧ v = .tagged t w := by
  rw [Node.toValue?] at h
  cases hn : n.toValue? with
  | none => rw [hn] at h; cases h
  | some w =>
    rw [hn] at h
    dsimp only at h
    split at h
    · cases h
    · cases h
      exact ⟨w, rfl, rfl⟩

theorem toValue?_core {n : Node} {v : Value} (hv : n.toValue? = some v) :
    ∃ w, n.core.toValue? = some w ∧ v.untagged = w.untagged := by
  induction n using Node.tagged_induction generalizing v with
  | tagged t n ih =>
    obtain ⟨w, hw, rfl⟩ := toValue?_tagged hv
    obtain ⟨u, hu, huntagged⟩ := ih hw
    exact ⟨u, hu, huntagged⟩
  | _ => exact ⟨v, hv, rfl⟩

theorem untagged_of_asMapping {n : Node} {m : Mapping} {v : Value} (hm : n.asMapping = some m)
    (hv : n.toValue? = some v) :
    ∃ es, v.untagged = .mapping es ∧ Node.toEntries? m [] = some es := by
  obtain ⟨w, hw, huntagged⟩ := toValue?_core hv
  rw [Node.asMapping_eq_some_iff.1 hm, Node.toValue?] at hw
  cases hes : Node.toEntries? m [] with
  | none => rw [hes] at hw; cases hw
  | some es =>
    rw [hes] at hw
    cases hw
    exact ⟨es, huntagged, rfl⟩

theorem untagged_of_asSequence {n : Node} {items : List Node} {v : Value}
    (hitems : n.asSequence = some items) (hv : n.toValue? = some v) :
    ∃ vs, v.untagged = .sequence vs ∧ Node.toItems? items = some vs := by
  obtain ⟨w, hw, huntagged⟩ := toValue?_core hv
  rw [Node.asSequence_eq_some_iff.1 hitems, Node.toValue?] at hw
  cases hvs : Node.toItems? items with
  | none => rw [hvs] at hw; cases hw
  | some vs =>
    rw [hvs] at hw
    cases hw
    exact ⟨vs, huntagged, rfl⟩

theorem decode_eq_ok {read : Value → Decoding ρ} {n : Node} {r : ρ} (h : n.decode read = .ok r) :
    ∃ v, n.toValue? = some v ∧ read v = .ok r := by
  unfold Node.decode at h
  cases hv : n.toValue? with
  | none => rw [hv] at h; cases h
  | some v =>
    rw [hv] at h
    dsimp only at h
    split at h
    · cases h
    · rename_i r' hread
      cases h
      exact ⟨v, rfl, hread⟩

/-- What is under a key of a mapping is under its text in the value, if all keys there are texts. -/
def Node.KeptByText (n : Node) : Prop :=
  ∀ m es, n.asMapping = some m → Node.toEntries? m [] = some es →
    (∀ k ∈ es.map Prod.fst, ∃ s, k.untagged = .string s) → ∀ key c, m.get? key = some c →
    ∃ k v, (k, v) ∈ es ∧ k.untagged = .string key ∧ c.toValue? = some v

theorem Node.DistinctKeys.keptByText {n : Node} (h : n.DistinctKeys) : n.KeptByText :=
  fun m _ hm hentries htexts _ _ hc => exists_mem_toEntries? hentries (h m hm) htexts hc

/-- A part of a record that was decoded was read from what is under the key of its field. -/
theorem decode_part (hpart : ReadsPart field key part readPart) {name : String} {initial r : ρ}
    {required : List String} {n c : Node} (hkept : n.KeptByText)
    (h : n.decode (readRecord name initial required field) = .ok r)
    (hc : n.child? key = some c) : ∃ v, c.toValue? = some v ∧ readPart v = .ok (part r) := by
  obtain ⟨v, hv, hread⟩ := decode_eq_ok h
  obtain ⟨es, seen, hes, hfields, -⟩ := readRecord_eq_ok hread
  obtain ⟨m, hm⟩ := Node.exists_asMapping_of_child? hc
  rw [Node.child?_of_asMapping hm] at hc
  obtain ⟨es', huntagged, hentries⟩ := untagged_of_asMapping hm hv
  simp only [Value.entriesOf, huntagged, Except.ok.injEq] at hes
  subst hes
  obtain ⟨k, w, hmem, hk, hw⟩ := hkept m es' hm hentries (readFields_texts hfields) key c hc
  exact ⟨w, hw, (readFields_part hpart hfields).2 k w hmem hk⟩

end Fields

/-! ## Targets -/

theorem set_eq_ok {ρ τ : Type} {read : Decoding τ} {set : τ → ρ} {r : ρ}
    (h : some (do return set (← read)) = some (Except.ok r : Decoding ρ)) :
    ∃ y, read = .ok y ∧ set y = r := by
  cases read with
  | error e => cases h
  | ok y => exact ⟨y, rfl, Except.ok.inj (Option.some.inj h)⟩

theorem Target.read_eq_ok {x : Value} {t : Target} (h : (Target.read x : Decoding Target) = .ok t) :
    ∃ w, Value.variantOf Target.words x = .ok w ∧ Target.ofWord? w = some t := by
  rw [Target.read] at h
  cases hw : Value.variantOf Target.words x with
  | error e =>
    have hvariant : (Source.variant Target.words x : Decoding String) = .error e := hw
    rw [hvariant] at h
    cases h
  | ok w =>
    have hvariant : (Source.variant Target.words x : Decoding String) = .ok w := hw
    rw [hvariant] at h
    dsimp only [bind, Except.bind] at h
    split at h
    · rename_i t' ht
      cases h
      exact ⟨w, rfl, ht⟩
    · cases h

/-- A word under a tag is no variant: the tag would be one, of nothing. -/
theorem variantOf_tagged_ne_ok {names : List String} {tag w s : String} {x : Value}
    (hx : x.untagged = .string s) : Value.variantOf names (.tagged tag x) ≠ .ok w := by
  intro h
  simp only [Value.variantOf] at h
  split at h
  · split at h
    · cases hx
    · cases h
    · cases h
  · cases h

theorem untagged_of_core {n : Node} {s : String} {x : Value} (hn : n.core = .string s)
    (hx : n.toValue? = some x) : x.untagged = .string s := by
  obtain ⟨w, hw, huntagged⟩ := toValue?_core hx
  rw [hn] at hw
  cases hw
  exact huntagged

end SharedConfig
