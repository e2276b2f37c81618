import SharedConfig.Proofs.Form

/-!
# SharedConfig.Proofs.Form.Reading

Trees of a form can be read.

The value of a mapping whose keys are untagged texts has these texts as its keys, each once
(`exists_toEntries?`), so no field of a record is there twice, and none that is required is missing
(`readFields_eq_ok`).  What is left is that each field can be read.

* `Reads`: from every tree of a form something is read.
* `reads_record`, `Reads.list`, `Reads.option`: readers that are made of readers.
-/

namespace SharedConfig

open Node Yaml

/-! ## The entries of a value -/

/-- The keys of a value are texts, each once, and what is under a key is as it says. -/
structure EntryValues (q : String → Value → Prop) (es : List (Value × Value)) : Prop where
  entries : ∀ e ∈ es, ∃ key, e.1 = .string key ∧ q key e.2
  nodup : (es.map Prod.fst).Nodup

section Entries

variable {q : String → Value → Prop} {es : List (Value × Value)} {key : String} {v : Value}

theorem same_string {a b : String} : (Value.string a).same (.string b) = true ↔ a = b := by
  simp [Value.same]

theorem EntryValues.nil : EntryValues q [] :=
  ⟨List.forall_mem_nil _, List.nodup_nil⟩

theorem EntryValues.insert (h : EntryValues q es) (hv : q key v) :
    EntryValues q (Value.insert (.string key) v es) := by
  induction es with
  | nil => exact ⟨List.forall_mem_singleton.2 ⟨key, rfl, hv⟩, by simp [Value.insert]⟩
  | cons e es ih =>
    obtain ⟨k, w⟩ := e
    obtain ⟨⟨other, rfl, hw⟩, hrest⟩ := List.forall_mem_cons.1 h.entries
    have hnodup := List.nodup_cons.1 h.nodup
    rw [Value.insert]
    split
    · rename_i hsame
      have hkey : other = key := same_string.1 hsame
      exact ⟨List.forall_mem_cons.2 ⟨⟨other, rfl, hkey ▸ hv⟩, hrest⟩, h.nodup⟩
    · rename_i hsame
      have hinsert := ih ⟨hrest, hnodup.2⟩
      refine ⟨List.forall_mem_cons.2 ⟨⟨other, rfl, hw⟩, hinsert.entries⟩, ?_⟩
      refine List.nodup_cons.2 ⟨fun hmem => ?_, hinsert.nodup⟩
      rcases mem_keys_of_mem_insert hmem with he | hmem
      · exact hsame (same_string.2 (Value.string.inj he))
      · exact hnodup.1 hmem

theorem EntryValues.mem_keys_insert (h : EntryValues q es) :
    Value.string key ∈ (Value.insert (.string key) v es).map Prod.fst := by
  obtain ⟨k, hk, rfl | hsame⟩ := exists_mem_insert (.string key) v es
  · exact List.mem_map_of_mem hk
  · have hmem : k ∈ (Value.insert (.string key) v es).map Prod.fst := List.mem_map_of_mem hk
    rcases mem_keys_of_mem_insert hmem with rfl | hes
    · exact hmem
    · obtain ⟨e, he, rfl⟩ := List.mem_map.1 hes
      obtain ⟨other, hother, -⟩ := h.entries e he
      rw [hother] at hsame
      rw [hother, same_string.1 hsame] at hmem
      exact hmem

/-- A mapping whose keys are untagged texts, and whose trees have values, has a value. -/
theorem exists_toEntries? {p : String → Node → Prop}
    (hpq : ∀ key n, p key n → ∃ v, n.toValue? = some v ∧ q key v) {m : Mapping}
    (hm : EntriesAre p m) {done : List (Value × Value)} (hd : EntryValues q done) :
    ∃ es, toEntries? m done = some es ∧ EntryValues q es ∧
      ∀ key ∈ m.keys, Value.string key ∈ es.map Prod.fst := by
  induction m generalizing done with
  | nil => exact ⟨done, rfl, hd, fun _ h => nomatch h⟩
  | cons e m ih =>
    obtain ⟨k, n⟩ := e
    obtain ⟨⟨hk, hn⟩, hrest⟩ := List.forall_mem_cons.1 hm
    obtain ⟨v, hv, hq⟩ := hpq k.text n hn
    replace hk : k = .string k.text := hk
    have hkey : k.toValue = .string k.text := by rw [hk]; rfl
    obtain ⟨es, hes, hvalues, hkeys⟩ := ih hrest (hd.insert hq)
    have hcons : toEntries? ((k, n) :: m) done = some es :=
      toEntries?_cons.2 ⟨v, hv, hkey ▸ hes⟩
    refine ⟨es, hcons, hvalues, fun key h => ?_⟩
    rcases List.mem_cons.1 h with rfl | h
    · exact mem_keys_toEntries? hes hd.mem_keys_insert
    · exact hkeys key h

end Entries

/-! ## Reading records -/

section Fields

variable {ρ σ : Type} {field : ρ → String → Value → Option (Decoding ρ)}

/-- Fields that are known and can be read, none of them twice, are read, and all are seen. -/
theorem readFields_eq_ok {es : List (Value × Value)}
    (h : EntryValues (fun key v => ∀ r, ∃ r', field r key v = some (.ok r')) es) (r : ρ)
    (seen : List String) (hseen : ∀ key ∈ seen, Value.string key ∉ es.map Prod.fst) :
    ∃ r' seen', readFields field es r seen = (.ok (r', seen') : Decoding _) ∧
      (∀ key ∈ seen, key ∈ seen') ∧ ∀ key, Value.string key ∈ es.map Prod.fst → key ∈ seen' := by
  induction es generalizing r seen with
  | nil => exact ⟨r, seen, rfl, fun _ h => h, fun _ h => nomatch h⟩
  | cons e es ih =>
    obtain ⟨k, v⟩ := e
    obtain ⟨⟨name, rfl, hread⟩, hrest⟩ := List.forall_mem_cons.1 h.entries
    obtain ⟨hfresh, hnodup⟩ := List.nodup_cons.1 h.nodup
    obtain ⟨r', hr'⟩ := hread r
    have hname : (Source.fieldName (Value.string name) : Decoding String) = .ok name := rfl
    have hnew : seen.contains name = false := by
      rw [List.contains_eq_mem, decide_eq_false_iff_not]
      exact fun hmem => hseen name hmem List.mem_cons_self
    obtain ⟨out, seen', hout, hkeep, hkeys⟩ := ih ⟨hrest, hnodup⟩ r' (name :: seen) <| by
      refine List.forall_mem_cons.2 ⟨hfresh, fun key hkey hmem => ?_⟩
      exact hseen key hkey (List.mem_cons_of_mem _ hmem)
    refine ⟨out, seen', ?_, fun key hkey => hkeep key (List.mem_cons_of_mem _ hkey),
      fun key hkey => ?_⟩
    · rw [readFields, hname]
      dsimp only [bind, Except.bind]
      rw [hr']
      dsimp only
      rw [hnew]
      exact hout
    · rcases List.mem_cons.1 hkey with he | hkey
      · cases he
        exact hkeep name List.mem_cons_self
      · exact hkeys key hkey

theorem requireFields_of_mem {r : ρ} {seen required : List String}
    (h : ∀ name ∈ required, name ∈ seen) :
    requireFields r seen required = (.ok r : Decoding ρ) := by
  induction required with
  | nil => rfl
  | cons name required ih =>
    obtain ⟨hname, hrest⟩ := List.forall_mem_cons.1 h
    rw [requireFields, if_pos (by simpa using hname)]
    exact ih hrest

end Fields

/-! ## Forms that can be read -/

section Reads

variable {ρ σ : Type} {read : Value → Decoding σ} {f : Form}

/-- From every tree of a form something is read, and it is not null. -/
def Reads (f : Form) (read : Value → Decoding σ) : Prop :=
  ∀ n, f.Holds n → ∃ v, n.toValue? = some v ∧ v ≠ .null ∧ ∃ x, read v = .ok x

theorem Reads.decode (h : Reads f read) {n : Node} (hn : f.Holds n) :
    ∃ x, n.decode read = .ok x := by
  obtain ⟨v, hv, -, x, hx⟩ := h n hn
  refine ⟨x, ?_⟩
  rw [Node.decode, hv]
  dsimp only
  rw [hx]

/-- From every tree of a form a field is read into a record. -/
def ReadsField (field : ρ → String → Value → Option (Decoding ρ)) (key : String) (f : Form) :
    Prop :=
  ∀ n, f.Holds n → ∃ v, n.toValue? = some v ∧ ∀ r, ∃ r', field r key v = some (.ok r')

theorem Reads.field (h : Reads f read) {field : ρ → String → Value → Option (Decoding ρ)}
    {key : String} (set : ρ → σ → ρ)
    (hset : ∀ r v, field r key v = some (do return set r (← read v))) : ReadsField field key f := by
  intro n hn
  obtain ⟨v, hv, -, x, hx⟩ := h n hn
  refine ⟨v, hv, fun r => ⟨set r x, ?_⟩⟩
  rw [hset, hx]
  rfl

theorem readOption_eq_ok {v : Value} (hv : v ≠ .null) {x : σ} (hx : read v = .ok x) :
    readOption read v = .ok (some x) := by
  have hoption : (Source.option v : Decoding (Option Value)) = .ok (some v) := by
    cases v <;> first | rfl | exact absurd rfl hv
  rw [readOption, hoption]
  dsimp only [bind, Except.bind]
  rw [hx]
  rfl

theorem readOption_eq_ok_iff {v : Value} {o : Option σ} :
    readOption read v = .ok o ↔
      v = .null ∧ o = none ∨ v ≠ .null ∧ ∃ x, read v = .ok x ∧ o = some x := by
  by_cases hv : v = .null
  · subst hv
    have hnull : readOption read Value.null = (.ok none : Decoding (Option σ)) := rfl
    simp [hnull, eq_comm]
  · have hoption : (Source.option v : Decoding (Option Value)) = .ok (some v) := by
      cases v <;> first | rfl | exact absurd rfl hv
    rw [readOption, hoption]
    dsimp only [bind, Except.bind]
    cases read v <;> simp [hv, Functor.map, Except.map, eq_comm]

theorem Reads.option (h : Reads f read) : Reads f (readOption read) := by
  intro n hn
  obtain ⟨v, hv, hne, x, hx⟩ := h n hn
  exact ⟨v, hv, hne, some x, readOption_eq_ok hne hx⟩

theorem Reads.items (h : Reads f read) {items : List Node} (hitems : ∀ n ∈ items, f.Holds n) :
    ∃ vs xs, toItems? items = some vs ∧ vs.mapM read = .ok xs := by
  induction items with
  | nil => exact ⟨[], [], rfl, rfl⟩
  | cons n items ih =>
    obtain ⟨hn, hrest⟩ := List.forall_mem_cons.1 hitems
    obtain ⟨v, hv, -, x, hx⟩ := h n hn
    obtain ⟨vs, xs, hvs, hxs⟩ := ih hrest
    refine ⟨v :: vs, x :: xs, ?_, ?_⟩
    · rw [toItems?, hv, hvs]
    · rw [List.mapM_cons, hx, hxs]
      rfl

theorem Reads.list (h : Reads f read) : Reads (.list f) (readList read) := by
  rintro _ ⟨items, rfl, hitems⟩
  obtain ⟨vs, xs, hvs, hxs⟩ := h.items hitems
  refine ⟨.sequence vs, ?_, by simp, xs, ?_⟩
  · rw [toValue?, hvs]
  · exact hxs

theorem mem_of_lookup {fields : List (String × Form)} {key : String}
    (h : fields.lookup key = some f) : (key, f) ∈ fields := by
  induction fields with
  | nil => cases h
  | cons e fields ih =>
    obtain ⟨other, g⟩ := e
    rw [List.lookup_cons] at h
    split at h
    · rename_i hsame
      cases h
      rw [eq_of_beq hsame]
      exact List.mem_cons_self
    · exact List.mem_cons_of_mem _ (ih h)

theorem reads_record {field : ρ → String → Value → Option (Decoding ρ)}
    {fields : List (String × Form)} (h : ∀ e ∈ fields, ReadsField field e.1 e.2) (name : String)
    (initial : ρ) (required : List String) :
    Reads (.record fields required) (readRecord name initial required field) := by
  rintro _ ⟨-, m, rfl, hrequired, hm⟩
  obtain ⟨es, hes, hvalues, hkeys⟩ := exists_toEntries?
    (q := fun key v => ∀ r, ∃ r', field r key v = some (.ok r'))
    (fun key n ⟨f, hf, hn⟩ => h (key, f) (mem_of_lookup hf) n hn) hm .nil
  obtain ⟨r, seen, hfields, -, hseen⟩ := readFields_eq_ok hvalues initial []
    fun _ h => nomatch h
  refine ⟨.mapping es, ?_, by simp, r, ?_⟩
  · rw [toValue?, hes]
  · have hentries : (Source.entries ("struct " ++ name) (Value.mapping es) : Decoding _) = .ok es :=
      rfl
    rw [readRecord, hentries]
    dsimp only [bind, Except.bind]
    rw [hfields]
    exact requireFields_of_mem fun key hkey => hseen key (hkeys key (hrequired key hkey))

theorem readInto_eq_ok {es : List (Value × Value)} {q : String → Value → Prop}
    (h : EntryValues q es) (d : Dictionary Value) :
    ∃ d', readInto Source.value es d = (.ok d' : Decoding (Dictionary Value)) := by
  induction es generalizing d with
  | nil => exact ⟨d, rfl⟩
  | cons e es ih =>
    obtain ⟨k, v⟩ := e
    obtain ⟨⟨key, rfl, -⟩, hrest⟩ := List.forall_mem_cons.1 h.entries
    exact ih ⟨hrest, (List.nodup_cons.1 h.nodup).2⟩ (Dictionary.insert key v d)

theorem exists_toItems? {items : List Node} (h : ∀ n ∈ items, ∃ v, n.toValue? = some v) :
    ∃ vs, toItems? items = some vs := by
  induction items with
  | nil => exact ⟨[], rfl⟩
  | cons n items ih =>
    obtain ⟨⟨v, hv⟩, hrest⟩ := List.forall_mem_cons.1 h
    obtain ⟨vs, hvs⟩ := ih hrest
    exact ⟨v :: vs, by rw [toItems?, hv, hvs]⟩

theorem exists_toEntries?_of_values {m : Mapping} (h : ∀ e ∈ m, ∃ v, e.2.toValue? = some v)
    (done : List (Value × Value)) : ∃ es, toEntries? m done = some es := by
  induction m generalizing done with
  | nil => exact ⟨done, rfl⟩
  | cons e m ih =>
    obtain ⟨⟨v, hv⟩, hrest⟩ := List.forall_mem_cons.1 h
    obtain ⟨es, hes⟩ := ih hrest (Value.insert e.1.toValue v done)
    exact ⟨es, toEntries?_cons.2 ⟨v, hv, hes⟩⟩

/-- Only a tag around a collection can keep a tree from having a value. -/
theorem exists_toValue?_of_bare {n : Node} (h : n.all isBare = true) :
    ∃ v, n.toValue? = some v := by
  induction n using tree_induction with
  | scalar s => exact ⟨_, by rw [toValue?]⟩
  | tagged t n ih => simp [all, isBare] at h
  | sequence items ih =>
    simp only [all, isBare, Bool.true_and, allItems_iff] at h
    obtain ⟨vs, hvs⟩ := exists_toItems? fun n hn => ih n hn (h n hn)
    exact ⟨.sequence vs, by rw [toValue?, hvs]⟩
  | mapping m ih =>
    simp only [all, isBare, Bool.true_and, allEntries_iff] at h
    obtain ⟨es, hes⟩ := exists_toEntries?_of_values (fun e he => ih e he (h e he)) []
    exact ⟨.mapping es, by rw [toValue?, hes]⟩

theorem reads_dictionary :
    Reads (.dictionary .bare) (readDictionary (Source.value (m := Decoding))) := by
  rintro _ ⟨m, rfl, -, hm⟩
  obtain ⟨es, hes, hvalues, -⟩ := exists_toEntries? (q := fun _ _ => True)
    (fun key n hn => (exists_toValue?_of_bare hn).imp fun v hv => ⟨hv, trivial⟩) hm .nil
  obtain ⟨d, hd⟩ := readInto_eq_ok hvalues []
  refine ⟨.mapping es, ?_, by simp, d, ?_⟩
  · rw [toValue?, hes]
  · exact hd

end Reads

end SharedConfig
