import SharedConfig.Proofs.Record.Echo

/-!
# SharedConfig.Proofs.Collection.Listing

Records that are found by name, and the records of a collection.

An entity is found by the text under its key `name`, whatever tags are on the way, and a record has
the name that its value holds.  In a tree that was read the two are one name, if no two keys of the
entity are equal as values; else the text is that under the first of these keys, and the record has
the name under the last.

* `entityName_of_decode`: the name of a record is that of the entity that it was decoded from.
* `decodable_eq`: the records of a collection, as those of its items that are of the kind.
* `find_and_list_agree`: what is found is what is listed.
-/

namespace SharedConfig

open Node Yaml

/-! ## The name of a record -/

namespace Node

/-- In a tree that was read what is a text in the value is that text. -/
theorem IsOfValue.asText {n : Node} {v : Value} {s : String} (h : n.IsOfValue)
    (hv : n.toValue? = some v) (hs : v.untagged = .string s) : n.asText = some s := by
  have hkind := kind_of_untagged hv
  rw [hs] at hkind
  cases n with
  | scalar t =>
    cases hv
    refine asText_eq_some_iff.2 ⟨t, rfl, ?_, text_of_toValue hs⟩
    rw [untagged_toValue] at hs
    cases hk : t.kind <;> simp_all [Scalar.untaggedValue, Scalar.isNull]
  | sequence items => cases hkind
  | mapping m => cases hkind
  | tagged t n => exact absurd hkind h.tagged.2.1

/-- A field that must be there is in the tree that a record was decoded from. -/
theorem ApartKeys.exists_child? {ρ : Type} {name key : String} {initial r : ρ}
    {required : List String} {field : ρ → String → Value → Option (Decoding ρ)} {n : Node}
    (h : n.ApartKeys) (hkey : key ∈ required)
    (hn : n.decode (readRecord name initial required field) = .ok r) :
    ∃ c, n.child? key = some c := by
  obtain ⟨v, hv, hread⟩ := decode_eq_ok hn
  obtain ⟨m, hm⟩ := exists_asMapping_of_readRecord hv hkey hread
  obtain ⟨es, seen, hes, hfields, hrequired⟩ := readRecord_eq_ok hread
  obtain ⟨es', huntagged, hentries⟩ := untagged_of_asMapping hm hv
  simp only [Value.entriesOf, huntagged, Except.ok.injEq] at hes
  subst hes
  have hmem := mem_keys_of_readFields (EntriesOf.of_toEntries? (h m hm) hentries) hfields
    (hrequired key hkey)
  rw [child?_of_asMapping hm, ← Option.ne_none_iff_exists', Ne, Mapping.get?_eq_none_iff, not_not]
  exact hmem.resolve_left List.not_mem_nil

end Node

namespace RecordKind

variable {k : RecordKind} {root n : Node}

theorem entityName_of_decode (hread : n.IsOfValue) (hapart : n.ApartKeys) {r : k.Record}
    (h : k.decode n = .ok r) :
    n.entityName = if k.recordName r = "" then none else some (k.recordName r) := by
  obtain ⟨record, initial, field, hk, hpart⟩ := k.readsPart_name
  rw [decode, hk] at h
  obtain ⟨c, hc⟩ := hapart.exists_child? List.mem_cons_self h
  obtain ⟨v, hv, htext⟩ := decode_part hpart hapart.keptByText h hc
  have hname : c.asText = some (k.recordName r) :=
    (hread.child? hc).asText hv (textOf_eq_ok.1 htext)
  split
  · rename_i hempty
    refine Option.eq_none_iff_forall_ne_some.2 fun name he => ?_
    obtain ⟨⟨c', hc', hname'⟩, hne⟩ := entityName_eq_some_iff.1 he
    cases hc.symm.trans hc'
    cases hname.symm.trans hname'
    exact hne hempty
  · rename_i hne
    exact entityName_eq_some_iff.2 ⟨⟨c, hc, hname⟩, hne⟩

/-! ## The records of a collection -/

theorem decode_ne_noValue (h : n.all keepsTag = true) : k.decode n ≠ .error .noValue := by
  obtain ⟨v, hv⟩ := exists_toValue?_iff.2 h
  rw [decode, Node.decode, hv]
  dsimp only
  split <;> simp

theorem decodable_eq {items : List Node} (h : ∀ n ∈ items, n.all keepsTag = true) :
    k.decodable items = .ok (items.filterMap fun n => (k.decode n).toOption) := by
  induction items with
  | nil => rfl
  | cons n rest ih =>
    obtain ⟨hn, hrest⟩ := List.forall_mem_cons.1 h
    rw [decodable]
    cases hd : k.decode n with
    | ok r => rw [ih hrest, List.filterMap_cons_some (by rw [hd]; rfl)]
    | error e =>
      rw [List.filterMap_cons_none (by rw [hd]; rfl), ← ih hrest]
      cases e with
      | noValue => exact absurd hd (decode_ne_noValue hn)
      | _ => rfl

theorem list_of_decodable {rs : List k.Record} (h : k.decodable (k.items root) = .ok rs) :
    k.list root = .ok rs := by
  rw [list]
  rw [items] at h
  cases hc : root.collection k with
  | none =>
    rw [hc] at h
    cases h
    rfl
  | some ns =>
    rw [hc, Option.getD_some] at h
    dsimp only
    rw [h]

theorem mem_decoded_iff {items : List Node} {r : k.Record} :
    r ∈ items.filterMap (fun n => (k.decode n).toOption) ↔ ∃ n ∈ items, k.decode n = .ok r := by
  rw [List.mem_filterMap]
  refine exists_congr fun n => and_congr_right fun _ => ?_
  cases k.decode n <;> simp [Except.toOption]

theorem all_of_mem_items {p : Node → Bool} (h : root.all p = true) (hn : n ∈ k.items root) :
    n.all p = true := by
  obtain ⟨x, ns, hx, hns, hn⟩ := exists_of_mem_items hn
  exact allItems_iff.1 (all_of_asSequence (all_of_at? h hx) hns).2 n hn

/-- Unless nothing of the name is there, a record is not found because its entity is not of the
kind. -/
theorem find_eq_error_iff {name : String} {e : StoreError} :
    k.find name root = .error e ↔
      (k.contains name root = false ∧ e = .notFound k.name name) ∨
        ∃ n cause, k.entity? name root = some n ∧ k.decode n = .error cause ∧ e = .codec cause := by
  unfold find contains
  cases k.entity? name root with
  | none => simp [eq_comm]
  | some n =>
    cases hd : k.decode n with
    | ok r => simp [hd]
    | error cause => simp [hd, eq_comm]

/-- What is found by name is what is listed, in a tree that was read, without empty tags, in whose
collection no name stands twice and no entity has two keys that are equal as values; where all tags
of the value have one mark there are no such keys (`keysApart_of_ofValue`).  The list has the
records in document order, and what is there but not of the kind is neither found nor listed. -/
theorem find_and_list_agree {v : Value} (hwf : v.WellFormed) (hroot : Node.ofValue v = .ok root)
    (htags : root.all keepsTag = true) (hapart : ∀ n ∈ k.items root, n.ApartKeys)
    (hnames : (k.names root).Nodup) :
    ∃ rs, k.list root = .ok rs ∧
      rs = (k.items root).filterMap (fun n => (k.decode n).toOption) ∧
      (∀ name r, k.find name root = .ok r → k.recordName r = name ∧ r ∈ rs) ∧
      (∀ r ∈ rs, k.recordName r ≠ "" → k.find (k.recordName r) root = .ok r) ∧
      ∀ name, (k.find name root = .error (.notFound k.name name) ↔ k.contains name root = false) ∧
        ∀ e, k.find name root = .error e → k.contains name root = true →
          ∃ n cause, k.entity? name root = some n ∧ k.decode n = .error cause ∧ e = .codec cause ∧
            ∀ r ∈ rs, k.recordName r ≠ name := by
  have hread : root.IsOfValue := ⟨v, hwf, hroot⟩
  have hback : ∀ n ∈ k.items root, ∀ r, k.decode n = .ok r → k.recordName r ≠ "" →
      k.entity? (k.recordName r) root = some n := by
    intro n hn r hr hne
    have hname := entityName_of_decode (hread.mem_items hn) (hapart n hn) hr
    rw [if_neg hne] at hname
    rw [entity?_eq_find?]
    exact Entity.find?_of_mem hnames hn hname
  refine ⟨_, list_of_decodable (decodable_eq fun n hn => all_of_mem_items htags hn), rfl, ?_, ?_,
    fun name => ⟨?_, ?_⟩⟩
  · intro name r hfind
    obtain ⟨n, hn, hr⟩ := find_eq_ok_iff.1 hfind
    obtain ⟨hitem, hentity⟩ := mem_items_of_entity? hn
    exact ⟨name_eq_of_decode (hapart n hitem).keptByText hr hentity,
      mem_decoded_iff.2 ⟨n, hitem, hr⟩⟩
  · intro r hr hne
    obtain ⟨n, hn, hr⟩ := mem_decoded_iff.1 hr
    exact find_eq_ok_iff.2 ⟨n, hback n hn r hr hne, hr⟩
  · rw [find_eq_error_iff]
    simp
  · intro e he hthere
    rcases find_eq_error_iff.1 he with ⟨hno, -⟩ | ⟨n, cause, hn, hcause, rfl⟩
    · rw [hthere] at hno
      cases hno
    · refine ⟨n, cause, hn, hcause, rfl, fun r hr hsame => ?_⟩
      obtain ⟨n', hn', hr⟩ := mem_decoded_iff.1 hr
      have hne : k.recordName r ≠ "" := by
        rw [hsame]
        exact (entityName_eq_some_iff.1 (mem_items_of_entity? hn).2).2
      have hsome := hback n' hn' r hr hne
      rw [hsame, hn] at hsome
      cases hsome
      rw [hcause] at hr
      cases hr

/-- A tagged group with a tagged key and another without a name are listed; what has a number for a
name is there, and is neither found nor listed. -/
theorem find_and_list_agree_for_groups :
    let document : Value := .mapping [(.string "clientOptions", .mapping [(.string "cli", .mapping
      [(.string "pluginGroups", .sequence [.null, .tagged "!group" (.mapping
        [(.tagged "!key" (.string "name"), .tagged "text" (.string "a")), (.string "vendor", .null)]),
        .mapping [(.string "name", .number (.int 5))], .mapping [(.string "name", .string "")]])])])]
    document.WellFormed ∧ ∃ root, Node.ofValue document = .ok root ∧ root.all keepsTag = true ∧
      (∀ n ∈ pluginGroup.items root, n.ApartKeys) ∧ pluginGroup.names root = ["a", "5"] ∧
      pluginGroup.list root = .ok [⟨"a", none, none, []⟩, ⟨"", none, none, []⟩] ∧
      pluginGroup.find "a" root = .ok ⟨"a", none, none, []⟩ ∧
      pluginGroup.find "b" root = .error (.notFound "plugin group" "b") ∧
      ∃ cause, pluginGroup.find "5" root = .error (.codec cause) := by
  intro document
  have hwf : document.WellFormed := by decide
  obtain ⟨root, hroot, htags, hkeys, hnames, hrecords, hlost, hthere⟩ :
      ∃ root, Node.ofValue document = .ok root ∧ root.all keepsTag = true ∧ root.KeysApart ∧
        pluginGroup.names root = ["a", "5"] ∧
        (pluginGroup.items root).filterMap (fun n => (pluginGroup.decode n).toOption) =
          [⟨"a", none, none, []⟩, ⟨"", none, none, []⟩] ∧
        pluginGroup.contains "b" root = false ∧
        ∃ n cause, pluginGroup.entity? "5" root = some n ∧ pluginGroup.decode n = .error cause :=
    ⟨_, rfl, rfl, rfl, rfl, rfl, rfl, _, _, rfl, rfl⟩
  have hapart : ∀ n ∈ pluginGroup.items root, n.ApartKeys :=
    fun n hn => KeysApart.apartKeys (all_of_mem_items hkeys hn)
  obtain ⟨rs, hlist, hrs, -, hfound, habsent⟩ :=
    find_and_list_agree hwf hroot htags hapart (by rw [hnames]; decide)
  rw [hrecords] at hrs
  subst hrs
  obtain ⟨n, cause, hn, hcause⟩ := hthere
  exact ⟨hwf, root, hroot, htags, hapart, hnames, hlist,
    hfound _ List.mem_cons_self (by decide), (habsent "b").1.2 hlost, cause,
    find_eq_error_iff.2 (.inr ⟨n, cause, hn, hcause, rfl⟩)⟩

/-- Two keys that come to be equal as values: the first is the name of the entity, and the last one
is the name of the record. -/
theorem find_and_list_disagree : ∃ v root,
    Value.ofText ("clientOptions:\n  cli:\n    pluginGroups:\n" ++
      "    - !t name: a\n      !<!!!!t> name: b\n") = .ok v ∧
    v.WellFormed ∧ Node.ofValue v = .ok root ∧ root.all keepsTag = true ∧
      pluginGroup.names root = ["a"] ∧
      pluginGroup.find "a" root = .ok ⟨"b", none, none, []⟩ ∧
      pluginGroup.list root = .ok [⟨"b", none, none, []⟩] ∧
      pluginGroup.find "b" root = .error (.notFound "plugin group" "b") :=
  ⟨.mapping [(.string "clientOptions", .mapping [(.string "cli", .mapping
      [(.string "pluginGroups", .sequence [.mapping [(.tagged "t" (.string "name"), .string "a"),
        (.tagged "!!!t" (.string "name"), .string "b")]])])])], _,
    by decide +kernel, by decide, rfl, rfl, rfl, rfl, rfl, rfl⟩

end RecordKind

end SharedConfig
