import SharedConfig.Proofs.Value
import SharedConfig.Text.Blank
import SharedConfig.Yaml.Printer

/-!
# SharedConfig.Proofs.Value.Writing

What becomes of a value that is written.

The notation has no place for a second tag, and refuses a mapping without a tag whose only key is
tagged.  The values of trees have one tag at most and scalars as keys, so of them the lone tagged
keys are all that is refused.

* `writtenUnless_write`: the values that are refused.
* `not_blank_of_print`: the text of a mapping has content.
-/

namespace SharedConfig.Yaml

namespace Value

mutual

/-- Whether some mapping in a value has a tagged key as its only one, and no tag itself. -/
def hasLoneTaggedKey (tagged : Bool) : Value → Bool
  | .sequence items => itemsHaveLoneTaggedKey items
  | .mapping entries => (!tagged && onlyKeyTagged entries) || entriesHaveLoneTaggedKey entries
  | .tagged _ v => v.hasLoneTaggedKey true
  | _ => false

def itemsHaveLoneTaggedKey : List Value → Bool
  | [] => false
  | v :: vs => v.hasLoneTaggedKey false || itemsHaveLoneTaggedKey vs

def entriesHaveLoneTaggedKey : List (Value × Value) → Bool
  | [] => false
  | (_, v) :: es => v.hasLoneTaggedKey false || entriesHaveLoneTaggedKey es

end

/-- A tag around a value without a tag, or a mapping whose keys are scalars. -/
def WritablePart : Value → Prop
  | .mapping entries => ∀ e ∈ entries, e.1.collectionKind? = none
  | .tagged _ v => v.isTagged = false
  | _ => True

def IsWritable (v : Value) : Prop := ∀ w ∈ v.parts, WritablePart w

end Value

/-- Something is written unless it is refused, and then for a lone tagged key. -/
def WrittenUnless {α : Type} (refused : Bool) : Except PrintError α → Prop
  | .ok _ => refused = false
  | .error e => refused = true ∧ e = .taggedOnlyKey

section Write

variable {p : Position} {tag : Option String} {v : Value}

theorem exists_write_of_leaf (p : Position) (tag : Option String) (hkind : v.collectionKind? = none)
    (htag : v.isTagged = false) : ∃ s, write p tag v = .ok s := by
  cases v with
  | sequence items => cases hkind
  | mapping entries => cases hkind
  | tagged t w => cases htag
  | _ => exact ⟨_, rfl⟩

theorem exists_write_of_key (p : Position) (hkind : v.collectionKind? = none) (h : v.IsWritable) :
    ∃ s, write p none v = .ok s := by
  cases htag : v.isTagged with
  | false => exact exists_write_of_leaf p none hkind htag
  | true =>
    obtain ⟨t, w, rfl⟩ := Value.isTagged_iff.1 htag
    have hone : w.isTagged = false := h _ (Value.self_mem_parts _)
    rw [write]
    exact exists_write_of_leaf p _ hkind hone

/-- Of two parts the first one that is refused counts. -/
theorem WrittenUnless.both {α β γ : Type} {x y : Bool} {a : Except PrintError α}
    {b : Except PrintError β} {r : Except PrintError γ} (ha : WrittenUnless x a)
    (hb : WrittenUnless y b) (hfirst : ∀ e, a = .error e → r = .error e)
    (hsecond : ∀ s e, a = .ok s → b = .error e → r = .error e)
    (hdone : ∀ s t, a = .ok s → b = .ok t → ∃ u, r = .ok u) : WrittenUnless (x || y) r := by
  cases a with
  | error e =>
    rw [hfirst e rfl]
    exact ⟨by rw [ha.1, Bool.true_or], ha.2⟩
  | ok s =>
    have hx : x = false := ha
    rw [hx, Bool.false_or]
    cases b with
    | error e =>
      rw [hsecond s e rfl rfl]
      exact hb
    | ok t =>
      obtain ⟨u, rfl⟩ := hdone s t rfl rfl
      exact hb

theorem writtenUnless_items (indent : ℕ) {items : List Value}
    (h : ∀ v ∈ items, ∀ p, WrittenUnless (v.hasLoneTaggedKey false) (write p none v)) :
    WrittenUnless (Value.itemsHaveLoneTaggedKey items) (writeItems indent items) := by
  induction items with
  | nil => rfl
  | cons v vs ih =>
    obtain ⟨hv, hvs⟩ := List.forall_mem_cons.1 h
    rw [writeItems, Value.itemsHaveLoneTaggedKey]
    refine (hv (.item indent)).both (ih hvs) ?_ ?_ ?_
    · intro e he
      rw [he]
    · intro s e hs he
      rw [hs, he]
    · intro s rest hs hrest
      rw [hs, hrest]
      exact ⟨_, rfl⟩

theorem writtenUnless_entries (indent : ℕ) {entries : List (Value × Value)}
    (h : ∀ e ∈ entries, (∀ p, ∃ s, write p none e.1 = .ok s) ∧
      ∀ p, WrittenUnless (e.2.hasLoneTaggedKey false) (write p none e.2)) :
    WrittenUnless (Value.entriesHaveLoneTaggedKey entries) (writeEntries indent entries) := by
  induction entries with
  | nil => rfl
  | cons e es ih =>
    obtain ⟨k, v⟩ := e
    obtain ⟨⟨hk, hv⟩, hes⟩ := List.forall_mem_cons.1 h
    rw [writeEntries, Value.entriesHaveLoneTaggedKey]
    cases simpleKey? none k with
    | some key =>
      dsimp only
      refine (hv (.value indent)).both (ih hes) ?_ ?_ ?_
      · intro e he
        rw [he]
        rfl
      · intro s e hs he
        rw [hs, he]
        rfl
      · intro s rest hs hrest
        rw [hs, hrest]
        exact ⟨_, rfl⟩
    | none =>
      obtain ⟨key, hkey⟩ := hk (.marked indent)
      dsimp only
      rw [hkey]
      refine (hv (.marked indent)).both (ih hes) ?_ ?_ ?_
      · intro e he
        rw [he]
      · intro s e hs he
        rw [hs, he]
      · intro s rest hs hrest
        rw [hs, hrest]
        exact ⟨_, rfl⟩

theorem hasLoneTaggedKey_of_leaf (hkind : v.collectionKind? = none) (htag : v.isTagged = false)
    (tagged : Bool) : v.hasLoneTaggedKey tagged = false := by
  cases v with
  | sequence items => cases hkind
  | mapping entries => cases hkind
  | tagged t w => cases htag
  | _ => rfl

/-- What is refused of such a value is a lone tagged key. -/
theorem writtenUnless_write (h : v.IsWritable) (p : Position) (tag : Option String)
    (htag : tag.isSome = true → v.isTagged = false) :
    WrittenUnless (v.hasLoneTaggedKey tag.isSome) (write p tag v) := by
  induction v using Value.value_induction generalizing p tag with
  | leaf v hkind hone =>
    rw [hasLoneTaggedKey_of_leaf hkind hone]
    obtain ⟨s, hs⟩ := exists_write_of_leaf p tag hkind hone
    rw [hs]
    rfl
  | sequence items ih =>
    obtain ⟨-, hitems⟩ := Value.forall_parts_sequence.1 h
    rw [Value.hasLoneTaggedKey]
    cases items with
    | nil => rfl
    | cons v vs =>
      have hwritten := writtenUnless_items (p.items tag.isSome) fun w hw p =>
        ih w hw (hitems w hw) p none nofun
      rw [write]
      cases hresult : writeItems (p.items tag.isSome) (v :: vs) with
      | error e => rw [hresult] at hwritten; exact hwritten
      | ok parts => rw [hresult] at hwritten; exact hwritten
  | mapping entries ih =>
    obtain ⟨hkeys, hentries⟩ := Value.forall_parts_mapping.1 h
    rw [Value.hasLoneTaggedKey]
    -- under a tag of its own a mapping is written even with a lone tagged key
    cases entries with
    | nil => simp [write, onlyKeyTagged, Value.entriesHaveLoneTaggedKey, WrittenUnless]
    | cons e es =>
      have hwritten := writtenUnless_entries p.inner fun f hf =>
        ⟨fun p => exists_write_of_key p (hkeys f hf) (hentries f hf).1,
          fun p => (ih f hf).2 (hentries f hf).2 p none nofun⟩
      rw [write, ← Option.not_isSome]
      split
      · rename_i hlone
        rw [hlone, Bool.true_or]
        exact ⟨rfl, rfl⟩
      · rename_i hlone
        rw [Bool.eq_false_iff.2 hlone, Bool.false_or]
        cases hresult : writeEntries p.inner (e :: es) with
        | error e => rw [hresult] at hwritten; exact hwritten
        | ok parts => rw [hresult] at hwritten; exact hwritten
  | tagged t v ih =>
    cases tag with
    | some u => cases htag rfl
    | none =>
      obtain ⟨hone, hv⟩ := Value.forall_parts_tagged.1 h
      rw [write, Value.hasLoneTaggedKey]
      exact ih hv p _ fun _ => hone

/-- The text of an entry has the colon behind its key. -/
theorem colon_mem_writeEntries {indent : ℕ} {e : Value × Value} {es : List (Value × Value)}
    {parts : List String} (h : writeEntries indent (e :: es) = .ok parts) :
    ∃ part rest, parts = part :: rest ∧ ':' ∈ part.toList := by
  obtain ⟨k, v⟩ := e
  rw [writeEntries] at h
  split at h
  · cases h
  · cases h
  · rename_i part rest hpart _
    cases h
    refine ⟨part, rest, rfl, ?_⟩
    split at hpart
    · cases hw : write (.value indent) none v with
      | error e => rw [hw] at hpart; cases hpart
      | ok s =>
        rw [hw] at hpart
        cases hpart
        simp
    · split at hpart
      · cases hpart
      · cases hpart
      · cases hpart
        simp

theorem not_blank_of_print {entries : List (Value × Value)} {s : String}
    (h : (Value.mapping entries).print = .ok s) : isBlankText s = false := by
  have hcolon : ':' ∈ s.toList ∨ s = "{}\n" := by
    cases entries with
    | nil => exact .inr (Except.ok.inj h).symm
    | cons e es =>
      rw [Value.print, write] at h
      split at h
      · cases h
      · split at h
        · cases h
        · rename_i parts hparts
          cases h
          obtain ⟨part, rest, rfl, hmem⟩ := colon_mem_writeEntries hparts
          exact .inl (by simp [lines, Position.sameLine, hmem])
  rcases hcolon with hmem | rfl
  · exact List.all_eq_false.2 ⟨':', hmem, by decide⟩
  · decide

end Write

end SharedConfig.Yaml
