import SharedConfig.Store.Change

/-!
# SharedConfig.Proofs.Action

Actions that succeed, taken apart, and what they keep of a document.

* `Action.bind_eq_ok`, `Action.map_eq_ok`: an action that succeeds is made of ones that do.
* `Keeps`: whenever an action succeeds on a document with a property, its result has that property.
* `ChangeSet.run_keeps`: changes keep what each of them keeps.
-/

namespace SharedConfig
namespace Action

variable {β γ : Type}

theorem bind_eq_ok {a : Action β} {f : β → Action γ} {s s' : Session} {y : γ} :
    (a >>= f) s = (.ok y, s') ↔ ∃ x u, a s = (.ok x, u) ∧ f x u = (.ok y, s') := by
  rw [bind_apply]
  rcases a s with ⟨e | x, u⟩
  · simp
  · simp only [Prod.mk.injEq, Except.ok.injEq]
    constructor
    · intro h
      exact ⟨x, u, ⟨rfl, rfl⟩, h⟩
    · rintro ⟨_, _, ⟨rfl, rfl⟩, h⟩
      exact h

theorem bind_of_ok {a : Action β} {s u : Session} {x : β} (h : a s = (.ok x, u))
    (f : β → Action γ) : (a >>= f) s = f x u := by
  rw [bind_apply, h]

theorem bind_of_error {a : Action β} {s u : Session} {e : StoreError} (h : a s = (.error e, u))
    (f : β → Action γ) : (a >>= f) s = (.error e, u) := by
  rw [bind_apply, h]

theorem pure_eq_ok {x y : β} {s s' : Session} :
    (pure x : Action β) s = (.ok y, s') ↔ x = y ∧ s = s' := by
  rw [pure_apply]
  simp

theorem map_eq_ok {a : Action β} {f : β → γ} {s s' : Session} {y : γ} :
    (f <$> a) s = (.ok y, s') ↔ ∃ x, a s = (.ok x, s') ∧ f x = y := by
  refine Iff.trans (bind_eq_ok (f := fun x => pure (f x))) ?_
  constructor
  · rintro ⟨x, u, ha, hp⟩
    obtain ⟨rfl, rfl⟩ := pure_eq_ok.1 hp
    exact ⟨x, ha, rfl⟩
  · rintro ⟨x, ha, rfl⟩
    exact ⟨x, s', ha, rfl⟩

theorem root_eq_ok {s s' : Session} {n : Node} :
    root s = (.ok n, s') ↔ s.root = n ∧ s = s' := by
  simp [root]

theorem ask_eq_ok {query : Node → Except StoreError β} {s s' : Session} {x : β} :
    ask query s = (.ok x, s') ↔ query s.root = .ok x ∧ s = s' := by
  simp [ask]

theorem fail_ne_ok {e : StoreError} {s s' : Session} {x : β} :
    (fail e : Action β) s ≠ (.ok x, s') := by
  simp [fail]

/-- Whenever an action succeeds on a document with a property, its result has that property. -/
def Keeps (P : Node → Prop) (a : Action β) : Prop :=
  ∀ s x s', a s = (.ok x, s') → P s.root → P s'.root

variable {P : Node → Prop}

theorem Keeps.pure (x : β) : Keeps P (Pure.pure x : Action β) := by
  intro s y s' h hs
  obtain ⟨-, rfl⟩ := pure_eq_ok.1 h
  exact hs

theorem Keeps.fail (e : StoreError) : Keeps P (Action.fail e : Action β) :=
  fun _ _ _ h => absurd h fail_ne_ok

theorem Keeps.root : Keeps P Action.root := by
  intro s n s' h hs
  obtain ⟨-, rfl⟩ := root_eq_ok.1 h
  exact hs

theorem Keeps.bind {a : Action β} {f : β → Action γ} (ha : Keeps P a) (hf : ∀ x, Keeps P (f x)) :
    Keeps P (a >>= f) := by
  intro s y s' h hs
  obtain ⟨x, u, hx, hy⟩ := bind_eq_ok.1 h
  exact hf x u y s' hy (ha s x u hx hs)

theorem Keeps.map {a : Action β} (ha : Keeps P a) (f : β → γ) : Keeps P (f <$> a) := by
  intro s y s' h hs
  obtain ⟨x, hx, -⟩ := map_eq_ok.1 h
  exact ha s x s' hx hs

end Action

namespace ChangeSet

open SharedConfig.Action

theorem runAfter_cons_of_ok {c : Change} {s u : Session} {changed : Bool}
    (h : c.run s = (.ok changed, u)) (done : Report) (rest : ChangeSet) :
    ∃ done', runAfter done (c :: rest) s = runAfter done' rest u :=
  ⟨_, bind_of_ok h _⟩

theorem runAfter_cons_of_error {c : Change} {s u : Session} {e : StoreError}
    (h : c.run s = (.error e, u)) (done : Report) (rest : ChangeSet) :
    runAfter done (c :: rest) s = (.error e, u) :=
  bind_of_error h _

theorem runAfter_keeps {P : Node → Prop} {cs : ChangeSet} (h : ∀ c ∈ cs, Keeps P c.run)
    (done : Report) : Keeps P (runAfter done cs) := by
  induction cs generalizing done with
  | nil => exact Keeps.pure done
  | cons c rest ih =>
    exact Keeps.bind (h c List.mem_cons_self) fun changed =>
      ih (fun d hd => h d (List.mem_cons_of_mem _ hd)) _

/-- Changes keep what each of them keeps. -/
theorem run_keeps {P : Node → Prop} {cs : ChangeSet} (h : ∀ c ∈ cs, Keeps P c.run) :
    Keeps P cs.run :=
  runAfter_keeps h _

end ChangeSet

end SharedConfig
