import Mathlib

/-!
# Computations and what they leave behind

A search or a run is a computation that may fail and that leaves a state in either case. `Meets`
says of one computation, from one state, what holds of its result and of the state if it returns,
and what holds of the error and of the state if it fails. Its rules follow the way in which a
computation is written (`Meets.bind`, `Meets.pure`, `Meets.throw`), so that a proof goes through a
program step by step and names what each step leads to.

Where a program only has to be shown free of one kind of failure, no step needs an argument of its
own. Such a statement is a triple, and `meets_of_triple` makes it available to the others.
-/

namespace NonlinearCG

open Std.Do

variable {ε σ A B : Type} {x : ExceptT ε (StateM σ) A} {Q Q' : A → σ → Prop} {E E' : ε → σ → Prop}
  {s s' : σ}

/-- From a state, a computation returns with `Q`, or it fails with `E`. -/
def Meets (x : ExceptT ε (StateM σ) A) (s : σ) (Q : A → σ → Prop) (E : ε → σ → Prop) : Prop :=
  match x.run s with
  | (.ok a, s') => Q a s'
  | (.error e, s') => E e s'

/-! ## Runs step by step -/

theorem run_get (s : σ) : (get : ExceptT ε (StateM σ) σ).run s = (.ok s, s) := rfl

section Bind

variable {f : A → ExceptT ε (StateM σ) B}

theorem run_bind_ok {a : A} (hx : x.run s = (.ok a, s')) : (x >>= f).run s = (f a).run s' := by
  have hx : x s = (.ok a, s') := hx
  simp only [bind, ExceptT.bind, ExceptT.mk, ExceptT.run, StateT.bind, hx]
  rfl

theorem run_bind_error {e : ε} (hx : x.run s = (.error e, s')) :
    (x >>= f).run s = (.error e, s') := by
  have hx : x s = (.error e, s') := hx
  simp only [bind, ExceptT.bind, ExceptT.mk, ExceptT.run, StateT.bind, hx]
  rfl

theorem run_bind_eq_ok {b : B} {s'' : σ} (h : (x >>= f).run s = (.ok b, s'')) :
    ∃ a s', x.run s = (.ok a, s') ∧ (f a).run s' = (.ok b, s'') := by
  rcases hx : x.run s with ⟨e | a, s'⟩
  · rw [run_bind_error hx] at h
    cases h
  · rw [run_bind_ok hx] at h
    exact ⟨a, s', rfl, h⟩

theorem run_bind_eq_error {e : ε} {s'' : σ} (h : (x >>= f).run s = (.error e, s'')) :
    x.run s = (.error e, s'') ∨
      ∃ a s', x.run s = (.ok a, s') ∧ (f a).run s' = (.error e, s'') := by
  rcases hx : x.run s with ⟨e' | a, s'⟩
  · rw [run_bind_error hx] at h
    cases h
    exact Or.inl rfl
  · rw [run_bind_ok hx] at h
    exact Or.inr ⟨a, s', rfl, h⟩

end Bind

/-! ## What a computation meets -/

namespace Meets

theorem of_run_ok (h : Meets x s Q E) {a : A} (hx : x.run s = (.ok a, s')) : Q a s' := by
  rwa [Meets, hx] at h

theorem of_run_error (h : Meets x s Q E) {e : ε} (hx : x.run s = (.error e, s')) : E e s' := by
  rwa [Meets, hx] at h

theorem exists_ok (h : Meets x s Q fun _ _ ↦ False) : ∃ a s', x.run s = (.ok a, s') ∧ Q a s' := by
  rcases hx : x.run s with ⟨e | a, s'⟩
  · exact (h.of_run_error hx).elim
  · exact ⟨a, s', rfl, h.of_run_ok hx⟩

theorem intro (hok : ∀ a s', x.run s = (.ok a, s') → Q a s')
    (herror : ∀ e s', x.run s = (.error e, s') → E e s') : Meets x s Q E := by
  rcases hx : x.run s with ⟨e | a, s'⟩
  · rw [Meets, hx]
    exact herror e s' hx
  · rw [Meets, hx]
    exact hok a s' hx

theorem run (x : ExceptT ε (StateM σ) A) (s : σ) :
    Meets x s (fun a s' ↦ x.run s = (.ok a, s')) fun e s' ↦ x.run s = (.error e, s') :=
  intro (fun _ _ ↦ id) fun _ _ ↦ id

theorem imp (h : Meets x s Q E) (hQ : ∀ a s', Q a s' → Q' a s')
    (hE : ∀ e s', E e s' → E' e s') : Meets x s Q' E' :=
  intro (fun _ _ hx ↦ hQ _ _ (h.of_run_ok hx)) fun _ _ hx ↦ hE _ _ (h.of_run_error hx)

theorem imp_ok (h : Meets x s Q E) (hQ : ∀ a s', Q a s' → Q' a s') : Meets x s Q' E :=
  h.imp hQ fun _ _ ↦ id

theorem imp_error (h : Meets x s Q E) (hE : ∀ e s', E e s' → E' e s') : Meets x s Q E' :=
  h.imp (fun _ _ ↦ id) hE

protected theorem and (h : Meets x s Q E) (h' : Meets x s Q' E') :
    Meets x s (fun a s' ↦ Q a s' ∧ Q' a s') fun e s' ↦ E e s' ∧ E' e s' :=
  intro (fun _ _ hx ↦ ⟨h.of_run_ok hx, h'.of_run_ok hx⟩)
    fun _ _ hx ↦ ⟨h.of_run_error hx, h'.of_run_error hx⟩

theorem pure {a : A} (h : Q a s) : Meets (pure a : ExceptT ε (StateM σ) A) s Q E := h

theorem throw {e : ε} (h : E e s) : Meets (throw e : ExceptT ε (StateM σ) A) s Q E := h

theorem bind {f : A → ExceptT ε (StateM σ) B} {R : B → σ → Prop} (h : Meets x s Q E)
    (hf : ∀ a s', Q a s' → Meets (f a) s' R E) : Meets (x >>= f) s R E := by
  rcases hx : x.run s with ⟨e | a, s'⟩
  · rw [Meets, run_bind_error hx]
    exact h.of_run_error hx
  · rw [Meets, run_bind_ok hx]
    exact hf a s' (h.of_run_ok hx)

theorem bind_of_run {f : A → ExceptT ε (StateM σ) B} {R : B → σ → Prop} {a : A}
    (hx : x.run s = (.ok a, s')) (h : Meets (f a) s' R E) : Meets (x >>= f) s R E := by
  rwa [Meets, run_bind_ok hx]

end Meets

theorem meets_of_triple {P : σ → Prop}
    (h : ⦃fun s ↦ ⌜P s⌝⦄ x ⦃post⟨fun a s ↦ ⌜Q a s⌝, fun e s ↦ ⌜E e s⌝⟩⦄) (hs : P s) :
    Meets x s Q E := by
  refine StateM.of_wp_run_eq rfl (fun r : Except ε A × σ ↦ match r with
    | (.ok a, s') => Q a s'
    | (.error e, s') => E e s') ?_
  have hwp : ⊢ₛ wp⟦x⟧ post⟨fun a s ↦ ⌜Q a s⌝, fun e s ↦ ⌜E e s⌝⟩ s := fun _ ↦ h s hs
  simp only [WP.wp, PredTrans.apply_pushExcept] at hwp
  refine SPred.entails.trans hwp ((wp x.run).mono _ _ ⟨fun r ↦ ?_, trivial⟩ s)
  cases r <;> simp

/-! ## Outcomes -/

theorem exists_ok_of_map_toOption {B : Type} {r : Except ε A} {f : A → B} {b : B}
    (h : r.toOption.map f = some b) : ∃ a, r = .ok a ∧ f a = b := by
  cases r with
  | ok a => exact ⟨a, rfl, Option.some.inj h⟩
  | error e => cases h

/-- A run returns, and its result and the state after it pass a test. -/
def passes (r : Except ε A × σ) (test : A → σ → Bool) : Bool :=
  match r with
  | (.ok a, s) => test a s
  | (.error _, _) => false

theorem exists_ok_of_passes {r : Except ε A × σ} {test : A → σ → Bool} (h : passes r test = true) :
    ∃ a s, r = (.ok a, s) ∧ test a s = true := by
  rcases r with ⟨e | a, s⟩
  · cases h
  · exact ⟨a, s, rfl, h⟩

/-! ## Computations that return -/

/-- From any state, the computation returns a value. -/
def Returns (x : ExceptT ε (StateM σ) A) (a : A) : Prop := ∀ s, ∃ s', x.run s = (.ok a, s')

namespace Returns

variable {a : A}

theorem pure (a : A) : Returns (pure a : ExceptT ε (StateM σ) A) a := fun s ↦ ⟨s, rfl⟩

theorem bind {B : Type} {f : A → ExceptT ε (StateM σ) B} {b : B} (hx : Returns x a)
    (hf : Returns (f a) b) : Returns (x >>= f) b := by
  intro s
  obtain ⟨s', hs'⟩ := hx s
  obtain ⟨s'', hs''⟩ := hf s'
  exact ⟨s'', (run_bind_ok hs').trans hs''⟩

theorem eq_of_run (hx : Returns x a) {b : A} (h : x.run s = (.ok b, s')) : b = a := by
  obtain ⟨_, hrun⟩ := hx s
  exact Except.ok.inj (Prod.mk.inj (h.symm.trans hrun)).1

end Returns

end NonlinearCG
