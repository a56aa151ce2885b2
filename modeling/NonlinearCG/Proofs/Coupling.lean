import Mathlib
import NonlinearCG.Proofs.Outcome

/-!
# Two computations side by side

Some statements are about two runs at once: of two objectives, or of one objective in two settings.
They rest on a relation between the states of the two computations that holds before every step and
after it, however the step ends. Two computations are *coupled* over such a relation if from related
states they both return, with related values, or both fail, with related errors, and leave related
states behind. Coupled computations are put together in the order in which they are written
(`Coupled.bind`), so that a proof follows the two programs line by line.
-/

namespace NonlinearCG

variable {ε δ σ τ A B C D : Type} {R : σ → τ → Prop} {Q : A → B → Prop} {E : ε → δ → Prop}

/-- Two outcomes match: both are values or both are errors, which are related as given, and so are
the states. -/
inductive Paired (R : σ → τ → Prop) (Q : A → B → Prop) (E : ε → δ → Prop) :
    Except ε A × σ → Except δ B × τ → Prop
  | ok {a : A} {b : B} {s : σ} {t : τ} : Q a b → R s t → Paired R Q E (.ok a, s) (.ok b, t)
  | error {e : ε} {d : δ} {s : σ} {t : τ} :
      E e d → R s t → Paired R Q E (.error e, s) (.error d, t)

theorem Paired.imp {Q' : A → B → Prop} {E' : ε → δ → Prop} {p : Except ε A × σ}
    {q : Except δ B × τ} (h : Paired R Q E p q) (hQ : ∀ a b, Q a b → Q' a b)
    (hE : ∀ e d, E e d → E' e d) : Paired R Q' E' p q := by
  cases h with
  | ok hab hst => exact .ok (hQ _ _ hab) hst
  | error hed hst => exact .error (hE _ _ hed) hst

/-- From related states, the outcomes of two computations match. -/
def Coupled (R : σ → τ → Prop) (Q : A → B → Prop) (E : ε → δ → Prop)
    (x : ExceptT ε (StateM σ) A) (y : ExceptT δ (StateM τ) B) : Prop :=
  ∀ s t, R s t → Paired R Q E (x.run s) (y.run t)

namespace Coupled

variable {x : ExceptT ε (StateM σ) A} {y : ExceptT δ (StateM τ) B}

/-! ## What coupling says -/

section Outcomes

variable {s s' : σ} {t t' : τ}

theorem exists_of_ok (h : Coupled R Q E x y) (hst : R s t) {a : A} (hx : x.run s = (.ok a, s')) :
    ∃ b t', y.run t = (.ok b, t') ∧ Q a b ∧ R s' t' := by
  have hpaired := h s t hst
  rcases hy : y.run t with ⟨d | b, t'⟩ <;> rw [hx, hy] at hpaired
  · cases hpaired
  · cases hpaired with
    | ok hab hst' => exact ⟨b, t', rfl, hab, hst'⟩

theorem of_ok_ok (h : Coupled R Q E x y) (hst : R s t) {a : A} {b : B}
    (hx : x.run s = (.ok a, s')) (hy : y.run t = (.ok b, t')) : Q a b ∧ R s' t' := by
  obtain ⟨b', t'', hy', hab, hst'⟩ := h.exists_of_ok hst hx
  cases hy.symm.trans hy'
  exact ⟨hab, hst'⟩

end Outcomes

/-! ## How computations are coupled -/

theorem pure {a : A} {b : B} (h : Q a b) :
    Coupled R Q E (pure a : ExceptT ε (StateM σ) A) (pure b : ExceptT δ (StateM τ) B) :=
  fun _ _ hst ↦ .ok h hst

theorem refl (x : ExceptT ε (StateM σ) A) : Coupled Eq Eq Eq x x := by
  rintro s _ rfl
  rcases x.run s with ⟨e | a, s'⟩
  · exact .error rfl rfl
  · exact .ok rfl rfl

theorem throw {e : ε} {d : δ} (h : E e d) :
    Coupled R Q E (throw e : ExceptT ε (StateM σ) A) (throw d : ExceptT δ (StateM τ) B) :=
  fun _ _ hst ↦ .error h hst

theorem bind {Q' : C → D → Prop} {f : A → ExceptT ε (StateM σ) C}
    {g : B → ExceptT δ (StateM τ) D} (h : Coupled R Q E x y)
    (hfg : ∀ a b, Q a b → Coupled R Q' E (f a) (g b)) : Coupled R Q' E (x >>= f) (y >>= g) := by
  intro s t hst
  have hpaired := h s t hst
  rcases hx : x.run s with ⟨e | a, s'⟩ <;> rcases hy : y.run t with ⟨d | b, t'⟩ <;>
    rw [hx, hy] at hpaired
  · rw [run_bind_error hx, run_bind_error hy]
    cases hpaired with
    | error hed hst' => exact .error hed hst'
  · cases hpaired
  · cases hpaired
  · rw [run_bind_ok hx, run_bind_ok hy]
    cases hpaired with
    | ok hab hst' => exact hfg a b hab s' t' hst'

theorem imp {Q' : A → B → Prop} {E' : ε → δ → Prop} (h : Coupled R Q E x y)
    (hQ : ∀ a b, Q a b → Q' a b) (hE : ∀ e d, E e d → E' e d) : Coupled R Q' E' x y :=
  fun s t hst ↦ (h s t hst).imp hQ hE

theorem get : Coupled R R E (get : ExceptT ε (StateM σ) σ) (get : ExceptT δ (StateM τ) τ) :=
  fun _ _ hst ↦ .ok hst hst

theorem set {s : σ} {t : τ} (h : R s t) :
    Coupled R Eq E (set s : ExceptT ε (StateM σ) PUnit) (set t : ExceptT δ (StateM τ) PUnit) :=
  fun _ _ _ ↦ .ok rfl h

theorem modify {u : σ → σ} {v : τ → τ} (h : ∀ s t, R s t → R (u s) (v t)) :
    Coupled R Eq E (modify u : ExceptT ε (StateM σ) PUnit)
      (modify v : ExceptT δ (StateM τ) PUnit) :=
  fun s t hst ↦ .ok rfl (h s t hst)

theorem ite {c d : Prop} [Decidable c] [Decidable d] (hcd : c ↔ d)
    {x' : ExceptT ε (StateM σ) A} {y' : ExceptT δ (StateM τ) B} (h : c → Coupled R Q E x y)
    (h' : ¬c → Coupled R Q E x' y') :
    Coupled R Q E (if c then x else x') (if d then y else y') := by
  by_cases hc : c
  · rw [if_pos hc, if_pos (hcd.mp hc)]
    exact h hc
  · rw [if_neg hc, if_neg (hcd.not.mp hc)]
    exact h' hc

end Coupled

/-! ## Computations that need not fail together -/

/-- If from related states two computations both return, then with related values, and they leave
related states behind. -/
def Matched (R : σ → τ → Prop) (Q : A → B → Prop) (x : ExceptT ε (StateM σ) A)
    (y : ExceptT δ (StateM τ) B) : Prop :=
  ∀ s t, R s t → ∀ a s' b t', x.run s = (.ok a, s') → y.run t = (.ok b, t') → Q a b ∧ R s' t'

namespace Matched

variable {x : ExceptT ε (StateM σ) A} {y : ExceptT δ (StateM τ) B}

theorem of_coupled (h : Coupled R Q E x y) : Matched R Q x y :=
  fun _ _ hst _ _ _ _ hx hy ↦ h.of_ok_ok hst hx hy

theorem bind {Q' : C → D → Prop} {f : A → ExceptT ε (StateM σ) C}
    {g : B → ExceptT δ (StateM τ) D} (h : Matched R Q x y)
    (hfg : ∀ a b, Q a b → Matched R Q' (f a) (g b)) : Matched R Q' (x >>= f) (y >>= g) := by
  intro s t hst c s'' d t'' hc hd
  obtain ⟨a, s', hx, hc⟩ := run_bind_eq_ok hc
  obtain ⟨b, t', hy, hd⟩ := run_bind_eq_ok hd
  obtain ⟨hab, hst'⟩ := h s t hst a s' b t' hx hy
  exact hfg a b hab s' t' hst' c s'' d t'' hc hd

theorem pure {a : A} {b : B} (h : Q a b) :
    Matched R Q (pure a : ExceptT ε (StateM σ) A) (pure b : ExceptT δ (StateM τ) B) :=
  of_coupled (E := fun _ _ ↦ True) (.pure h)

theorem throw {e : ε} : Matched R Q (throw e : ExceptT ε (StateM σ) A) y := by
  intro s t hst a s' b t' hx
  cases hx

theorem ite {c d : Prop} [Decidable c] [Decidable d] (hcd : c ↔ d)
    {x' : ExceptT ε (StateM σ) A} {y' : ExceptT δ (StateM τ) B} (h : c → Matched R Q x y)
    (h' : ¬c → Matched R Q x' y') :
    Matched R Q (if c then x else x') (if d then y else y') := by
  by_cases hc : c
  · rw [if_pos hc, if_pos (hcd.mp hc)]
    exact h hc
  · rw [if_neg hc, if_neg (hcd.not.mp hc)]
    exact h' hc

end Matched

end NonlinearCG
