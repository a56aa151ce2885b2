import Mathlib
import NonlinearCG.Proofs.Coupling
import NonlinearCG.Proofs.Direction.Interchange
import NonlinearCG.Proofs.Run.History

/-!
# Twin runs

Two runs go through the same iterates if all that an iteration reads is the same in both: the
tolerances, `eta` and the limit, the evaluations of the objective and what the line search makes of
them, and the directions that the preconditioners lead to. What else the two minimizers and their
sessions hold may differ, as long as showing an iterate and refreshing the preconditioner keep to
the relation between the sessions. `Twins` lists these conditions for two runs on one world.

One iteration of twin runs is coupled line by line (`Twins.advance`). By induction on the budget the
whole runs are (`Twins.run`), so that they return the same or are interrupted in the same way, and
an iterate that one of them visits is visited by the other one (`Twins.exists_visits`).
-/

namespace NonlinearCG

variable {ω α : Type} {n : ℕ}

/-! ## Sessions -/

/-- A relation between sessions that have the same world and the same log. Whatever else it says
does not depend on these two. -/
structure Session.Shares (R : Session ω α → Session ω α → Prop) : Prop where
  world {s t : Session ω α} : R s t → s.world = t.world
  log {s t : Session ω α} : R s t → s.log = t.log
  setWorld {s t : Session ω α} (w : ω) : R s t → R { s with world := w } { t with world := w }
  setLog {s t : Session ω α} (l : Array (Event α)) :
    R s t → R { s with log := l } { t with log := l }

/-- A relation between sessions that have the same preconditioner, whatever it is. -/
structure Session.SharesPreconditioner (R : Session ω α → Session ω α → Prop) : Prop where
  preconditioner {s t : Session ω α} : R s t → s.preconditioner = t.preconditioner
  setPreconditioner {s t : Session ω α} (P : Preconditioner α) :
    R s t → R { s with preconditioner := P } { t with preconditioner := P }

namespace Minimizer

variable {R : Session ω α → Session ω α → Prop}

theorem lift_coupled {A : Type} (r : Except Breakdown A) :
    Coupled R Eq Eq (Run.lift r : Run ω α n A) (Run.lift r : Run ω α n A) := by
  rcases r with b | a
  · exact .throw rfl
  · exact .pure rfl

section Shares

variable (hR : Session.Shares R)

include hR

theorem evaluate_coupled {A B : Type} {Q : A → B → Prop} {act : Eval ω A} {act' : Eval ω B}
    (h : Coupled Eq Q Eq act act') :
    Coupled R Q Eq (Run.evaluate act : Run ω α n A) (Run.evaluate act' : Run ω α n B) := by
  unfold Run.evaluate
  refine Coupled.get.bind fun s t hst ↦ ?_
  have hpaired := h s.world t.world (hR.world hst)
  generalize act.run s.world = p at hpaired ⊢
  generalize act'.run t.world = q at hpaired ⊢
  cases hpaired with
  | @ok a b w w' hab hw =>
    subst hw
    exact (Coupled.set (hR.setWorld w hst)).bind fun _ _ _ ↦ .pure hab
  | @error e d w w' hed hw =>
    subst hed hw
    exact (Coupled.set (hR.setWorld w hst)).bind fun _ _ _ ↦ .throw rfl

theorem report_coupled (e : Event α) :
    Coupled R Eq Eq (Run.report e : Run ω α n Unit) (Run.report e : Run ω α n Unit) := by
  refine Coupled.modify fun s t hst ↦ ?_
  rw [hR.log hst]
  exact hR.setLog _ hst

theorem searching_coupled {A : Type} (it : Iterate α n) (calls : Calls) (cache : Cache α)
    (act : Search (Trial ω α n) α A) :
    Coupled R Eq Eq (Run.searching it calls cache act) (Run.searching it calls cache act) := by
  unfold Run.searching
  refine Coupled.get.bind fun s t hst ↦ ?_
  rw [hR.world hst, hR.log hst]
  rcases act.run { world := ⟨t.world, it.x, it.gradient⟩, cache, log := t.log } with
    ⟨result, bench⟩
  refine (Coupled.set (hR.setLog bench.log (hR.setWorld bench.world.world hst))).bind fun _ _ _ ↦ ?_
  rcases result with (b | e) | a
  · exact .throw rfl
  · exact .throw rfl
  · exact .pure rfl

end Shares

/-! ## One iteration -/

variable [Scalar α]

theorem prepare_coupled (hR : Session.Shares R) (hP : Session.SharesPreconditioner R)
    {m m' : Minimizer ω α} (hrefresh : m.refresh = m'.refresh) (x : Vec α n) :
    Coupled R Operator.SameDirections Eq (m.prepare x) (m'.prepare x) := by
  unfold prepare
  refine Coupled.get.bind fun s t hst ↦ ?_
  rw [hP.preconditioner hst, hrefresh]
  refine (evaluate_coupled hR (.refl _)).bind fun P _ hP' ↦ ?_
  subst hP'
  refine (Coupled.modify fun _ _ ↦ hP.setPreconditioner P).bind fun _ _ _ ↦ ?_
  refine (lift_coupled _).imp (fun P P' hsame ↦ ?_) fun _ _ ↦ id
  subst hsame
  exact .refl P

/-- The conditions under which two runs are the same but for what the relation leaves open. -/
structure Twins (R : Session ω α → Session ω α → Prop) (m m' : Minimizer ω α)
    (f f' : Objective ω α n) (view view' : Vec α n → Tensor α) : Prop where
  shares : Session.Shares R
  tolerances : m.options.tolerances = m'.options.tolerances
  eta : m.options.eta = m'.options.eta
  budget : m.budget = m'.budget
  value : f.value = f'.value
  both : f.both = f'.both
  search : m.lineSearch.search f = m'.lineSearch.search f'
  notify (it : Iterate α n) : Coupled R Eq Eq (m.notify view it) (m'.notify view' it)
  prepare (x : Vec α n) : Coupled R Operator.SameDirections Eq (m.prepare x) (m'.prepare x)
  closed {s t : Session ω α} : R s t → R s.closed t.closed

namespace Twins

variable {m m' : Minimizer ω α} {f f' : Objective ω α n} {view view' : Vec α n → Tensor α}

theorem announce (h : Twins R m m' f f' view view') (d : Descent α n) :
    Coupled R Eq Eq (announce d : Run ω α n Unit) (Minimizer.announce d : Run ω α n Unit) := by
  unfold Minimizer.announce
  rcases d.replaced with _ | slope
  · exact .pure rfl
  · exact report_coupled h.shares _

theorem searchStep (h : Twins R m m' f f' view view') (it : Iterate α n) (s : Vec α n)
    (slope : α) :
    Coupled R Eq Eq (m.searchStep f it s slope) (m'.searchStep f' it s slope) := by
  have hline : LineFunction.ofObjective f it.x s = .ofObjective f' it.x s := by
    simp only [LineFunction.ofObjective, h.value, h.both]
  unfold Minimizer.searchStep predict
  rw [hline, h.search]
  refine Coupled.bind (Q := Eq) ?_ fun q _ hq ↦ ?_
  · refine (searching_coupled h.shares _ _ _ _).bind fun r _ hr ↦ ?_
    subst hr
    exact .pure rfl
  · subst hq
    refine (searching_coupled h.shares _ _ _ _).bind fun r _ hr ↦ ?_
    subst hr
    exact .pure rfl

theorem start (h : Twins R m m' f f' view view') (x : Vec α n) :
    Coupled R Eq Eq (m.start f view x) (m'.start f' view' x) := by
  unfold Minimizer.start
  rw [h.both]
  refine (evaluate_coupled h.shares (.refl _)).bind fun r _ hr ↦ ?_
  subst hr
  refine Coupled.ite Iff.rfl (fun _ ↦ ?_) fun _ ↦ .throw rfl
  refine Coupled.ite Iff.rfl (fun hgradient ↦ ?_) fun _ ↦ .throw rfl
  refine (lift_coupled _).bind fun alpha _ halpha ↦ ?_
  subst halpha
  refine (h.notify _).bind fun _ _ _ ↦ ?_
  refine (h.prepare x).bind fun P P' hP ↦ ?_
  rw [hP.forward hgradient]
  exact .pure rfl

/-- The twins of an iteration move to the same iterate with the same verdict, are both stuck, or are
interrupted in the same way. -/
theorem advance (h : Twins R m m' f f' view view') (it : Iterate α n) :
    Coupled R Eq Eq (m.advance f view it) (m'.advance f' view' it) := by
  unfold Minimizer.advance
  rw [h.both, h.tolerances, h.eta]
  refine (h.announce _).bind fun _ _ _ ↦ ?_
  refine Coupled.ite Iff.rfl (fun _ ↦ ?_) fun _ ↦ ?_
  · refine (h.searchStep it _ _).bind fun step _ hstep ↦ ?_
    subst hstep
    refine (evaluate_coupled h.shares (.refl _)).bind fun r _ hr ↦ ?_
    subst hr
    refine Coupled.ite Iff.rfl (fun _ ↦ ?_) fun _ ↦ .throw rfl
    refine (lift_coupled _).bind fun verdict _ hverdict ↦ ?_
    subst hverdict
    refine (h.prepare _).bind fun P P' hP ↦ ?_
    simp only [hP.update]
    exact (h.notify _).bind fun _ _ _ ↦ .pure rfl
  · exact (report_coupled h.shares _).bind fun _ _ _ ↦ .pure rfl

/-! ## Whole runs -/

theorem iterate (h : Twins R m m' f f' view view') (steps : ℕ) (it : Iterate α n) :
    Coupled R Eq Eq (m.iterate f view steps it) (m'.iterate f' view' steps it) := by
  induction steps generalizing it with
  | zero => exact .pure rfl
  | succ steps ih =>
    unfold Minimizer.iterate
    refine (h.advance it).bind fun r _ hr ↦ ?_
    subst hr
    cases r with
    | stuck => exact .pure rfl
    | moved it' verdict => exact Coupled.ite Iff.rfl (fun _ ↦ .pure rfl) fun _ ↦ ih it'

theorem complete (h : Twins R m m' f f' view view') (it : Iterate α n) :
    Coupled R Eq Eq (m.complete f view it) (m'.complete f' view' it) := by
  intro s t hst
  have hpaired := h.iterate m.budget it s t hst
  change Paired R Eq Eq (finalized ((m.iterate f view m.budget it).run s))
    (finalized ((m'.iterate f' view' m'.budget it).run t))
  rw [← h.budget]
  generalize (m.iterate f view m.budget it).run s = p at hpaired ⊢
  generalize (m'.iterate f' view' m.budget it).run t = q at hpaired ⊢
  cases hpaired with
  | ok hr hst' => exact .ok hr (h.closed hst')
  | error hr hst' => exact .error hr (h.closed hst')

/-- **Twin runs do the same.** -/
theorem run (h : Twins R m m' f f' view view') (x : Vec α n) :
    Coupled R Eq Eq (m.run f view x) (m'.run f' view' x) := by
  refine (h.start x).bind fun it _ hit ↦ ?_
  subst hit
  exact h.complete it

theorem exists_run (h : Twins R m m' f f' view view') (x : Vec α n) {s t : Session ω α}
    (hst : R s t) : ∃ r s' t', (m.run f view x).run s = (r, s') ∧
      (m'.run f' view' x).run t = (r, t') ∧ R s' t' := by
  have hpaired := h.run x s t hst
  rcases hs : (m.run f view x).run s with ⟨r, s'⟩
  rcases ht : (m'.run f' view' x).run t with ⟨r', t'⟩
  rw [hs, ht] at hpaired
  cases hpaired with
  | ok hr hst' =>
    subst hr
    exact ⟨_, s', t', rfl, rfl, hst'⟩
  | error hr hst' =>
    subst hr
    exact ⟨_, s', t', rfl, rfl, hst'⟩

variable {x : Vec α n} {σ₀ σ₀' σ : Session ω α} {path : List (Iterate α n)} {verdict : Verdict}

/-- **Twin runs visit the same iterates.** -/
theorem exists_visits (h : Twins R m m' f f' view view') (hR : R (m.opened σ₀) (m'.opened σ₀'))
    (hvisits : Visits m f view x σ₀ path verdict σ) :
    ∃ σ', Visits m' f' view' x σ₀' path verdict σ' ∧ R σ σ' := by
  induction hvisits with
  | start hstart =>
    obtain ⟨it, σ', hstart', rfl, hσ'⟩ := (h.start x).exists_of_ok hR hstart
    exact ⟨σ', .start hstart', hσ'⟩
  | @move it _ _ _ _ _ _ _ hverdict hbudget hrun ih =>
    obtain ⟨σ₁, hvisits₁, hσ₁⟩ := ih
    obtain ⟨r, σ', hrun', rfl, hσ'⟩ := (h.advance it).exists_of_ok hσ₁ hrun
    exact ⟨σ', hvisits₁.move hverdict (h.budget ▸ hbudget) hrun', hσ'⟩

end Twins

end Minimizer

end NonlinearCG
