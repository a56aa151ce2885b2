import Mathlib
import NonlinearCG.Proofs.LineSearch.Evidence
import NonlinearCG.Proofs.LineSearch.Nesting
import NonlinearCG.Proofs.LineSearch.Stops

/-!
# Returned steps are numbers

A Hager–Zhang search that returns, from a finite start that leads downhill, returns a number that is
not negative. Nothing has to be assumed of the gaps between neighbouring scalars for this, although
the search consults them: they decide how long an interval is halved and when a bracket has
collapsed, but every step that is tried lies between the ends of the bracket at hand.

Without a law on the gaps the slopes at the ends of a bracket need not have opposite signs. What is
left of a bracket is that its ends are points of the cache, where the slope is a number, and that
they are in order. A double secant step checks the signs itself before it divides.
-/

namespace NonlinearCG.HagerZhang

variable {ω K : Type} [Field K] [LinearOrder K] [IsStrictOrderedRing K] {G : Grid K}
  {p : HagerZhang (Exact G)} {φ : LineFunction ω (Exact G)} {v d : K} {trial t : Exact G}
  {mayAccept : Bool} {b₀ b b' : Bench ω (Exact G)} {low high : Point (Exact G)}

omit [IsStrictOrderedRing K] in
theorem Extends.exists_slope {start : Sample (Exact G)} {M : Sample (Exact G) → ω → Prop}
    (hstart : b₀.cache.samples = #[start]) (hfinite : finite start = true)
    (h : Extends M b₀ b) {pt : Point (Exact G)} (hpt : Holds b.cache pt) :
    ∃ e, pt.slope = .num e := by
  have hsample : finite pt.toSample = true := by
    rcases h.entry hpt with hbefore | ⟨-, hseen⟩
    · have hmem : pt.toSample ∈ b₀.cache.samples := Array.mem_of_getElem? hbefore
      rw [hstart, Array.mem_singleton] at hmem
      rw [hmem, hfinite]
    · exact hseen
  exact (Exact.bothFinite_iff.mp hsample).2

variable (hp : p.Proper) (hd : d < 0)
  (hstart : b₀.cache.samples = #[⟨.num 0, .num v, .num d⟩])

include hp hd hstart

theorem AtTip.within {rounds k : ℕ} {alphamax : Exact G} {tip : Point (Exact G)}
    (h : AtTip p φ ⟨.num 0, .num v, .num d⟩ trial mayAccept b₀ (rounds + 1) alphamax tip b)
    (hleads : Leads p φ (p.test ⟨.num 0, .num v, .num d⟩).limit rounds alphamax tip b
      (.bracket low high k) b') : Within low.step high.step low high := by
  have htip := (h.spec hp hd hstart).1
  cases hleads with
  | risen _ hlow =>
    have hspec := lowEnd_spec htip (E := fun _ _ ↦ True)
    obtain ⟨-, hlow, hle⟩ := hspec.of_run_ok hlow
    exact ⟨hlow.step, htip.step, hlow.step.le_self, hle, htip.step.le_self⟩
  | crested _ _ hcached hbisect => exact (htip.within_bisected hcached hbisect).refl

theorem AtRound.within {rounds : ℕ}
    (h : AtRound p φ ⟨.num 0, .num v, .num d⟩ trial mayAccept b₀ rounds low high b) :
    Within low.step high.step low high ∧ (∃ e, low.slope = .num e) ∧
      ∃ e, high.slope = .num e := by
  obtain ⟨hext, hlow, hhigh⟩ := h.extends φ.testifies_gives
  refine ⟨?_, hext.exists_slope hstart rfl hlow, hext.exists_slope hstart rfl hhigh⟩
  clear hext hlow hhigh
  induction h with
  | first happroach =>
    rcases exists_leads_of_approach happroach with ⟨_, heq, -⟩ | ⟨_, _, _, _, htip, hleads⟩
    · cases heq
    · exact htip.within hp hd hstart hleads
  | @next rounds low high low' high' b b' calls hbefore hround ih =>
    obtain ⟨γ, -, -, hγ⟩ := hp.gamma
    obtain ⟨hext, hlow, hhigh⟩ := hbefore.extends φ.testifies_gives
    have hspec := round_upholds (b := b) (φ.upholds_true low.step high.step) hγ
      (p.test ⟨.num 0, .num v, .num d⟩) trivial ih (hext.exists_slope hstart rfl hlow)
      (hext.exists_slope hstart rfl hhigh)
    exact (hspec.of_run_ok hround).2.toWithin.refl

theorem AtRound.isStep_of_ends {rounds : ℕ}
    (h : AtRound p φ ⟨.num 0, .num v, .num d⟩ trial mayAccept b₀ rounds low high b)
    (hends : Ends p φ (p.test ⟨.num 0, .num v, .num d⟩) low high b t b') : IsStep t := by
  obtain ⟨hwithin, hlow, hhigh⟩ := h.within hp hd hstart
  have hdouble := doubleSecant_upholds (b := b) (φ.upholds_true low.step high.step)
    (p.test ⟨.num 0, .num v, .num d⟩) trivial hwithin hlow hhigh
  cases hends with
  | collapsed => exact hwithin.isStep_low
  | accepted _ hrun =>
    have hbetween := (hdouble.of_run_ok hrun).2
    exact hwithin.isStep_low.of_le_of_le hwithin.isStep_high hbetween.1 hbetween.2
  | flat _ hrun =>
    have hinside := (hdouble.of_run_ok hrun).2
    exact hinside.isStep_low

/-- **Returned steps are numbers.** From a finite start that leads downhill, a search that returns
returns a number that is not negative. -/
theorem isStep_of_returned {r : Step (Exact G)}
    (hrun : (step p φ trial mayAccept).run b₀ = (.ok r, b)) : IsStep r.alpha := by
  rw [step, run_bind_ok (Search.run_cached (Cache.get?_zero_of_samples_eq hstart))] at hrun
  obtain ⟨⟨t | ⟨low, high, rounds⟩, calls⟩, b₁, happroach, hrest⟩ := run_bind_eq_ok hrun
  · cases hrest
    rcases exists_leads_of_approach happroach with ⟨_, heq, htrial⟩ | ⟨_, _, _, _, htip, hleads⟩
    · cases heq
      -- the first trial ends the search at the zero step, or at a point of the cache
      have hspec := firstTrial_spec φ hp hd trial mayAccept hstart
      rcases hspec.of_run_ok htrial with rfl | ⟨pt, hcached, rfl, -⟩
      · exact ⟨0, le_rfl, Exact.zero_eq⟩
      · exact hcached.step
    · obtain ⟨hat, hedge⟩ := htip.spec hp hd hstart
      cases hleads with
      | ended hslope hvalue hexpand =>
        have hlow := hat.lowEnd (exists_limit hp) hslope hvalue
        rcases (expand_spec φ hp hat hlow hedge).of_run_ok hexpand with
          ⟨pt, hcached, rfl, -⟩ | hatEdge
        · exact hcached.step
        · exact hatEdge.1
  · obtain ⟨_, _, _, _, hround, hends⟩ := (AtRound.first happroach).exists_ends hrest
    exact hround.isStep_of_ends hp hd hstart hends

end NonlinearCG.HagerZhang
