import Mathlib
import NonlinearCG.Proofs.LineSearch.Approach
import NonlinearCG.Proofs.LineSearch.Ray

/-!
# Where a search settles

The Hager–Zhang search ends in many places: with an accepted point, with the low end of a bracket,
with a point from which it cannot expand, with the zero step, or at the largest step. On all but the
last of these ways the step is one at which the value was seen to be at most the limit
`φ 0 + ε |φ 0|`. For points that were accepted this is the content of the acceptance test, whose two
alternatives both imply it at a positive step.

The largest step is the exception, because a point there ends the search without being judged. The
search lowers its largest step where an evaluation is not finite; along a function that is computed,
it does not come to such a step twice with different results. So the exception concerns the largest
step of the parameters only, and there is none if that is infinite.
-/

namespace NonlinearCG.HagerZhang

variable {ω K : Type} [Field K] [LinearOrder K] [IsStrictOrderedRing K] {G : Grid K}
  {p : HagerZhang (Exact G)} {φ : LineFunction ω (Exact G)} {c : Cache (Exact G)} {v d : K}
  {trial t : Exact G} {mayAccept : Bool} {b₀ b : Bench ω (Exact G)} {r : Step (Exact G)}

/-! ## Accepted points -/

theorem Cached.value_le_of_accepts (hp : p.Proper) (hd : d < 0) {pt : Point (Exact G)}
    (h : Cached c pt)
    (haccepts : (p.test ⟨.num 0, .num v, .num d⟩).accepts pt.toSample = .ok true) :
    pt.value ≤ (p.test ⟨.num 0, .num v, .num d⟩).limit := by
  obtain ⟨x, hx, hdelta⟩ := hp.delta
  obtain ⟨l, hvl, hl⟩ := limit_eq_num (v := v) (d := d) hp
  obtain ⟨a, ha, hstep⟩ := h.step
  obtain ⟨w, hw⟩ := h.value
  rcases eq_or_ne a 0 with rfl | hne
  · -- the test breaks down at the zero step
    rw [WolfeTest.accepts, hstep, Scalar.divide, Exact.zero_eq] at haccepts
    simp at haccepts
  have hpos : 0 < a := lt_of_le_of_ne ha hne.symm
  rw [WolfeTest.accepts, hstep, hw, test, Exact.num_sub, Exact.divide_num hne] at haccepts
  have hpassed := Except.ok.inj haccepts
  rw [Bool.or_eq_true, Bool.and_eq_true, decide_eq_true_eq, hdelta, Exact.num_mul] at hpassed
  rcases hpassed with ⟨hrise, -⟩ | happroximate
  · -- sufficient decrease: the value has even fallen
    rw [Exact.num_le, div_le_iff₀ hpos] at hrise
    have hfall : x * d * a < 0 := mul_neg_of_neg_of_pos (mul_neg_of_pos_of_neg hx hd) hpos
    rw [hw, hl]
    exact Exact.num_le.mpr (by linarith)
  · rw [WolfeTest.approximate, Bool.and_eq_true, decide_eq_true_eq] at happroximate
    exact happroximate.2

theorem Settled.exists_value_le (hp : p.Proper) (hd : d < 0)
    (h : Settled c (p.test ⟨.num 0, .num v, .num d⟩) t) :
    ∃ pt, Cached c pt ∧ pt.step = t ∧ pt.value ≤ (p.test ⟨.num 0, .num v, .num d⟩).limit := by
  obtain ⟨pt, hcached, hstep, hvalue | haccepts⟩ := h
  · exact ⟨pt, hcached, hstep, hvalue⟩
  · exact ⟨pt, hcached, hstep, hcached.value_le_of_accepts hp hd haccepts⟩

/-! ## The end of a search -/

omit [IsStrictOrderedRing K] in
theorem finite_of_run {start : Sample (Exact G)} (hstart : b₀.cache.get? 0 = some start)
    (hrun : (step p φ trial mayAccept).run b₀ = (.ok r, b)) : finite start = true := by
  rw [step, run_bind_ok (Search.run_cached hstart)] at hrun
  obtain ⟨_, _, happroach, -⟩ := run_bind_eq_ok hrun
  exact finite_of_approach happroach

/-- A search that returns has settled, unless it returns the zero step or comes to the largest
one. -/
theorem ends_of_run (hp : p.Proper) (hgap : ∀ x, 0 ≤ x → 0 < G.spacing x) (hd : d < 0)
    (hstart : b₀.cache.samples = #[⟨.num 0, .num v, .num d⟩])
    (hrun : (step p φ trial mayAccept).run b₀ = (.ok r, b)) :
    r.alpha = 0.0 ∨ Settled b.cache (p.test ⟨.num 0, .num v, .num d⟩) r.alpha ∨
      AtEdge φ p.alphamax r.alpha := by
  rw [step, run_bind_ok (Search.run_cached (Cache.get?_zero_of_samples_eq hstart))] at hrun
  obtain ⟨⟨t | ⟨low, high, rounds⟩, calls⟩, b', hresult, hrest⟩ := run_bind_eq_ok hrun
  all_goals have hkeeps := (approach_spec φ hp hgap hd trial mayAccept hstart).of_run_ok hresult
  · cases hrest
    exact hkeeps
  · exact Or.inr (Or.inl ((narrow_spec hgap φ p rounds calls hkeeps).of_run_ok hrest))

theorem isStep_of_run (hp : p.Proper) (hgap : ∀ x, 0 ≤ x → 0 < G.spacing x) (hd : d < 0)
    (hstart : b₀.cache.samples = #[⟨.num 0, .num v, .num d⟩])
    (hrun : (step p φ trial mayAccept).run b₀ = (.ok r, b)) : IsStep r.alpha := by
  rcases ends_of_run hp hgap hd hstart hrun with hzero | ⟨pt, hcached, hstep, -⟩ | hedge
  · exact ⟨0, le_rfl, hzero.trans Exact.zero_eq⟩
  · exact hstep ▸ hcached.step
  · exact hedge.1

/-! ## Functions that are computed -/

section Computed

variable {V D : Exact G → Exact G}

omit [IsStrictOrderedRing K] in
/-- Along a function that is computed, the largest step ends a search only if it is that of the
parameters. -/
theorem AtEdge.eq_of_computes (hφ : φ.Computes V D) {largest : Exact G}
    (h : AtEdge φ largest t) : t = largest := by
  obtain ⟨-, heq | ⟨s', hs', hstep', hinfinite⟩, s, hs, hstep, hfinite⟩ := h
  · exact heq
  · obtain ⟨hvalue, hslope⟩ := hφ.eq_of_samples hs
    obtain ⟨hvalue', hslope'⟩ := hφ.eq_of_samples hs'
    rw [finite, hvalue, hslope, hstep] at hfinite
    rw [finite, hvalue', hslope', hstep'] at hinfinite
    cases hfinite.symm.trans hinfinite

omit [IsStrictOrderedRing K] in
theorem value_eq_of_run (hφ : φ.Computes V D) (hzero : V (.num 0) = .num v)
    (hstart : b₀.cache.samples = #[⟨.num 0, .num v, .num d⟩])
    (hrun : (step p φ trial mayAccept).run b₀ = (.ok r, b)) {pt : Point (Exact G)}
    (hpt : Cached b.cache pt) : pt.value = V pt.step := by
  obtain ⟨hcourse, -⟩ := (keepsTo_step p trial mayAccept).course_of_ok hrun
  rcases hcourse.gives hpt.entry with hbefore | hgives
  · have hmem : pt.toSample ∈ b₀.cache.samples := Array.mem_of_getElem? hbefore
    rw [hstart, Array.mem_singleton] at hmem
    rw [hmem, hzero]
  · exact hφ.value_of_gives hgives

/-- **The value at the step of a search.** Along a function that is computed, from a start that
leads downhill, the step that a search returns is zero, or one whose value is at most the limit, or
the largest step of the parameters. -/
theorem value_le_of_run (hp : p.Proper) (hgap : ∀ x, 0 ≤ x → 0 < G.spacing x) (hd : d < 0)
    (hφ : φ.Computes V D) (hzero : V (.num 0) = .num v)
    (hstart : b₀.cache.samples = #[⟨.num 0, .num v, .num d⟩])
    (hrun : (step p φ trial mayAccept).run b₀ = (.ok r, b)) :
    V r.alpha ≤ (p.test ⟨.num 0, .num v, .num d⟩).limit ∨
      IsStep r.alpha ∧ r.alpha = p.alphamax := by
  rcases ends_of_run hp hgap hd hstart hrun with hend | hsettled | hedge
  · obtain ⟨l, hvl, hl⟩ := limit_eq_num (v := v) (d := d) hp
    rw [hend, Exact.zero_eq, hzero, hl]
    exact Or.inl (Exact.num_le.mpr hvl)
  · obtain ⟨pt, hcached, hstep, hle⟩ := hsettled.exists_value_le hp hd
    rw [← hstep, ← value_eq_of_run hφ hzero hstart hrun hcached]
    exact Or.inl hle
  · exact Or.inr ⟨hedge.1, hedge.eq_of_computes hφ⟩

end Computed

end NonlinearCG.HagerZhang
