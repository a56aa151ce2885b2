import Mathlib
import NonlinearCG.Config.RunFile
import NonlinearCG.Proofs.Config.Fields
import NonlinearCG.Proofs.LineSearch.Parameters
import NonlinearCG.Proofs.LineSearch.SufficientDecrease
import NonlinearCG.Proofs.Scalar.Double

/-!
# Ranges of parameters

The ranges of the options and of the parameters of a line search are stated twice: by the schema of
run files, field by field, and by the constructors, which test the values that they are given.
`InRange` is the first of the two on values. A section is valid exactly if it gives values in their
ranges (`read_eq_valid_iff`), so that the two can be compared on values alone
(`InRange.hagerZhang_iff`, `InRange.backtracking_iff`, `Options.exists_check_iff_inRange`).

## Where they differ

Two conditions of the constructors are missing from the schema (`Overlooked`). It bounds the
decrease parameter of the Hager–Zhang search by one instead of one half, and it does not compare the
two ratios of the backtracking search. The curvature parameter is not compared with the decrease
parameter where it has its default; as the default is above one half, this lets nothing pass that
the bound on the decrease parameter would not stop.

At a single bound the constructors refuse a value beyond it, and the schema takes a value within it.
A value that is no number is neither. Of a range with two ends the constructors, too, take a value
within it, so that only `rho`, `epsilon` and the options have to be numbers.
-/

namespace NonlinearCG

/-! ## Line searches -/

namespace LineSearchConfig

variable {φ : Type} [Foreign φ] {r : Readers φ Float} {entries : List (Value φ × Value φ)}
  {c : LineSearchConfig Float}

/-- The values of a section without fields. -/
def usual : LineSearchConfig Float where
  name := .hagerzhang
  delta := 0.1
  sigma := 0.9
  rho := 5.0
  epsilon := 1e-6
  gamma := 0.66
  linesearchmax := 50
  c1 := 1e-4
  rhohi := 0.5
  rholo := 0.1
  maxIterations := 1000

/-- The section gives these values, whether they are in their ranges or not. -/
structure GivenBy (c : LineSearchConfig Float) (r : Readers φ Float)
    (entries : List (Value φ × Value φ)) : Prop where
  name : Value.Gives entries "type" usual.name
    (r.name "line search" LineSearchName.all LineSearchName.text) c.name
  delta : Value.Gives entries "delta" usual.delta r.real c.delta
  sigma : Value.Gives entries "sigma" usual.sigma r.real c.sigma
  rho : Value.Gives entries "rho" usual.rho r.real c.rho
  epsilon : Value.Gives entries "epsilon" usual.epsilon r.real c.epsilon
  gamma : Value.Gives entries "gamma" usual.gamma r.real c.gamma
  linesearchmax :
    Value.Gives entries "linesearchmax" usual.linesearchmax r.integer c.linesearchmax
  c1 : Value.Gives entries "c1" usual.c1 r.real c.c1
  rhohi : Value.Gives entries "rhohi" usual.rhohi r.real c.rhohi
  rholo : Value.Gives entries "rholo" usual.rholo r.real c.rholo
  maxIterations :
    Value.Gives entries "max_iterations" usual.maxIterations r.integer c.maxIterations

/-- The values are in the ranges of their fields. -/
structure InRange (c : LineSearchConfig Float) : Prop where
  delta : 0.0 < c.delta ∧ c.delta < 1.0
  sigma : 0.0 < c.sigma ∧ c.sigma < 1.0
  rho : 1.0 < c.rho
  epsilon : 0.0 ≤ c.epsilon
  gamma : 0.0 < c.gamma ∧ c.gamma < 1.0
  linesearchmax : 0 < c.linesearchmax
  c1 : 0.0 < c.c1 ∧ c.c1 < 1.0
  rhohi : 0.0 < c.rhohi ∧ c.rhohi < 1.0
  rholo : 0.0 < c.rholo ∧ c.rholo < 1.0
  maxIterations : 0 < c.maxIterations

theorem usual_inRange : usual.InRange := by
  constructor <;> decide +kernel

/-- The section is valid if its fields are. The curvature parameter is read with the decrease
parameter at hand. -/
theorem read_eq_valid_iff_fields : read r entries = .valid c ↔
    Value.checkField entries "type" .hagerzhang (.ofExcept ∘
      r.name "line search" LineSearchName.all LineSearchName.text) = .valid c.name ∧
    Value.checkField entries "delta" 0.1 (r.bounded [.below 1.0, .above 0.0]) =
      .valid c.delta ∧
    Value.checkField entries "sigma" 0.9 (.ofExcept ∘ r.sigma (some c.delta)) =
      .valid c.sigma ∧
    Value.checkField entries "rho" 5.0 (r.bounded [.above 1.0]) = .valid c.rho ∧
    Value.checkField entries "epsilon" 1e-6 (r.bounded [.atLeast 0.0]) =
      .valid c.epsilon ∧
    Value.checkField entries "gamma" 0.66 (r.bounded [.below 1.0, .above 0.0]) =
      .valid c.gamma ∧
    Value.checkField entries "linesearchmax" 50 (.ofExcept ∘ r.positive) =
      .valid c.linesearchmax ∧
    Value.checkField entries "c1" 1e-4 (r.bounded [.below 1.0, .above 0.0]) =
      .valid c.c1 ∧
    Value.checkField entries "rhohi" 0.5 (r.bounded [.below 1.0, .above 0.0]) =
      .valid c.rhohi ∧
    Value.checkField entries "rholo" 0.1 (r.bounded [.below 1.0, .above 0.0]) =
      .valid c.rholo ∧
    Value.checkField entries "max_iterations" 1000 (.ofExcept ∘ r.positive) =
      .valid c.maxIterations := by
  unfold read
  constructor
  · intro h
    simp only [Checked.seq_eq_valid_iff, Checked.map_eq_valid_iff] at h
    obtain ⟨_, maxIterations, ⟨_, rholo, ⟨_, rhohi, ⟨_, c1, ⟨_, linesearchmax, ⟨_, gamma,
      ⟨_, epsilon, ⟨_, rho, ⟨_, sigma, ⟨_, delta, ⟨name, hname, rfl⟩, hdelta, rfl⟩, hsigma, rfl⟩,
      hrho, rfl⟩, hepsilon, rfl⟩, hgamma, rfl⟩, hlinesearchmax, rfl⟩, hc1, rfl⟩, hrhohi, rfl⟩,
      hrholo, rfl⟩, hmaxIterations, rfl⟩ := h
    rw [hdelta] at hsigma
    exact ⟨hname, hdelta, hsigma, hrho, hepsilon, hgamma, hlinesearchmax, hc1, hrhohi, hrholo,
      hmaxIterations⟩
  · rintro ⟨hname, hdelta, hsigma, hrho, hepsilon, hgamma, hlinesearchmax, hc1, hrhohi, hrholo,
      hmaxIterations⟩
    simp only [hname, hdelta, Checked.valid?, hsigma, hrho, hepsilon, hgamma, hlinesearchmax, hc1,
      hrhohi, hrholo, hmaxIterations]
    rfl

theorem read_eq_valid_iff : read r entries = .valid c ↔
    c.GivenBy r entries ∧ c.InRange ∧
      ((Value.field? "sigma" entries).isSome → ¬c.sigma < c.delta) := by
  rw [read_eq_valid_iff_fields, Value.checkField_eq_valid_iff_gives,
    Readers.checkField_unit (by decide +kernel), Readers.checkField_sigma (by decide +kernel),
    Readers.checkField_above (by decide +kernel), Readers.checkField_atLeast (by decide +kernel),
    Readers.checkField_unit (by decide +kernel), Readers.checkField_count (by decide),
    Readers.checkField_unit (by decide +kernel), Readers.checkField_unit (by decide +kernel),
    Readers.checkField_unit (by decide +kernel), Readers.checkField_count (by decide)]
  constructor
  · rintro ⟨hname, ⟨gdelta, hdelta⟩, ⟨gsigma, hsigma, hpair⟩, ⟨grho, hrho⟩, ⟨gepsilon, hepsilon⟩,
      ⟨ggamma, hgamma⟩, ⟨glinesearchmax, hlinesearchmax⟩, ⟨gc1, hc1⟩, ⟨grhohi, hrhohi⟩,
      ⟨grholo, hrholo⟩, gmaxIterations, hmaxIterations⟩
    exact ⟨⟨hname, gdelta, gsigma, grho, gepsilon, ggamma, glinesearchmax, gc1, grhohi, grholo,
      gmaxIterations⟩, ⟨hdelta, hsigma, hrho, hepsilon, hgamma, hlinesearchmax, hc1, hrhohi,
      hrholo, hmaxIterations⟩, hpair⟩
  · rintro ⟨hgiven, hrange, hpair⟩
    exact ⟨hgiven.name, ⟨hgiven.delta, hrange.delta⟩, ⟨hgiven.sigma, hrange.sigma, hpair⟩,
      ⟨hgiven.rho, hrange.rho⟩, ⟨hgiven.epsilon, hrange.epsilon⟩, ⟨hgiven.gamma, hrange.gamma⟩,
      ⟨hgiven.linesearchmax, hrange.linesearchmax⟩, ⟨hgiven.c1, hrange.c1⟩,
      ⟨hgiven.rhohi, hrange.rhohi⟩, ⟨hgiven.rholo, hrange.rholo⟩, hgiven.maxIterations,
      hrange.maxIterations⟩

/-! ### The constructors -/

/-- The fields of the other kind of line search have their defaults. -/
def OthersUsual (c : LineSearchConfig Float) : Prop :=
  match c.name with
  | .hagerzhang | .hagerZhang => c.c1 = usual.c1 ∧ c.rhohi = usual.rhohi ∧ c.rholo = usual.rholo ∧
      c.maxIterations = usual.maxIterations
  | .backtracking => c.delta = usual.delta ∧ c.sigma = usual.sigma ∧ c.rho = usual.rho ∧
      c.epsilon = usual.epsilon ∧ c.gamma = usual.gamma ∧ c.linesearchmax = usual.linesearchmax

/-- What the constructors refuse and the schema overlooks: the decrease parameter of the
Hager–Zhang search has to be below one half, and the ratios of the backtracking search have to be
in order. -/
def Overlooked (c : LineSearchConfig Float) : Prop :=
  match c.name with
  | .hagerzhang | .hagerZhang => 0.5 ≤ c.delta
  | .backtracking => c.rhohi < c.rholo

def hagerZhang (c : LineSearchConfig Float) : HagerZhang Float :=
  { HagerZhang.default with
    delta := c.delta
    sigma := c.sigma
    rho := c.rho
    epsilon := c.epsilon
    gamma := c.gamma
    linesearchmax := c.linesearchmax }

def backtracking (c : LineSearchConfig Float) : Backtracking Float :=
  { c1 := c.c1, rhohi := c.rhohi, rholo := c.rholo, iterations := c.maxIterations }

theorem hagerZhang_defect?_eq_none_iff : c.hagerZhang.defect? = none ↔
    (0.0 < c.delta ∧ c.delta < 0.5) ∧ (c.delta ≤ c.sigma ∧ c.sigma < 1.0) ∧ ¬c.rho ≤ 1.0 ∧
      ¬c.epsilon < 0.0 ∧ (0.0 < c.gamma ∧ c.gamma < 1.0) ∧ ¬c.linesearchmax ≤ 0 := by
  have halphamax : ¬(Scalar.infinity : Float) ≤ 0.0 := by decide +kernel
  have hpsi3 : (0.0 : Float) < 0.1 ∧ (0.1 : Float) < 1.0 := by decide +kernel
  rw [HagerZhang.defect?_eq_none_iff]
  simp only [hagerZhang, HagerZhang.default, halphamax, hpsi3, not_false_eq_true, true_and,
    and_true, and_self]

/-- Of the values in their ranges, the constructor of the Hager–Zhang search refuses what is
overlooked. A curvature parameter that was not compared with the decrease parameter is the default,
which is above one half. -/
theorem InRange.hagerZhang_iff (hrange : c.InRange)
    (hsigma : c.sigma = usual.sigma ∨ ¬c.sigma < c.delta) :
    c.hagerZhang.defect? = none ↔ ¬0.5 ≤ c.delta := by
  have hdelta := (Double.lt_iff.mp hrange.delta.1).1.2
  have hhalf : (0.5 : Float).isNaN = false := by decide +kernel
  rw [hagerZhang_defect?_eq_none_iff, Double.not_le_iff hhalf hdelta]
  refine ⟨fun h ↦ h.1.2, fun hlt ↦ ⟨⟨hrange.delta.1, hlt⟩, ⟨?_, hrange.sigma.2⟩,
    Double.not_le_of_lt hrange.rho, Double.not_lt_of_le hrange.epsilon, hrange.gamma,
    not_le.mpr hrange.linesearchmax⟩⟩
  rcases hsigma with hdefault | hpair
  · have husual : (0.5 : Float) < usual.sigma := by decide +kernel
    rw [hdefault]
    exact Double.le_of_lt (Double.lt_trans hlt husual)
  · exact (Double.not_lt_iff (Double.lt_iff.mp hrange.sigma.1).1.2 hdelta).mp hpair

theorem inRange_of_hagerZhang (h : c.hagerZhang.defect? = none)
    (hnumbers : ∀ x ∈ [c.rho, c.epsilon], x.isNaN = false)
    (hothers : c.c1 = usual.c1 ∧ c.rhohi = usual.rhohi ∧ c.rholo = usual.rholo ∧
      c.maxIterations = usual.maxIterations) : c.InRange ∧ ¬c.sigma < c.delta := by
  obtain ⟨⟨hdelta, hhalf⟩, ⟨hpair, hsigma⟩, hrho, hepsilon, hgamma, hlinesearchmax⟩ :=
    hagerZhang_defect?_eq_none_iff.mp h
  obtain ⟨hc1, hrhohi, hrholo, hmaxIterations⟩ := hothers
  simp only [List.forall_mem_cons] at hnumbers
  have hone : (1.0 : Float).isNaN = false := by decide +kernel
  have hzero : (0.0 : Float).isNaN = false := by decide +kernel
  have hbelow : (0.5 : Float) < 1.0 := by decide +kernel
  refine ⟨?_, Double.not_lt_of_le hpair⟩
  constructor
  case delta => exact ⟨hdelta, Double.lt_trans hhalf hbelow⟩
  case sigma => exact ⟨Double.lt_of_lt_of_le hdelta hpair, hsigma⟩
  case rho => exact (Double.not_le_iff hnumbers.1 hone).mp hrho
  case epsilon => exact (Double.not_lt_iff hnumbers.2.1 hzero).mp hepsilon
  case gamma => exact hgamma
  case linesearchmax => exact not_le.mp hlinesearchmax
  case c1 => exact hc1 ▸ usual_inRange.c1
  case rhohi => exact hrhohi ▸ usual_inRange.rhohi
  case rholo => exact hrholo ▸ usual_inRange.rholo
  case maxIterations => exact hmaxIterations ▸ usual_inRange.maxIterations

/-- Of the values in their ranges, the constructor of the backtracking search refuses what is
overlooked. -/
theorem InRange.backtracking_iff (hrange : c.InRange) :
    c.backtracking.defect? = none ↔ ¬c.rhohi < c.rholo := by
  rw [Backtracking.defect?_eq_none_iff, Double.not_lt_iff (Double.lt_iff.mp hrange.rhohi.1).1.2
    (Double.lt_iff.mp hrange.rholo.1).1.2]
  exact ⟨fun h ↦ h.2.1.2.1, fun hpair ↦ ⟨hrange.c1, ⟨hrange.rholo.1, hpair, hrange.rhohi.2⟩,
    not_le.mpr hrange.maxIterations⟩⟩

theorem inRange_of_backtracking (h : c.backtracking.defect? = none)
    (hothers : c.delta = usual.delta ∧ c.sigma = usual.sigma ∧ c.rho = usual.rho ∧
      c.epsilon = usual.epsilon ∧ c.gamma = usual.gamma ∧
      c.linesearchmax = usual.linesearchmax) : c.InRange ∧ ¬c.sigma < c.delta := by
  obtain ⟨hc1, ⟨hrholo, hpair, hrhohi⟩, hmaxIterations⟩ := Backtracking.defect?_eq_none_iff.mp h
  obtain ⟨hdelta, hsigma, hrho, hepsilon, hgamma, hlinesearchmax⟩ := hothers
  have hordered : ¬usual.sigma < usual.delta := by decide +kernel
  refine ⟨?_, by rwa [hdelta, hsigma]⟩
  constructor
  case delta => exact hdelta ▸ usual_inRange.delta
  case sigma => exact hsigma ▸ usual_inRange.sigma
  case rho => exact hrho ▸ usual_inRange.rho
  case epsilon => exact hepsilon ▸ usual_inRange.epsilon
  case gamma => exact hgamma ▸ usual_inRange.gamma
  case linesearchmax => exact hlinesearchmax ▸ usual_inRange.linesearchmax
  case c1 => exact hc1
  case rhohi => exact ⟨Double.lt_of_lt_of_le hrholo hpair, hrhohi⟩
  case rholo => exact ⟨hrholo, Double.lt_of_le_of_lt hpair hrhohi⟩
  case maxIterations => exact not_le.mp hmaxIterations

theorem admissible_iff_of_valid (h : read r entries = .valid c) :
    c.parameters.admissible = true ↔ ¬c.Overlooked := by
  obtain ⟨hgiven, hrange, hpair⟩ := read_eq_valid_iff.mp h
  have hsigma : c.sigma = usual.sigma ∨ ¬c.sigma < c.delta := by
    cases hfield : Value.field? "sigma" entries with
    | none =>
      have hdefault := hgiven.sigma
      rw [Value.Gives, hfield, Option.elim_none] at hdefault
      exact Or.inl hdefault
    | some v => exact Or.inr (hpair (by rw [hfield, Option.isSome_some]))
  cases hname : c.name with
  | hagerzhang | hagerZhang =>
    simp only [parameters, Overlooked, hname]
    exact Option.isNone_iff_eq_none.trans (hrange.hagerZhang_iff hsigma)
  | backtracking =>
    simp only [parameters, Overlooked, hname]
    exact Option.isNone_iff_eq_none.trans hrange.backtracking_iff

theorem valid_of_admissible (h : c.parameters.admissible = true) (hgiven : c.GivenBy r entries)
    (hothers : c.OthersUsual) (hnumbers : ∀ x ∈ [c.rho, c.epsilon], x.isNaN = false) :
    read r entries = .valid c := by
  have hrange : c.InRange ∧ ¬c.sigma < c.delta := by
    cases hname : c.name with
    | hagerzhang | hagerZhang =>
      simp only [parameters, hname] at h
      simp only [OthersUsual, hname] at hothers
      exact inRange_of_hagerZhang (Option.isNone_iff_eq_none.mp h) hnumbers hothers
    | backtracking =>
      simp only [parameters, hname] at h
      simp only [OthersUsual, hname] at hothers
      exact inRange_of_backtracking (Option.isNone_iff_eq_none.mp h) hothers
  exact read_eq_valid_iff.mpr ⟨hgiven, hrange.1, fun _ ↦ hrange.2⟩

end LineSearchConfig

/-! ## Options -/

namespace Options

variable {φ : Type} [Foreign φ] {r : Readers φ Float} {entries : List (Value φ × Value φ)}
  {o : Options Float Int}

structure GivenBy (o : Options Float Int) (r : Readers φ Float)
    (entries : List (Value φ × Value φ)) : Prop where
  xtol : Value.Gives entries "xtol" 1e-32 r.real o.xtol
  ftol : Value.Gives entries "ftol" 1e-8 r.real o.ftol
  grtol : Value.Gives entries "grtol" 1e-8 r.real o.grtol
  iterations : Value.Gives entries "iterations" 1000 r.integer o.iterations
  storeTrace : Value.Gives entries "store_trace" false r.truth o.storeTrace
  showTrace : Value.Gives entries "show_trace" false r.truth o.showTrace
  extendedTrace : Value.Gives entries "extended_trace" false r.truth o.extendedTrace
  eta : Value.Gives entries "eta" 0.4 r.real o.eta

structure InRange (o : Options Float Int) : Prop where
  xtol : 0.0 ≤ o.xtol
  ftol : 0.0 ≤ o.ftol
  grtol : 0.0 ≤ o.grtol
  iterations : 0 < o.iterations
  eta : 0.0 < o.eta

theorem read_eq_valid_iff_fields : read r entries = .valid o ↔
    Value.checkField entries "xtol" 1e-32 (r.bounded [.atLeast 0.0]) =
      .valid o.xtol ∧
    Value.checkField entries "ftol" 1e-8 (r.bounded [.atLeast 0.0]) =
      .valid o.ftol ∧
    Value.checkField entries "grtol" 1e-8 (r.bounded [.atLeast 0.0]) =
      .valid o.grtol ∧
    Value.checkField entries "iterations" 1000 (.ofExcept ∘ r.positive) =
      .valid o.iterations ∧
    Value.checkField entries "store_trace" false (.ofExcept ∘ r.truth) =
      .valid o.storeTrace ∧
    Value.checkField entries "show_trace" false (.ofExcept ∘ r.truth) =
      .valid o.showTrace ∧
    Value.checkField entries "extended_trace" false (.ofExcept ∘ r.truth) =
      .valid o.extendedTrace ∧
    Value.checkField entries "eta" 0.4 (r.bounded [.above 0.0]) = .valid o.eta := by
  unfold read
  constructor
  · intro h
    simp only [Checked.seq_eq_valid_iff, Checked.map_eq_valid_iff] at h
    obtain ⟨_, eta, ⟨_, extended, ⟨_, shown, ⟨_, stored, ⟨_, iterations, ⟨_, grtol, ⟨_, ftol,
      ⟨xtol, hxtol, rfl⟩, hftol, rfl⟩, hgrtol, rfl⟩, hiterations, rfl⟩, hstored, rfl⟩, hshown, rfl⟩,
      hextended, rfl⟩, heta, rfl⟩ := h
    exact ⟨hxtol, hftol, hgrtol, hiterations, hstored, hshown, hextended, heta⟩
  · rintro ⟨hxtol, hftol, hgrtol, hiterations, hstored, hshown, hextended, heta⟩
    simp only [default, Int.ofNat_eq_natCast, Nat.cast_ofNat, hxtol, hftol, hgrtol, hiterations,
      hstored, hshown, hextended, heta]
    rfl

theorem read_eq_valid_iff :
    read r entries = .valid o ↔ o.GivenBy r entries ∧ o.InRange := by
  rw [read_eq_valid_iff_fields, Readers.checkField_atLeast (by decide +kernel),
    Readers.checkField_atLeast (by decide +kernel), Readers.checkField_atLeast (by decide +kernel),
    Readers.checkField_count (by decide), Value.checkField_eq_valid_iff_gives,
    Value.checkField_eq_valid_iff_gives, Value.checkField_eq_valid_iff_gives,
    Readers.checkField_above (by decide +kernel)]
  constructor
  · rintro ⟨⟨gxtol, hxtol⟩, ⟨gftol, hftol⟩, ⟨ggrtol, hgrtol⟩, ⟨giterations, hiterations⟩, gstored,
      gshown, gextended, geta, heta⟩
    exact ⟨⟨gxtol, gftol, ggrtol, giterations, gstored, gshown, gextended, geta⟩,
      ⟨hxtol, hftol, hgrtol, hiterations, heta⟩⟩
  · rintro ⟨hgiven, hrange⟩
    exact ⟨⟨hgiven.xtol, hrange.xtol⟩, ⟨hgiven.ftol, hrange.ftol⟩, ⟨hgiven.grtol, hrange.grtol⟩,
      ⟨hgiven.iterations, hrange.iterations⟩, hgiven.storeTrace, hgiven.showTrace,
      hgiven.extendedTrace, hgiven.eta, hrange.eta⟩

theorem exists_check_iff : (∃ o', o.check Limit.ofInt? = .ok o') ↔
    ¬o.xtol < 0.0 ∧ ¬o.ftol < 0.0 ∧ ¬o.grtol < 0.0 ∧ ¬o.iterations ≤ 0 ∧ ¬o.eta ≤ 0.0 := by
  unfold check Limit.ofInt?
  split_ifs <;> simp_all

/-- On numbers the test of the constructor is that of the schema. -/
theorem exists_check_iff_inRange (hnumbers : ∀ x ∈ [o.xtol, o.ftol, o.grtol, o.eta],
    x.isNaN = false) : (∃ o', o.check Limit.ofInt? = .ok o') ↔ o.InRange := by
  have hzero : (0.0 : Float).isNaN = false := by decide +kernel
  simp only [List.forall_mem_cons] at hnumbers
  obtain ⟨hxtol, hftol, hgrtol, heta, -⟩ := hnumbers
  rw [exists_check_iff, Double.not_lt_iff hxtol hzero, Double.not_lt_iff hftol hzero,
    Double.not_lt_iff hgrtol hzero, Double.not_le_iff heta hzero, not_le]
  exact ⟨fun ⟨h₁, h₂, h₃, h₄, h₅⟩ ↦ ⟨h₁, h₂, h₃, h₄, h₅⟩,
    fun h ↦ ⟨h.xtol, h.ftol, h.grtol, h.iterations, h.eta⟩⟩

theorem InRange.numbers (h : o.InRange) :
    ∀ x ∈ [o.xtol, o.ftol, o.grtol, o.eta], x.isNaN = false := by
  simp only [List.forall_mem_cons]
  exact ⟨(Double.le_iff.mp h.xtol).1.2, (Double.le_iff.mp h.ftol).1.2,
    (Double.le_iff.mp h.grtol).1.2, (Double.lt_iff.mp h.eta).1.2, fun _ ↦ nofun⟩

end Options

/-! ## Run files -/

theorem readSection_eq_valid_iff {φ A : Type} [Foreign φ] {entries : List (Value φ × Value φ)}
    {name : String} {read : List (Value φ × Value φ) → Checked A} {a : A} :
    readSection entries name read = .valid a ↔
      ∃ fields, ((Value.field? name entries).getD (.mapping [])).entries? = some fields ∧
        read fields = .valid a := by
  rw [readSection, Checked.under_eq_valid_iff, Value.asSection_eq_valid_iff]

namespace RunConfig

variable {φ : Type} [Foreign φ] {r : Readers φ Float} {document : Value φ} {c : RunConfig Float}

theorem exists_sections (h : read r document = .valid c) :
    (∃ fields, Options.read r fields = .valid c.options) ∧
      ∃ fields, LineSearchConfig.read r fields = .valid c.lineSearch := by
  obtain ⟨entries, -, hread⟩ := Value.asSection_eq_valid_iff.mp h
  simp only [Checked.seq_eq_valid_iff, Checked.map_eq_valid_iff, readSection_eq_valid_iff] at hread
  obtain ⟨_, _, ⟨_, _, ⟨_, _, ⟨_, -, rfl⟩, ⟨fields, -, hoptions⟩, rfl⟩, ⟨fields', -, hsearch⟩,
    rfl⟩, -, rfl⟩ := hread
  exact ⟨⟨fields, hoptions⟩, fields', hsearch⟩

theorem exists_plan_iff {dimension : ℤ} {weighting : Weighting Float} {o : Options Float Limit}
    (hweighting : c.preconditioner.build dimension = .ok weighting)
    (ho : c.options.check Limit.ofInt? = .ok o) :
    (∃ p, c.plan dimension = .ok p) ↔ c.lineSearch.parameters.admissible = true := by
  rw [plan, LineSearchConfig.build, hweighting, ho]
  split_ifs with h
  · exact iff_of_true ⟨_, rfl⟩ h
  · exact iff_of_false (fun ⟨_, hp⟩ ↦ nomatch hp) h

/-- **Validation and construction.** For a valid run file the constructors take the options, and
they take the line search exactly if it is not overlooked. In the other direction, a section whose
fields give a line search that the constructor takes is valid, if the fields of the other kind of
line search have their defaults and the parameters without an upper bound are numbers; and a section
whose fields give numbers as options is valid exactly if the constructor takes them. How values are
read makes no difference to this. -/
theorem validation_matches_construction (r : Readers φ Float) (document : Value φ)
    (c : RunConfig Float) (entries entries' : List (Value φ × Value φ))
    (search : LineSearchConfig Float) (o : Options Float Int) :
    (read r document = .valid c →
      (∃ o', c.options.check Limit.ofInt? = .ok o') ∧
      (c.lineSearch.build = .ok c.lineSearch.parameters ↔ ¬c.lineSearch.Overlooked) ∧
      ∀ dimension weighting, c.preconditioner.build dimension = .ok weighting →
        ((∃ p, c.plan dimension = .ok p) ↔ ¬c.lineSearch.Overlooked)) ∧
    (search.GivenBy r entries → search.OthersUsual →
      (∀ x ∈ [search.rho, search.epsilon], x.isNaN = false) →
      (search.parameters.admissible = true ↔
        LineSearchConfig.read r entries = .valid search ∧ ¬search.Overlooked)) ∧
    (o.GivenBy r entries' → (∀ x ∈ [o.xtol, o.ftol, o.grtol, o.eta], x.isNaN = false) →
      ((∃ o', o.check Limit.ofInt? = .ok o') ↔
        Options.read r entries' = .valid o)) := by
  refine ⟨fun hread ↦ ?_, fun hgiven hothers hnumbers ↦ ?_, fun hgiven hnumbers ↦ ?_⟩
  · obtain ⟨⟨_, hoptions⟩, _, hsearch⟩ := exists_sections hread
    have hrange := (Options.read_eq_valid_iff.mp hoptions).2
    obtain ⟨o, ho⟩ := (Options.exists_check_iff_inRange hrange.numbers).mpr hrange
    have hadmissible := LineSearchConfig.admissible_iff_of_valid hsearch
    refine ⟨⟨o, ho⟩, ?_, fun _ _ hweighting ↦ (exists_plan_iff hweighting ho).trans hadmissible⟩
    rw [← hadmissible, LineSearchConfig.build]
    split_ifs with h
    · exact iff_of_true rfl h
    · exact iff_of_false nofun h
  · constructor
    · intro h
      have hvalid := LineSearchConfig.valid_of_admissible h hgiven hothers hnumbers
      exact ⟨hvalid, (LineSearchConfig.admissible_iff_of_valid hvalid).mp h⟩
    · rintro ⟨hvalid, hseen⟩
      exact (LineSearchConfig.admissible_iff_of_valid hvalid).mpr hseen
  · rw [Options.exists_check_iff_inRange hnumbers, Options.read_eq_valid_iff, and_iff_right hgiven]

/-- The run file with these fields in its line search section. -/
def searching (fields : List (PlainValue × PlainValue)) : PlainValue :=
  .mapping [(.text "linesearch", .mapping fields)]

theorem exists_valid_of_any {A : Type} {x : Checked A} {P : A → Bool}
    (h : x.valid?.any P = true) : ∃ a, x = .valid a ∧ P a = true := by
  cases x with
  | valid a => exact ⟨a, rfl, h⟩
  | invalid => cases h

/-- A run file with a decrease parameter of 0.6 is valid, and there is no line search for it. -/
theorem valid_without_search :
    ∃ c, read PlainValue.readers (searching [(.text "delta", .real 0.6)]) = .valid c ∧
      c.lineSearch.build = .error (.strategy c.lineSearch.parameters) := by
  obtain ⟨c, hread, hc⟩ := exists_valid_of_any
    (show (read PlainValue.readers (searching [(.text "delta", .real 0.6)])).valid?.any
      (fun c ↦ !c.lineSearch.parameters.admissible) = true by decide +kernel)
  refine ⟨c, hread, if_neg ?_⟩
  simpa using hc

/-- A decrease parameter of 0.3 is taken in both places, and so are the default options. A smallest
ratio of 0.9, which is above the default of the largest, is valid and not taken. -/
theorem validation_matches_construction_delta :
    (∃ c, read PlainValue.readers (searching [(.text "delta", .real 0.3)]) = .valid c ∧
      (∃ o, c.options.check Limit.ofInt? = .ok o) ∧
      c.lineSearch.build = .ok c.lineSearch.parameters) ∧
    (∃ c, read PlainValue.readers (searching [(.text "type", .text "backtracking"),
        (.text "rholo", .real 0.9)]) = .valid c ∧
      ¬c.lineSearch.build = .ok c.lineSearch.parameters) ∧
    LineSearchConfig.read PlainValue.readers [(.text "delta", .real 0.3)] =
      .valid { LineSearchConfig.usual with delta := 0.3 } ∧
    Options.read PlainValue.readers [] = .valid (.default Int.ofNat) := by
  obtain ⟨c, hread, hc⟩ := exists_valid_of_any
    (show (read PlainValue.readers (searching [(.text "delta", .real 0.3)])).valid?.any
      (fun c ↦ c.lineSearch.name = .hagerzhang && !decide (0.5 ≤ c.lineSearch.delta)) = true by
        decide +kernel)
  simp only [Bool.and_eq_true, decide_eq_true_eq, Bool.not_eq_true', decide_eq_false_iff_not] at hc
  obtain ⟨hvalid, hsearch, hoptions⟩ := validation_matches_construction PlainValue.readers _ c
    [(.text "delta", .real 0.3)] [] { LineSearchConfig.usual with delta := 0.3 }
    (.default Int.ofNat)
  obtain ⟨hcheck, hbuild, -⟩ := hvalid hread
  refine ⟨⟨c, hread, hcheck, hbuild.mpr ?_⟩, ?_, ?_, ?_⟩
  · simpa only [LineSearchConfig.Overlooked, hc.1] using hc.2
  · obtain ⟨c, hread, hc⟩ := exists_valid_of_any
      (show (read PlainValue.readers (searching [(.text "type", .text "backtracking"),
        (.text "rholo", .real 0.9)])).valid?.any (fun c ↦ c.lineSearch.name = .backtracking &&
          decide (c.lineSearch.rhohi < c.lineSearch.rholo)) = true by decide +kernel)
    simp only [Bool.and_eq_true, decide_eq_true_eq] at hc
    obtain ⟨hvalid, -⟩ :=
      validation_matches_construction PlainValue.readers _ c [] [] .usual (.default Int.ofNat)
    refine ⟨c, hread, (hvalid hread).2.1.not.mpr (not_not.mpr ?_)⟩
    simpa only [LineSearchConfig.Overlooked, hc.1] using hc.2
  · have hgiven : LineSearchConfig.GivenBy { LineSearchConfig.usual with delta := 0.3 }
        PlainValue.readers [(.text "delta", .real 0.3)] := by
      constructor <;> rfl
    refine ((hsearch hgiven ⟨rfl, rfl, rfl, rfl⟩ ?_).mp ?_).1
    · decide +kernel
    · decide +kernel
  · have hgiven : Options.GivenBy (.default Int.ofNat) PlainValue.readers [] := by
      constructor <;> rfl
    refine (hoptions hgiven ?_).mp (Options.exists_check_iff.mpr ?_)
    · decide +kernel
    · decide +kernel

end RunConfig

end NonlinearCG
