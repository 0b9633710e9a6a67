import LiftedElimination.Proofs.Meaning
import LiftedElimination.Proofs.Steps
import LiftedElimination.Proofs.Renaming

/-!
# Parfactors under a substitution

A substitution that keeps variables and individuals inside the populations, and that no counting
formula captures, turns groundings of the instance into groundings of the parfactor.

* `Admits`          what is asked of the substitution;
* `restrict_pull_mem`   a grounding of the instance is one of the parfactor;
* `digits_apply`, `owned_apply`, `scope_apply`   what the instance reads and owns;
* `Sound.apply`     the instance is as sound as the parfactor;
* `meaning_renamed`   variables renamed apart from each other change nothing.
-/

namespace LiftedElimination

open Finset

variable {K : Type}

/-- a variable that becomes a variable stays in its constraints -/
theorem ConstraintSet.mem_variables_apply {cs ds : ConstraintSet} {s : Substitution}
    (h : cs.apply s = some ds) {x z : LogVar} (hx : x ∈ cs.variables)
    (hxz : s.apply (.var x) = .var z) : z ∈ ds.variables := by
  obtain ⟨c, hc, hxc⟩ := mem_variables.mp hx
  cases hca : c.apply s with
  | some d =>
    exact mem_variables.mpr ⟨d, (mem_of_apply h).mpr ⟨c, hc, hca⟩,
      (Constraint.mem_variables_of_apply hca).mpr ⟨x, hxc, hxz⟩⟩
  | none =>
    obtain ⟨⟨d, hd⟩, e, he⟩ := Constraint.between_eq_none.mp hca
    rcases Constraint.mem_variables.mp hxc with rfl | hsecond
    · rw [hxz] at hd
      cases hd
    · rw [hsecond, hxz] at he
      cases he

/-- the groundings under a substitution are those before it, pulled back -/
theorem Valuation.solves_apply {vars ws : List LogVar} {cs ds : ConstraintSet} {s : Substitution}
    (hs : ∀ x ∈ vars, (∃ z, s.apply (.var x) = .var z ∧ z.population = x.population)
      ∨ ∃ c, s.apply (.var x) = .const c ∧ c ∈ x.population)
    (h : cs.apply s = some ds) (hcs : ∀ x ∈ cs.variables, x ∈ vars)
    (hws : ∀ z, z ∈ ws ↔ ∃ x ∈ vars, s.apply (.var x) = .var z) {γ : Valuation} :
    γ.Solves ds ws ↔ (s.pull γ).Solves cs vars := by
  have hds : ∀ z ∈ ds.variables, z ∈ ws := by
    intro z hz
    obtain ⟨x, hx, hxz⟩ := ConstraintSet.mem_variables_of_apply h hz
    exact (hws z).mpr ⟨x, hcs x hx, hxz⟩
  rw [solves_iff_holds hds, solves_iff_holds hcs, ConstraintSet.holds_apply h]
  refine and_congr_left fun _ => ⟨fun hmem x hx => ?_, fun hmem z hz => ?_⟩
  · rcases hs x hx with ⟨z, hz, hpop⟩ | ⟨c, hc, hcx⟩
    · rw [Substitution.pull, hz, ← hpop]
      exact hmem z ((hws z).mpr ⟨x, hx, hz⟩)
    · rw [Substitution.pull, hc]
      exact hcx
  · obtain ⟨x, hx, hxz⟩ := (hws z).mp hz
    have hmem := hmem x hx
    rcases hs x hx with ⟨y, hy, hpop⟩ | ⟨c, hc, -⟩
    · rw [Substitution.pull, hxz, Term.eval_var] at hmem
      rw [hxz] at hy
      cases hy
      rwa [hpop]
    · rw [hxz] at hc
      cases hc

namespace Parfactor

variable {p q : Parfactor K} {s : Substitution} {γ δ : Valuation} {w : World}

/-- every variable becomes a variable of its population or an individual of it, and none becomes a
bound variable -/
structure Admits (p : Parfactor K) (s : Substitution) : Prop where
  image : ∀ x ∈ p.logVars, (∃ z, s.apply (.var x) = .var z ∧ z.population = x.population)
    ∨ ∃ c, s.apply (.var x) = .const c ∧ c ∈ x.population
  apart : ∀ f, Prv.count f ∈ p.prvs → ∀ x ∈ p.logVars, s.apply (.var x) ≠ .var f.bound

/-- nothing is captured -/
theorem Admits.avoids (hs : p.Admits s) {r : Prv} (hr : r ∈ p.prvs) : r.Avoids s := by
  cases r with
  | atom a => trivial
  | count f => exact fun x hx => hs.apart f hr x (mem_logVars.mpr (.inl ⟨_, hr, hx⟩))

/-- the logical variables of an instance, where no formula captures one of its own -/
theorem mem_logVars_apply_of_avoids (hvalid : ∀ r ∈ p.prvs, r.Valid)
    (havoids : ∀ r ∈ p.prvs, r.Avoids s) (h : p.apply s = some q) {z : LogVar} :
    z ∈ q.logVars ↔ ∃ x ∈ p.logVars, s.apply (.var x) = .var z := by
  obtain ⟨ds, hds, rfl⟩ := apply_eq_some h
  rw [mem_logVars]
  constructor
  · rintro (⟨r', hr', hz⟩ | hz)
    · obtain ⟨r, hr, rfl⟩ := List.mem_map.mp hr'
      obtain ⟨x, hx, hxz⟩ :=
        (Prv.mem_freeVars_apply (hvalid r hr) (havoids r hr)).mp hz
      exact ⟨x, mem_logVars.mpr (.inl ⟨r, hr, hx⟩), hxz⟩
    · obtain ⟨x, hx, hxz⟩ := ConstraintSet.mem_variables_of_apply hds hz
      exact ⟨x, mem_logVars.mpr (.inr hx), hxz⟩
  · rintro ⟨x, hx, hxz⟩
    rcases mem_logVars.mp hx with ⟨r, hr, hxr⟩ | hxc
    · exact .inl ⟨_, List.mem_map_of_mem hr,
        (Prv.mem_freeVars_apply (hvalid r hr) (havoids r hr)).mpr ⟨x, hxr, hxz⟩⟩
    · exact .inr (ConstraintSet.mem_variables_apply hds hxc hxz)

theorem Proper.mem_logVars_apply (hp : p.Proper) (hs : p.Admits s)
    (h : p.apply s = some q) {z : LogVar} :
    z ∈ q.logVars ↔ ∃ x ∈ p.logVars, s.apply (.var x) = .var z :=
  mem_logVars_apply_of_avoids hp.valid (fun _ => hs.avoids) h

/-- a grounding of the instance is one of the parfactor -/
theorem restrict_pull_mem (hp : p.Proper) (hs : p.Admits s)
    (h : p.apply s = some q) (hδ : δ ∈ q.solutions) :
    (s.pull δ).restrict p.logVars ∈ p.solutions := by
  have hws := fun z => hp.mem_logVars_apply hs h (z := z)
  obtain ⟨ds, hds, rfl⟩ := apply_eq_some h
  exact ConstraintSet.restrict_mem_solutions
    ((Valuation.solves_apply hs.image hds (fun x hx => mem_logVars.mpr (.inr hx)) hws).mp
      (ConstraintSet.solves_of_mem hδ))

theorem exact_pull (hp : p.Sound) (hs : p.Admits s) (h : p.apply s = some q)
    (hδ : δ ∈ q.solutions) {r : Prv} (hr : r ∈ p.prvs) :
    r.Exact (s.pull δ) :=
  Prv.exact_congr (hp.valid r hr)
    (fun _ hx => Valuation.restrict_of_mem (mem_logVars.mpr (.inl ⟨r, hr, hx⟩)))
    (hp.exact _ (restrict_pull_mem hp.proper hs h hδ) r hr)

theorem accurate_pull (hp : p.Proper) (haccurate : p.Accurate) (hs : p.Admits s)
    (h : p.apply s = some q) (hδ : δ ∈ q.solutions) {r : Prv} (hr : r ∈ p.prvs) :
    r.Accurate (s.pull δ) :=
  Prv.accurate_congr (hp.valid r hr)
    (fun _ hx => Valuation.restrict_of_mem (mem_logVars.mpr (.inl ⟨r, hr, hx⟩)))
    (haccurate.prv (restrict_pull_mem hp hs h hδ) hr)

theorem sizes_apply (hp : p.Proper) (haccurate : p.Accurate) (hs : p.Admits s)
    (h : p.apply s = some q) (hδ : δ ∈ q.solutions) : q.sizes = p.sizes := by
  have hpull := fun r hr => accurate_pull hp haccurate hs h hδ (r := r) hr
  obtain ⟨ds, -, rfl⟩ := apply_eq_some h
  unfold sizes
  rw [List.map_map]
  exact List.map_congr_left fun r hr =>
    Prv.rangeSize_apply (hp.valid r hr) (hs.avoids hr) (hpull r hr)

theorem digits_apply (hp : p.Proper) (haccurate : p.Accurate) (hs : p.Admits s)
    (h : p.apply s = some q) (hδ : δ ∈ q.solutions) (w : World) :
    q.digits δ w = p.digits (s.pull δ) w := by
  have hpull := fun r hr => accurate_pull hp haccurate hs h hδ (r := r) hr
  obtain ⟨ds, -, rfl⟩ := apply_eq_some h
  unfold digits
  rw [List.map_map]
  exact List.map_congr_left fun r hr =>
    Prv.read_apply (hp.valid r hr) (hs.avoids hr) (hpull r hr)

theorem owned_apply (hp : p.Proper) (hs : p.Admits s) (h : p.apply s = some q)
    (δ : Valuation) : q.owned δ = p.owned (s.pull δ) := by
  obtain ⟨ds, -, rfl⟩ := apply_eq_some h
  ext v
  simp only [mem_owned, List.mem_map]
  constructor
  · rintro ⟨_, ⟨r, hr, rfl⟩, hv⟩
    exact ⟨r, hr, Prv.owned_apply (hp.valid r hr) (hs.avoids hr) ▸ hv⟩
  · rintro ⟨r, hr, hv⟩
    exact ⟨_, ⟨r, hr, rfl⟩, (Prv.owned_apply (hp.valid r hr) (hs.avoids hr)).symm ▸ hv⟩

theorem scope_apply (hp : p.Proper) (hs : p.Admits s) (h : p.apply s = some q) :
    q.scope ⊆ p.scope := by
  intro v hv
  obtain ⟨δ, hδ, hv⟩ := mem_scope.mp hv
  refine mem_scope.mpr ⟨_, restrict_pull_mem hp hs h hδ, ?_⟩
  rw [owned_apply hp hs h] at hv
  rwa [owned_congr hp.valid fun x hx => Valuation.restrict_of_mem hx]

/-- the formulas of an instance bind none of its logical variables -/
theorem Proper.apply (hp : p.Proper) (hs : p.Admits s) (h : p.apply s = some q) : q.Proper := by
  have hlog := fun z => hp.mem_logVars_apply hs h (z := z)
  obtain ⟨ds, hds, rfl⟩ := apply_eq_some h
  refine ⟨fun r' hr' => ?_, fun f' hf' => ?_⟩
  · obtain ⟨r, hr, rfl⟩ := List.mem_map.mp hr'
    exact (hp.valid r hr).apply (hs.avoids hr)
  · obtain ⟨r, hr, hrf⟩ := List.mem_map.mp hf'
    cases r with
    | atom a => cases hrf
    | count f =>
      cases hrf
      intro hmem
      obtain ⟨x, hx, hxf⟩ := (hlog _).mp hmem
      exact hs.apart f hr x hx hxf

theorem Accurate.apply (haccurate : p.Accurate) (hp : p.Proper) (hs : p.Admits s)
    (h : p.apply s = some q) : q.Accurate := by
  intro δ hδ f' hf'
  have hpull := fun r hr => accurate_pull hp haccurate hs h hδ (r := r) hr
  obtain ⟨ds, -, rfl⟩ := apply_eq_some h
  obtain ⟨r, hr, hrf⟩ := List.mem_map.mp hf'
  have haccurate := Prv.Accurate.apply (hp.valid _ hr) (hs.avoids hr) (hpull r hr)
  rwa [hrf] at haccurate

/-- **An instance is as sound as the parfactor.** -/
theorem Sound.apply (hp : p.Sound) (hs : p.Admits s) (h : p.apply s = some q) :
    q.Sound := by
  have hproper := hp.proper.apply hs h
  have hexact := fun δ hδ r hr => exact_pull hp hs h (δ := δ) hδ (r := r) hr
  have hsizes := fun δ hδ => sizes_apply hp.proper hp.accurate hs h (δ := δ) hδ
  have hsol := fun δ hδ => restrict_pull_mem hp.proper hs h (δ := δ) hδ
  obtain ⟨ds, hds, rfl⟩ := apply_eq_some h
  refine ⟨hproper.valid, fun c hc => ConstraintSet.not_isContradiction_of_apply hds hc,
    hproper.bound, fun δ hδ r' hr' => ?_, fun ⟨δ, hδ⟩ hpos r' hr' => ?_⟩
  · obtain ⟨r, hr, rfl⟩ := List.mem_map.mp hr'
    exact (hexact δ hδ r hr).apply (hp.valid r hr) (hs.avoids hr)
  · obtain ⟨r, hr, rfl⟩ := List.mem_map.mp hr'
    rw [hsizes δ hδ] at hpos
    exact (hp.tabular ⟨_, hsol δ hδ⟩ hpos r hr).apply (hp.valid r hr) (hs.avoids hr)
      (hexact δ hδ r hr).accurate

section
variable [ExactScalar K]

theorem value_congr (hp : ∀ r ∈ p.prvs, r.Valid) (h : ∀ x ∈ p.logVars, γ x = δ x) :
    p.value γ w = p.value δ w := by
  rw [value, value, digits_congr hp fun x hx => h x (mem_addVars.mpr (.inl hx))]

/-- the instance selects what the parfactor selects -/
theorem value_apply (hp : p.Proper) (haccurate : p.Accurate) (hs : p.Admits s)
    (h : p.apply s = some q) (hδ : δ ∈ q.solutions) : q.value δ w = p.value (s.pull δ) w := by
  have hfactor : q.factor = p.factor := by
    obtain ⟨ds, -, rfl⟩ := apply_eq_some h
    rfl
  rw [value, value, digits_apply hp haccurate hs h hδ, sizes_apply hp haccurate hs h hδ, hfactor]

/-- **A renaming that keeps variables apart** makes groundings of groundings, so it keeps the meaning
if it keeps what each of them selects. -/
theorem meaning_renamed_of_value (hvalid : ∀ r ∈ p.prvs, r.Valid)
    (havoids : ∀ r ∈ p.prvs, r.Avoids s) (hr : s.IsRenaming) (hinj : s.InjOn p.logVars)
    (h : p.apply s = some q) (hvalue : ∀ δ ∈ q.solutions, q.value δ w = p.value (s.pull δ) w) :
    q.meaning w = p.meaning w := by
  have hlog := fun z => mem_logVars_apply_of_avoids hvalid havoids h (z := z)
  have hsolves : ∀ γ : Valuation, γ.Solves q.constraints q.logVars
      ↔ (s.pull γ).Solves p.constraints p.logVars := by
    intro γ
    obtain ⟨ds, hds, hq⟩ := apply_eq_some h
    have hcs : q.constraints = ds := by rw [hq]
    rw [hcs]
    exact Valuation.solves_apply (fun x _ => .inl (hr x)) hds
      (fun x hx => mem_logVars.mpr (.inr hx)) hlog
  have hpull : ∀ δ ∈ q.solutions, (s.pull δ).restrict p.logVars ∈ p.solutions := fun δ hδ =>
    ConstraintSet.restrict_mem_solutions ((hsolves δ).mp (ConstraintSet.solves_of_mem hδ))
  refine prod_bij (fun δ _ => (s.pull δ).restrict p.logVars) hpull
    (fun δ hδ ε hε heq => ?_) (fun γ hγ => ?_) fun δ hδ => ?_
  · refine ConstraintSet.eq_of_mem_solutions hδ hε fun z hz => ?_
    obtain ⟨x, hx, hxz⟩ := (hlog z).mp hz
    have hval := congrFun heq x
    rw [Valuation.restrict_of_mem hx, Valuation.restrict_of_mem hx] at hval
    rwa [Substitution.pull, Substitution.pull, hxz] at hval
  · obtain ⟨δ, hδ⟩ := Substitution.exists_pull hr hinj γ
    have hmem : δ.restrict q.logVars ∈ q.solutions := ConstraintSet.restrict_mem_solutions
      ((hsolves δ).mpr ((ConstraintSet.solves_of_mem hγ).congr fun x hx => (hδ x hx).symm))
    refine ⟨_, hmem, ConstraintSet.eq_of_mem_solutions (hpull _ hmem) hγ fun x hx => ?_⟩
    obtain ⟨z, hz, -⟩ := hr x
    rw [Valuation.restrict_of_mem hx, ← hδ x hx, Substitution.pull, Substitution.pull, hz]
    exact Valuation.restrict_of_mem ((hlog z).mpr ⟨x, hx, hz⟩)
  · rw [hvalue δ hδ]
    exact value_congr hvalid fun x hx => (Valuation.restrict_of_mem hx).symm

/-- **A renaming that keeps variables apart** keeps the meaning. -/
theorem meaning_renamed (hp : p.Sound) (hs : p.Admits s) (hr : s.IsRenaming)
    (hinj : s.InjOn p.logVars) (h : p.apply s = some q) (w : World) :
    q.meaning w = p.meaning w :=
  meaning_renamed_of_value hp.valid (fun _ => hs.avoids) hr hinj h fun _ =>
    value_apply hp.proper hp.accurate hs h

end

end Parfactor

end LiftedElimination
