import LiftedElimination.Proofs.Joint
import LiftedElimination.Proofs.Spacing

/-!
# Parfactors renamed to fit

Before two parfactors are multiplied, the second one is renamed after one of its occurrences so that
it has the logical variables of the first one.  The renaming comes from that occurrence alone.  It
may give the name of one variable to another one, or name a variable as a formula names its bound
one, and then the parfactor means something else.

* `domainSize_renamed`    a formula whose variables are kept apart counts as many as before;
* `value_renamed`         a parfactor selects the same entries then;
* `injOn_iff_length`      variables are kept apart if there are as many afterwards;
* `align_meaning`        **what fitting does**, and when it keeps the meaning.
-/

namespace LiftedElimination

variable {K : Type}

/-! ## variables kept apart -/

namespace CountingFormula

variable {f : CountingFormula} {s : Substitution}

/-- **A formula whose free variables are kept apart** counts as many individuals as before. -/
theorem domainSize_renamed (hf : f.Valid) (hordered : f.constraints.IsOrdered) (hs : f.Avoids s)
    (hr : s.IsRenaming) (hinj : s.InjOn f.freeVars) : (f.apply s).domainSize = f.domainSize := by
  have hfree : ∀ t ∈ f.absent, ∀ y, t = .var y → y ∈ f.freeVars := by
    rintro _ ht y rfl
    exact mem_freeVars.mpr (.inr (mem_excludedVars_iff.mpr (mem_absent.mp ht).1))
  refine domainSize_apply_of_injOn hf hs hordered
    (fun t ht u hu => hinj.eq_of_apply hr (hfree t ht) (hfree u hu)) fun c y _ hc => ?_
  obtain ⟨z, hz, -⟩ := hr y
  cases hz.symm.trans hc

end CountingFormula

namespace Prv

variable {q : Prv} {s : Substitution} {γ : Valuation}

theorem rangeSize_renamed (hq : q.Valid) (hordered : q.IsOrdered) (hs : q.Avoids s)
    (hr : s.IsRenaming) (hinj : s.InjOn q.freeVars) : (q.apply s).rangeSize = q.rangeSize := by
  cases q with
  | atom a => rfl
  | count f =>
    have hsize := CountingFormula.domainSize_renamed hq (hordered f rfl) hs hr hinj
    exact CountingFormula.rangeSize_congr (f := f) (g := f.apply s) rfl hsize

theorem read_renamed (hq : q.Valid) (hordered : q.IsOrdered) (hs : q.Avoids s)
    (hr : s.IsRenaming) (hinj : s.InjOn q.freeVars) (w : World) :
    (q.apply s).read γ w = q.read (s.pull γ) w := by
  cases q with
  | atom a => exact congrArg w (Atom.groundVar_apply a s γ)
  | count f =>
    have hsize := CountingFormula.domainSize_renamed hq (hordered f rfl) hs hr hinj
    have hhistograms : (f.apply s).histograms = f.histograms :=
      CountingFormula.histograms_congr rfl hsize
    show (f.apply s).histograms.idxOf ((f.apply s).histogram γ w) = _
    rw [hhistograms, CountingFormula.histogram_apply hq hs]
    rfl

end Prv

namespace Parfactor

variable {p q r : Parfactor K} {s : Substitution} {δ : Valuation}

/-- **A parfactor whose variables are kept apart** selects the same entries. -/
theorem value_renamed [ExactScalar K] (hvalid : ∀ a ∈ p.prvs, a.Valid)
    (hordered : ∀ a ∈ p.prvs, a.IsOrdered) (havoids : ∀ a ∈ p.prvs, a.Avoids s)
    (hr : s.IsRenaming) (hinj : s.InjOn p.logVars) (h : p.apply s = some q) (w : World) :
    q.value δ w = p.value (s.pull δ) w := by
  have hfree : ∀ a ∈ p.prvs, s.InjOn a.freeVars := fun a ha x hx y hy =>
    hinj x (mem_logVars.mpr (.inl ⟨a, ha, hx⟩)) y (mem_logVars.mpr (.inl ⟨a, ha, hy⟩))
  obtain ⟨ds, -, rfl⟩ := apply_eq_some h
  have hsizes : (p.prvs.map (·.apply s)).map Prv.rangeSize = p.prvs.map Prv.rangeSize := by
    rw [List.map_map]
    exact List.map_congr_left fun a ha =>
      Prv.rangeSize_renamed (hvalid a ha) (hordered a ha) (havoids a ha) hr (hfree a ha)
  have hdigits : (p.prvs.map (·.apply s)).map (·.read δ w) = p.prvs.map (·.read (s.pull δ) w) := by
    rw [List.map_map]
    exact List.map_congr_left fun a ha =>
      Prv.read_renamed (hvalid a ha) (hordered a ha) (havoids a ha) hr (hfree a ha) w
  show p.factor.lookup ((p.prvs.map (·.apply s)).map Prv.rangeSize)
    ((p.prvs.map (·.apply s)).map (·.read δ w)) = _
  rw [hsizes, hdigits]
  rfl

/-- **Variables are kept apart** if and only if there are as many afterwards. -/
theorem injOn_iff_length (hvalid : ∀ a ∈ p.prvs, a.Valid) (havoids : ∀ a ∈ p.prvs, a.Avoids s)
    (hr : s.IsRenaming) (h : p.apply s = some q) :
    s.InjOn p.logVars ↔ p.logVars.length = q.logVars.length := by
  refine ⟨fun hinj => ?_, fun hlen => injOn_of_length hvalid havoids h hlen.le⟩
  have hnodup : (q.logVars.map Term.var).Nodup := q.nodup_logVars.map fun _ _ => Term.var.inj
  have himages : (p.logVars.map fun x => s.apply (.var x)).Nodup :=
    p.nodup_logVars.map_on fun x hx y hy => hinj x hx y hy
  have hperm : (p.logVars.map fun x => s.apply (.var x)).Perm (q.logVars.map Term.var) := by
    refine (List.perm_ext_iff_of_nodup himages hnodup).mpr fun t => ?_
    simp only [List.mem_map, mem_logVars_apply_of_avoids hvalid havoids h]
    constructor
    · rintro ⟨x, hx, rfl⟩
      obtain ⟨z, hz, -⟩ := hr x
      exact ⟨z, ⟨x, hx, hz⟩, hz.symm⟩
    · rintro ⟨z, ⟨x, hx, hxz⟩, rfl⟩
      exact ⟨x, hx, hxz⟩
  simpa using hperm.length_eq

/-! ## fitting -/

/-- **What fitting does.**  The result is multipliable with the target.  It is the parfactor as it was
or renamed, and means the same if no formula captures a variable and no two variables become one.
They stay apart exactly if there are as many as in the target; and nothing is captured if no formula
binds a variable of the target. -/
theorem align_meaning [ExactScalar K] (haccepted : p.Accepted)
    (hordered : ∀ a ∈ p.prvs, a.IsOrdered) (h : q.align? p = some r) :
    q.isMultipliable r = true
      ∧ (r = p ∨ ∃ s : Substitution, s.IsRenaming ∧ p.apply s = some r
        ∧ ((∀ f, Prv.count f ∈ p.prvs → f.bound ∉ q.logVars) → ∀ a ∈ p.prvs, a.Avoids s)
        ∧ ((∀ a ∈ p.prvs, a.Avoids s) →
          (s.InjOn p.logVars ↔ p.logVars.length = q.logVars.length)
            ∧ (s.InjOn p.logVars → ∀ w : World, r.meaning w = p.meaning w)))
      ∧ (p.Suits q → ∀ w : World, r.meaning w = p.meaning w) := by
  have hproper : p.Proper := Component.Accepted.proper (c := .standard p) haccepted
  obtain ⟨hfit, rfl | ⟨a, ha, b, hb, s, hs, happly⟩⟩ := align?_cases h
  · exact ⟨hfit, .inl rfl, fun _ _ => rfl⟩
  · have hclosed := fun (c : Prv) (t : Parfactor K) => Extent.isClosed_of c t.constraints
    have hrename := Extent.isRenaming_of_renaming? (hclosed a q) (hclosed b p) hs
    have hlength := (alongside_of_isMultipliable hfit).length_eq
    have hfree : (∀ f, Prv.count f ∈ p.prvs → f.bound ∉ q.logVars) →
        ∀ a ∈ p.prvs, a.Avoids s := fun hfree c hc =>
      (admits_of_renaming? hproper hfree ha hb hs).2.avoids hc
    have hinj : (∀ a ∈ p.prvs, a.Avoids s) →
        (s.InjOn p.logVars ↔ p.logVars.length = q.logVars.length) := fun havoids =>
      hlength ▸ injOn_iff_length hproper.valid havoids hrename happly
    have hmeaning : (∀ a ∈ p.prvs, a.Avoids s) → s.InjOn p.logVars →
        ∀ w : World, r.meaning w = p.meaning w := fun havoids hinj w =>
      meaning_renamed_of_value hproper.valid havoids hrename hinj happly fun δ _ =>
        value_renamed hproper.valid hordered havoids hrename hinj happly w
    refine ⟨hfit, .inr ⟨s, hrename, happly, hfree, fun havoids => ⟨hinj havoids, hmeaning havoids⟩⟩,
      fun hsuits => ?_⟩
    have havoids := hfree hsuits.free
    exact hmeaning havoids ((hinj havoids).mpr hsuits.length)

end Parfactor

/-! ## the sick and their sources -/

open scoped ExactScalar

namespace Epidemic

/-- who is sick, by the number of others to be infected by -/
def infected : Parfactor Nat :=
  ⟨∅, [.atom (sick (.var other)), .count sources], ⟨#[5, 3, 1, 1, 2, 4]⟩⟩

/-- who is sick, by another name -/
def prior (x : LogVar) : Parfactor Nat := ⟨∅, [.atom (sick (.var x))], ⟨#[3, 1]⟩⟩

def patient : LogVar := ⟨"Z", people⟩

theorem eq_sources {f : CountingFormula} (hf : Prv.count f ∈ infected.prvs) : f = sources := by
  simpa [infected] using hf

theorem accepted_infected : infected.Accepted :=
  ⟨rfl, fun f hf => eq_sources hf ▸ rfl, by decide⟩

theorem isOrdered_infected : ∀ a ∈ infected.prvs, a.IsOrdered := by
  rintro _ ha f rfl
  rw [eq_sources ha]
  exact (by decide : ∀ c ∈ sources.constraints, Constraint.ordered c.first c.second = c)

end Epidemic

/-- **Sick people under another name** are renamed, and so are their sources. -/
theorem Epidemic.align_meaning_infected : ∃ r, (prior patient).align? infected = some r
    ∧ r.logVars = [patient] ∧ (prior patient).isMultipliable r = true
    ∧ ∀ w : World, r.meaning w = infected.meaning w := by
  have hvars : ((prior patient).align? infected).map (·.logVars) = some [patient] := by
    decide +kernel
  cases h : (prior patient).align? infected with
  | none =>
    rw [h] at hvars
    cases hvars
  | some r =>
    rw [h] at hvars
    obtain ⟨hfit, -, hmeaning⟩ := Parfactor.align_meaning accepted_infected isOrdered_infected h
    have hsuits : infected.Suits (prior patient) := ⟨rfl, fun f hf => by
      rw [eq_sources hf]
      decide⟩
    exact ⟨r, rfl, Option.some.inj hvars, hfit, hmeaning hsuits⟩

/-- a formula over `X` that excludes `Y` counts nobody where `Y` is renamed to `X` -/
example : ((Epidemic.prior Epidemic.person).align? Epidemic.infected).map (·.prvs)
    = some [.atom (Epidemic.sick (.var Epidemic.person)),
        .count ⟨Epidemic.person, Epidemic.infects (.var Epidemic.person) (.var Epidemic.person),
          .ofList [.ordered Epidemic.person (.var Epidemic.person)]⟩] := by decide +kernel

end LiftedElimination
