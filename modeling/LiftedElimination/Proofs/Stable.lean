import LiftedElimination.Proofs.Hereditary
import LiftedElimination.Proofs.Normal

/-!
# Normal forms are stable

Every phase of the normal form ends when it finds nothing more to do, and the later phases give the
earlier ones nothing to do.  So a normal form is its own normal form, and so is its square.

* `Grounded`          there is a grounding, and no variable has a single individual left;
* `Parfactor.Stable`  no phase of the normal form has anything to do;
* `Component.stable_of_normalize`, `Component.Stable.normalize`   normal forms are the stable ones.
-/

namespace LiftedElimination

variable {K : Type}

/-! ## grounding -/

/-- there is a grounding, and every variable has more than one individual left -/
structure Grounded (cs : ConstraintSet) (vars : List LogVar) : Prop where
  satisfiable : cs.satisfiable vars = true
  several : cs.singleton? vars = none

theorem Grounded.mono {cs : ConstraintSet} {vars ws : List LogVar} (h : Grounded cs vars)
    (hvars : vars.Nodup) (hws : ws.Nodup) (hsub : ∀ x ∈ ws, x ∈ vars) : Grounded cs ws :=
  ⟨ConstraintSet.satisfiable_mono hvars hws hsub h.satisfiable, List.findSome?_eq_none_iff.mpr
    fun x hx => List.findSome?_eq_none_iff.mp h.several x (hsub x hx)⟩

section
variable {P : Type} {vars : P → List LogVar} {cs : P → ConstraintSet}
  {apply : P → Substitution → Option P} {p q : P}

theorem groundRound_eq_none_iff :
    groundRound vars cs apply (some p) = none ↔ Grounded (cs p) (vars p) := by
  rw [groundRound]
  constructor
  · intro h
    split at h
    · rename_i hsat
      exact ⟨hsat, Option.map_eq_none_iff.mp h⟩
    · cases h
  · rintro ⟨hsat, hseveral⟩
    rw [if_pos hsat, hseveral]
    rfl

theorem settle_of_none {α : Type} {step : α → Except Error (Option α)} {a : α}
    (h : step a = .ok none) (bound : Nat) : settle step bound a = .ok a := by
  unfold settle
  rw [h]

theorem grounded_of_groundSingletons (h : groundSingletons vars cs apply p = .ok (some q)) :
    Grounded (cs q) (vars q) := by
  have hdone := (settle_ok (p := fun _ => True) (fun _ _ _ _ => trivial) trivial h).2
  exact groundRound_eq_none_iff.mp (Except.ok.inj hdone)

theorem Grounded.groundSingletons (h : Grounded (cs p) (vars p)) :
    groundSingletons vars cs apply p = .ok (some p) :=
  settle_of_none (congrArg Except.ok (groundRound_eq_none_iff.mpr h)) _

end

/-! ## parfactors -/

namespace Parfactor

variable {p q : Parfactor K}

/-- no phase of the normal form has anything to do -/
structure Stable (p : Parfactor K) : Prop where
  grounded : Grounded p.constraints p.logVars
  simple : p.trivialFormula? = none
  merged : repeated? [] p.prvs = none

theorem Stable.normalize (h : p.Stable) : p.normalize = .ok (some p) := by
  have hsimple : p.simplifyCounting = .ok p :=
    settle_of_none (by rw [simplifyRound, h.simple]) _
  have hmerged : p.mergeRepeated = .ok p := settle_of_none (by rw [mergeRound, h.merged]) _
  unfold Parfactor.normalize
  rw [h.grounded.groundSingletons]
  show (p.simplifyCounting >>= fun p => p.mergeRepeated >>= fun p => .ok (some p)) = .ok (some p)
  rw [hsimple]
  show (p.mergeRepeated >>= fun p => .ok (some p)) = .ok (some p)
  rw [hmerged]
  rfl

/-! ### the phases -/

/-- fewer random variables under the same constraints are as grounded -/
theorem grounded_of_prvs (hp : Grounded p.constraints p.logVars) (hcs : q.constraints = p.constraints)
    (hprvs : ∀ r ∈ q.prvs, ∀ x ∈ r.freeVars, x ∈ p.logVars) :
    Grounded q.constraints q.logVars := by
  rw [hcs]
  refine hp.mono p.nodup_logVars q.nodup_logVars fun x hx => ?_
  rcases mem_logVars.mp hx with ⟨r, hr, hxr⟩ | hx
  · exact hprvs r hr x hxr
  · exact mem_logVars.mpr (.inr (hcs ▸ hx))

theorem grounded_simplifyRound (hp : Grounded p.constraints p.logVars)
    (h : p.simplifyRound = .ok (some q)) : Grounded q.constraints q.logVars := by
  have hown : ∀ r ∈ p.prvs, ∀ x ∈ r.freeVars, x ∈ p.logVars := fun r hr x hx =>
    mem_logVars.mpr (.inl ⟨r, hr, hx⟩)
  obtain ⟨i, f, hf, ⟨-, hdrop⟩ | ⟨-, a, hsole, rfl⟩⟩ := simplifyRound_ok h
  · obtain ⟨hcs, hprvs, -⟩ := rebuild_ok hdrop
    exact grounded_of_prvs hp hcs fun r hr => hown r (List.mem_of_mem_eraseIdx (hprvs ▸ hr))
  · refine grounded_of_prvs hp rfl fun r hr x hx => ?_
    rcases List.mem_or_eq_of_mem_set hr with hr | rfl
    · exact hown r hr x hx
    · obtain ⟨-, c, -, rfl⟩ := soleAtom?_eq_some hsole
      exact hown _ (List.mem_of_getElem? hf) x
        (CountingFormula.mem_freeVars.mpr (.inl (mem_variables_instantiate.mp hx)))

theorem trivialFormula?_of_simplifyRound (h : p.simplifyRound = .ok none) :
    p.trivialFormula? = none := by
  unfold simplifyRound at h
  split at h
  · assumption
  · obtain ⟨q, -, hq⟩ := map_ok h
    cases hq
  · cases h

/-- whether there is a formula to drop or to ground does not depend on the places -/
theorem trivialFormula?_eq_none_iff : p.trivialFormula? = none ↔ ∀ f, Prv.count f ∈ p.prvs →
    f.domainSize ≠ 0 ∧ (f.domainSize = 1 → soleAtom? f = none) := by
  unfold trivialFormula?
  rw [List.findSome?_eq_none_iff]
  constructor
  · intro h f hf
    obtain ⟨i, hi⟩ := List.mem_iff_getElem?.mp hf
    have hround := h (.count f, i) (List.mk_mem_zipIdx_iff_getElem?.mpr hi)
    dsimp only at hround
    refine ⟨fun hzero => ?_, fun hone => ?_⟩
    · rw [hzero] at hround
      cases hround
    · rw [hone] at hround
      exact Option.map_eq_none_iff.mp hround
  · rintro h ⟨q, i⟩ hq
    cases q with
    | atom a => rfl
    | count f =>
      obtain ⟨hzero, hone⟩ :=
        h f (List.mem_of_getElem? (List.mk_mem_zipIdx_iff_getElem?.mp hq))
      dsimp only
      split
      · exact absurd ‹_› hzero
      · rw [hone ‹_›]
        rfl
      · rfl

theorem repeated?_of_mergeRound (h : p.mergeRound = .ok none) : repeated? [] p.prvs = none := by
  unfold mergeRound at h
  split at h
  · assumption
  · obtain ⟨q, -, hq⟩ := map_ok h
    cases hq

/-- **Normal forms are stable.** -/
theorem stable_of_normalize (h : p.normalize = .ok (some q)) : q.Stable := by
  obtain ⟨g, hg, ⟨-, hr⟩ | ⟨r, t, u, rfl, ht, hu, hqu⟩⟩ := normalize_ok h
  · cases hr
  cases hqu
  obtain ⟨hground, hsimple⟩ := settle_ok
    (p := fun p : Parfactor K => Grounded p.constraints p.logVars)
    (fun _ _ hp hq => grounded_simplifyRound hp hq) (grounded_of_groundSingletons hg) ht
  have hsimple := trivialFormula?_eq_none_iff.mp (trivialFormula?_of_simplifyRound hsimple)
  -- merging only takes random variables away
  obtain ⟨⟨hground, hsub⟩, hmerged⟩ := settle_ok
    (p := fun p : Parfactor K => Grounded p.constraints p.logVars ∧ ∀ r ∈ p.prvs, r ∈ t.prvs)
    (fun a b ⟨ha, hsub⟩ hab => by
      obtain ⟨i, j, _, -, -, -, hmerge⟩ := mergeRound_ok hab
      obtain ⟨hcs, hprvs, -⟩ := rebuild_ok hmerge
      have herase : ∀ r ∈ b.prvs, r ∈ a.prvs := fun r hr =>
        List.mem_of_mem_eraseIdx (hprvs ▸ hr)
      exact ⟨grounded_of_prvs ha hcs fun r hr x hx => mem_logVars.mpr (.inl ⟨r, herase r hr, hx⟩),
        fun r hr => hsub r (herase r hr)⟩) ⟨hground, fun _ hr => hr⟩ hu
  exact ⟨hground, trivialFormula?_eq_none_iff.mpr fun f hf => hsimple f (hsub _ hf),
    repeated?_of_mergeRound hmerged⟩

end Parfactor

/-! ## components -/

namespace Component

variable {c d : Component K}

/-- no phase of the normal form has anything to do -/
def Stable : Component K → Prop
  | standard p => p.Stable
  | aggregation a => Grounded a.constraints a.logVars

/-- **Stable components are their own normal forms.** -/
theorem Stable.normalize (h : c.Stable) : c.normalize = .ok (some c) := by
  cases c with
  | standard p =>
    have hp : p.Stable := h
    rw [Component.normalize, hp.normalize]
    rfl
  | aggregation a =>
    have ha : a.normalize = .ok (some a) := Grounded.groundSingletons h
    rw [Component.normalize, ha]
    rfl

theorem stable_of_normalize (h : c.normalize = .ok (some d)) : d.Stable := by
  cases c with
  | standard p =>
    obtain ⟨o, ho, hod⟩ := map_ok h
    obtain ⟨q, rfl, rfl⟩ := Option.map_eq_some_iff.mp hod
    exact Parfactor.stable_of_normalize ho
  | aggregation a =>
    obtain ⟨o, ho, hod⟩ := map_ok h
    obtain ⟨b, rfl, rfl⟩ := Option.map_eq_some_iff.mp hod
    exact grounded_of_groundSingletons ho

/-- a square differs in its table only -/
theorem Stable.squared [Scalar K] (h : c.Stable) : c.squared.Stable := by
  cases c with
  | standard p =>
    have hp : p.Stable := h
    exact Parfactor.Stable.mk hp.grounded hp.simple hp.merged
  | aggregation a => exact h

theorem stable_perform [Scalar K] {a : Action} {l : List (Component K)} (h : c.perform a = .ok l) :
    ∀ d ∈ l, d.Stable := by
  obtain ⟨pieces, normal, -, hn, rfl⟩ := perform_ok h
  intro d hd
  obtain ⟨p, -, hpd⟩ := mem_of_normalized hn hd
  exact stable_of_normalize hpd

end Component

end LiftedElimination
