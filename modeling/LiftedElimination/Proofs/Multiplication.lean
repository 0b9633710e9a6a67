import LiftedElimination.Proofs.Countable

/-!
# Multiplication

Two parfactors over the same groundings are multiplied entry by entry over the union of their random
variables.  The product is found exactly if the joint table fits, and it means the product of the
meanings wherever its table has an entry for every grounding, in either order of the operands.

* `isMultipliable_symm`    both orders are possible or none is;
* `selects_multiply`       where the product has entries;
* `exists_multiply_iff`    when multiplying succeeds;
* `multiply_meaning`       what multiplying comes to.
-/

namespace LiftedElimination

variable {K : Type}

namespace Parfactor

variable {p q r : Parfactor K}

theorem isMultipliable_symm (h : p.isMultipliable q = true) : q.isMultipliable p = true := by
  have hpq := alongside_of_isMultipliable h
  rw [isMultipliable, Bool.and_eq_true, beq_iff_eq] at h ⊢
  refine ⟨h.1.symm, ?_⟩
  have hlength := h.2
  rw [sameVars, Bool.and_eq_true, beq_iff_eq] at hlength
  rw [sameVars, Bool.and_eq_true, beq_iff_eq, List.all_eq_true]
  exact ⟨hlength.1.symm, fun x hx => decide_eq_true ((hpq.logVars x).mpr hx)⟩

section
variable [Scalar K]

theorem multiply_eq_rebuild (h : p.isMultipliable q = true) : p.multiply q
    = rebuild p.constraints (unionPrvs p.prvs q.prvs) (fun digits => do
      let x ← p.factor.entry p.sizes (digits.take p.prvs.length)
      let y ← q.factor.entry q.sizes
        ((q.prvs.map (unionPrvs p.prvs q.prvs).idxOf).map fun k => digits.getD k 0)
      return x * y) := by
  unfold multiply
  rw [h]
  rfl

/-- **When multiplying succeeds**: exactly if the joint table fits. -/
theorem exists_multiply_iff (hp : p.Tabulated) (hq : q.Tabulated) (h : p.isMultipliable q = true) :
    (∃ r, p.multiply q = .ok r) ↔ Index.Fits ((unionPrvs p.prvs q.prvs).map Prv.rangeSize) := by
  rw [multiply_eq_rebuild h]
  exact exists_rebuild_iff fun _ _ hd => hp.errorsIn_productEntry hq hd

/-- the product has entries where both factors have -/
theorem selects_multiply (h : p.multiply q = .ok r) (w : World) :
    r.Selects w ↔ p.Selects w ∧ q.Selects w := by
  have hrp := (alongside_multiply h).solutions_eq
  have hpq := (multiply_ok h).1.solutions_eq
  simp only [selects_iff, mem_prvs_multiply h, hrp, ← hpq]
  constructor
  · exact fun hr => ⟨fun γ hγ s hs => hr γ hγ s (.inl hs), fun γ hγ s hs => hr γ hγ s (.inr hs)⟩
  · rintro ⟨hp, hq⟩ γ hγ s (hs | hs)
    · exact hp γ hγ s hs
    · exact hq γ hγ s hs

theorem Accurate.multiply (hp : p.Accurate) (hq : q.Accurate) (h : p.multiply q = .ok r) :
    r.Accurate := by
  intro γ hγ f hf
  rw [(alongside_multiply h).solutions_eq] at hγ
  rcases (mem_prvs_multiply h).mp hf with hf | hf
  · exact hp γ hγ f hf
  · exact hq γ ((multiply_ok h).1.solutions_eq ▸ hγ) f hf

/-- with accurate formulas every legal world has entries -/
theorem readable_multiply (hp : p.Proper) (hq : q.Proper) (haccurate : p.Accurate)
    (haccurate' : q.Accurate) (h : p.multiply q = .ok r) : r.Readable := by
  have hr := haccurate.multiply haccurate' h
  obtain ⟨-, hprvs⟩ := parts_multiply h
  refine readable_rebuild (multiply_ok h).2 (hprvs ▸ (hp.multiply hq h).valid) fun γ hγ s hs => ?_
  exact hr.prv hγ (hprvs ▸ hs)

end

/-- **Multiplication multiplies meanings**: two parfactors that the builder has accepted, and that may
be multiplied, are multiplied exactly if the joint table fits.  The product has an entry for every
grounding in just the worlds where both factors have, so in every legal world if the formulas count
what their domain size says.  In each of these worlds it means the product of the meanings, and so
does the product in the other order. -/
theorem multiply_meaning [ExactScalar K] (hp : p.Accepted) (hq : q.Accepted)
    (h : p.isMultipliable q = true) :
    ((∃ r, p.multiply q = .ok r) ↔ Index.Fits ((unionPrvs p.prvs q.prvs).map Prv.rangeSize))
      ∧ ∀ r, p.multiply q = .ok r →
        (∀ w : World, r.Selects w ↔ p.Selects w ∧ q.Selects w)
        ∧ (p.Accurate → q.Accurate → ∀ w : World, w.Legal r.scope → r.Selects w)
        ∧ (∀ w : World, r.Selects w → r.meaning w = p.meaning w * q.meaning w)
        ∧ ((∃ s, q.multiply p = .ok s) ↔ Index.Fits ((unionPrvs q.prvs p.prvs).map Prv.rangeSize))
        ∧ ∀ s, q.multiply p = .ok s → ∀ w : World, r.Selects w → s.meaning w = r.meaning w := by
  refine ⟨exists_multiply_iff hp.tabulated hq.tabulated h, fun r hr => ?_⟩
  have hselects := selects_multiply hr
  refine ⟨hselects, fun haccurate haccurate' w hw => ?_, fun w => meaning_multiply_of_selects hr,
    exists_multiply_iff hq.tabulated hp.tabulated (isMultipliable_symm h), fun s hs w hw => ?_⟩
  · exact (readable_multiply hp.proper hq.proper haccurate haccurate' hr).selects hw
  · have hback : s.Selects w := (selects_multiply hs w).mpr ((hselects w).mp hw).symm
    rw [meaning_multiply_of_selects hs hback, meaning_multiply_of_selects hr hw, mul_comm]

end Parfactor

/-! ## visits and contacts -/

open scoped ExactScalar

namespace Epidemic

/-- who infects a visitor, by the number of sources and by whether the visitor is sick, asked twice -/
def contacts : Parfactor Nat :=
  ⟨.ofList [.ordered visitor (.var other)],
    [.atom (infects (.var other) (.var visitor)), .count sources, .atom (sick (.var visitor)),
      .atom (sick (.var visitor))],
    ⟨#[2, 1, 3, 1, 1, 4, 2, 5, 1, 2, 2, 1, 3, 3, 1, 6, 2, 1, 1, 7, 2, 1, 5, 3]⟩⟩

theorem accepted_visits : visits.Accepted := by
  refine ⟨rfl, fun f hf => ?_, by decide⟩
  obtain rfl : f = sources := by simpa [visits] using hf
  rfl

theorem accepted_contacts : contacts.Accepted := by
  refine ⟨rfl, fun f hf => ?_, by decide⟩
  obtain rfl : f = sources := by simpa [contacts] using hf
  rfl

theorem accurate_visits : visits.Accurate := by
  intro γ hγ f hf
  obtain rfl : f = sources := by simpa [visits] using hf
  exact (exact_sources (other_mem hγ (by decide))).card

theorem accurate_contacts : contacts.Accurate := by
  intro γ hγ f hf
  obtain rfl : f = sources := by simpa [contacts] using hf
  exact (exact_sources (other_mem hγ (by decide))).card

end Epidemic

/-- the two parfactors share a formula and an atom, which the second one lists twice -/
theorem Epidemic.multiply_meaning_visits : ∃ r, visits.multiply contacts = .ok r
    ∧ ∃ s, contacts.multiply visits = .ok s
      ∧ ∀ w : World, w.Legal r.scope → r.meaning w = visits.meaning w * contacts.meaning w
        ∧ s.meaning w = r.meaning w := by
  obtain ⟨hsucceeds, hproduct⟩ := Parfactor.multiply_meaning accepted_visits accepted_contacts
    (by decide)
  obtain ⟨r, hr⟩ := hsucceeds.mpr ⟨24, by decide⟩
  obtain ⟨-, hselects, hmeaning, hback, hcomm⟩ := hproduct r hr
  obtain ⟨s, hs⟩ := hback.mpr ⟨48, by decide⟩
  refine ⟨r, hr, s, hs, fun w hw => ?_⟩
  have hw := hselects accurate_visits accurate_contacts w hw
  exact ⟨hmeaning w hw, hcomm s hs w hw⟩

end LiftedElimination
