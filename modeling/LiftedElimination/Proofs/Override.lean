import Mathlib

/-!
# Functions with free values on a finite set

`overrides s choices base` is the finite set of the functions that take one of the `choices` at
every point of `s` and agree with `base` everywhere else.  Groundings of logical variables and
assignments of values to ground random variables are both of this kind.

* `piecewise_mem_overrides`   a choice set back on some points is one on the others;
* `sum_overrides_union`   a sum over two disjoint sets of points is a double sum;
* `prod_sum_overrides`    a product of sums over disjoint blocks of points is one sum of products.
-/

namespace LiftedElimination

open Finset

section
variable {α β : Type} [DecidableEq α]

/-- a choice at each point of `s`, continued by `base` -/
def override (s : Finset α) (base : α → β) (f : (a : α) → a ∈ s → β) : α → β :=
  fun a => if h : a ∈ s then f a h else base a

theorem override_injective (s : Finset α) (base : α → β) : (override s base).Injective := by
  intro f g h
  funext a ha
  have hfa := congrFun h a
  simpa only [override, dif_pos ha] using hfa

/-- the functions with a value out of `choices` at each point of `s`, equal to `base` elsewhere -/
def overrides (s : Finset α) (choices : α → Finset β) (base : α → β) : Finset (α → β) :=
  (s.pi choices).map ⟨override s base, override_injective s base⟩

theorem mem_overrides {s : Finset α} {choices : α → Finset β} {base f : α → β} :
    f ∈ overrides s choices base ↔ (∀ a ∈ s, f a ∈ choices a) ∧ ∀ a ∉ s, f a = base a := by
  rw [overrides, mem_map]
  constructor
  · rintro ⟨g, hg, rfl⟩
    refine ⟨fun a ha => ?_, fun a ha => ?_⟩
    · show override s base g a ∈ choices a
      rw [override, dif_pos ha]
      exact mem_pi.mp hg a ha
    · show override s base g a = base a
      rw [override, dif_neg ha]
  · rintro ⟨hs, hb⟩
    refine ⟨fun a _ => f a, mem_pi.mpr hs, ?_⟩
    funext a
    show override s base (fun a _ => f a) a = f a
    unfold override
    split
    · rfl
    · rename_i ha
      exact (hb a ha).symm

theorem overrides_empty (choices : α → Finset β) (base : α → β) :
    overrides ∅ choices base = {base} := by
  ext f
  rw [mem_overrides, mem_singleton]
  refine ⟨fun h => funext fun a => h.2 a (notMem_empty a), ?_⟩
  rintro rfl
  exact ⟨fun a ha => absurd ha (notMem_empty a), fun _ _ => rfl⟩

/-- a choice on more points than `s`, set back on `t`, is a choice on `s` -/
theorem piecewise_mem_overrides {s t u : Finset α} (hst : Disjoint s t) (hsu : s ⊆ u)
    (hut : u ⊆ s ∪ t) {choices : α → Finset β} {base base' f : α → β}
    (hbase : ∀ a ∉ t, base a = base' a) (hf : f ∈ overrides u choices base) :
    t.piecewise base' f ∈ overrides s choices base' := by
  obtain ⟨hin, hout⟩ := mem_overrides.mp hf
  refine mem_overrides.mpr ⟨fun a ha => ?_, fun a ha => ?_⟩
  · rw [piecewise_eq_of_notMem _ _ _ (disjoint_left.mp hst ha)]
    exact hin a (hsu ha)
  · by_cases hat : a ∈ t
    · exact piecewise_eq_of_mem _ _ _ hat
    · rw [piecewise_eq_of_notMem _ _ _ hat, hout a fun hau => (mem_union.mp (hut hau)).elim ha hat]
      exact hbase a hat

/-- a choice on `s`, and from there one on `t` -/
theorem mem_overrides_union {s t : Finset α} {choices : α → Finset β} {base f g : α → β}
    (hg : g ∈ overrides s choices base) (hf : f ∈ overrides t choices g) :
    f ∈ overrides (s ∪ t) choices base := by
  obtain ⟨hgin, hgout⟩ := mem_overrides.mp hg
  obtain ⟨hfin, hfout⟩ := mem_overrides.mp hf
  refine mem_overrides.mpr ⟨fun a ha => ?_, fun a ha => ?_⟩
  · by_cases hat : a ∈ t
    · exact hfin a hat
    · rw [hfout a hat]
      exact hgin a ((mem_union.mp ha).resolve_right hat)
  · exact (hfout a fun h => ha (mem_union_right s h)).trans
      (hgout a fun h => ha (mem_union_left t h))

/-- what agrees with `base` on `t` is found again by setting `t` back -/
theorem piecewise_of_mem_overrides {t : Finset α} {choices : α → Finset β} {base f g : α → β}
    (hg : ∀ a ∈ t, g a = base a) (hf : f ∈ overrides t choices g) : t.piecewise base f = g := by
  funext a
  by_cases hat : a ∈ t
  · rw [piecewise_eq_of_mem _ _ _ hat, hg a hat]
  · rw [piecewise_eq_of_notMem _ _ _ hat, (mem_overrides.mp hf).2 a hat]

end

section
variable {α β K : Type} [DecidableEq α] [CommSemiring K]

theorem sum_overrides_union {s t : Finset α} (hst : Disjoint s t) (choices : α → Finset β)
    (base : α → β) (F : (α → β) → K) :
    ∑ f ∈ overrides (s ∪ t) choices base, F f
      = ∑ g ∈ overrides s choices base, ∑ f ∈ overrides t choices g, F f := by
  rw [Finset.sum_sigma']
  refine Finset.sum_bij' (fun f _ => ⟨t.piecewise base f, f⟩) (fun p _ => p.2) (fun f hf => ?_)
    (fun p hp => ?_) (fun _ _ => rfl) (fun p hp => ?_) fun _ _ => rfl
  · refine mem_sigma.mpr ⟨piecewise_mem_overrides hst subset_union_left subset_rfl
      (fun _ _ => rfl) hf, mem_overrides.mpr ⟨fun a ha => ?_, fun a ha => ?_⟩⟩
    · exact (mem_overrides.mp hf).1 a (mem_union_right s ha)
    · exact (piecewise_eq_of_notMem _ _ _ ha).symm
  · obtain ⟨hg, hf⟩ := mem_sigma.mp hp
    exact mem_overrides_union hg hf
  · obtain ⟨hg, hf⟩ := mem_sigma.mp hp
    have hback := piecewise_of_mem_overrides
      (fun a hat => (mem_overrides.mp hg).2 a (disjoint_right.mp hst hat)) hf
    exact Sigma.ext hback HEq.rfl

/-- a sum of a function that does not look at the points of `t` may start from any function that
differs from `base` on `t` only -/
theorem sum_overrides_base {s t : Finset α} (hst : Disjoint s t) (choices : α → Finset β)
    {base base' : α → β} (hbase : ∀ a ∉ t, base a = base' a) {F : (α → β) → K}
    (hF : ∀ f g, (∀ a ∉ t, f a = g a) → F f = F g) :
    ∑ f ∈ overrides s choices base, F f = ∑ f ∈ overrides s choices base', F f := by
  have hback : ∀ {f b b' : α → β}, f ∈ overrides s choices b →
      t.piecewise b (t.piecewise b' f) = f := by
    intro f b b' hf
    rw [piecewise_idem_right]
    refine funext fun a => ?_
    by_cases hat : a ∈ t
    · rw [piecewise_eq_of_mem _ _ _ hat, (mem_overrides.mp hf).2 a (disjoint_right.mp hst hat)]
    · rw [piecewise_eq_of_notMem _ _ _ hat]
  exact Finset.sum_bij' (fun f _ => t.piecewise base' f) (fun f _ => t.piecewise base f)
    (fun f hf => piecewise_mem_overrides hst subset_rfl subset_union_left hbase hf)
    (fun f hf => piecewise_mem_overrides hst subset_rfl subset_union_left
      (fun a hat => (hbase a hat).symm) hf)
    (fun f hf => hback hf) (fun f hf => hback hf)
    fun f _ => hF _ _ fun a hat => (piecewise_eq_of_notMem _ _ _ hat).symm

omit [CommSemiring K] in
/-- a function that looks at no point of any block does not look at their union -/
theorem eq_of_agree_outside {ι : Type} [DecidableEq ι] {J : Finset ι} {B : ι → Finset α}
    {F : (α → β) → K} (hF : ∀ j ∈ J, ∀ f g, (∀ a ∉ B j, f a = g a) → F f = F g) {f g : α → β}
    (hfg : ∀ a ∉ J.biUnion B, f a = g a) : F f = F g := by
  induction J using Finset.induction_on generalizing f with
  | empty => exact congrArg F (funext fun a => hfg a (by simp))
  | insert j J hj ih =>
    calc F f = F ((B j).piecewise g f) := hF j (mem_insert_self j J) _ _ fun a ha =>
          (piecewise_eq_of_notMem _ _ _ ha).symm
      _ = F g := by
        refine ih (fun k hk => hF k (mem_insert_of_mem hk)) fun a ha => ?_
        by_cases haj : a ∈ B j
        · exact piecewise_eq_of_mem _ _ _ haj
        · rw [piecewise_eq_of_notMem _ _ _ haj]
          refine hfg a fun h => ?_
          rw [biUnion_insert, mem_union] at h
          exact h.elim haj ha

/-- **A product of sums over disjoint blocks is a sum of products**, where the factor of a block
looks at no other block. -/
theorem prod_sum_overrides {ι : Type} [DecidableEq ι] (I : Finset ι) (B : ι → Finset α)
    (hB : ∀ i ∈ I, ∀ j ∈ I, i ≠ j → Disjoint (B i) (B j)) (choices : α → Finset β)
    (G : ι → (α → β) → K)
    (hG : ∀ i ∈ I, ∀ j ∈ I, i ≠ j → ∀ f g, (∀ a ∉ B j, f a = g a) → G i f = G i g)
    (base : α → β) :
    ∏ i ∈ I, ∑ f ∈ overrides (B i) choices base, G i f
      = ∑ f ∈ overrides (I.biUnion B) choices base, ∏ i ∈ I, G i f := by
  induction I using Finset.induction_on generalizing base with
  | empty => simp [overrides_empty]
  | insert i I hi ih =>
    have hne : ∀ j ∈ I, i ≠ j := fun j hj h => hi (h ▸ hj)
    have hdisj : Disjoint (B i) (I.biUnion B) := by
      rw [Finset.disjoint_biUnion_right]
      exact fun j hj => hB i (mem_insert_self i I) j (mem_insert_of_mem hj) (hne j hj)
    have ih' := fun base => ih
      (fun j hj k hk => hB j (mem_insert_of_mem hj) k (mem_insert_of_mem hk))
      (fun j hj k hk => hG j (mem_insert_of_mem hj) k (mem_insert_of_mem hk)) base
    rw [biUnion_insert, sum_overrides_union hdisj, prod_insert hi, Finset.sum_mul]
    refine Finset.sum_congr rfl fun g hg => ?_
    obtain ⟨_, hgout⟩ := mem_overrides.mp hg
    -- the factor of the block `i` is settled by `g`: the later choices are in other blocks
    have hGi : ∀ f ∈ overrides (I.biUnion B) choices g, G i f = G i g := fun f hf =>
      eq_of_agree_outside
        (fun j hj => hG i (mem_insert_self i I) j (mem_insert_of_mem hj) (hne j hj))
        (mem_overrides.mp hf).2
    have hrest : ∏ j ∈ I, ∑ f ∈ overrides (B j) choices base, G j f
        = ∏ j ∈ I, ∑ f ∈ overrides (B j) choices g, G j f := by
      refine Finset.prod_congr rfl fun j hj => ?_
      have hji : j ≠ i := (hne j hj).symm
      exact sum_overrides_base
        (hB j (mem_insert_of_mem hj) i (mem_insert_self i I) hji) choices
        (fun a ha => (hgout a ha).symm)
        (hG j (mem_insert_of_mem hj) i (mem_insert_self i I) hji)
    rw [hrest, ih' g, Finset.mul_sum]
    refine Finset.sum_congr rfl fun f hf => ?_
    rw [prod_insert hi, hGi f hf]

end

end LiftedElimination
