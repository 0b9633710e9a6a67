import LiftedElimination.Proofs.Freedom
import LiftedElimination.Proofs.Convert
import LiftedElimination.Proofs.Separation

/-!
# The bulk of a component

The bulk is the freedom of the logical variables times the load of the random variables.  Every
refinement lowers it, the pieces counted together, and so does normalization where it changes
anything.

* `Parfactor.Proper`      keeps out of the way of the bound variables, which is what makes a
                          substitution harmless;
* `Parfactor.bulk_apply_le`   an instance has no more bulk;
* `bulk_lt_of_replaced`   less bulk where a random variable gives way to lighter ones;
* `bulk_split`, `bulk_expand`, `bulk_toParfactors`   the pieces of a refinement together have less;
* `normalize_eq_or_lt`    a normal form is the potential itself or has less.
-/

namespace LiftedElimination

open Finset

variable {K : Type}

namespace Parfactor

variable {p q : Parfactor K} {b : Binding} {s : Substitution}

/-! ## what a parfactor hosts -/

/-- a checked random variable over the logical variables that binds none of them -/
structure Hosts (p : Parfactor K) (r : Prv) : Prop where
  valid : r.Valid
  free : ∀ x ∈ r.freeVars, x ∈ p.logVars
  bound : ∀ f, r = .count f → f.bound ∉ p.logVars

theorem Proper.hosts (hp : p.Proper) {r : Prv} (hr : r ∈ p.prvs) : p.Hosts r where
  valid := hp.valid r hr
  free _ hx := mem_logVars.mpr (.inl ⟨r, hr, hx⟩)
  bound f hf := hp.bound f (hf ▸ hr)

theorem Hosts.instantiate {f : CountingFormula} {t : Term} (h : p.Hosts (.count f))
    (ht : ∀ x, t = .var x → x ∈ p.logVars) : p.Hosts (.atom (f.instantiate t)) where
  valid := trivial
  free x hx := by
    rcases CountingFormula.mem_variables_instantiate_of hx with hx | hx
    · exact h.free x (CountingFormula.mem_freeVars.mpr (.inl hx))
    · exact ht x hx
  bound _ hf := nomatch hf

theorem Hosts.excluding {f : CountingFormula} {t : Term} (h : p.Hosts (.count f))
    (hne : t ≠ .var f.bound) (ht : ∀ x, t = .var x → x ∈ p.logVars) :
    p.Hosts (.count (f.excluding t)) where
  valid := CountingFormula.Valid.excluding h.valid hne
  free x hx := ((CountingFormula.mem_freeVars_excluding hne).mp hx).elim (h.free x) (ht x)
  bound g hg := by
    cases hg
    exact h.bound f rfl

theorem logVars_subset (hcs : q.constraints = p.constraints) (h : ∀ r ∈ q.prvs, p.Hosts r) :
    ∀ x ∈ q.logVars, x ∈ p.logVars := by
  intro x hx
  rcases mem_logVars.mp hx with ⟨r, hr, hx⟩ | hx
  · exact (h r hr).free x hx
  · exact mem_logVars.mpr (.inr (hcs ▸ hx))

theorem Proper.of_hosts (hcs : q.constraints = p.constraints) (h : ∀ r ∈ q.prvs, p.Hosts r) :
    q.Proper where
  valid r hr := (h r hr).valid
  bound f hf hmem := (h _ hf).bound f rfl (logVars_subset hcs h _ hmem)

theorem Proper.residual (hp : p.Proper) (hb : Binds p.logVars b) :
    Parfactor.Proper { p with constraints := p.constraints.insert (.ofBinding b) } where
  valid := hp.valid
  bound f hf hmem := hp.bound f hf ((mem_logVars_residual hb).mp hmem)

/-! ## the bulk of a parfactor -/

/-- the random variables together -/
def totalLoad (prvs : List Prv) (vars : Finset LogVar) : Nat := (prvs.map (·.load vars)).sum

/-- the freedom of the logical variables times the load of the random variables -/
def bulk (p : Parfactor K) : Nat :=
  p.constraints.freedom p.logVars.toFinset * (1 + totalLoad p.prvs p.logVars.toFinset)

theorem bulk_pos (p : Parfactor K) : 0 < p.bulk :=
  Nat.mul_pos (p.constraints.freedom_pos _) (Nat.add_pos_left Nat.one_pos _)

section
variable {vars ws : Finset LogVar} {prvs : List Prv} {i : Nat} {r r' : Prv}

theorem totalLoad_mono (prvs : List Prv) (h : ws ⊆ vars) : totalLoad prvs ws ≤ totalLoad prvs vars :=
  List.sum_le_sum fun q _ => q.load_mono h

theorem totalLoad_append (l m : List Prv) (vars : Finset LogVar) :
    totalLoad (l ++ m) vars = totalLoad l vars + totalLoad m vars := by
  rw [totalLoad, List.map_append, List.sum_append]
  rfl

theorem totalLoad_cons (q : Prv) (l : List Prv) (vars : Finset LogVar) :
    totalLoad (q :: l) vars = q.load vars + totalLoad l vars := List.sum_cons

theorem totalLoad_map_atom (l : List Atom) (vars : Finset LogVar) :
    totalLoad (l.map .atom) vars = l.length := by
  induction l with
  | nil => rfl
  | cons a l ih =>
    rw [List.map_cons, totalLoad_cons, ih, List.length_cons, Nat.add_comm]
    rfl

theorem totalLoad_eraseIdx (h : prvs[i]? = some r) (vars : Finset LogVar) :
    r.load vars + totalLoad (prvs.eraseIdx i) vars = totalLoad prvs vars := by
  obtain ⟨hlt, rfl⟩ := List.getElem?_eq_some_iff.mp h
  rw [← totalLoad_cons]
  exact ((List.getElem_cons_eraseIdx_perm hlt).map _).sum_eq

theorem totalLoad_set (h : prvs[i]? = some r) (vars : Finset LogVar) :
    r.load vars + totalLoad (prvs.set i r') vars = r'.load vars + totalLoad prvs vars := by
  obtain ⟨hlt, -⟩ := List.getElem?_eq_some_iff.mp h
  have hset : (prvs.set i r')[i]? = some r' := List.getElem?_set_self hlt
  rw [← totalLoad_eraseIdx h, ← totalLoad_eraseIdx hset, List.eraseIdx_set_eq]
  omega

end

/-- less load on the same logical variables -/
theorem bulk_lt_of_totalLoad (hcs : q.constraints = p.constraints) (h : ∀ r ∈ q.prvs, p.Hosts r)
    (hload : totalLoad q.prvs p.logVars.toFinset < totalLoad p.prvs p.logVars.toFinset) :
    q.bulk < p.bulk := by
  have hsub : q.logVars.toFinset ⊆ p.logVars.toFinset := fun x hx =>
    List.mem_toFinset.mpr (logVars_subset hcs h x (List.mem_toFinset.mp hx))
  refine Nat.mul_lt_mul_of_le_of_lt ?_ (Nat.add_lt_add_left ?_ 1) (p.constraints.freedom_pos _)
  · rw [hcs]
    exact (Embeds.refl _ hsub).freedom_le
  · exact (totalLoad_mono _ hsub).trans_lt hload

/-- **An instance has no more bulk**, and only the variables that it comes from count. -/
theorem bulk_apply_le {r : LogVar → LogVar} {vars : Finset LogVar} (hp : p.Proper)
    (hs : p.Admits s) (h : p.apply s = some q) (hvars : vars ⊆ p.logVars.toFinset)
    (hr : ∀ z ∈ q.logVars,
      r z ∈ vars ∧ s.apply (.var (r z)) = .var z ∧ z.population = (r z).population) :
    q.bulk ≤ p.constraints.freedom vars * (1 + totalLoad p.prvs p.logVars.toFinset) := by
  obtain ⟨ds, hds, rfl⟩ := apply_eq_some h
  refine Nat.mul_le_mul ?_ (Nat.add_le_add_left ?_ 1)
  · exact (Embeds.of_apply hds fun z hz => hr z (List.mem_toFinset.mp hz)).freedom_le
  · rw [totalLoad, totalLoad, List.map_map]
    refine List.sum_le_sum fun t ht => ?_
    refine Prv.load_apply_le (r := r) (hp.valid t ht) (hs.avoids ht) fun z hz => ?_
    obtain ⟨hmem, hrz, -⟩ := hr z (List.mem_toFinset.mp hz)
    exact ⟨hvars hmem, hrz⟩

/-- under a binding the source is gone -/
theorem bulk_instance_le (hp : p.Proper) (hb : Binds p.logVars b)
    (h : p.apply (.single b) = some q) : q.bulk
      ≤ p.constraints.freedom (p.logVars.toFinset.erase b.source)
        * (1 + totalLoad p.prvs p.logVars.toFinset) := by
  refine bulk_apply_le (r := id) hp (hp.admits hb) h (erase_subset _ _) fun z hz => ?_
  obtain ⟨hmem, hne⟩ := (hp.mem_logVars_instance hb h z).mp hz
  exact ⟨mem_erase.mpr ⟨hne, List.mem_toFinset.mpr hmem⟩, Substitution.apply_single_ne hne, rfl⟩

theorem bulk_instance_lt (hp : p.Proper) (hb : Binds p.logVars b)
    (h : p.apply (.single b) = some q) : q.bulk < p.bulk :=
  (bulk_instance_le hp hb h).trans_lt <| Nat.mul_lt_mul_of_pos_right
    (ConstraintSet.freedom_erase_lt (List.mem_toFinset.mpr hb.source_mem))
    (Nat.add_pos_left Nat.one_pos _)

/-! ## splits and expansions -/

/-- **The parts of a split** together have less bulk. -/
theorem bulk_split {s : Split (Parfactor K)} (hp : p.Proper) (h : p.split b = .ok s) :
    (s.fragment.Proper ∧ s.residual.Proper) ∧ s.fragment.bulk + s.residual.bulk < p.bulk := by
  obtain ⟨hs, hfragment, hresidual⟩ := split_ok h
  have hb := hs.binds
  refine ⟨⟨hp.apply (hp.admits hb) hfragment, hresidual ▸ hp.residual hb⟩, ?_⟩
  have hvars : s.residual.logVars.toFinset = p.logVars.toFinset := by
    ext x
    rw [List.mem_toFinset, List.mem_toFinset, hresidual, mem_logVars_residual hb]
  have hbulk : s.residual.bulk
      = ConstraintSet.freedom (p.constraints.insert (.ofBinding b)) p.logVars.toFinset
        * (1 + totalLoad p.prvs p.logVars.toFinset) := by
    rw [bulk, hvars, hresidual]
  calc s.fragment.bulk + s.residual.bulk
      ≤ (p.constraints.freedom (p.logVars.toFinset.erase b.source)
          + ConstraintSet.freedom (p.constraints.insert (.ofBinding b)) p.logVars.toFinset)
        * (1 + totalLoad p.prvs p.logVars.toFinset) := by
        rw [hbulk, Nat.add_mul]
        exact Nat.add_le_add_right (bulk_instance_le hp hb hfragment) _
    _ < p.bulk := Nat.mul_lt_mul_of_pos_right (ConstraintSet.freedom_split hs)
        (Nat.add_pos_left Nat.one_pos _)

/-- **A random variable replaced by lighter ones** lowers the bulk. -/
theorem bulk_lt_of_replaced {i : Nat} {v : Prv} {l : List Prv} (hp : p.Proper)
    (hi : p.prvs[i]? = some v) (hcs : q.constraints = p.constraints)
    (hprvs : q.prvs = p.prvs.take i ++ (l ++ p.prvs.drop (i + 1))) (hl : ∀ r ∈ l, p.Hosts r)
    (hload : totalLoad l p.logVars.toFinset < v.load p.logVars.toFinset) :
    q.Proper ∧ q.bulk < p.bulk := by
  have hhosts : ∀ r ∈ q.prvs, p.Hosts r := by
    intro r hr
    rw [hprvs, List.mem_append, List.mem_append] at hr
    rcases hr with hr | hr | hr
    · exact hp.hosts (List.mem_of_mem_take hr)
    · exact hl r hr
    · exact hp.hosts (List.mem_of_mem_drop hr)
  refine ⟨.of_hosts hcs hhosts, bulk_lt_of_totalLoad hcs hhosts ?_⟩
  calc totalLoad q.prvs p.logVars.toFinset
      = totalLoad (p.prvs.take i) p.logVars.toFinset + (totalLoad l p.logVars.toFinset
        + totalLoad (p.prvs.drop (i + 1)) p.logVars.toFinset) := by
        rw [hprvs, totalLoad_append, totalLoad_append]
    _ < totalLoad (p.prvs.take i) p.logVars.toFinset + (v.load p.logVars.toFinset
        + totalLoad (p.prvs.drop (i + 1)) p.logVars.toFinset) :=
        Nat.add_lt_add_left (Nat.add_lt_add_right hload _) _
    _ = totalLoad p.prvs p.logVars.toFinset := by
        conv_rhs => rw [(split_at hi).1, totalLoad_append, totalLoad_cons]

theorem bulk_lt_of_erased {i : Nat} {v : Prv} (hp : p.Proper) (hi : p.prvs[i]? = some v)
    (hcs : q.constraints = p.constraints) (hprvs : q.prvs = p.prvs.eraseIdx i) :
    q.Proper ∧ q.bulk < p.bulk :=
  bulk_lt_of_replaced (l := []) hp hi hcs (hprvs.trans (List.eraseIdx_eq_take_drop_succ ..))
    (fun _ hr => absurd hr List.not_mem_nil) (v.load_pos _)

/-- **An expansion** lowers the bulk. -/
theorem bulk_expand {f : CountingFormula} {t : Term} (hp : p.Proper) (h : p.expand f t = .ok q) :
    q.Proper ∧ q.bulk < p.bulk := by
  obtain ⟨i, hi, hon, hcases⟩ := expand_ok h
  have hf := hp.hosts (List.mem_of_getElem? hi)
  have hatom := hf.instantiate hon.logVar
  have hone : (Prv.atom (f.instantiate t)).load p.logVars.toFinset = 1 := rfl
  have hexcluding : (f.excluding t).load p.logVars.toFinset + 2 ≤ f.load p.logVars.toFinset := by
    refine CountingFormula.load_excluding hon.ne_bound (fun c hc => ?_) fun x hx => ?_
    · exact (CountingFormula.isExpandable_const (hc ▸ hon.expandable)).2
    · exact CountingFormula.mem_candidates.mpr
        ⟨List.mem_toFinset.mpr (hon.logVar x hx), hx ▸ hon.notMem⟩
  rcases hcases with ⟨-, hq⟩ | ⟨-, hq⟩
  · obtain ⟨hcs, hprvs, -⟩ := rebuild_ok hq
    refine bulk_lt_of_replaced (l := [.atom (f.instantiate t), .count (f.excluding t)]) hp hi hcs
      hprvs (fun r hr => ?_) ?_
    · simp only [List.mem_cons, List.not_mem_nil, or_false] at hr
      rcases hr with rfl | rfl
      · exact hatom
      · exact hf.excluding hon.ne_bound hon.logVar
    · show 1 + ((f.excluding t).load _ + 0) < f.load _
      omega
  · obtain ⟨hcs, hprvs, -⟩ := rebuild_ok hq
    refine bulk_lt_of_replaced (l := [.atom (f.instantiate t)]) hp hi hcs hprvs
      (fun r hr => List.mem_singleton.mp hr ▸ hatom) ?_
    show 1 + 0 < f.load _
    omega

/-! ## normal forms -/

theorem bulk_simplifyRound (hp : p.Proper) (h : p.simplifyRound = .ok (some q)) :
    q.Proper ∧ q.bulk < p.bulk := by
  obtain ⟨i, f, hi, ⟨-, hdrop⟩ | ⟨-, a, hsole, rfl⟩⟩ := simplifyRound_ok h
  · obtain ⟨hcs, hprvs, -⟩ := rebuild_ok hdrop
    exact bulk_lt_of_erased hp hi hcs hprvs
  · obtain ⟨-, c, hc, rfl⟩ := soleAtom?_eq_some hsole
    have hf := hp.hosts (List.mem_of_getElem? hi)
    obtain ⟨hlt, -⟩ := List.getElem?_eq_some_iff.mp hi
    refine bulk_lt_of_replaced (l := [.atom (f.instantiate (.const c))]) hp hi rfl
      (List.set_eq_take_append_cons_drop.trans (if_pos hlt))
      (fun r hr => List.mem_singleton.mp hr ▸ hf.instantiate nofun) ?_
    have hpos : 0 < f.individuals.size := List.length_pos_of_mem (List.mem_of_getElem? hc)
    show 1 + 0 < 2 * (f.individuals.size + _) + 1
    omega

theorem bulk_mergeRound (hp : p.Proper) (h : p.mergeRound = .ok (some q)) :
    q.Proper ∧ q.bulk < p.bulk := by
  obtain ⟨i, j, r, -, -, hj, hmerge⟩ := mergeRound_ok h
  obtain ⟨hcs, hprvs, -⟩ := rebuild_ok hmerge
  exact bulk_lt_of_erased hp hj hcs hprvs

/-- `q` is `p` itself or has less bulk -/
def Lighter (p q : Parfactor K) : Prop := q.Proper ∧ (q = p ∨ q.bulk < p.bulk)

theorem Lighter.step {r : Parfactor K} (h : Lighter p q) (hr : r.Proper ∧ r.bulk < q.bulk) :
    Lighter p r := by
  refine ⟨hr.1, .inr ?_⟩
  rcases h.2 with rfl | hlt
  · exact hr.2
  · exact hr.2.trans hlt

/-- **A normal form** is the parfactor itself or has less bulk. -/
theorem normalize_eq_or_lt (hp : p.Proper) (h : p.normalize = .ok (some q)) : Lighter p q := by
  obtain ⟨g, hg, ⟨-, hr⟩ | ⟨r, s, t, rfl, hs, ht, hqt⟩⟩ := normalize_ok h
  · cases hr
  cases hqt
  have hground : Lighter p r :=
    (groundSingletons_ok (I := fun o => ∀ q, o = some q → Lighter p q) (fun _ _ _ => nofun)
      (fun q x c hq hx hc r hr => (hq q rfl).step
        ⟨(hq q rfl).1.apply ((hq q rfl).1.admits (binds_of_individuals_eq hc hx)) hr,
          bulk_instance_lt (hq q rfl).1 (binds_of_individuals_eq hc hx) hr⟩)
      (fun q hq => by cases hq; exact ⟨hp, .inl rfl⟩) hg).1 r rfl
  have hsimple : Lighter p s := (settle_ok (p := Lighter p)
    (fun a b ha hab => ha.step (bulk_simplifyRound ha.1 hab)) hground hs).1
  exact (settle_ok (p := Lighter p)
    (fun a b ha hab => ha.step (bulk_mergeRound ha.1 hab)) hsimple ht).1

end Parfactor

/-! ## aggregation parfactors -/

namespace ConstraintSet

variable {cs : ConstraintSet} {vars : Finset LogVar} {x : LogVar}

/-- the variables of `vars` that no constraint keeps apart from `x` -/
def partners (cs : ConstraintSet) (x : LogVar) (vars : Finset LogVar) : Finset LogVar :=
  vars.filter fun y => cs.separates x (.var y) = false

theorem mem_partners {y : LogVar} :
    y ∈ cs.partners x vars ↔ y ∈ vars ∧ cs.separates x (.var y) = false := mem_filter

theorem loosePairs_insert (hx : x ∉ vars) : cs.loosePairs (insert x vars)
    = cs.loosePairs vars ∪ ((cs.partners x vars).image (fun y => (x, y))
      ∪ (cs.partners x vars).image fun y => (y, x)) := by
  ext ⟨y, z⟩
  simp only [mem_union, mem_image, mem_loosePairs, mem_insert, mem_partners, Prod.mk.injEq]
  constructor
  · rintro ⟨hy, hz, hne, hsep⟩
    rcases hy with hy | hy
    · rcases hz with hz | hz
      · exact absurd (hy.trans hz.symm) hne
      · rw [hy] at hsep
        exact .inr (.inl ⟨z, ⟨hz, hsep⟩, hy.symm, rfl⟩)
    · rcases hz with hz | hz
      · rw [hz, cs.separates_comm] at hsep
        exact .inr (.inr ⟨y, ⟨hy, hsep⟩, rfl, hz.symm⟩)
      · exact .inl ⟨hy, hz, hne, hsep⟩
  · have hne : ∀ u ∈ vars, u ≠ x := fun u hu h => hx (h ▸ hu)
    rintro (⟨hy, hz, hne, hsep⟩ | ⟨u, ⟨hu, hsep⟩, hy, hz⟩ | ⟨u, ⟨hu, hsep⟩, hy, hz⟩)
    · exact ⟨.inr hy, .inr hz, hne, hsep⟩
    · rw [← hy, ← hz]
      exact ⟨.inl rfl, .inr hu, (hne u hu).symm, hsep⟩
    · rw [← hy, ← hz, cs.separates_comm]
      exact ⟨.inr hu, .inl rfl, hne u hu, hsep⟩

theorem card_loosePairs_insert (hx : x ∉ vars) : (cs.loosePairs (insert x vars)).card
    = (cs.loosePairs vars).card + 2 * (cs.partners x vars).card := by
  have hleft : ((cs.partners x vars).image fun y => (x, y)).card = (cs.partners x vars).card :=
    card_image_of_injective _ fun y z h => congrArg Prod.snd h
  have hright : ((cs.partners x vars).image fun y => (y, x)).card = (cs.partners x vars).card :=
    card_image_of_injective _ fun y z h => congrArg Prod.fst h
  rw [loosePairs_insert hx, card_union_of_disjoint, card_union_of_disjoint, hleft, hright]
  · omega
  · refine disjoint_left.mpr fun p hp hq => ?_
    obtain ⟨u, -, rfl⟩ := mem_image.mp hp
    obtain ⟨v, hv, hvu⟩ := mem_image.mp hq
    have hvx : v = x := congrArg Prod.fst hvu
    exact hx (hvx ▸ (mem_partners.mp hv).1)
  · refine disjoint_left.mpr fun p hp hq => ?_
    obtain ⟨h₁, h₂, -⟩ := mem_loosePairs.mp hp
    rcases mem_union.mp hq with hq | hq
    · obtain ⟨u, -, rfl⟩ := mem_image.mp hq
      exact hx h₁
    · obtain ⟨u, -, rfl⟩ := mem_image.mp hq
      exact hx h₂

/-- the constraints on a variable do not matter to the others -/
theorem freedom_notOnVariable_le {ws : Finset LogVar} (hws : ws ⊆ vars) (hx : x ∉ vars) :
    (cs.notOnVariable x).freedom ws ≤ cs.freedom vars := by
  refine (Embeds.of_keeps hws fun z hz u hu hk =>
    mem_notOnVariable.mpr ⟨hk, fun hxk => ?_⟩).freedom_le
  rcases Constraint.mem_variables_ordered.mp hxk with rfl | hxu
  · exact hx (hws hz)
  · exact hx (hws (hu x hxu))

/-- one variable more, with its room and the pairs that it is part of -/
theorem freedom_insert (hx : x ∉ vars) : cs.freedom (insert x vars)
    = cs.freedom vars * (cs.room x * 4 ^ (cs.partners x vars).card) := by
  rw [freedom, prod_insert hx, card_loosePairs_insert hx, pow_add, pow_mul, freedom]
  ring

end ConstraintSet

/-- the load of a formula with all the constraints on its bound variable -/
theorem CountingFormula.load_le_of_own {f : CountingFormula} {cs : ConstraintSet}
    {vars ws : Finset LogVar} (hws : ws ⊆ vars) (hown : f.constraints = cs.onVariable f.bound) :
    f.load ws ≤ 2 * ((f.bound.domain cs).size + (cs.partners f.bound vars).card) + 1 := by
  have hkeeps : ∀ u, Constraint.ordered f.bound u ∈ cs → Constraint.ordered f.bound u ∈ f.constraints :=
    fun u hu => hown ▸ ConstraintSet.mem_onVariable.mpr
      ⟨hu, Constraint.mem_variables_ordered.mpr (.inl rfl)⟩
  have hsize : f.individuals.size ≤ (f.bound.domain cs).size :=
    Population.size_le_of_subset
      ((Embeds.of_keeps (subset_refl {f.bound}) fun z hz u _ hk => by
        rw [mem_singleton.mp hz] at hk ⊢
        exact hkeeps u hk).domain f.bound (mem_singleton_self _))
  have hcandidates : (f.candidates ws).card ≤ (cs.partners f.bound vars).card := by
    refine card_le_card fun x hx => ?_
    obtain ⟨hmem, hnot⟩ := mem_candidates.mp hx
    refine ConstraintSet.mem_partners.mpr ⟨hws hmem, ?_⟩
    by_contra hsep
    exact hnot (hkeeps _ (ConstraintSet.separates_iff.mp (Bool.eq_true_of_not_eq_false hsep)))
  show 2 * _ + 1 ≤ _
  omega

namespace Aggregation

variable {a a' : Aggregation K} {b : Binding}

/-- the logical variables that no constraint keeps apart from the extra one -/
def partners (a : Aggregation K) : Finset LogVar := a.constraints.partners a.extra a.logVars.toFinset

/-- more than what a conversion makes of the atoms: the weighed parents with the context over one
variable more, and the counted parents with the child -/
def load (a : Aggregation K) : Nat :=
  a.constraints.room a.extra * 4 ^ a.partners.card * (2 + a.context.length)
    + (2 * ((a.extra.domain a.constraints).size + a.partners.card) + 4)

def bulk (a : Aggregation K) : Nat := a.constraints.freedom a.logVars.toFinset * a.load

theorem load_pos (a : Aggregation K) : 0 < a.load := Nat.add_pos_right _ (Nat.succ_pos _)

theorem bulk_pos (a : Aggregation K) : 0 < a.bulk :=
  Nat.mul_pos (a.constraints.freedom_pos _) a.load_pos

/-- fewer variables under more constraints carry no more -/
theorem load_le (h : Embeds id a'.constraints (insert a.extra a'.logVars.toFinset) a.constraints
      (insert a.extra a.logVars.toFinset)) (hextra : a'.extra = a.extra)
    (hcontext : a'.context.length = a.context.length) (hsub : ∀ x ∈ a'.logVars, x ∈ a.logVars) :
    a'.load ≤ a.load := by
  have hsize : (a.extra.domain a'.constraints).size ≤ (a.extra.domain a.constraints).size :=
    Population.size_le_of_subset (h.domain a.extra (mem_insert_self _ _))
  have hpartners : a'.partners.card ≤ a.partners.card := by
    refine card_le_card fun x hx => ?_
    obtain ⟨hmem, hsep⟩ := mem_filter.mp hx
    refine mem_filter.mpr
      ⟨List.mem_toFinset.mpr (hsub x (List.mem_toFinset.mp hmem)), ?_⟩
    rw [hextra] at hsep
    by_contra hsep'
    rw [h.separates a.extra (mem_insert_self _ _) x (mem_insert_of_mem hmem)
      (Bool.eq_true_of_not_eq_false hsep')] at hsep
    cases hsep
  rw [load, load, hextra, hcontext]
  refine Nat.add_le_add (Nat.mul_le_mul_right _ (Nat.mul_le_mul ?_ ?_)) ?_
  · exact Nat.mul_le_mul_left 2 (Nat.succ_le_succ hsize)
  · exact Nat.pow_le_pow_right (by decide) hpartners
  · omega

/-- under a binding the source is gone -/
theorem bulk_instance_le (hb : Binds a.logVars b) (h : a.apply (.single b) = some a') :
    a'.bulk ≤ a.constraints.freedom (a.logVars.toFinset.erase b.source) * a.load := by
  have hmem := fun z => mem_logVars_apply hb h (z := z)
  obtain ⟨ds, hds, rfl⟩ := apply_single hb h
  have hsource : a.extra ≠ b.source := fun h => a.extra_notMem_logVars (h ▸ hb.source_mem)
  have hfix : ∀ z, z ≠ b.source → (Substitution.single b).apply (.var z) = .var z := fun z hz =>
    Substitution.apply_single_ne hz
  refine Nat.mul_le_mul (Embeds.of_apply (r := id) hds fun z hz => ?_).freedom_le
    (load_le (a := a) (Embeds.of_apply (r := id) hds fun z hz => ?_) rfl (List.length_map _)
      fun z hz => ((hmem z).mp hz).1)
  · obtain ⟨hz, hne⟩ := (hmem z).mp (List.mem_toFinset.mp hz)
    exact ⟨mem_erase.mpr ⟨hne, List.mem_toFinset.mpr hz⟩, hfix z hne, rfl⟩
  · rcases mem_insert.mp hz with rfl | hz
    · exact ⟨mem_insert_self _ _, hfix _ hsource, rfl⟩
    · obtain ⟨hz, hne⟩ := (hmem z).mp (List.mem_toFinset.mp hz)
      exact ⟨mem_insert_of_mem (List.mem_toFinset.mpr hz), hfix z hne, rfl⟩

theorem bulk_instance_lt (hb : Binds a.logVars b) (h : a.apply (.single b) = some a') :
    a'.bulk < a.bulk :=
  (bulk_instance_le hb h).trans_lt <| Nat.mul_lt_mul_of_pos_right
    (ConstraintSet.freedom_erase_lt (List.mem_toFinset.mpr hb.source_mem)) a.load_pos

/-- **The parts of a split** together have less bulk. -/
theorem bulk_split {s : Split (Aggregation K)} (h : a.split b = .ok s) :
    s.fragment.bulk + s.residual.bulk < a.bulk := by
  obtain ⟨hs, hfragment, hresidual⟩ := split_ok h
  have hb := hs.binds
  have hvars : ∀ z, z ∈ s.residual.logVars ↔ z ∈ a.logVars := fun z => by
    rw [hresidual]
    exact mem_logVars_residual hb
  have hfinset : s.residual.logVars.toFinset = a.logVars.toFinset := by
    ext z
    rw [List.mem_toFinset, List.mem_toFinset, hvars]
  have hload : s.residual.load ≤ a.load := by
    refine load_le ?_ (hresidual ▸ rfl) (hresidual ▸ rfl) fun z hz => (hvars z).mp hz
    rw [hfinset, hresidual]
    exact ConstraintSet.embeds_insert a.constraints _ _
  have hbulk : s.residual.bulk
      ≤ ConstraintSet.freedom (a.constraints.insert (.ofBinding b)) a.logVars.toFinset
        * a.load := by
    refine Nat.mul_le_mul (le_of_eq ?_) hload
    rw [hfinset, hresidual]
  calc s.fragment.bulk + s.residual.bulk
      ≤ (a.constraints.freedom (a.logVars.toFinset.erase b.source)
          + ConstraintSet.freedom (a.constraints.insert (.ofBinding b)) a.logVars.toFinset)
        * a.load := by
        rw [Nat.add_mul]
        exact Nat.add_le_add (bulk_instance_le hb hfragment) hbulk
    _ < a.bulk := Nat.mul_lt_mul_of_pos_right (ConstraintSet.freedom_split hs) a.load_pos

/-- **A normal form** is the aggregation parfactor itself or has less bulk. -/
theorem normalize_eq_or_lt (h : a.normalize = .ok (some a')) : a' = a ∨ a'.bulk < a.bulk := by
  refine (groundSingletons_ok (I := fun o => ∀ d, o = some d → d = a ∨ d.bulk < a.bulk)
    (fun _ _ _ => nofun) (fun d x c hd hx hc e he => ?_) (fun d hd => .inl (by cases hd; rfl))
    h).1 a' rfl
  have hlt := bulk_instance_lt (binds_of_individuals_eq hc hx) he
  rcases hd d rfl with rfl | hd
  · exact .inr hlt
  · exact .inr (hlt.trans hd)

/-! ### conversions -/

section
variable [Scalar K]

omit [Scalar K] in
/-- the weighed parents are over one variable more -/
theorem mem_logVars_of_weighed {p : Parfactor K}
    (h : Parfactor.Made a.constraints (.atom a.parent :: a.context.map .atom) p) {x : LogVar}
    (hx : x ∈ p.logVars) : x = a.extra ∨ x ∈ a.logVars := by
  by_cases hextra : x = a.extra
  · exact .inl hextra
  · refine .inr (mem_logVars.mpr ⟨?_, hextra⟩)
    rcases Parfactor.mem_logVars.mp hx with ⟨r, hr, hx⟩ | hx
    · rw [h.prvs_eq, ← List.map_cons (f := Prv.atom)] at hr
      obtain ⟨c, hc, rfl⟩ := List.mem_map.mp hr
      rcases List.mem_cons.mp hc with rfl | hc
      · exact .inl ⟨_, a.parent_mem_atoms, hx⟩
      · exact .inl ⟨c, context_mem_atoms hc, hx⟩
    · exact .inr (h.constraints_eq ▸ hx)

/-- the weighed parents with their context -/
theorem bulk_weighed {p : Parfactor K} {t : Option (Factor K)}
    (h : Parfactor.make a.constraints (.atom a.parent :: a.context.map .atom) t = .ok p) :
    p.Proper ∧ p.bulk ≤ a.constraints.freedom a.logVars.toFinset
      * (a.constraints.room a.extra * 4 ^ a.partners.card * (2 + a.context.length)) := by
  have hmade := (Parfactor.make_ok h).1
  have hatom : ∀ r ∈ p.prvs, ∃ c, r = .atom c := by
    intro r hr
    rw [hmade.prvs_eq, ← List.map_cons (f := Prv.atom)] at hr
    obtain ⟨c, -, rfl⟩ := List.mem_map.mp hr
    exact ⟨c, rfl⟩
  have hsub : p.logVars.toFinset ⊆ insert a.extra a.logVars.toFinset := fun x hx => by
    rw [mem_insert, List.mem_toFinset]
    exact mem_logVars_of_weighed hmade (List.mem_toFinset.mp hx)
  have hload : Parfactor.totalLoad p.prvs p.logVars.toFinset = 1 + a.context.length := by
    rw [hmade.prvs_eq, Parfactor.totalLoad_cons, Parfactor.totalLoad_map_atom]
    rfl
  refine ⟨⟨fun r hr => ?_, fun f hf => ?_⟩, ?_⟩
  · obtain ⟨c, rfl⟩ := hatom r hr
    trivial
  · obtain ⟨c, hc⟩ := hatom _ hf
    cases hc
  · rw [Parfactor.bulk, hload, ← Nat.add_assoc, ← Nat.mul_assoc, hmade.constraints_eq]
    refine Nat.mul_le_mul_right _ ((Embeds.refl _ hsub).freedom_le.trans ?_)
    exact (ConstraintSet.freedom_insert fun hx =>
      a.extra_notMem_logVars (List.mem_toFinset.mp hx)).le

omit [Scalar K] in
/-- the comparing parfactor has no other variables -/
theorem mem_logVars_of_compared {p : Parfactor K} (hf : a.formula.Valid)
    (h : Parfactor.Made a.constraintsNotOnExtra [.count a.formula, .atom a.child] p) {x : LogVar}
    (hx : x ∈ p.logVars) : x ∈ a.logVars := by
  have hbound := (h.bound a.formula List.mem_cons_self).1 (.atom a.child)
    (List.mem_cons_of_mem _ List.mem_cons_self)
  rcases Parfactor.mem_logVars.mp hx with ⟨r, hr, hx⟩ | hx
  · simp only [h.prvs_eq, List.mem_cons, List.not_mem_nil, or_false] at hr
    rcases hr with rfl | rfl
    · exact freeVars_subset hf hx
    · refine mem_logVars.mpr ⟨.inl ⟨_, a.child_mem_atoms, hx⟩, ?_⟩
      rintro rfl
      exact hbound hx
  · rw [h.constraints_eq] at hx
    obtain ⟨k, hk, hxk⟩ := ConstraintSet.mem_variables.mp hx
    obtain ⟨hk, hextra⟩ := ConstraintSet.mem_notOnVariable.mp hk
    exact mem_logVars.mpr ⟨.inr (ConstraintSet.mem_variables.mpr ⟨k, hk, hxk⟩),
      fun h => hextra (h ▸ hxk)⟩

/-- the counted parents with the child -/
theorem bulk_aggregate {p : Parfactor K} {t : Option (Factor K)} (hf : a.formula.Valid)
    (h : Parfactor.make a.constraintsNotOnExtra [.count a.formula, .atom a.child] t = .ok p) :
    p.Proper ∧ p.bulk ≤ a.constraints.freedom a.logVars.toFinset
      * (2 * ((a.extra.domain a.constraints).size + a.partners.card) + 3) := by
  have hmade := (Parfactor.make_ok h).1
  have hlogVars : ∀ x ∈ p.logVars, x ∈ a.logVars := fun x hx =>
    mem_logVars_of_compared hf hmade hx
  have hsub : p.logVars.toFinset ⊆ a.logVars.toFinset := fun x hx =>
    List.mem_toFinset.mpr (hlogVars x (List.mem_toFinset.mp hx))
  have hfreedom : p.constraints.freedom p.logVars.toFinset
      ≤ a.constraints.freedom a.logVars.toFinset := by
    rw [hmade.constraints_eq]
    exact ConstraintSet.freedom_notOnVariable_le hsub fun hextra =>
      a.extra_notMem_logVars (List.mem_toFinset.mp hextra)
  have hload : a.formula.load p.logVars.toFinset
      ≤ 2 * ((a.extra.domain a.constraints).size + a.partners.card) + 1 :=
    CountingFormula.load_le_of_own hsub rfl
  refine ⟨⟨fun r hr => ?_, fun f hf' hmem => ?_⟩, Nat.mul_le_mul hfreedom ?_⟩
  · simp only [hmade.prvs_eq, List.mem_cons, List.not_mem_nil, or_false] at hr
    rcases hr with rfl | rfl
    · exact hf
    · trivial
  · simp only [hmade.prvs_eq, List.mem_cons, List.not_mem_nil, or_false, reduceCtorEq,
      Prv.count.injEq] at hf'
    subst hf'
    exact a.extra_notMem_logVars (hlogVars _ hmem)
  · rw [hmade.prvs_eq]
    show 1 + (a.formula.load _ + (1 + 0)) ≤ _
    omega

/-- **A conversion** lowers the bulk. -/
theorem bulk_toParfactors {l : List (Parfactor K)} (h : a.toParfactors = .ok l) :
    (∀ p ∈ l, p.Proper) ∧ (l.map Parfactor.bulk).sum < a.bulk := by
  obtain ⟨weighed, f, aggregate, rfl, hw, hf, hagg⟩ := toParfactors_ok h
  obtain ⟨rfl, hmem, hcs⟩ := CountingFormula.make_ok hf
  have hvalid : a.formula.Valid := ⟨hmem, fun c hc => (hcs c hc).1, fun c hc => (hcs c hc).2⟩
  obtain ⟨hproper, haggregate⟩ := bulk_aggregate hvalid hagg
  have hfree := a.constraints.freedom_pos a.logVars.toFinset
  have hsplit : a.bulk = a.constraints.freedom a.logVars.toFinset
        * (a.constraints.room a.extra * 4 ^ a.partners.card * (2 + a.context.length))
      + a.constraints.freedom a.logVars.toFinset
        * (2 * ((a.extra.domain a.constraints).size + a.partners.card) + 3)
      + a.constraints.freedom a.logVars.toFinset := by
    rw [bulk, load]
    ring
  rcases hw with ⟨-, rfl⟩ | ⟨p, hp, rfl⟩
  · refine ⟨fun q hq => List.mem_singleton.mp hq ▸ hproper, ?_⟩
    rw [List.nil_append, List.map_singleton, List.sum_singleton]
    omega
  · obtain ⟨hp, hweighed⟩ := bulk_weighed hp
    refine ⟨fun q hq => ?_, ?_⟩
    · rcases List.mem_cons.mp hq with rfl | hq
      · exact hp
      · exact List.mem_singleton.mp hq ▸ hproper
    · show p.bulk + (aggregate.bulk + 0) < _
      omega

end

end Aggregation

end LiftedElimination
