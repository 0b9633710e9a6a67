import LiftedElimination.Proofs.Expand

/-!
# Freedom and load

How often a potential can still be refined is bounded by a product.  One factor is the freedom of
its logical variables: a factor for the individuals of every variable, and one for every pair that
no constraint keeps apart.  The other is the load of its random variables, where a counting formula
counts twice what can still be taken out of its group.

* `ConstraintSet.freedom`   the freedom of variables under constraints;
* `Embeds.freedom_le`       fewer variables under more constraints are not freer;
* `freedom_split`           the two parts of a split together are less free than the whole;
* `Prv.load`                the load of a random variable;
* `Prv.load_apply_le`, `CountingFormula.load_excluding`   substitutions add none, and whoever is
                            taken out of a group takes some away.
-/

namespace LiftedElimination

open Finset

variable {K : Type}

/-! ## the freedom of variables -/

namespace ConstraintSet

/-- the pairs of distinct variables that no constraint keeps apart -/
def loosePairs (cs : ConstraintSet) (vars : Finset LogVar) : Finset (LogVar × LogVar) :=
  vars.offDiag.filter fun p => cs.separates p.1 (.var p.2) = false

/-- how far the groundings of the variables can still be divided -/
def freedom (cs : ConstraintSet) (vars : Finset LogVar) : Nat :=
  (∏ x ∈ vars, cs.room x) * 2 ^ (cs.loosePairs vars).card

variable {cs ds : ConstraintSet} {vars ws : Finset LogVar} {x y : LogVar}

theorem mem_loosePairs {p : LogVar × LogVar} : p ∈ cs.loosePairs vars
    ↔ p.1 ∈ vars ∧ p.2 ∈ vars ∧ p.1 ≠ p.2 ∧ cs.separates p.1 (.var p.2) = false := by
  rw [loosePairs, mem_filter, mem_offDiag, and_assoc, and_assoc]

theorem room_pos (cs : ConstraintSet) (x : LogVar) : 0 < cs.room x :=
  Nat.mul_pos Nat.two_pos (Nat.succ_pos _)

theorem freedom_pos (cs : ConstraintSet) (vars : Finset LogVar) : 0 < cs.freedom vars :=
  Nat.mul_pos (prod_pos fun x _ => cs.room_pos x) (Nat.two_pow_pos _)

theorem separates_comm (cs : ConstraintSet) (x y : LogVar) :
    cs.separates x (.var y) = cs.separates y (.var x) := by
  rw [separates, separates, Constraint.ordered_comm]

end ConstraintSet

theorem Population.size_le_of_subset {x y : LogVar} {cs ds : ConstraintSet}
    (h : ∀ c ∈ y.domain ds, c ∈ x.domain cs) : (y.domain ds).size ≤ (x.domain cs).size :=
  (List.subperm_of_subset (Population.nodup_domain y ds) fun _ hc => h _ hc).length_le

theorem Constraint.eq_of_excluded? {k : Constraint} {x : LogVar} {c : Constant}
    (h : k.excluded? x = some c) : k = .ordered x (.const c) := by
  obtain ⟨rfl, hsecond⟩ := excluded?_eq_some.mp h
  exact congrArg (Constraint.mk k.first) hsecond

/-- the variables `ws` under `ds` lie inside `vars` under `cs`, each at its place `r` -/
structure Embeds (r : LogVar → LogVar) (ds : ConstraintSet) (ws : Finset LogVar)
    (cs : ConstraintSet) (vars : Finset LogVar) : Prop where
  mem : ∀ z ∈ ws, r z ∈ vars
  injective : ∀ z ∈ ws, ∀ w ∈ ws, r z = r w → z = w
  domain : ∀ z ∈ ws, ∀ c ∈ z.domain ds, c ∈ (r z).domain cs
  separates : ∀ z ∈ ws, ∀ w ∈ ws, cs.separates (r z) (.var (r w)) = true →
    ds.separates z (.var w) = true

namespace Embeds

variable {r : LogVar → LogVar} {cs ds : ConstraintSet} {vars ws : Finset LogVar} {z w : LogVar}

theorem prod_room_le (h : Embeds r ds ws cs vars) :
    ∏ z ∈ ws, ds.room z ≤ ∏ x ∈ vars, cs.room x := by
  classical
  calc ∏ z ∈ ws, ds.room z
      ≤ ∏ z ∈ ws, cs.room (r z) := Finset.prod_le_prod (fun _ _ => Nat.zero_le _) fun z hz =>
        Nat.mul_le_mul_left 2 (Nat.succ_le_succ (Population.size_le_of_subset (h.domain z hz)))
    _ = ∏ x ∈ ws.image r, cs.room x :=
        (Finset.prod_image fun z hz w hw => h.injective z hz w hw).symm
    _ ≤ ∏ x ∈ vars, cs.room x := by
        refine Finset.prod_le_prod_of_subset_of_one_le' (fun x hx => ?_) fun x _ _ => cs.room_pos x
        obtain ⟨z, hz, rfl⟩ := mem_image.mp hx
        exact h.mem z hz

theorem loose (h : Embeds r ds ws cs vars) {p : LogVar × LogVar} (hp : p ∈ ds.loosePairs ws) :
    Prod.map r r p ∈ cs.loosePairs vars := by
  obtain ⟨h₁, h₂, hne, hsep⟩ := ConstraintSet.mem_loosePairs.mp hp
  refine ConstraintSet.mem_loosePairs.mpr ⟨h.mem _ h₁, h.mem _ h₂,
    fun heq => hne (h.injective _ h₁ _ h₂ heq), ?_⟩
  by_contra hsep'
  rw [h.separates _ h₁ _ h₂ (Bool.eq_true_of_not_eq_false hsep')] at hsep
  cases hsep

theorem injOn_pairs (h : Embeds r ds ws cs vars) :
    Set.InjOn (Prod.map r r) (ds.loosePairs ws : Set (LogVar × LogVar)) := by
  intro p hp q hq heq
  obtain ⟨hp₁, hp₂, -⟩ := ConstraintSet.mem_loosePairs.mp (mem_coe.mp hp)
  obtain ⟨hq₁, hq₂, -⟩ := ConstraintSet.mem_loosePairs.mp (mem_coe.mp hq)
  obtain ⟨h₁, h₂⟩ := Prod.mk.inj heq
  exact Prod.ext (h.injective _ hp₁ _ hq₁ h₁) (h.injective _ hp₂ _ hq₂ h₂)

/-- **Fewer variables under more constraints are not freer.** -/
theorem freedom_le (h : Embeds r ds ws cs vars) : ds.freedom ws ≤ cs.freedom vars :=
  Nat.mul_le_mul h.prod_room_le <| Nat.pow_le_pow_right Nat.two_pos <|
    card_le_card_of_injOn _ (fun _ hp => h.loose hp) h.injOn_pairs

/-- a pair that is loose before and has no place afterwards counts fourfold, once for each order -/
theorem four_mul_freedom_le {x y : LogVar} (h : Embeds r ds ws cs vars) (hx : x ∈ vars)
    (hy : y ∈ vars) (hxy : x ≠ y) (hloose : cs.separates x (.var y) = false)
    (hnone : ∀ p ∈ ds.loosePairs ws, ¬ ((r p.1 = x ∧ r p.2 = y) ∨ (r p.1 = y ∧ r p.2 = x))) :
    4 * ds.freedom ws ≤ cs.freedom vars := by
  have hpair : ({(x, y), (y, x)} : Finset (LogVar × LogVar)) ⊆ cs.loosePairs vars := by
    intro p hp
    rw [mem_insert, mem_singleton] at hp
    rcases hp with rfl | rfl
    · exact ConstraintSet.mem_loosePairs.mpr ⟨hx, hy, hxy, hloose⟩
    · exact ConstraintSet.mem_loosePairs.mpr
        ⟨hy, hx, hxy.symm, (cs.separates_comm y x).trans hloose⟩
  have hcard : ({(x, y), (y, x)} : Finset (LogVar × LogVar)).card = 2 :=
    card_pair fun heq => hxy (congrArg Prod.fst heq)
  have hle : (ds.loosePairs ws).card + 2 ≤ (cs.loosePairs vars).card := by
    have hinto : (ds.loosePairs ws).card ≤ (cs.loosePairs vars \ {(x, y), (y, x)}).card := by
      refine card_le_card_of_injOn (Prod.map r r) (fun p hp => ?_) h.injOn_pairs
      refine mem_coe.mpr (mem_sdiff.mpr ⟨h.loose hp, fun hmem => hnone p hp ?_⟩)
      rw [mem_insert, mem_singleton] at hmem
      exact hmem.imp Prod.mk.inj Prod.mk.inj
    rw [card_sdiff_of_subset hpair, hcard] at hinto
    have := card_le_card hpair
    omega
  calc 4 * ds.freedom ws
      = (∏ z ∈ ws, ds.room z) * 2 ^ ((ds.loosePairs ws).card + 2) := by
        rw [ConstraintSet.freedom, pow_add]
        ring
    _ ≤ cs.freedom vars :=
        Nat.mul_le_mul h.prod_room_le (Nat.pow_le_pow_right Nat.two_pos hle)

/-- more constraints on the same variables -/
theorem of_keeps (hsub : ws ⊆ vars) (h : ∀ z ∈ ws, ∀ t, (∀ w, t = .var w → w ∈ ws) →
    Constraint.ordered z t ∈ cs → Constraint.ordered z t ∈ ds) : Embeds id ds ws cs vars where
  mem _ hz := hsub hz
  injective _ _ _ _ heq := heq
  domain z hz c hc := by
    obtain ⟨hpop, hnot⟩ := LogVar.mem_domain.mp hc
    refine LogVar.mem_domain.mpr ⟨hpop, fun k hk hkz => ?_⟩
    exact hnot _ (h z hz (.const c) nofun (Constraint.eq_of_excluded? hkz ▸ hk))
      (Constraint.excluded?_eq_some.mpr ⟨rfl, rfl⟩)
  separates z hz w hw hsep := ConstraintSet.separates_iff.mpr
    (h z hz (.var w) (fun _ hy => Term.var.inj hy ▸ hw) (ConstraintSet.separates_iff.mp hsep))

theorem refl (cs : ConstraintSet) (hsub : ws ⊆ vars) : Embeds id cs ws cs vars :=
  of_keeps hsub fun _ _ _ _ h => h

/-- the variables after a substitution, each at the place of one that it comes from -/
theorem of_apply {s : Substitution} (happly : cs.apply s = some ds)
    (h : ∀ z ∈ ws, r z ∈ vars ∧ s.apply (.var (r z)) = .var z ∧ z.population = (r z).population) :
    Embeds r ds ws cs vars where
  mem z hz := (h z hz).1
  injective z hz w hw heq := by
    have hzw := (h z hz).2.1
    rw [heq, (h w hw).2.1] at hzw
    exact (Term.var.inj hzw).symm
  domain z hz c hc := by
    obtain ⟨-, hs, hpop⟩ := h z hz
    obtain ⟨hmem, hnot⟩ := LogVar.mem_domain.mp hc
    refine LogVar.mem_domain.mpr ⟨hpop ▸ hmem, fun k hk hkz => ?_⟩
    obtain ⟨hfirst, hsecond⟩ := Constraint.excluded?_eq_some.mp hkz
    have hka : k.apply s = some (Constraint.ordered z (.const c)) := by
      rw [Constraint.apply, hfirst, hsecond, hs]
      rfl
    exact hnot _ ((ConstraintSet.mem_of_apply happly).mpr ⟨k, hk, hka⟩)
      (Constraint.excluded?_eq_some.mpr ⟨rfl, rfl⟩)
  separates z hz w hw hsep := by
    have hka : (Constraint.ordered (r z) (.var (r w))).apply s
        = some (Constraint.ordered z (.var w)) := by
      rw [Constraint.ordered_var]
      split
      · rw [Constraint.apply, (h z hz).2.1, (h w hw).2.1]
        exact congrArg some (Constraint.ordered_comm w z)
      · rw [Constraint.apply, (h z hz).2.1, (h w hw).2.1]
        rfl
    exact ConstraintSet.separates_iff.mpr ((ConstraintSet.mem_of_apply happly).mpr
      ⟨_, ConstraintSet.separates_iff.mp hsep, hka⟩)

end Embeds

/-! ### splits -/

namespace ConstraintSet

variable {cs : ConstraintSet} {vars : Finset LogVar} {x y : LogVar}

theorem embeds_insert (cs : ConstraintSet) (k : Constraint) (vars : Finset LogVar) :
    Embeds id (cs.insert k) vars cs vars :=
  .of_keeps subset_rfl fun _ _ _ _ h => SortedSet.mem_insert.mpr (.inr h)

/-- one individual less for the source -/
theorem freedom_split_const {c : Constant} (hx : x ∈ vars) (hc : c ∈ x.domain cs) :
    cs.freedom (vars.erase x) + freedom (cs.insert (.ordered x (.const c))) vars
      < cs.freedom vars := by
  classical
  have hkeep := embeds_insert cs (.ordered x (.const c)) vars
  have hsize : (x.domain (cs.insert (.ordered x (.const c)))).size + 1 ≤ (x.domain cs).size := by
    have hsub : (x.domain (cs.insert (.ordered x (.const c)))).individuals
        ⊆ (x.domain cs).individuals.erase c := by
      intro d hd
      have hd' : d ∈ x.domain cs := hkeep.domain x hx d hd
      refine (List.mem_erase_of_ne ?_).mpr hd'
      rintro rfl
      exact (LogVar.mem_domain.mp hd).2 _ (SortedSet.mem_insert.mpr (.inl rfl))
        (Constraint.excluded?_eq_some.mpr ⟨rfl, rfl⟩)
    have hlen := (List.subperm_of_subset (Population.nodup_domain x _) hsub).length_le
    rw [List.length_erase_of_mem hc] at hlen
    have hpos : 0 < (x.domain cs).individuals.length := List.length_pos_of_mem hc
    show (x.domain _).individuals.length + 1 ≤ (x.domain cs).individuals.length
    omega
  -- what the other variables and the pairs contribute
  let rest := (∏ z ∈ vars.erase x, cs.room z) * 2 ^ (cs.loosePairs vars).card
  have hwhole : cs.freedom vars = cs.room x * rest := by
    rw [freedom, ← mul_prod_erase vars _ hx, Nat.mul_assoc]
  have hfragment : cs.freedom (vars.erase x) ≤ rest :=
    Nat.mul_le_mul_left _ <| Nat.pow_le_pow_right Nat.two_pos <|
      card_le_card fun p hp => (Embeds.refl cs (erase_subset x vars)).loose hp
  have hresidual : freedom (cs.insert (.ordered x (.const c))) vars
      ≤ 2 * (x.domain cs).size * rest := by
    rw [freedom, ← mul_prod_erase vars _ hx, Nat.mul_assoc]
    refine Nat.mul_le_mul (Nat.mul_le_mul_left 2 hsize) (Nat.mul_le_mul ?_ ?_)
    · exact (embeds_insert cs _ (vars.erase x)).prod_room_le
    · exact Nat.pow_le_pow_right Nat.two_pos (card_le_card fun p hp => hkeep.loose hp)
  have hrest : 0 < rest :=
    Nat.mul_pos (prod_pos fun z _ => cs.room_pos z) (Nat.two_pow_pos _)
  rw [hwhole, room]
  nlinarith

/-- one loose pair less for source and target -/
theorem freedom_split_var (hx : x ∈ vars) (hy : y ∈ vars) (hxy : x ≠ y)
    (hloose : cs.separates x (.var y) = false) :
    cs.freedom (vars.erase x) + freedom (cs.insert (.ordered x (.var y))) vars
      < cs.freedom vars := by
  have hfragment : 4 * cs.freedom (vars.erase x) ≤ cs.freedom vars := by
    refine (Embeds.refl cs (erase_subset x vars)).four_mul_freedom_le hx hy hxy hloose ?_
    rintro p hp (⟨h, -⟩ | ⟨-, h⟩)
    · exact notMem_erase x vars (h ▸ (mem_loosePairs.mp hp).1)
    · exact notMem_erase x vars (h ▸ (mem_loosePairs.mp hp).2.1)
  have hresidual : 4 * freedom (cs.insert (.ordered x (.var y))) vars ≤ cs.freedom vars := by
    refine (embeds_insert cs _ vars).four_mul_freedom_le hx hy hxy hloose ?_
    have hsep : separates (cs.insert (.ordered x (.var y))) x (.var y) = true :=
      separates_iff.mpr (SortedSet.mem_insert.mpr (.inl rfl))
    rintro ⟨z, w⟩ hp (⟨rfl, rfl⟩ | ⟨rfl, rfl⟩)
    · have hp' := (mem_loosePairs.mp hp).2.2.2
      exact Bool.false_ne_true (hp'.symm.trans hsep)
    · have hp' := (mem_loosePairs.mp hp).2.2.2
      rw [separates_comm] at hp'
      exact Bool.false_ne_true (hp'.symm.trans hsep)
  have := cs.freedom_pos vars
  omega

/-- **The parts of a split together are less free than the whole.** -/
theorem freedom_split {vars : List LogVar} {b : Binding} (hb : SplitsOn vars cs b) :
    cs.freedom (vars.toFinset.erase b.source) + freedom (cs.insert (.ofBinding b)) vars.toFinset
      < cs.freedom vars.toFinset := by
  have hsource : b.source ∈ vars.toFinset := List.mem_toFinset.mpr hb.source_mem
  have hfresh := hb.fresh
  rw [Constraint.ofBinding] at hfresh ⊢
  cases ht : b.target with
  | const c =>
    rw [ht] at hfresh
    refine freedom_split_const hsource (LogVar.mem_domain.mpr ⟨hb.const c ht, fun k hk hkx => ?_⟩)
    exact hfresh (Constraint.eq_of_excluded? hkx ▸ hk)
  | var y =>
    rw [ht] at hfresh
    refine freedom_split_var hsource (List.mem_toFinset.mpr (hb.var y ht).1)
      (fun h => hb.target_ne (ht.trans (congrArg _ h.symm))) ?_
    by_contra hsep
    exact hfresh (separates_iff.mp (Bool.eq_true_of_not_eq_false hsep))

/-- a variable less -/
theorem freedom_erase_lt (hx : x ∈ vars) : cs.freedom (vars.erase x) < cs.freedom vars := by
  have hpairs : 2 ^ (cs.loosePairs (vars.erase x)).card ≤ 2 ^ (cs.loosePairs vars).card :=
    Nat.pow_le_pow_right Nat.two_pos <|
      card_le_card fun p hp => (Embeds.refl cs (erase_subset x vars)).loose hp
  have hpos := cs.freedom_pos (vars.erase x)
  have hroom : 2 ≤ cs.room x := Nat.le_mul_of_pos_right 2 (Nat.succ_pos _)
  calc cs.freedom (vars.erase x)
      < 2 * cs.freedom (vars.erase x) := by omega
    _ ≤ cs.room x * ((∏ z ∈ vars.erase x, cs.room z) * 2 ^ (cs.loosePairs vars).card) :=
        Nat.mul_le_mul hroom (Nat.mul_le_mul_left _ hpairs)
    _ = cs.freedom vars := by rw [freedom, ← mul_prod_erase vars _ hx, Nat.mul_assoc]

end ConstraintSet

/-! ## the load of random variables -/

namespace CountingFormula

/-- the variables that can still be taken out of the group -/
def candidates (f : CountingFormula) (vars : Finset LogVar) : Finset LogVar :=
  vars.filter fun x => f.constraints.separates f.bound (.var x) = false

/-- twice what can still be taken out of the group: its individuals, and variables -/
def load (f : CountingFormula) (vars : Finset LogVar) : Nat :=
  2 * (f.individuals.size + (f.candidates vars).card) + 1

variable {f : CountingFormula} {vars : Finset LogVar} {x : LogVar}

theorem mem_candidates : x ∈ f.candidates vars
    ↔ x ∈ vars ∧ Constraint.ordered f.bound (.var x) ∉ f.constraints := by
  rw [candidates, mem_filter, ← Bool.not_eq_true, ConstraintSet.separates_iff]

theorem Valid.mem_exclusions_of_mem (hf : f.Valid) {t : Term}
    (h : Constraint.ordered f.bound t ∈ f.constraints) : t ∈ f.exclusions := by
  refine mem_exclusions.mpr ⟨_, h, Constraint.other?_ordered fun ht => ?_⟩
  have hcon := hf.satisfiable _ h
  rw [Constraint.isContradiction_ordered.mpr ht] at hcon
  cases hcon

end CountingFormula

namespace Prv

/-- what a random variable counts for beside the logical variables `vars` -/
def load : Prv → Finset LogVar → Nat
  | atom _, _ => 1
  | count f, vars => f.load vars

theorem load_pos (q : Prv) (vars : Finset LogVar) : 0 < q.load vars := by
  cases q with
  | atom a => exact Nat.one_pos
  | count f => exact Nat.succ_pos _

theorem load_mono (q : Prv) {vars ws : Finset LogVar} (h : ws ⊆ vars) :
    q.load ws ≤ q.load vars := by
  cases q with
  | atom a => exact le_rfl
  | count f =>
    have hcard : (f.candidates ws).card ≤ (f.candidates vars).card :=
      card_le_card (filter_subset_filter _ h)
    exact Nat.succ_le_succ (Nat.mul_le_mul_left 2 (Nat.add_le_add_left hcard _))

/-- **A substitution that captures nothing adds no load.** -/
theorem load_apply_le {q : Prv} {s : Substitution} {r : LogVar → LogVar}
    {vars ws : Finset LogVar} (hq : q.Valid) (hs : q.Avoids s)
    (h : ∀ z ∈ ws, r z ∈ vars ∧ s.apply (.var (r z)) = .var z) :
    (q.apply s).load ws ≤ q.load vars := by
  cases q with
  | atom a => exact le_rfl
  | count f =>
    have hindividuals : (f.apply s).individuals.size ≤ f.individuals.size := by
      refine Population.size_le_of_subset fun c hc => ?_
      obtain ⟨hpop, hnot⟩ := CountingFormula.mem_individuals.mp hc
      refine CountingFormula.mem_individuals.mpr ⟨hpop, fun hmem => hnot ?_⟩
      exact (CountingFormula.mem_exclusions_apply hq hs).mpr ⟨_, hmem, rfl⟩
    have hvars : ((f.apply s).candidates ws).card ≤ (f.candidates vars).card := by
      refine card_le_card_of_injOn r (fun z hz => ?_) fun z hz w hw heq => ?_
      · obtain ⟨hmem, hnot⟩ := CountingFormula.mem_candidates.mp hz
        refine mem_coe.mpr (CountingFormula.mem_candidates.mpr ⟨(h z hmem).1, fun hrz => hnot ?_⟩)
        exact (CountingFormula.mem_constraints_apply hq).mpr
          ⟨_, hq.mem_exclusions_of_mem hrz, by rw [(h z hmem).2]; rfl⟩
      · have hzw := (h z (CountingFormula.mem_candidates.mp hz).1).2
        rw [heq, (h w (CountingFormula.mem_candidates.mp hw).1).2] at hzw
        exact (Term.var.inj hzw).symm
    show 2 * _ + 1 ≤ 2 * _ + 1
    omega

end Prv

/-- **Somebody taken out of the group** takes two off the load. -/
theorem CountingFormula.load_excluding {f : CountingFormula} {t : Term} {vars : Finset LogVar}
    (ht : t ≠ .var f.bound) (hconst : ∀ c, t = .const c → c ∈ f.individuals)
    (hvar : ∀ x, t = .var x → x ∈ f.candidates vars) :
    (f.excluding t).load vars + 2 ≤ f.load vars := by
  have hsub : (f.excluding t).candidates vars ⊆ f.candidates vars := fun x hx => by
    obtain ⟨hmem, hnot⟩ := mem_candidates.mp hx
    exact mem_candidates.mpr ⟨hmem, fun h => hnot (mem_excluding.mpr (.inr h))⟩
  have hcard : ((f.excluding t).candidates vars).card ≤ (f.candidates vars).card :=
    card_le_card hsub
  cases t with
  | const c =>
    have hsize := size_individuals_excluding (hconst c rfl)
    show 2 * _ + 1 + 2 ≤ 2 * _ + 1
    omega
  | var x =>
    have hsize := size_individuals_excluding_var fun h => ht (congrArg Term.var h)
    have hgone : x ∉ (f.excluding (.var x)).candidates vars := fun hx =>
      (mem_candidates.mp hx).2 (mem_excluding.mpr (.inl rfl))
    have hlt := card_lt_card ((ssubset_iff_of_subset hsub).mpr ⟨x, hvar x rfl, hgone⟩)
    show 2 * _ + 1 + 2 ≤ 2 * _ + 1
    omega

end LiftedElimination
