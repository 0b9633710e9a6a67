import LiftedElimination.Proofs.Normal
import LiftedElimination.Operation

/-!
# Products of parfactors

Two parfactors with the same groundings are multiplied entry by entry, so the product stands for the
product of what they stand for.

* `Alongside`          the same constraints and the same logical variables;
* `multiply_ok`        what the product is made of;
* `Multiplies`         the product of several parfactors, as sound as these;
* `multiplies_all`     what the product of a list means.
-/

namespace LiftedElimination

open Finset

variable {K : Type}

namespace Parfactor

variable {p q r : Parfactor K} {γ : Valuation} {w : World}

/-! ## unions of random variables -/

theorem unionPrvs_cons (ps : List Prv) (q : Prv) (qs : List Prv) :
    unionPrvs ps (q :: qs) = unionPrvs (if q ∈ ps then ps else ps ++ [q]) qs := rfl

/-- the random variables of the first list stay in front -/
theorem exists_unionPrvs (ps qs : List Prv) : ∃ rest, unionPrvs ps qs = ps ++ rest
    ∧ ∀ r, r ∈ ps ++ rest ↔ r ∈ ps ∨ r ∈ qs := by
  induction qs generalizing ps with
  | nil => exact ⟨[], (List.append_nil ps).symm, fun r => by simp⟩
  | cons q qs ih =>
    rw [unionPrvs_cons]
    split
    · rename_i hq
      obtain ⟨rest, heq, hmem⟩ := ih ps
      refine ⟨rest, heq, fun r => ?_⟩
      rw [hmem, List.mem_cons]
      exact ⟨fun h => h.imp_right .inr,
        fun h => h.elim .inl fun h => h.elim (fun h => .inl (h ▸ hq)) .inr⟩
    · obtain ⟨rest, heq, hmem⟩ := ih (ps ++ [q])
      refine ⟨q :: rest, heq.trans (List.append_cons ps q rest).symm, fun r => ?_⟩
      rw [List.append_cons, hmem]
      simp [or_assoc]

theorem mem_unionPrvs {ps qs : List Prv} {r : Prv} : r ∈ unionPrvs ps qs ↔ r ∈ ps ∨ r ∈ qs := by
  obtain ⟨rest, heq, hmem⟩ := exists_unionPrvs ps qs
  rw [heq]
  exact hmem r

/-- the digits of the first factor of a product -/
theorem take_unionPrvs (ps qs : List Prv) (g : Prv → Nat) :
    ((unionPrvs ps qs).map g).take ps.length = ps.map g := by
  obtain ⟨rest, heq, -⟩ := exists_unionPrvs ps qs
  rw [heq, List.map_append, List.take_left' (List.length_map g)]

/-- the digits of the second factor of a product -/
theorem places_unionPrvs (ps qs : List Prv) (g : Prv → Nat) :
    ((qs.map (unionPrvs ps qs).idxOf).map fun k => ((unionPrvs ps qs).map g).getD k 0)
      = qs.map g := by
  rw [List.map_map]
  refine List.map_congr_left fun q hq => ?_
  have hmem : q ∈ unionPrvs ps qs := mem_unionPrvs.mpr (.inr hq)
  show ((unionPrvs ps qs).map g).getD ((unionPrvs ps qs).idxOf q) 0 = g q
  rw [List.getD_eq_getElem?_getD, List.getElem?_map, List.getElem?_idxOf hmem]
  rfl

/-! ## the product of two -/

/-- the same groundings -/
structure Alongside (p q : Parfactor K) : Prop where
  constraints : p.constraints = q.constraints
  logVars : ∀ x, x ∈ p.logVars ↔ x ∈ q.logVars

theorem Alongside.refl (p : Parfactor K) : Alongside p p := ⟨rfl, fun _ => Iff.rfl⟩

theorem Alongside.symm (h : Alongside p q) : Alongside q p :=
  ⟨h.constraints.symm, fun x => (h.logVars x).symm⟩

theorem Alongside.trans (h : Alongside p q) (h' : Alongside q r) : Alongside p r :=
  ⟨h.constraints.trans h'.constraints, fun x => (h.logVars x).trans (h'.logVars x)⟩

theorem Alongside.solutions_eq (h : Alongside p q) : p.solutions = q.solutions := by
  rw [solutions, solutions, h.constraints, ConstraintSet.solutions_congr h.logVars]

/-- lists of one length without repetition have the same elements if one of them has those of the
other -/
theorem mem_iff_of_sameVars {xs ys : List LogVar} (hnd : xs.Nodup) (h : sameVars xs ys = true)
    (x : LogVar) : x ∈ xs ↔ x ∈ ys := by
  rw [sameVars, Bool.and_eq_true, beq_iff_eq, List.all_eq_true] at h
  have hsub : xs ⊆ ys := fun y hy => of_decide_eq_true (h.2 y hy)
  exact ((hnd.subperm hsub).perm_of_length_le h.1.ge).mem_iff

theorem alongside_of_isMultipliable (h : p.isMultipliable q = true) : Alongside p q := by
  rw [isMultipliable, Bool.and_eq_true, beq_iff_eq] at h
  exact ⟨h.1, mem_iff_of_sameVars p.nodup_logVars h.2⟩

section
variable [Scalar K]

/-- what the product is made of -/
theorem multiply_ok (h : p.multiply q = .ok r) : Alongside p q
    ∧ rebuild p.constraints (unionPrvs p.prvs q.prvs) (fun digits => do
      let x ← p.factor.entry p.sizes (digits.take p.prvs.length)
      let y ← q.factor.entry q.sizes
        ((q.prvs.map (unionPrvs p.prvs q.prvs).idxOf).map fun k => digits.getD k 0)
      return x * y) = .ok r := by
  unfold multiply at h
  cases hm : p.isMultipliable q with
  | false =>
    rw [hm] at h
    cases h
  | true =>
    rw [hm] at h
    exact ⟨alongside_of_isMultipliable hm, h⟩

theorem parts_multiply (h : p.multiply q = .ok r) :
    r.constraints = p.constraints ∧ r.prvs = unionPrvs p.prvs q.prvs := by
  obtain ⟨hcs, hprvs, -⟩ := rebuild_ok (multiply_ok h).2
  exact ⟨hcs, hprvs⟩

theorem mem_prvs_multiply (h : p.multiply q = .ok r) {s : Prv} :
    s ∈ r.prvs ↔ s ∈ p.prvs ∨ s ∈ q.prvs := by
  rw [(parts_multiply h).2]
  exact mem_unionPrvs

theorem alongside_multiply (h : p.multiply q = .ok r) : Alongside r p := by
  have hpq := (multiply_ok h).1
  refine ⟨(parts_multiply h).1, fun x => ?_⟩
  rw [mem_logVars, (parts_multiply h).1]
  simp only [mem_prvs_multiply h]
  constructor
  · rintro (⟨s, hs | hs, hx⟩ | hx)
    · exact mem_logVars.mpr (.inl ⟨s, hs, hx⟩)
    · exact (hpq.logVars x).mpr (mem_logVars.mpr (.inl ⟨s, hs, hx⟩))
    · exact mem_logVars.mpr (.inr hx)
  · exact fun hx => (mem_logVars.mp hx).imp_left fun ⟨s, hs, hx⟩ => ⟨s, .inl hs, hx⟩

/-- the formulas of a product bind none of its logical variables -/
theorem Proper.multiply (hp : p.Proper) (hq : q.Proper) (h : p.multiply q = .ok r) : r.Proper := by
  have hpq := (multiply_ok h).1
  refine ⟨fun t ht => ((mem_prvs_multiply h).mp ht).elim (hp.valid t) (hq.valid t),
    fun f hf hbound => ?_⟩
  have hbound := ((alongside_multiply h).logVars _).mp hbound
  rcases (mem_prvs_multiply h).mp hf with hf | hf
  · exact hp.bound f hf hbound
  · exact hq.bound f hf ((hpq.logVars _).mp hbound)

end

section
variable [ExactScalar K]

theorem owned_multiply (h : p.multiply q = .ok r) (γ : Valuation) :
    r.owned γ = p.owned γ ∪ q.owned γ := by
  ext v
  rw [mem_union, mem_owned, mem_owned, mem_owned]
  simp only [mem_prvs_multiply h, or_and_right, exists_or]

theorem scope_multiply (h : p.multiply q = .ok r) : r.scope = p.scope ∪ q.scope := by
  have hpq := (multiply_ok h).1
  ext v
  rw [mem_union, mem_scope, mem_scope, mem_scope, (alongside_multiply h).solutions_eq,
    ← hpq.solutions_eq]
  simp only [owned_multiply h, mem_union, and_or_left, exists_or]

/-- **The product of sound parfactors is sound.** -/
theorem sound_multiply (hp : p.Sound) (hq : q.Sound) (h : p.multiply q = .ok r) : r.Sound := by
  obtain ⟨hpq, hr⟩ := multiply_ok h
  have hrp := alongside_multiply h
  have hboth : ∀ {P : Prv → Prop}, (∀ s ∈ p.prvs, P s) → (∀ s ∈ q.prvs, P s) →
      ∀ s ∈ unionPrvs p.prvs q.prvs, P s :=
    fun h₁ h₂ s hs => (mem_unionPrvs.mp hs).elim (h₁ s) (h₂ s)
  refine sound_rebuild hr (hboth hp.valid hq.valid) hp.satisfiable (fun f hf hx => ?_) fun γ hγ =>
    ?_
  · have hx := (hrp.logVars _).mp hx
    rcases mem_unionPrvs.mp hf with hf | hf
    · exact hp.bound f hf hx
    · exact hq.bound f hf ((hpq.logVars _).mp hx)
  · rw [hrp.solutions_eq] at hγ
    exact hboth (hp.exact γ hγ) (hq.exact γ (hpq.solutions_eq ▸ hγ))

/-- the entries are multiplied -/
theorem value_multiply (h : p.multiply q = .ok r) (hd : Index.Below (r.digits γ w) r.sizes) :
    r.value γ w = p.value γ w * q.value γ w := by
  have hvalue := value_rebuild_of_below (multiply_ok h).2 hd
  obtain ⟨x, hx, hvalue⟩ := bind_ok hvalue
  obtain ⟨y, hy, hvalue⟩ := bind_ok hvalue
  have hprvs := (parts_multiply h).2
  rw [digits, hprvs, take_unionPrvs] at hx
  rw [digits, hprvs, places_unionPrvs] at hy
  rw [← Except.ok.inj hvalue, ← Factor.lookup_of_entry hx, ← Factor.lookup_of_entry hy]
  rfl

/-- **The product means the product** wherever its table has entries. -/
theorem meaning_multiply_of_selects (h : p.multiply q = .ok r) (hw : r.Selects w) :
    r.meaning w = p.meaning w * q.meaning w := by
  have hpq := (multiply_ok h).1
  rw [meaning, prod_congr rfl fun γ hγ => value_multiply h (hw γ hγ), prod_mul_distrib]
  rw [(alongside_multiply h).solutions_eq]
  congr 1
  rw [hpq.solutions_eq]
  rfl

theorem meaning_multiply (hp : p.Sound) (hq : q.Sound) (h : p.multiply q = .ok r)
    (hw : w.Legal r.scope) : r.meaning w = p.meaning w * q.meaning w :=
  meaning_multiply_of_selects h ((sound_multiply hp hq h).readable.selects hw)

end

end Parfactor

/-! ## the product of a list -/

namespace Operation

open Parfactor

variable [ExactScalar K] {p r : Parfactor K} {ps : List (Parfactor K)}

/-- **The product of a list**: it has the groundings of the first parfactor, the random variables of
all, and the meaning of all together. -/
structure Multiplies (p : Parfactor K) (ps : List (Parfactor K)) (r : Parfactor K) : Prop where
  alongside : Alongside r p
  all : ∀ q ∈ ps, Alongside p q
  sound : r.Sound
  prvs : ∀ s, s ∈ r.prvs ↔ s ∈ p.prvs ∨ ∃ q ∈ ps, s ∈ q.prvs
  meaning : ∀ w : World, w.Legal r.scope → r.meaning w = p.meaning w * (ps.map (·.meaning w)).prod

theorem Multiplies.mem_prvs (h : Multiplies p ps r) {s : Prv} :
    s ∈ r.prvs ↔ ∃ q ∈ p :: ps, s ∈ q.prvs := by
  rw [h.prvs, List.exists_mem_cons_iff]

/-- a product depends on nothing else than its factors -/
theorem Multiplies.exists_mem_scope (h : Multiplies p ps r) {v : RandomVariable}
    (hv : v ∈ r.scope) : ∃ q ∈ p :: ps, v ∈ q.scope := by
  obtain ⟨γ, hγ, hv⟩ := mem_scope.mp hv
  obtain ⟨s, hs, hv⟩ := mem_owned.mp hv
  rw [h.alongside.solutions_eq] at hγ
  rcases (h.prvs s).mp hs with hs | ⟨q, hq, hs⟩
  · exact ⟨p, List.mem_cons_self, mem_scope.mpr ⟨γ, hγ, mem_owned.mpr ⟨s, hs, hv⟩⟩⟩
  · rw [(h.all q hq).solutions_eq] at hγ
    exact ⟨q, List.mem_cons_of_mem _ hq, mem_scope.mpr ⟨γ, hγ, mem_owned.mpr ⟨s, hs, hv⟩⟩⟩

theorem multiplies_all (hp : p.Sound) (hps : ∀ q ∈ ps, q.Sound) (h : multiplyAll p ps = .ok r) :
    Multiplies p ps r := by
  induction ps generalizing p with
  | nil =>
    cases h
    exact ⟨.refl _, fun q hq => absurd hq List.not_mem_nil, hp, fun s => by simp, fun w _ => by simp⟩
  | cons q ps ih =>
    obtain ⟨m, hm, h⟩ := multiplyAll_ok h
    have hq := hps q List.mem_cons_self
    have hmp := alongside_multiply hm
    have hrest := ih (sound_multiply hp hq hm) (fun q hq => hps q (List.mem_cons_of_mem _ hq)) h
    refine ⟨hrest.alongside.trans hmp, fun s hs => ?_, hrest.sound, fun s => ?_, fun w hw => ?_⟩
    · rcases List.mem_cons.mp hs with rfl | hs
      · exact (multiply_ok hm).1
      · exact hmp.symm.trans (hrest.all s hs)
    · rw [hrest.prvs, mem_prvs_multiply hm, or_assoc]
      simp
    · have hsub : m.scope ⊆ r.scope := by
        intro v hv
        obtain ⟨γ, hγ, hv⟩ := mem_scope.mp hv
        obtain ⟨s, hs, hv⟩ := mem_owned.mp hv
        refine mem_scope.mpr ⟨γ, hrest.alongside.solutions_eq ▸ hγ, ?_⟩
        exact mem_owned.mpr ⟨s, (hrest.prvs s).mpr (.inl hs), hv⟩
      rw [hrest.meaning w hw, meaning_multiply hp hq hm (hw.mono hsub), List.map_cons,
        List.prod_cons, mul_assoc]

end Operation

end LiftedElimination
