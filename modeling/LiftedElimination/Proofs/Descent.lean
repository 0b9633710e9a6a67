import LiftedElimination.Proofs.Termination
import LiftedElimination.Proofs.Elimination

/-!
# What operations do to the bulk

Counting a variable takes its room away, an expansion takes somebody out of a group, a grounding is
a sequence of splits, and the product of aligned parfactors carries no more than these together,
less the random variable that is summed out.

* `TurnsInto`        what the counted parfactor is made of;
* `bulk_count`       a counted variable leaves more room than the formula needs;
* `bulk_expandAll`, `bulk_groundAll`   sequences of expansions and of splits;
* `Carries`          what a parfactor that is aligned with a set carries beside it;
* `bulk_sumOut`      the product of the aligned parfactors with the set summed out.
-/

namespace LiftedElimination

open Finset

variable {K : Type}

namespace Parfactor

variable {p q r : Parfactor K} {x : LogVar}

/-! ## counting -/

/-- the only random variable that mentions `x` is the atom `a` at place `i` -/
structure Counts (p : Parfactor K) (x : LogVar) (i : Nat) (a : Atom) : Prop where
  holder : p.prvs[i]? = some (.atom a)
  sole : ∀ q ∈ p.prvs.eraseIdx i, x ∉ q.freeVars

theorem holder?_eq_some {i : Nat} {q : Prv} (h : p.holder? x = some (i, q)) :
    p.prvs[i]? = some q ∧ q.mentions x = true := by
  obtain ⟨⟨s, j⟩, hs, hj⟩ := List.exists_of_findSome?_eq_some h
  split at hj
  · rename_i hx
    cases hj
    exact ⟨List.mk_mem_zipIdx_iff_getElem?.mp hs, hx⟩
  · cases hj

theorem counts_of_isCountable {i : Nat} {a : Atom} (h : p.isCountable x = true)
    (hi : p.prvs[i]? = some (.atom a)) (hx : (Prv.atom a).mentions x = true) : Counts p x i a := by
  have hone : (p.prvs.filter (·.mentions x)).length = 1 := by
    unfold isCountable at h
    split at h
    · rename_i heq
      rw [heq]
      rfl
    · cases h
  obtain ⟨hlt, ha⟩ := List.getElem?_eq_some_iff.mp hi
  have hperm := ((List.getElem_cons_eraseIdx_perm hlt).filter (·.mentions x)).length_eq
  rw [hone, ha, List.filter_cons, if_pos hx, List.length_cons] at hperm
  have hnone : (p.prvs.eraseIdx i).filter (·.mentions x) = [] :=
    List.length_eq_zero_iff.mp (by omega)
  refine ⟨hi, fun q hq hmem => ?_⟩
  exact List.filter_eq_nil_iff.mp hnone q hq (decide_eq_true hmem)

/-- the entry of a counted table for the values `digits` -/
def countEntry [Scalar K] (p : Parfactor K) (f : CountingFormula) (i : Nat) (digits : List Nat) :
    Except Error K :=
  match f.histograms.toArray[digits.getD i 0]? with
  | none => .error .tableBounds
  | some h => countedEntry p.factor p.sizes i digits h.counts 0 1

theorem count_ok [Scalar K] (h : p.count x = .ok r) : p.isCountable x = true ∧ ∃ i a, Counts p x i a
    ∧ CountingFormula.Valid ⟨x, a, p.constraints.onVariable x⟩
    ∧ rebuild (p.constraints.notOnVariable x)
        (p.prvs.set i (.count ⟨x, a, p.constraints.onVariable x⟩))
        (p.countEntry ⟨x, a, p.constraints.onVariable x⟩ i) = .ok r := by
  unfold count at h
  cases hc : p.isCountable x with
  | false =>
    rw [hc] at h
    cases h
  | true =>
    rw [hc] at h
    cases hh : p.holder? x with
    | none =>
      rw [hh] at h
      cases h
    | some s =>
      obtain ⟨i, q⟩ := s
      rw [hh] at h
      obtain ⟨hi, hx⟩ := holder?_eq_some hh
      cases q with
      | count f => cases h
      | atom a =>
        obtain ⟨f, hf, h⟩ := bind_ok h
        obtain ⟨rfl, hmem, hcs⟩ := CountingFormula.make_ok hf
        exact ⟨rfl, i, a, counts_of_isCountable hc hi hx,
          ⟨hmem, fun c hc => (hcs c hc).1, fun c hc => (hcs c hc).2⟩, h⟩

/-- a countable variable has a holder, and it is an atom -/
theorem exists_holder (h : p.isCountable x = true) : ∃ i a, p.holder? x = some (i, .atom a) := by
  unfold isCountable at h
  split at h
  · rename_i a ha
    have hmem : Prv.atom a ∈ p.prvs.filter (·.mentions x) := ha ▸ List.mem_singleton_self _
    obtain ⟨hmem, hx⟩ := List.mem_filter.mp hmem
    obtain ⟨j, hj⟩ := List.mem_iff_getElem?.mp hmem
    cases hh : p.holder? x with
    | none =>
      have hnone := List.findSome?_eq_none_iff.mp hh _ (List.mk_mem_zipIdx_iff_getElem?.mpr hj)
      rw [if_pos hx] at hnone
      cases hnone
    | some s =>
      obtain ⟨i, q⟩ := s
      obtain ⟨hi, hq⟩ := holder?_eq_some hh
      have hmem : q ∈ p.prvs.filter (·.mentions x) :=
        List.mem_filter.mpr ⟨List.mem_of_getElem? hi, hq⟩
      rw [ha] at hmem
      exact ⟨i, a, congrArg (fun q => some (i, q)) (List.mem_singleton.mp hmem)⟩
  · cases h

/-- counting a countable variable builds the counted table, and does nothing else -/
theorem count_eq_rebuild [Scalar K] (hsat : ∀ c ∈ p.constraints, c.isContradiction = false)
    (hcountable : p.isCountable x = true) {i : Nat} {a : Atom}
    (hholder : p.holder? x = some (i, .atom a)) : p.count x
      = rebuild (p.constraints.notOnVariable x)
        (p.prvs.set i (.count ⟨x, a, p.constraints.onVariable x⟩))
        (p.countEntry ⟨x, a, p.constraints.onVariable x⟩ i) := by
  have hx : x ∈ a.variables := of_decide_eq_true (holder?_eq_some hholder).2
  unfold count
  rw [hcountable, hholder]
  show (CountingFormula.make x a (p.constraints.onVariable x) >>= _) = _
  rw [CountingFormula.make_onVariable hx fun c hc _ => hsat c hc]
  rfl

/-- `r` has the formula `f` in place of its atom at place `i` of `p`, and no other random variable
mentions what `f` binds -/
structure TurnsInto (p : Parfactor K) (f : CountingFormula) (i : Nat) (r : Parfactor K) : Prop where
  own : f.constraints = p.constraints.onVariable f.bound
  valid : f.Valid
  holder : p.prvs[i]? = some (.atom f.inner)
  sole : ∀ q ∈ p.prvs.eraseIdx i, f.bound ∉ q.freeVars
  constraints_eq : r.constraints = p.constraints.notOnVariable f.bound
  prvs_eq : r.prvs = p.prvs.set i (.count f)

section
variable {f : CountingFormula} {i : Nat}

namespace TurnsInto

theorem mem_prvs (h : TurnsInto p f i r) {q : Prv} :
    q ∈ r.prvs ↔ q = .count f ∨ q ∈ p.prvs.eraseIdx i := by
  obtain ⟨hlt, -⟩ := List.getElem?_eq_some_iff.mp h.holder
  rw [h.prvs_eq, (List.set_perm_cons_eraseIdx hlt _).mem_iff, List.mem_cons]

theorem mem_prvs_old (h : TurnsInto p f i r) {q : Prv} :
    q ∈ p.prvs ↔ q = .atom f.inner ∨ q ∈ p.prvs.eraseIdx i := by
  obtain ⟨hlt, ha⟩ := List.getElem?_eq_some_iff.mp h.holder
  rw [← (List.getElem_cons_eraseIdx_perm hlt).mem_iff, List.mem_cons, ha]

theorem bound_notMem (h : TurnsInto p f i r) : f.bound ∉ r.logVars := by
  intro hx
  rcases mem_logVars.mp hx with ⟨q, hq, hx⟩ | hx
  · rcases h.mem_prvs.mp hq with rfl | hq
    · exact h.valid.bound_notMem_freeVars hx
    · exact h.sole q hq hx
  · rw [h.constraints_eq] at hx
    obtain ⟨c, hc, hx⟩ := ConstraintSet.mem_variables.mp hx
    exact (ConstraintSet.mem_notOnVariable.mp hc).2 hx

theorem logVars (h : TurnsInto p f i r) (z : LogVar) :
    z ∈ p.logVars ↔ z = f.bound ∨ z ∈ r.logVars := by
  have hatom : Prv.atom f.inner ∈ p.prvs := h.mem_prvs_old.mpr (.inl rfl)
  have hformula : Prv.count f ∈ r.prvs := h.mem_prvs.mpr (.inl rfl)
  constructor
  · intro hz
    by_cases hzx : z = f.bound
    · exact .inl hzx
    right
    rcases mem_logVars.mp hz with ⟨q, hq, hz⟩ | hz
    · rcases h.mem_prvs_old.mp hq with rfl | hq
      · exact mem_logVars.mpr (.inl ⟨_, hformula, CountingFormula.mem_freeVars.mpr (.inl ⟨hz, hzx⟩)⟩)
      · exact mem_logVars.mpr (.inl ⟨q, h.mem_prvs.mpr (.inr hq), hz⟩)
    · obtain ⟨c, hc, hz⟩ := ConstraintSet.mem_variables.mp hz
      by_cases hx : f.bound ∈ c.variables
      · have hcf : c ∈ f.constraints := h.own ▸ ConstraintSet.mem_onVariable.mpr ⟨hc, hx⟩
        have hzf := (h.valid.mem_variables (ConstraintSet.mem_variables.mpr ⟨c, hcf, hz⟩))
        exact mem_logVars.mpr (.inl ⟨_, hformula,
          CountingFormula.mem_freeVars.mpr (.inr (hzf.resolve_left hzx))⟩)
      · refine mem_logVars.mpr (.inr (ConstraintSet.mem_variables.mpr ⟨c, ?_, hz⟩))
        exact h.constraints_eq ▸ ConstraintSet.mem_notOnVariable.mpr ⟨hc, hx⟩
  · rintro (rfl | hz)
    · exact mem_logVars.mpr (.inl ⟨_, hatom, h.valid.bound_mem⟩)
    rcases mem_logVars.mp hz with ⟨q, hq, hz⟩ | hz
    · rcases h.mem_prvs.mp hq with rfl | hq
      · rcases CountingFormula.mem_freeVars.mp hz with ⟨hz, -⟩ | hz
        · exact mem_logVars.mpr (.inl ⟨_, hatom, hz⟩)
        · obtain ⟨c, hc, hcz⟩ := CountingFormula.mem_excludedVars.mp hz
          refine mem_logVars.mpr (.inr (ConstraintSet.mem_variables.mpr ⟨c, ?_, ?_⟩))
          · exact (ConstraintSet.mem_onVariable.mp (h.own ▸ hc)).1
          · exact (Constraint.mem_variables_of_otherVar? hcz).2.1
      · exact mem_logVars.mpr (.inl ⟨q, h.mem_prvs_old.mpr (.inr hq), hz⟩)
    · rw [h.constraints_eq] at hz
      obtain ⟨c, hc, hz⟩ := ConstraintSet.mem_variables.mp hz
      exact mem_logVars.mpr (.inr (ConstraintSet.mem_variables.mpr
        ⟨c, (ConstraintSet.mem_notOnVariable.mp hc).1, hz⟩))

theorem proper (h : TurnsInto p f i r) (hp : p.Proper) : r.Proper := by
  refine ⟨fun q hq => ?_, fun g hg => ?_⟩
  · rcases h.mem_prvs.mp hq with rfl | hq
    · exact h.valid
    · exact hp.valid q (h.mem_prvs_old.mpr (.inr hq))
  · rcases h.mem_prvs.mp hg with hg | hg
    · cases hg
      exact h.bound_notMem
    · exact fun hx => hp.bound g (h.mem_prvs_old.mpr (.inr hg)) ((h.logVars _).mpr (.inr hx))

end TurnsInto

/-- the counted parfactor, and how its table is built -/
theorem turnsInto_of_count [Scalar K] (h : p.count x = .ok r) : p.isCountable x = true
    ∧ ∃ f i, f.bound = x ∧ TurnsInto p f i r
      ∧ rebuild r.constraints r.prvs (p.countEntry f i) = .ok r := by
  obtain ⟨hcountable, i, a, hcounts, hvalid, hr⟩ := count_ok h
  obtain ⟨hcs, hprvs, -⟩ := rebuild_ok hr
  refine ⟨hcountable, _, i, rfl, ⟨rfl, hvalid, hcounts.holder, hcounts.sole, hcs, hprvs⟩, ?_⟩
  rw [hcs, hprvs]
  exact hr

/-- the room of a counted variable covers twice what its formula counts -/
theorem load_lt_room (n m t : Nat) :
    1 + 2 * (n + m) + t < 2 * (n + 1) * 4 ^ m * (1 + t) := by
  have hpow : m < 4 ^ m := Nat.lt_pow_self (by decide)
  have hle : 2 * (n + 1) * (m + 1) ≤ 2 * (n + 1) * 4 ^ m := Nat.mul_le_mul_left _ hpow
  have hexpand : 2 * (n + 1) * (m + 1) * (1 + t)
      = 2 * (n * m) + 2 * (n * m * t) + 2 * (n * t) + 2 * (m * t) + 2 * n + 2 * m + 2 * t + 2 := by
    ring
  calc 1 + 2 * (n + m) + t < 2 * (n + 1) * (m + 1) * (1 + t) := by omega
    _ ≤ 2 * (n + 1) * 4 ^ m * (1 + t) := Nat.mul_le_mul_right _ hle

namespace TurnsInto

/-- the variables are those of the counted parfactor, and the one that is bound now -/
theorem toFinset_logVars (h : TurnsInto p f i r) :
    p.logVars.toFinset = insert f.bound r.logVars.toFinset := by
  ext z
  rw [List.mem_toFinset, mem_insert, List.mem_toFinset]
  exact h.logVars z

theorem totalLoad_le (h : TurnsInto p f i r) : 1 + totalLoad r.prvs r.logVars.toFinset
    ≤ 1 + 2 * ((f.bound.domain p.constraints).size
        + (p.constraints.partners f.bound r.logVars.toFinset).card)
      + totalLoad p.prvs p.logVars.toFinset := by
  have hchange : 1 + totalLoad r.prvs r.logVars.toFinset
      = f.load r.logVars.toFinset + totalLoad p.prvs r.logVars.toFinset :=
    h.prvs_eq ▸ totalLoad_set h.holder _
  have hformula := CountingFormula.load_le_of_own (subset_refl r.logVars.toFinset) h.own
  have hmono : totalLoad p.prvs r.logVars.toFinset ≤ totalLoad p.prvs p.logVars.toFinset :=
    totalLoad_mono p.prvs (h.toFinset_logVars ▸ subset_insert _ _)
  omega

theorem bulk_lt (h : TurnsInto p f i r) : r.bulk < p.bulk := by
  let vars := r.logVars.toFinset
  have hnot : f.bound ∉ vars := fun hx => h.bound_notMem (List.mem_toFinset.mp hx)
  have hfreedom : r.constraints.freedom vars ≤ p.constraints.freedom vars :=
    h.constraints_eq ▸ ConstraintSet.freedom_notOnVariable_le (subset_refl vars) hnot
  have hwhole : p.constraints.freedom p.logVars.toFinset = p.constraints.freedom vars
      * (p.constraints.room f.bound * 4 ^ (p.constraints.partners f.bound vars).card) := by
    rw [h.toFinset_logVars, ConstraintSet.freedom_insert hnot]
  have hload : 1 + totalLoad r.prvs vars ≤ 1 + 2 * ((f.bound.domain p.constraints).size
      + (p.constraints.partners f.bound vars).card) + totalLoad p.prvs p.logVars.toFinset :=
    h.totalLoad_le
  calc r.bulk ≤ p.constraints.freedom vars * (1 + 2 * ((f.bound.domain p.constraints).size
        + (p.constraints.partners f.bound vars).card) + totalLoad p.prvs p.logVars.toFinset) :=
        Nat.mul_le_mul hfreedom hload
    _ < p.constraints.freedom vars * (2 * ((f.bound.domain p.constraints).size + 1)
        * 4 ^ (p.constraints.partners f.bound vars).card
        * (1 + totalLoad p.prvs p.logVars.toFinset)) :=
        Nat.mul_lt_mul_of_pos_left (load_lt_room _ _ _) (p.constraints.freedom_pos vars)
    _ = p.bulk := by
        rw [bulk, hwhole, ConstraintSet.room]
        ring

end TurnsInto

/-- **Counting a variable** lowers the bulk. -/
theorem bulk_count [Scalar K] (hp : p.Proper) (h : p.count x = .ok r) :
    r.Proper ∧ r.bulk < p.bulk := by
  obtain ⟨-, f, i, -, hturns, -⟩ := turnsInto_of_count h
  exact ⟨hturns.proper hp, hturns.bulk_lt⟩

end

/-! ## sequences of expansions and splits -/

theorem bulk_normalize_le {o : Option (Parfactor K)} (hp : p.Proper) (h : p.normalize = .ok o) :
    (∀ q ∈ o, q.Proper) ∧ (o.toList.map bulk).sum ≤ p.bulk := by
  cases o with
  | none => exact ⟨fun q hq => (nomatch hq), Nat.zero_le _⟩
  | some q =>
    obtain ⟨hq, hcase⟩ := normalize_eq_or_lt hp h
    refine ⟨fun s hs => Option.some.inj hs ▸ hq, ?_⟩
    show q.bulk + 0 ≤ p.bulk
    rcases hcase with rfl | hlt
    · exact le_rfl
    · exact hlt.le

theorem bulk_singleton (p : Parfactor K) : ([p].map Parfactor.bulk).sum = p.bulk := by
  rw [List.map_singleton, List.sum_singleton]

/-- nothing completes the choices where a variable has no individuals -/
theorem completions_eq_nil {ss : List Slot} {s : Slot} (hs : s ∈ ss) (hempty : s.domain = [])
    (chosen : Choices) : Slot.completions ss chosen = [] := by
  induction ss generalizing chosen with
  | nil => cases hs
  | cons t ss ih =>
    unfold Slot.completions
    rcases List.mem_cons.mp hs with rfl | hs
    · rw [Slot.choices_eq, hempty]
      rfl
    · exact List.flatMap_eq_nil_iff.mpr fun c _ => ih hs _

theorem satisfiable_eq_false {cs : ConstraintSet} {vars : List LogVar} {x : LogVar} (hx : x ∈ vars)
    (hempty : (x.domain cs).individuals = []) : cs.satisfiable vars = false := by
  have hslot : cs.slot x ∈ cs.slots vars := List.mem_map_of_mem hx
  rw [ConstraintSet.satisfiable, Slot.firstFrom_eq_head?, completions_eq_nil hslot hempty]
  rfl

/-- a parfactor with a variable without individuals has no normal form -/
theorem normalize_eq_none (hx : x ∈ p.logVars)
    (hempty : (x.domain p.constraints).individuals = []) : p.normalize = .ok none := by
  have hround : groundRound logVars constraints apply (some p) = some none := by
    rw [groundRound, satisfiable_eq_false hx hempty]
    rfl
  have hground : groundSingletons logVars constraints apply p = .ok none := by
    unfold groundSingletons settle
    rw [hround]
    dsimp only
    unfold settle
    rfl
  rw [normalize, hground]
  rfl

theorem bulk_expandAll_le {o : Option CountingFormula} {cs : List Constant} (hp : p.Proper)
    (h : Operation.expandAll p o cs = .ok q) : q.Proper ∧ q.bulk ≤ p.bulk := by
  induction cs generalizing p o with
  | nil =>
    cases o <;> cases h <;> exact ⟨hp, le_rfl⟩
  | cons c cs ih =>
    cases o with
    | none =>
      cases h
      exact ⟨hp, le_rfl⟩
    | some f =>
      obtain ⟨s, hs, -, h⟩ := Operation.expandAll_ok h
      obtain ⟨hs, hlt⟩ := bulk_expand hp hs
      obtain ⟨hq, hle⟩ := ih hs h
      exact ⟨hq, hle.trans hlt.le⟩

/-- **Expansions of a formula**, one after the other, lower the bulk. -/
theorem bulk_expandAll {f : CountingFormula} {cs : List Constant} (hp : p.Proper) (hcs : cs ≠ [])
    (h : Operation.expandAll p (some f) cs = .ok q) : q.Proper ∧ q.bulk < p.bulk := by
  cases cs with
  | nil => exact absurd rfl hcs
  | cons c cs =>
    obtain ⟨s, hs, -, h⟩ := Operation.expandAll_ok h
    obtain ⟨hs, hlt⟩ := bulk_expand hp hs
    obtain ⟨hq, hle⟩ := bulk_expandAll_le hs h
    exact ⟨hq, hle.trans_lt hlt⟩

theorem bulk_groundAll_le {o : Option (Parfactor K)} {cs : List Constant} {l : List (Parfactor K)}
    (ho : ∀ p ∈ o, p.Proper) (h : Operation.groundAll x o cs = .ok l) :
    (∀ q ∈ l, q.Proper) ∧ (l.map bulk).sum ≤ (o.toList.map bulk).sum := by
  induction cs generalizing o l with
  | nil =>
    cases o with
    | none =>
      cases h
      exact ⟨fun q hq => absurd hq List.not_mem_nil, le_rfl⟩
    | some p =>
      cases h
      exact ⟨fun q hq => List.mem_singleton.mp hq ▸ ho p rfl, le_rfl⟩
  | cons c cs ih =>
    cases o with
    | none =>
      cases h
      exact ⟨fun q hq => absurd hq List.not_mem_nil, le_rfl⟩
    | some p =>
      obtain ⟨-, rfl⟩ | ⟨-, s, fragment, residual, rest, hs, hfragment, hresidual, hrest, rfl⟩ :=
        Operation.groundAll_ok h
      · exact ⟨fun q hq => List.mem_singleton.mp hq ▸ ho p rfl, le_rfl⟩
      · obtain ⟨⟨hproper, hproper'⟩, hlt⟩ := bulk_split (ho p rfl) hs
        obtain ⟨hfragment, hle⟩ := bulk_normalize_le hproper hfragment
        obtain ⟨hresidual, hle'⟩ := bulk_normalize_le hproper' hresidual
        obtain ⟨hrest, hle''⟩ := ih hresidual hrest
        refine ⟨fun q hq => ?_, ?_⟩
        · rcases List.mem_append.mp hq with hq | hq
          · exact hfragment q (Option.mem_toList.mp hq)
          · exact hrest q hq
        · rw [List.map_append, List.sum_append]
          show _ ≤ p.bulk + 0
          omega

/-- **The instances of a variable** together have less bulk. -/
theorem bulk_groundAll {cs : List Constant} {l : List (Parfactor K)} (hp : p.Proper)
    (hx : x ∈ p.logVars) (hcs : cs ≠ []) (h : Operation.groundAll x (some p) cs = .ok l) :
    (∀ q ∈ l, q.Proper) ∧ (l.map bulk).sum < p.bulk := by
  cases cs with
  | nil => exact absurd rfl hcs
  | cons c cs =>
    obtain ⟨s, fragment, residual, rest, hs, hfragment, hresidual, hrest, rfl⟩ :=
      ((Operation.groundAll_ok h).resolve_left fun hnone => hnone.1 hx).2
    obtain ⟨⟨hproper, hproper'⟩, hlt⟩ := bulk_split hp hs
    obtain ⟨hfragment, hle⟩ := bulk_normalize_le hproper hfragment
    obtain ⟨hresidual, hle'⟩ := bulk_normalize_le hproper' hresidual
    obtain ⟨hrest, hle''⟩ := bulk_groundAll_le hresidual hrest
    refine ⟨fun q hq => ?_, ?_⟩
    · rcases List.mem_append.mp hq with hq | hq
      · exact hfragment q (Option.mem_toList.mp hq)
      · exact hrest q hq
    · rw [List.map_append, List.sum_append]
      omega

/-! ## aligned parfactors -/

section
variable {l m : List Prv} {vars : Finset LogVar} {s : PrvSet} {k : Nat}

theorem totalLoad_sublist (h : l.Sublist m) (vars : Finset LogVar) :
    totalLoad l vars ≤ totalLoad m vars :=
  (h.map _).sum_le_sum fun _ _ => Nat.zero_le _

theorem totalLoad_perm (h : l.Perm m) (vars : Finset LogVar) : totalLoad l vars = totalLoad m vars :=
  (h.map _).sum_eq

/-- the random variables other than that of the set -/
def others (s : PrvSet) (prvs : List Prv) : List Prv := prvs.filter (· ≠ s.prv)

theorem totalLoad_others_set {r : Prv} (h : l[k]? = some r) (s : PrvSet) (vars : Finset LogVar) :
    1 + totalLoad (others s (l.set k s.prv)) vars ≤ totalLoad l vars := by
  obtain ⟨hlt, -⟩ := List.getElem?_eq_some_iff.mp h
  have hperm := (List.set_perm_cons_eraseIdx hlt s.prv).filter (· ≠ s.prv)
  rw [List.filter_cons, if_neg (by simp)] at hperm
  rw [others, totalLoad_perm hperm, ← totalLoad_eraseIdx h]
  exact Nat.add_le_add (Prv.load_pos r vars) (totalLoad_sublist List.filter_sublist vars)

/-- a section of a renaming -/
theorem exists_section {rho : Substitution} (hp : p.Proper) (hs : p.Admits rho)
    (hrho : rho.IsRenaming) (h : p.apply rho = some q) : ∃ r : LogVar → LogVar, ∀ z ∈ q.logVars,
      r z ∈ p.logVars.toFinset ∧ rho.apply (.var (r z)) = .var z
        ∧ z.population = (r z).population := by
  have hexists : ∀ z, ∃ x, z ∈ q.logVars → x ∈ p.logVars.toFinset
      ∧ rho.apply (.var x) = .var z ∧ z.population = x.population := by
    intro z
    by_cases hz : z ∈ q.logVars
    · obtain ⟨x, hx, hxz⟩ := (hp.mem_logVars_apply hs h).mp hz
      obtain ⟨y, hy, hpop⟩ := hrho x
      refine ⟨x, fun _ => ⟨List.mem_toFinset.mpr hx, hxz, ?_⟩⟩
      rw [Term.var.inj (hxz.symm.trans hy), hpop]
    · exact ⟨z, fun h => absurd h hz⟩
  choose r hr using hexists
  exact ⟨r, hr⟩

/-- `q` is a parfactor over the variables of the set that carries, beside the random variable of the
set, less than `b` -/
structure Carries (s : PrvSet) (b : Nat) (q : Parfactor K) : Prop where
  constraints : q.constraints = s.constraints
  others : ∀ t ∈ others s q.prvs, t.Valid ∧ (∀ x ∈ t.freeVars, x ∈ s.prv.freeVars)
    ∧ ∀ f, t = .count f → f.bound ∉ s.prv.freeVars
  le : s.constraints.freedom s.prv.freeVars.toFinset
    * (2 + totalLoad (Parfactor.others s q.prvs) s.prv.freeVars.toFinset) ≤ b

/-- **An aligned parfactor** carries, beside the random variable of the set, less than the parfactor
does. -/
theorem bulk_alignAt? (hp : p.Proper) (hfree : ∀ f, Prv.count f ∈ p.prvs → f.bound ∉ s.prv.freeVars)
    (h : Operation.alignAt? s p k = some q) : Carries s p.bulk q := by
  obtain ⟨t, o, rho, renamed, hk, hplaced, hrenamed, -, hcs, hlog, rfl⟩ :=
    Operation.placed_of_alignAt? hp hfree h
  have hproper := hp.apply hplaced.admits hrenamed
  obtain ⟨r, hr⟩ := exists_section hp hplaced.admits hplaced.isRenaming hrenamed
  have hle := bulk_apply_le hp hplaced.admits hrenamed (subset_refl _) hr
  have hget : renamed.prvs[k]? = some (t.apply rho) := by
    obtain ⟨ds, -, rfl⟩ := apply_eq_some hrenamed
    rw [List.getElem?_map, hk]
    rfl
  have hvars : renamed.logVars.toFinset = s.prv.freeVars.toFinset := by
    ext x
    rw [List.mem_toFinset, List.mem_toFinset, hlog]
  refine ⟨hcs, fun u hu => ?_, ?_⟩
  · obtain ⟨hu, hne⟩ := List.mem_filter.mp hu
    obtain ⟨hlt, -⟩ := List.getElem?_eq_some_iff.mp hget
    have hmem : u ∈ renamed.prvs := by
      rcases List.mem_or_eq_of_mem_set hu with hu | rfl
      · exact hu
      · exact absurd rfl (of_decide_eq_true hne)
    have hhosts := hproper.hosts hmem
    exact ⟨hhosts.valid, fun x hx => (hlog x).mp (hhosts.free x hx), fun f hf hbound =>
      hhosts.bound f hf ((hlog _).mpr hbound)⟩
  · have hload := totalLoad_others_set hget s s.prv.freeVars.toFinset
    rw [bulk, hcs, hvars] at hle
    refine le_trans (Nat.mul_le_mul_left _ ?_) hle
    show 2 + totalLoad (Parfactor.others s (renamed.prvs.set k s.prv)) _ ≤ _
    omega

/-- each factor pays for its other random variables, and twice for itself -/
theorem Carries.sum_le {l : List (Component K × Parfactor K)}
    (hl : ∀ y ∈ l, Carries s y.1.bulk y.2) :
    s.constraints.freedom s.prv.freeVars.toFinset * (2 * l.length + ((l.map Prod.snd).map fun q =>
        totalLoad (Parfactor.others s q.prvs) s.prv.freeVars.toFinset).sum)
      ≤ ((l.map Prod.fst).map Component.bulk).sum := by
  let freedom := s.constraints.freedom s.prv.freeVars.toFinset
  let load := fun q : Parfactor K =>
    totalLoad (Parfactor.others s q.prvs) s.prv.freeVars.toFinset
  induction l with
  | nil => exact le_rfl
  | cons y l ih =>
    have hy : freedom * (2 + load y.2) ≤ y.1.bulk := (hl y List.mem_cons_self).le
    have hrest := ih fun z hz => hl z (List.mem_cons_of_mem _ hz)
    simp only [List.map_cons, List.sum_cons, List.length_cons]
    calc freedom * (2 * (l.length + 1) + (load y.2 + ((l.map Prod.snd).map load).sum))
        = freedom * (2 + load y.2)
          + freedom * (2 * l.length + ((l.map Prod.snd).map load).sum) := by ring
      _ ≤ _ := Nat.add_le_add hy hrest

/-! ## products -/

theorem totalLoad_unionPrvs (f : Prv → Bool) (ps qs : List Prv) (vars : Finset LogVar) :
    totalLoad ((unionPrvs ps qs).filter f) vars
      ≤ totalLoad (ps.filter f) vars + totalLoad (qs.filter f) vars := by
  induction qs generalizing ps with
  | nil => exact Nat.le_add_right _ _
  | cons q qs ih =>
    have hcons : totalLoad ((q :: qs).filter f) vars
        = totalLoad ([q].filter f) vars + totalLoad (qs.filter f) vars := by
      rw [← totalLoad_append, ← List.filter_append]
      rfl
    rw [unionPrvs_cons, hcons]
    split
    · exact (ih ps).trans (by omega)
    · refine (ih (ps ++ [q])).trans ?_
      rw [List.filter_append, totalLoad_append]
      omega

end

variable [Scalar K]

/-- the product of a list holds what its factors hold -/
theorem parts_multiplyAll {ps : List (Parfactor K)} (h : Operation.multiplyAll p ps = .ok r) :
    r.constraints = p.constraints ∧ (∀ t ∈ r.prvs, ∃ q ∈ p :: ps, t ∈ q.prvs)
      ∧ ∀ (f : Prv → Bool) (vars : Finset LogVar), totalLoad (r.prvs.filter f) vars
        ≤ ((p :: ps).map fun q => totalLoad (q.prvs.filter f) vars).sum := by
  induction ps generalizing p with
  | nil =>
    cases h
    exact ⟨rfl, fun t ht => ⟨_, List.mem_cons_self, ht⟩, fun f vars => Nat.le_add_right _ _⟩
  | cons q ps ih =>
    obtain ⟨m, hm, h⟩ := Operation.multiplyAll_ok h
    obtain ⟨hcs, hmem, hload⟩ := ih h
    obtain ⟨hcs', hprvs⟩ := parts_multiply hm
    refine ⟨hcs.trans hcs', fun t ht => ?_, fun f vars => ?_⟩
    · obtain ⟨s, hs, ht⟩ := hmem t ht
      rcases List.mem_cons.mp hs with rfl | hs
      · rcases (mem_prvs_multiply hm).mp ht with ht | ht
        · exact ⟨p, List.mem_cons_self, ht⟩
        · exact ⟨q, List.mem_cons_of_mem _ List.mem_cons_self, ht⟩
      · exact ⟨s, List.mem_cons_of_mem _ (List.mem_cons_of_mem _ hs), ht⟩
    · have hle := hload f vars
      have hunion := totalLoad_unionPrvs f p.prvs q.prvs vars
      rw [← hprvs] at hunion
      simp only [List.map_cons, List.sum_cons] at hle ⊢
      omega

theorem totalLoad_sumOut_le {s : PrvSet} (h : p.sumOut s.prv = .ok r) (vars : Finset LogVar) :
    totalLoad r.prvs vars ≤ totalLoad (others s p.prvs) vars := by
  obtain ⟨-, -, -, hnot, -⟩ := sumOut_ok h
  have hprvs := (parts_sumOut h).2
  have hfilter : others s r.prvs = r.prvs := by
    refine List.filter_eq_self.mpr fun t ht => decide_eq_true ?_
    rintro rfl
    exact hnot (hprvs ▸ ht)
  calc totalLoad r.prvs vars
      = totalLoad (others s (p.prvs.erase s.prv)) vars := by rw [← hprvs, hfilter]
    _ ≤ totalLoad (others s p.prvs) vars :=
        totalLoad_sublist (List.erase_sublist.filter _) vars

theorem freedom_sumOut_le {t : Prv} {vars : Finset LogVar} (h : p.sumOut t = .ok r)
    (hvars : r.logVars.toFinset ⊆ vars) :
    r.constraints.freedom r.logVars.toFinset ≤ p.constraints.freedom vars := by
  have hstay : ∀ z ∈ r.logVars.toFinset, z ∈ p.staying t := fun z hz =>
    (mem_logVars_sumOut h).mp (List.mem_toFinset.mp hz)
  rw [(parts_sumOut h).1]
  refine (Embeds.of_keeps hvars fun z hz u hu hk =>
    ConstraintSet.mem_restrictTo.mpr ⟨hk, fun y hy => ?_⟩).freedom_le
  rcases Constraint.mem_variables_ordered.mp hy with rfl | hyu
  · exact hstay _ hz
  · exact hstay _ (hu y hyu)

/-- what stays of the product of aligned parfactors when the set is summed out -/
theorem others_sumOut {s : PrvSet} {ps : List (Parfactor K)} {product : Parfactor K}
    (hall : ∀ q ∈ p :: ps, ∃ b, Carries s b q)
    (hproduct : Operation.multiplyAll p ps = .ok product) (h : product.sumOut s.prv = .ok r) :
    ∀ t ∈ r.prvs, t.Valid ∧ (∀ x ∈ t.freeVars, x ∈ s.prv.freeVars)
      ∧ ∀ f, t = .count f → f.bound ∉ s.prv.freeVars := by
  obtain ⟨-, hmem, -⟩ := parts_multiplyAll hproduct
  obtain ⟨-, -, -, hnot, -⟩ := sumOut_ok h
  intro t ht
  rw [(parts_sumOut h).2] at ht
  obtain ⟨q, hq, htq⟩ := hmem t (List.mem_of_mem_erase ht)
  obtain ⟨b, hb⟩ := hall q hq
  refine hb.others t (List.mem_filter.mpr ⟨htq, decide_eq_true ?_⟩)
  rintro rfl
  exact hnot ht

/-- **The set summed out of the product** of aligned parfactors has less bulk than they come from. -/
theorem bulk_sumOut {s : PrvSet} {pairs : List (Component K × Parfactor K)}
    {ps : List (Parfactor K)} {product : Parfactor K}
    (hcarries : ∀ y ∈ pairs, Carries s y.1.bulk y.2) (hpairs : pairs.map Prod.snd = p :: ps)
    (hproduct : Operation.multiplyAll p ps = .ok product) (h : product.sumOut s.prv = .ok r) :
    r.Proper ∧ r.bulk < ((pairs.map Prod.fst).map Component.bulk).sum := by
  have hall : ∀ q ∈ p :: ps, ∃ b, Carries s b q := by
    intro q hq
    rw [← hpairs] at hq
    obtain ⟨y, hy, rfl⟩ := List.mem_map.mp hq
    exact ⟨_, hcarries y hy⟩
  obtain ⟨hcs, -, hload⟩ := parts_multiplyAll hproduct
  have hothers := others_sumOut hall hproduct h
  have hsub : ∀ x ∈ r.logVars, x ∈ s.prv.freeVars := by
    intro x hx
    obtain ⟨t, ht, hxt⟩ := mem_staying.mp ((mem_logVars_sumOut h).mp hx)
    exact (hothers t ((parts_sumOut h).2 ▸ ht)).2.1 x hxt
  refine ⟨⟨fun t ht => (hothers t ht).1, fun f hf hbound =>
    (hothers _ hf).2.2 f rfl (hsub _ hbound)⟩, ?_⟩
  let vars := s.prv.freeVars.toFinset
  let load := fun q : Parfactor K => totalLoad (others s q.prvs) vars
  have hvars : r.logVars.toFinset ⊆ vars := fun x hx =>
    List.mem_toFinset.mpr (hsub x (List.mem_toFinset.mp hx))
  have hfreedom : r.constraints.freedom r.logVars.toFinset ≤ s.constraints.freedom vars := by
    obtain ⟨b, hb⟩ := hall p List.mem_cons_self
    rw [← hb.constraints, ← hcs]
    exact freedom_sumOut_le h hvars
  have hrest : totalLoad r.prvs r.logVars.toFinset ≤ ((pairs.map Prod.snd).map load).sum :=
    calc totalLoad r.prvs r.logVars.toFinset
        ≤ totalLoad r.prvs vars := totalLoad_mono _ hvars
      _ ≤ totalLoad (others s product.prvs) vars := totalLoad_sumOut_le h vars
      _ ≤ ((pairs.map Prod.snd).map load).sum := hpairs ▸ hload _ vars
  have hlength : 1 ≤ pairs.length := by
    rw [← List.length_map (f := Prod.snd), hpairs]
    exact Nat.succ_le_succ (Nat.zero_le _)
  calc r.bulk
      ≤ s.constraints.freedom vars * (1 + ((pairs.map Prod.snd).map load).sum) :=
        Nat.mul_le_mul hfreedom (Nat.add_le_add_left hrest 1)
    _ < s.constraints.freedom vars
          * (2 * pairs.length + ((pairs.map Prod.snd).map load).sum) :=
        Nat.mul_lt_mul_of_pos_left (by omega) (s.constraints.freedom_pos vars)
    _ ≤ _ := Carries.sum_le hcarries

end Parfactor

/-! ## lists of parfactors -/

theorem refinementBound_standard (ps : List (Parfactor K)) :
    refinementBound (ps.map Component.standard) = (ps.map Parfactor.bulk).sum := by
  rw [refinementBound_eq, List.map_map]
  rfl

theorem Operation.bulk_normalForms {ps : List (Parfactor K)} {l : List (Component K)}
    (hps : ∀ p ∈ ps, p.Proper) (h : normalForms ps = .ok l) :
    (∀ c ∈ l, c.Proper) ∧ refinementBound l ≤ (ps.map Parfactor.bulk).sum := by
  obtain ⟨normal, hn, hl⟩ := bind_ok h
  cases hl
  have hall := collect_ok hn
  clear h hn
  induction hall with
  | nil => exact ⟨fun c hc => absurd hc List.not_mem_nil, le_rfl⟩
  | @cons p r ps normal hpr hrest ih =>
    obtain ⟨hproper, hle⟩ := ih fun q hq => hps q (List.mem_cons_of_mem _ hq)
    obtain ⟨hr, hrp⟩ := Parfactor.bulk_normalize_le (hps p List.mem_cons_self) hpr
    rw [List.map_cons, List.sum_cons]
    cases r with
    | none => exact ⟨hproper, hle.trans (Nat.le_add_left _ _)⟩
    | some q =>
      refine ⟨fun c hc => ?_, ?_⟩
      · rcases List.mem_cons.mp hc with rfl | hc
        · exact hr q rfl
        · exact hproper c hc
      · show refinementBound (.standard q :: normal.filterMap (·.map .standard)) ≤ _
        rw [refinementBound_cons]
        exact Nat.add_le_add hrp hle

end LiftedElimination
