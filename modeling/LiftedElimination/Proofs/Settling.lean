import LiftedElimination.Proofs.Normal

/-!
# Loops that come to rest

A loop is run within a bound, and stops with a fault where the bound is too small.  A measure that
every step lowers is bound enough: then the loop within the bound is the loop without one.

* `Settles`            the loop without a bound, with the number of its steps;
* `settles_settle`     the loop within a bound that covers the measure;
* `ErrorsIn`, `Rests`  which errors a computation can end with, and that no bound is one of them;
* `errorsIn_normalize` the three loops of the normal form come to rest within their bounds;
* `rests_nextAction`, `rests_pieces`   nothing else ends at a bound.
-/

namespace LiftedElimination

variable {α β : Type}

/-! ## the errors of a computation -/

/-- every error that the computation can end with is one of `P` -/
def ErrorsIn (P : Error → Prop) (x : Except Error α) : Prop := ∀ e, x = .error e → P e

namespace ErrorsIn

variable {P : Error → Prop} {x : Except Error α}

theorem ok (a : α) : ErrorsIn P (.ok a) := by
  intro e h
  cases h

theorem error {e : Error} (h : P e) : ErrorsIn P (.error e : Except Error α) := by
  intro d hd
  cases hd
  exact h

theorem bind {f : α → Except Error β} (hx : ErrorsIn P x)
    (hf : ∀ a, x = .ok a → ErrorsIn P (f a)) : ErrorsIn P (x >>= f) := by
  cases hcase : x with
  | error e => exact error (hx e hcase)
  | ok a => exact hf a hcase

theorem map {f : α → β} (hx : ErrorsIn P x) : ErrorsIn P (x.map f) := by
  cases hcase : x with
  | error e => exact error (hx e hcase)
  | ok a => exact ok (f a)

/-- a computation without errors ends with a result -/
theorem exists_ok (hx : ErrorsIn (fun _ => False) x) : ∃ a, x = .ok a := by
  cases hcase : x with
  | error e => exact (hx e hcase).elim
  | ok a => exact ⟨a, rfl⟩

theorem collect {f : α → Except Error β} {l : List α} (h : ∀ a ∈ l, ErrorsIn P (f a)) :
    ErrorsIn P (collect f l) := by
  induction l with
  | nil => exact ok []
  | cons a l ih =>
    have ha := h a List.mem_cons_self
    have hl := ih fun b hb => h b (List.mem_cons_of_mem a hb)
    unfold LiftedElimination.collect
    split
    · rename_i e he
      exact error (ha e he)
    · split
      · rename_i e he
        exact error (hl e he)
      · exact ok _

end ErrorsIn

/-- the computation does not end at a bound -/
abbrev Rests (x : Except Error α) : Prop := ErrorsIn (· ≠ .unsettled) x

/-! ## loops -/

/-- the loop without a bound: after `n` steps from `a` no step is left, or an error has occurred -/
inductive Settles (step : α → Except Error (Option α)) : α → Nat → Except Error α → Prop where
  | done {a : α} (h : step a = .ok none) : Settles step a 0 (.ok a)
  | failed {a : α} {e : Error} (h : step a = .error e) : Settles step a 0 (.error e)
  | next {a b : α} {n : Nat} {r : Except Error α} (h : step a = .ok (some b))
    (hb : Settles step b n r) : Settles step a (n + 1) r

section
variable {step : α → Except Error (Option α)} {I : α → Prop} {m : α → Nat}

/-- **A measure is bound enough**: within it the loop comes to rest as it would without. -/
theorem settles_settle (hstep : ∀ a b, I a → step a = .ok (some b) → I b ∧ m b < m a)
    {bound : Nat} {a : α} (ha : I a) (hbound : m a ≤ bound) :
    ∃ n ≤ m a, Settles step a n (settle step bound a) := by
  induction bound generalizing a with
  | zero =>
    unfold settle
    cases h : step a with
    | error e => exact ⟨0, Nat.zero_le _, .failed h⟩
    | ok o =>
      cases o with
      | none => exact ⟨0, Nat.zero_le _, .done h⟩
      | some b =>
        have := (hstep a b ha h).2
        omega
  | succ bound ih =>
    unfold settle
    cases h : step a with
    | error e => exact ⟨0, Nat.zero_le _, .failed h⟩
    | ok o =>
      cases o with
      | none => exact ⟨0, Nat.zero_le _, .done h⟩
      | some b =>
        obtain ⟨hb, hlt⟩ := hstep a b ha h
        obtain ⟨n, hn, hsettles⟩ := ih hb (by omega)
        exact ⟨n + 1, by omega, .next h hsettles⟩

theorem Settles.errorsIn {P : Error → Prop} (hkeep : ∀ a b, I a → step a = .ok (some b) → I b)
    (herrors : ∀ a, I a → ErrorsIn P (step a)) {a : α} {n : Nat} {r : Except Error α}
    (h : Settles step a n r) (ha : I a) : ErrorsIn P r := by
  induction h with
  | done h => exact .ok _
  | failed h => exact .error (herrors _ ha _ h)
  | next h _ ih => exact ih (hkeep _ _ ha h)

theorem Settles.rests (hkeep : ∀ a b, I a → step a = .ok (some b) → I b)
    (hrests : ∀ a, I a → Rests (step a)) {a : α} {n : Nat} {r : Except Error α}
    (h : Settles step a n r) (ha : I a) : Rests r := h.errorsIn hkeep hrests ha

/-- a loop that lowers a measure has lowered it by its steps -/
theorem Settles.add_le (hstep : ∀ a b, I a → step a = .ok (some b) → I b ∧ m b < m a) {a b : α}
    {n : Nat} (h : Settles step a n (.ok b)) (ha : I a) :
    I b ∧ m b + n ≤ m a ∧ step b = .ok none := by
  generalize hr : (Except.ok b : Except Error α) = r at h
  induction h with
  | done h =>
    cases hr
    exact ⟨ha, le_rfl, h⟩
  | failed h => cases hr
  | next h _ ih =>
    obtain ⟨hb, hlt⟩ := hstep _ _ ha h
    obtain ⟨hI, hle, hdone⟩ := ih hb hr
    exact ⟨hI, by omega, hdone⟩

/-- a loop within a bound that covers the measure fails only where one of its steps does -/
theorem errorsIn_settle {P : Error → Prop}
    (hstep : ∀ a b, I a → step a = .ok (some b) → I b ∧ m b < m a)
    (herrors : ∀ a, I a → ErrorsIn P (step a)) {bound : Nat} {a : α} (ha : I a)
    (hbound : m a ≤ bound) : ErrorsIn P (settle step bound a) := by
  obtain ⟨n, -, h⟩ := settles_settle hstep ha hbound
  exact h.errorsIn (fun a b ha hab => (hstep a b ha hab).1) herrors ha

end

/-! ## tables -/

variable {K : Type} {P : Error → Prop}

namespace Index

theorem errorsIn_indexOf? (hP : P .overflow) (sizes digits : List Nat) :
    ErrorsIn P (indexOf? sizes digits) := by
  suffices h : ∀ l acc, ErrorsIn P (indexFrom? l acc) from h _ _
  intro l
  induction l with
  | nil => exact fun acc => .ok acc
  | cons p l ih =>
    intro acc
    obtain ⟨size, digit⟩ := p
    unfold indexFrom? push?
    split
    · rename_i e he
      split at he
      · cases he
      · cases he
        exact .error hP
    · exact ih _

theorem errorsIn_volumeFrom? (hP : P .overflow) (sizes : List Nat) (acc : Nat) :
    ErrorsIn P (volumeFrom? sizes acc) := by
  induction sizes generalizing acc with
  | nil => exact .ok acc
  | cons size sizes ih =>
    unfold volumeFrom?
    split
    · exact ih _
    · exact .error hP

theorem errorsIn_volume? (hP : P .overflow) (sizes : List Nat) : ErrorsIn P (volume? sizes) := by
  unfold volume?
  split
  · rename_i e he
    exact .error (errorsIn_volumeFrom? hP _ _ e he)
  · split
    · exact .ok _
    · exact .error hP

end Index

namespace Factor

theorem errorsIn_entry (hoverflow : P .overflow) (hbounds : P .tableBounds) (t : Factor K)
    (sizes digits : List Nat) : ErrorsIn P (t.entry sizes digits) := by
  unfold entry
  split
  · rename_i e he
    exact .error (Index.errorsIn_indexOf? hoverflow _ _ e he)
  · split
    · exact .error hbounds
    · exact .ok _

/-- only the assignments of the table are computed, and only if they fit into one -/
theorem errorsIn_ofFn_below {sizes : List Nat} (hsizes : ErrorsIn P (Index.volume? sizes))
    {f : List Nat → Except Error K}
    (hf : sizes.prod ≤ Index.maxEntries → ∀ digits, Index.Below digits sizes →
      ErrorsIn P (f digits)) : ErrorsIn P (ofFn sizes f) := by
  unfold ofFn
  split
  · rename_i e he
    exact .error (hsizes e he)
  · rename_i volume hvolume
    obtain ⟨rfl, hmax⟩ := Index.volume?_ok hvolume
    have hfill : ∀ n i acc, n ≤ sizes.prod →
        ErrorsIn P (fill sizes f n (Index.digitsOf sizes i) acc) := by
      intro n
      induction n with
      | zero => exact fun i acc _ => .ok acc
      | succ n ih =>
        intro i acc hn
        unfold fill
        split
        · rename_i e he
          exact .error (hf hmax _ (Index.below_digitsOf (Nat.zero_lt_of_lt hn) i) e he)
        · rw [Index.advance_digitsOf (Nat.zero_lt_of_lt hn)]
          exact ih _ _ (Nat.le_of_succ_le hn)
    rw [← Index.digitsOf_zero]
    split
    · rename_i e he
      exact .error (hfill _ _ _ le_rfl e he)
    · exact .ok _

end Factor

namespace Parfactor

theorem errorsIn_rebuild_below (hP : P .overflow) {cs : ConstraintSet} {prvs : List Prv}
    {f : List Nat → Except Error K} (hf : (prvs.map Prv.rangeSize).prod ≤ Index.maxEntries →
      ∀ digits, Index.Below digits (prvs.map Prv.rangeSize) → ErrorsIn P (f digits)) :
    ErrorsIn P (rebuild cs prvs f) :=
  (Factor.errorsIn_ofFn_below (Index.errorsIn_volume? hP _) hf).bind fun _ _ => .ok _

/-- a table that fits is built without errors if its entries are -/
theorem errorsIn_rebuild_of_fits {cs : ConstraintSet} {prvs : List Prv}
    {f : List Nat → Except Error K} (hfits : Index.Fits (prvs.map Prv.rangeSize))
    (hf : (prvs.map Prv.rangeSize).prod ≤ Index.maxEntries →
      ∀ digits, Index.Below digits (prvs.map Prv.rangeSize) → ErrorsIn P (f digits)) :
    ErrorsIn P (rebuild cs prvs f) := by
  obtain ⟨n, hn⟩ := hfits
  exact (Factor.errorsIn_ofFn_below (hn ▸ .ok n) hf).bind fun _ _ => .ok _

/-- **When a table is built** from entries without errors: exactly if its sizes fit. -/
theorem exists_rebuild_iff {cs : ConstraintSet} {prvs : List Prv} {f : List Nat → Except Error K}
    (hf : (prvs.map Prv.rangeSize).prod ≤ Index.maxEntries → ∀ digits,
      Index.Below digits (prvs.map Prv.rangeSize) → ErrorsIn (fun _ => False) (f digits)) :
    (∃ q, rebuild cs prvs f = .ok q) ↔ Index.Fits (prvs.map Prv.rangeSize) := by
  refine ⟨fun ⟨q, hq⟩ => ?_, fun hfits => (errorsIn_rebuild_of_fits hfits hf).exists_ok⟩
  obtain ⟨-, -, htable⟩ := rebuild_ok hq
  unfold Factor.ofFn at htable
  split at htable
  · cases htable
  · rename_i n hn
    exact ⟨n, hn⟩

theorem errorsIn_rebuild (hP : P .overflow) {cs : ConstraintSet} {prvs : List Prv}
    {f : List Nat → Except Error K} (hf : ∀ digits, ErrorsIn P (f digits)) :
    ErrorsIn P (rebuild cs prvs f) := errorsIn_rebuild_below hP fun _ digits _ => hf digits

end Parfactor

/-! ## the loops of the normal form -/

/-- grounding never fails, because every variable is grounded once -/
theorem errorsIn_groundSingletons {P : Type} {vars : P → List LogVar} {cs : P → ConstraintSet}
    {apply : P → Substitution → Option P} {I : P → Prop}
    (hround : ∀ p x c q, I p → x ∈ vars p → (x.domain (cs p)).individuals = [c] →
      apply p (.single ⟨x, .const c⟩) = some q → I q ∧ (vars q).length < (vars p).length)
    {p : P} (hp : I p) {E : Error → Prop} : ErrorsIn E (groundSingletons vars cs apply p) := by
  refine errorsIn_settle (I := fun o => ∀ q, o = some q → I q)
    (m := fun o => (o.map fun q => (vars q).length + 1).getD 0) (fun o r ho hstep => ?_)
    (fun _ _ => .ok _) (fun q hq => Option.some.inj hq ▸ hp) le_rfl
  obtain ⟨q, rfl, ⟨-, rfl⟩ | ⟨x, c, hx, hc, rfl⟩⟩ := groundRound_ok (Except.ok.inj hstep)
  · exact ⟨nofun, Nat.succ_pos _⟩
  · cases hr : apply q (.single ⟨x, .const c⟩) with
    | none => exact ⟨nofun, Nat.succ_pos _⟩
    | some r =>
      obtain ⟨hI, hlt⟩ := hround q x c r (ho q rfl) hx hc hr
      exact ⟨fun s hs => Option.some.inj hs ▸ hI, Nat.succ_lt_succ hlt⟩

theorem length_lt_of_subset {l m : List LogVar} {x : LogVar} (hl : l.Nodup)
    (h : ∀ y ∈ l, y ∈ m ∧ y ≠ x) (hx : x ∈ m) : l.length < m.length := by
  have hsub : l ⊆ m.erase x := fun y hy => (List.mem_erase_of_ne (h y hy).2).mpr (h y hy).1
  have hle := (List.subperm_of_subset hl hsub).length_le
  have hpos := List.length_pos_of_mem hx
  rw [List.length_erase_of_mem hx] at hle
  omega

namespace Parfactor

variable {p q : Parfactor K}

/-- every round leaves one formula less -/
theorem length_formulas_simplifyRound (h : p.simplifyRound = .ok (some q)) :
    (q.prvs.filterMap Prv.count?).length < (p.prvs.filterMap Prv.count?).length := by
  obtain ⟨i, f, hi, hcases⟩ := simplifyRound_ok h
  obtain ⟨hlt, hf⟩ := List.getElem?_eq_some_iff.mp hi
  have hrest : (p.prvs.filterMap Prv.count?).length
      = ((p.prvs.eraseIdx i).filterMap Prv.count?).length + 1 := by
    have hperm := (List.getElem_cons_eraseIdx_perm hlt).filterMap Prv.count?
    rw [← hperm.length_eq, hf]
    rfl
  rcases hcases with ⟨-, hdrop⟩ | ⟨-, a, -, rfl⟩
  · obtain ⟨-, hprvs, -⟩ := rebuild_ok hdrop
    rw [hprvs, hrest]
    exact Nat.lt_succ_self _
  · have hset : (p.prvs.set i (.atom a))[i]? = some (.atom a) := List.getElem?_set_self hlt
    obtain ⟨hlt', ha⟩ := List.getElem?_eq_some_iff.mp hset
    have hperm := (List.getElem_cons_eraseIdx_perm hlt').filterMap Prv.count?
    rw [ha, List.eraseIdx_set_eq] at hperm
    show ((p.prvs.set i (.atom a)).filterMap Prv.count?).length < _
    rw [← hperm.length_eq, hrest]
    exact Nat.lt_succ_self _

theorem errorsIn_simplifyCounting (hoverflow : P .overflow) (hbounds : P .tableBounds)
    (p : Parfactor K) : ErrorsIn P p.simplifyCounting := by
  refine errorsIn_settle (I := fun _ => True)
    (m := fun q => (q.prvs.filterMap Prv.count?).length)
    (fun a b _ h => ⟨trivial, length_formulas_simplifyRound h⟩) (fun a _ => ?_) trivial
    (List.length_filterMap_le _ _)
  unfold simplifyRound
  split
  · exact .ok _
  · exact (errorsIn_rebuild hoverflow fun _ => Factor.errorsIn_entry hoverflow hbounds _ _ _).map
  · exact .ok _

/-- every round leaves one random variable less -/
theorem length_prvs_mergeRound (h : p.mergeRound = .ok (some q)) :
    q.prvs.length < p.prvs.length := by
  obtain ⟨i, j, r, -, -, hj, hq⟩ := mergeRound_ok h
  obtain ⟨-, hprvs, -⟩ := rebuild_ok hq
  obtain ⟨hlt, -⟩ := List.getElem?_eq_some_iff.mp hj
  rw [hprvs, List.length_eraseIdx_of_lt hlt]
  omega

theorem errorsIn_mergeRepeated (hoverflow : P .overflow) (hbounds : P .tableBounds)
    (p : Parfactor K) : ErrorsIn P p.mergeRepeated := by
  refine errorsIn_settle (I := fun _ => True) (m := fun q => q.prvs.length)
    (fun a b _ h => ⟨trivial, length_prvs_mergeRound h⟩) (fun a _ => ?_) trivial le_rfl
  unfold mergeRound
  split
  · exact .ok _
  · exact (errorsIn_rebuild hoverflow fun _ => Factor.errorsIn_entry hoverflow hbounds _ _ _).map

theorem errorsIn_ground (hp : p.Proper) :
    ErrorsIn P (groundSingletons logVars constraints apply p) := by
  refine errorsIn_groundSingletons (I := Proper) (fun q x c r hq hx hc hr => ?_) hp
  have hb := binds_of_individuals_eq hc hx
  refine ⟨hq.apply (hq.admits hb) hr, length_lt_of_subset r.nodup_logVars (fun z hz => ?_) hx⟩
  exact (hq.mem_logVars_instance hb hr z).mp hz

/-- **The normal form** is found within the bounds of its loops, unless a table is at fault. -/
theorem errorsIn_normalize (hoverflow : P .overflow) (hbounds : P .tableBounds) (hp : p.Proper) :
    ErrorsIn P p.normalize := by
  refine (errorsIn_ground hp).bind fun g _ => ?_
  cases g with
  | none => exact .ok _
  | some q =>
    exact (q.errorsIn_simplifyCounting hoverflow hbounds).bind fun s _ =>
      (s.errorsIn_mergeRepeated hoverflow hbounds).bind fun _ _ => .ok _

end Parfactor

theorem Aggregation.errorsIn_normalize (a : Aggregation K) : ErrorsIn P a.normalize := by
  refine errorsIn_groundSingletons (I := fun _ => True) (fun b x c d _ hx hc hd => ⟨trivial, ?_⟩)
    trivial
  have hb := binds_of_individuals_eq hc hx
  exact length_lt_of_subset d.nodup_logVars (fun z hz => (mem_logVars_apply hb hd).mp hz) hx

/-! ## what has no loop -/

section
variable [Scalar K]

section
variable {cs : ConstraintSet} {prvs : List Prv}

omit [Scalar K] in
theorem Parfactor.errorsIn_expectedSize (hvolume : P (.invalidParfactor "factor size overflows")) :
    ErrorsIn P (expectedSize prvs) := by
  unfold expectedSize
  split
  · exact .error hvolume
  · exact .ok _

/-- the checks of a given table, of the constraints and of the bound variables -/
theorem Parfactor.errorsIn_make_some {t : Factor K}
    (hvolume : P (.invalidParfactor "factor size overflows"))
    (hsize : ∀ n, expectedSize prvs = .ok n → t.size ≠ n → P (.factorSize n t.size))
    (hcs : ∀ c ∈ cs, c.isContradiction = true →
      P (.invalidParfactor ("constraint " ++ c.text ++ " is never satisfied")))
    (hbound : ∀ f, Prv.count f ∈ prvs → occursFree cs prvs f.bound = true →
      P (.invalidParfactor
        ("bound variable " ++ f.bound.text ++ " of " ++ f.text ++ " also occurs free"))) :
    ErrorsIn P (make cs prvs (some t)) := by
  unfold make
  refine (errorsIn_expectedSize hvolume).bind fun n hn => (ErrorsIn.ok t).bind fun u hu => ?_
  cases hu
  refine ErrorsIn.bind ?_ fun _ _ => ?_
  · unfold Factor.checkSize
    split
    · exact .ok _
    · rename_i hne
      exact .error (hsize n hn hne)
  · cases hcon : cs.toList.find? Constraint.isContradiction with
    | some c => exact .error (hcs c (List.mem_of_find?_eq_some hcon) (List.find?_some hcon))
    | none =>
      cases hfree : (prvs.filterMap Prv.count?).find? (fun f => occursFree cs prvs f.bound) with
      | some f =>
        obtain ⟨q, hq, hqf⟩ := List.mem_filterMap.mp (List.mem_of_find?_eq_some hfree)
        cases q with
        | atom a => cases hqf
        | count g =>
          cases hqf
          have hbinds := List.find?_some hfree
          exact .error (hbound f hq hbinds)
      | none => exact .ok _

/-- what the builder can end with -/
theorem Parfactor.errorsIn_make {t : Option (Factor K)}
    (hoverflow : P .overflow) (hvolume : P (.invalidParfactor "factor size overflows"))
    (hsize : ∀ u n, t = some u → expectedSize prvs = .ok n → u.size ≠ n → P (.factorSize n u.size))
    (hcs : ∀ c ∈ cs, c.isContradiction = true →
      P (.invalidParfactor ("constraint " ++ c.text ++ " is never satisfied")))
    (hbound : ∀ f, Prv.count f ∈ prvs → occursFree cs prvs f.bound = true →
      P (.invalidParfactor
        ("bound variable " ++ f.bound.text ++ " of " ++ f.text ++ " also occurs free"))) :
    ErrorsIn P (make cs prvs t) := by
  cases t with
  | some u => exact errorsIn_make_some hvolume (fun n => hsize u n rfl) hcs hbound
  | none =>
    unfold make
    refine (errorsIn_expectedSize hvolume).bind fun n hn => ErrorsIn.bind ?_ fun u hu => ?_
    · unfold Factor.ones Factor.constant
      split
      · exact .ok _
      · exact .error hoverflow
    · -- the table of ones has the right size
      have hone : ∀ m, expectedSize prvs = .ok m → u.size ≠ m → P (.factorSize m u.size) := by
        intro m hm hne
        cases hn.symm.trans hm
        unfold Factor.ones Factor.constant at hu
        split at hu
        · cases hu
          exact absurd Array.size_replicate hne
        · cases hu
      have hmade := errorsIn_make_some hvolume hone hcs hbound
      unfold make at hmade
      rw [hn] at hmade
      exact hmade

end

theorem Parfactor.rests_make (cs : ConstraintSet) (prvs : List Prv) (t : Option (Factor K)) :
    Rests (make cs prvs t) :=
  errorsIn_make nofun nofun (fun _ _ _ _ _ => nofun) (fun _ _ _ => nofun) fun _ _ _ => nofun

theorem CountingFormula.errorsIn_make (hP : ∀ reason, P (.invalidParfactor reason)) (x : LogVar)
    (a : Atom) (cs : ConstraintSet) : ErrorsIn P (make x a cs) := by
  unfold make
  split
  · split
    · exact .error (hP _)
    · exact .ok _
  · exact .error (hP _)

theorem CountingFormula.rests_make (x : LogVar) (a : Atom) (cs : ConstraintSet) :
    Rests (make x a cs) := errorsIn_make (fun _ => nofun) x a cs

theorem Aggregation.rests_toParfactors (a : Aggregation K) : Rests a.toParfactors := by
  have hrest : ∀ l : List (Parfactor K), Rests (do
      let f ← CountingFormula.make a.extra a.parent a.constraintsOnExtra
      let entries := indicators a.operator f.histograms a.child.range.size
      let aggregate ← Parfactor.make a.constraintsNotOnExtra [.count f, .atom a.child]
        (some ⟨entries.toArray⟩)
      return l ++ [aggregate]) := fun l =>
    (CountingFormula.rests_make _ _ _).bind fun _ _ =>
      (Parfactor.rests_make _ _ _).bind fun _ _ => .ok _
  unfold toParfactors
  split
  · exact (ErrorsIn.ok []).bind fun l _ => hrest l
  · exact (Parfactor.rests_make _ _ _).bind fun p _ => (ErrorsIn.ok [p]).bind fun l _ => hrest l

end

namespace Parfactor

theorem errorsIn_split {p : Parfactor K} {b : Binding}
    (hnot : p.isSplittable b = false → P (.notSplittable b.text)) : ErrorsIn P (p.split b) := by
  unfold split
  split
  · rename_i hs
    split
    · rename_i hnone
      have hpossible := (splitsOn_of_canSplit hs).possible
      rw [apply, Option.map_eq_none_iff] at hnone
      rw [hnone] at hpossible
      cases hpossible
    · exact .ok _
  · rename_i hs
    exact .error (hnot (Bool.eq_false_of_not_eq_true hs))

theorem errorsIn_addOne (hbounds : P .tableBounds) (counts : List Nat) (v : Nat) :
    ErrorsIn P (addOne counts v) := by
  unfold addOne
  split
  · exact .ok _
  · exact .error hbounds

/-- an expansion fails where it is refused or where its table does -/
theorem errorsIn_expand_of_rebuild {p : Parfactor K} {f : CountingFormula} {t : Term}
    (hnot : p.isExpandable f t = false → P (.notExpandable f.text t.text))
    (hsome : ∀ i, p.prvs[i]? = some (.count f) → ErrorsIn P (rebuild p.constraints
      (p.prvs.take i ++ .atom (f.instantiate t) :: .count (f.excluding t) :: p.prvs.drop (i + 1))
      (p.expandEntry f (f.excluding t) i)))
    (hnobody : ∀ i, p.prvs[i]? = some (.count f) → ErrorsIn P (rebuild p.constraints
      (p.prvs.take i ++ .atom (f.instantiate t) :: p.prvs.drop (i + 1)) (p.expandLastEntry f i))) :
    ErrorsIn P (p.expand f t) := by
  cases hexpandable : p.isExpandable f t with
  | false =>
    unfold expand
    split
    · exact .error (hnot hexpandable)
    · rw [hexpandable]
      exact .error (hnot hexpandable)
  | true =>
    have hi := position?_of_isExpandable hexpandable
    rw [expand_eq_rebuild hexpandable hi]
    split
    · exact hsome _ (getElem?_of_position? hi)
    · exact hnobody _ (getElem?_of_position? hi)

theorem errorsIn_expand (hoverflow : P .overflow) (hbounds : P .tableBounds) {p : Parfactor K}
    {f : CountingFormula} {t : Term}
    (hnot : p.isExpandable f t = false → P (.notExpandable f.text t.text)) :
    ErrorsIn P (p.expand f t) := by
  refine errorsIn_expand_of_rebuild hnot (fun i _ => errorsIn_rebuild hoverflow fun digits => ?_)
    fun i _ => errorsIn_rebuild hoverflow fun digits => (errorsIn_addOne hbounds _ _).bind
      fun _ _ => Factor.errorsIn_entry hoverflow hbounds _ _ _
  unfold expandEntry
  split
  · exact .error hbounds
  · exact (errorsIn_addOne hbounds _ _).bind fun _ _ =>
      Factor.errorsIn_entry hoverflow hbounds _ _ _

end Parfactor

theorem Aggregation.errorsIn_split {a : Aggregation K} {b : Binding}
    (hnot : a.isSplittable b = false → P (.notSplittable b.text)) : ErrorsIn P (a.split b) := by
  unfold split
  split
  · rename_i hs
    split
    · rename_i hnone
      have hsplits := splitsOn_of_canSplit hs
      have hsource : b.source ≠ a.extra := fun h => a.extra_notMem_logVars (h ▸ hsplits.source_mem)
      have hpossible := hsplits.possible
      rw [apply, Substitution.without_single hsource, Option.map_eq_none_iff] at hnone
      rw [hnone] at hpossible
      cases hpossible
    · exact .ok _
  · rename_i hs
    exact .error (hnot (Bool.eq_false_of_not_eq_true hs))

section
variable [Scalar K]

theorem Parfactor.errorsIn_countedEntry {t : Factor K} {sizes digits counts : List Nat} {i v : Nat}
    {acc : K} (hentry : ∀ k < counts.length, ErrorsIn P (t.entry sizes (digits.set i (v + k)))) :
    ErrorsIn P (countedEntry t sizes i digits counts v acc) := by
  induction counts generalizing v acc with
  | nil => exact .ok acc
  | cons n counts ih =>
    unfold countedEntry
    split
    · rename_i e he
      exact .error (hentry 0 (Nat.succ_pos _) e he)
    · refine ih fun k hk => ?_
      rw [Nat.add_right_comm, Nat.add_assoc]
      exact hentry (k + 1) (Nat.succ_lt_succ hk)

theorem Component.rests_pieces (c : Component K) (a : Action) : Rests (c.pieces a) := by
  cases a with
  | split b =>
    cases c with
    | standard p => exact (Parfactor.errorsIn_split fun _ => nofun).map.map
    | aggregation a => exact (Aggregation.errorsIn_split fun _ => nofun).map.map
  | expand f t =>
    cases c with
    | standard p => exact (Parfactor.errorsIn_expand nofun nofun fun _ => nofun).map
    | aggregation a => exact .error nofun
  | convert =>
    cases c with
    | standard p => exact .error nofun
    | aggregation a => exact a.rests_toParfactors.map

theorem Component.rests_actionOf (c : Component K) (i : Nat) (r : Extent.Refinement) :
    Rests (c.actionOf i r) := by
  unfold actionOf
  split
  · exact .ok _
  · exact .ok _
  · exact .ok _
  · split
    · split
      · exact .ok _
      · split
        · split
          · exact .ok _
          · exact .error nofun
        · exact .error nofun
    · exact .error nofun

theorem rests_nextAction (cs : List (Component K)) (kept : List PrvSet) :
    Rests (nextAction cs kept) := by
  have haction : ∀ (o : Occurrence) r, Rests (o.action cs r) := by
    intro o r
    unfold Occurrence.action
    split
    · exact .error nofun
    · exact (Component.rests_actionOf _ _ _).map
  unfold nextAction
  split
  · exact .ok _
  · dsimp only
    split
    · exact (haction _ _).map
    · split
      · exact (haction _ _).map
      · exact .ok _

end

end LiftedElimination
