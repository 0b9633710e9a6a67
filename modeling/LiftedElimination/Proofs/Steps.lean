import Mathlib.Data.List.Forall2
import LiftedElimination.Proofs.Valuation
import LiftedElimination.Operation

/-!
# What one step does

Every lemma here inverts one operation: it says which guards have been passed, and what the result
is made of.  The invariants of whole runs are read off these, so that no operation is unfolded
twice.

* `Parfactor.split_ok`, `Aggregation.split_ok`   the two parts of a split;
* `groundRound_ok`     a variable with one individual left becomes that constant;
* `simplifyRound_ok`, `mergeRound_ok`   a counting formula is dropped or grounded, a repeated random
                       variable is merged;
* `expand_ok`          one individual is taken out of a counting formula;
* `toParfactors_ok`    an aggregation parfactor as parfactors;
* `perform_ok`, `refineRound_ok`, `shatter_ok`   the steps put together;
* `multiplyAll_ok`, `expandAll_ok`, `groundAll_ok`   the first turn of a loop, and the others;
* `runConvert_ok`, .., `runGround_ok`   the operations on a marginal.
-/

namespace LiftedElimination

theorem bind_ok {α β : Type} {x : Except Error α} {f : α → Except Error β} {b : β}
    (h : x >>= f = .ok b) : ∃ a, x = .ok a ∧ f a = .ok b := by
  cases x with
  | error e => cases h
  | ok a => exact ⟨a, rfl, h⟩

theorem map_ok {α β : Type} {x : Except Error α} {f : α → β} {b : β}
    (h : x.map f = .ok b) : ∃ a, x = .ok a ∧ f a = b := by
  cases x with
  | error e => cases h
  | ok a => exact ⟨a, rfl, Except.ok.inj h⟩

theorem collect_ok {α β : Type} {f : α → Except Error β} {l : List α} {m : List β}
    (h : collect f l = .ok m) : List.Forall₂ (fun a b => f a = .ok b) l m := by
  induction l generalizing m with
  | nil =>
    cases h
    exact .nil
  | cons a l ih =>
    unfold collect at h
    split at h
    · cases h
    · rename_i b hb
      split at h
      · cases h
      · rename_i bs hbs
        cases h
        exact .cons hb (ih hbs)

/-! ## splits -/

/-- what a split asks of its binding -/
structure SplitsOn (vars : List LogVar) (cs : ConstraintSet) (b : Binding) : Prop where
  target_ne : b.target ≠ .var b.source
  source_mem : b.source ∈ vars
  const : ∀ c, b.target = .const c → c ∈ b.source.population
  var : ∀ y, b.target = .var y → y ∈ vars ∧ y.population = b.source.population
  fresh : Constraint.ofBinding b ∉ cs
  possible : (cs.apply (.single b)).isSome = true

theorem splitsOn_of_canSplit {vars : List LogVar} {cs : ConstraintSet} {b : Binding}
    (h : canSplit vars cs b = true) : SplitsOn vars cs b := by
  simp only [canSplit, Bool.and_eq_true, Bool.not_eq_true', decide_eq_true_eq] at h
  obtain ⟨⟨⟨⟨hne, hsource⟩, htarget⟩, hfresh⟩, hpossible⟩ := h
  refine ⟨fun heq => ?_, hsource, fun c hc => ?_, fun y hy => ?_, fun hmem => ?_, hpossible⟩
  · rw [Binding.isTrivial, beq_eq_false_iff_ne] at hne
    exact hne heq
  · rw [hc] at htarget
    exact of_decide_eq_true htarget
  · rw [hy] at htarget
    simpa using htarget
  · rw [SortedSet.contains_iff_mem.mpr hmem] at hfresh
    cases hfresh

variable {K : Type}

namespace Parfactor

theorem apply_eq_some {p q : Parfactor K} {s : Substitution} (h : p.apply s = some q) :
    ∃ cs, p.constraints.apply s = some cs ∧ q = ⟨cs, p.prvs.map (·.apply s), p.factor⟩ := by
  obtain ⟨cs, hcs, rfl⟩ := Option.map_eq_some_iff.mp h
  exact ⟨cs, hcs, rfl⟩

theorem split_ok {p : Parfactor K} {b : Binding} {s : Split (Parfactor K)} (h : p.split b = .ok s) :
    SplitsOn p.logVars p.constraints b ∧ p.apply (.single b) = some s.fragment
      ∧ s.residual = { p with constraints := p.constraints.insert (.ofBinding b) } := by
  unfold split at h
  split at h
  · rename_i hs
    split at h
    · cases h
    · rename_i f hf
      cases h
      exact ⟨splitsOn_of_canSplit hs, hf, rfl⟩
  · cases h

end Parfactor

namespace Aggregation

theorem apply_eq_some {a b : Aggregation K} {s : Substitution} (h : a.apply s = some b) :
    ∃ cs, a.constraints.apply (s.without (· = a.extra)) = some cs
      ∧ b = { a with
          constraints := cs, parent := a.parent.apply (s.without (· = a.extra)),
          child := a.child.apply (s.without (· = a.extra)),
          context := a.context.map (·.apply (s.without (· = a.extra))) } := by
  obtain ⟨cs, hcs, rfl⟩ := Option.map_eq_some_iff.mp h
  exact ⟨cs, hcs, rfl⟩

theorem split_ok {a : Aggregation K} {b : Binding} {s : Split (Aggregation K)}
    (h : a.split b = .ok s) :
    SplitsOn a.logVars a.constraints b ∧ a.apply (.single b) = some s.fragment
      ∧ s.residual = { a with constraints := a.constraints.insert (.ofBinding b) } := by
  unfold split at h
  split at h
  · rename_i hs
    split at h
    · cases h
    · rename_i f hf
      cases h
      exact ⟨splitsOn_of_canSplit hs, hf, rfl⟩
  · cases h

end Aggregation

/-! ## normal form -/

theorem singleton?_eq_some {cs : ConstraintSet} {vars : List LogVar} {b : Binding}
    (h : cs.singleton? vars = some b) :
    ∃ x c, x ∈ vars ∧ (x.domain cs).individuals = [c] ∧ b = ⟨x, .const c⟩ := by
  obtain ⟨x, hx, hb⟩ := List.exists_of_findSome?_eq_some h
  split at hb
  · rename_i c hc
    cases hb
    exact ⟨x, c, hx, hc, rfl⟩
  · cases hb

theorem groundRound_ok {P : Type} {vars : P → List LogVar} {cs : P → ConstraintSet}
    {apply : P → Substitution → Option P} {q r : Option P}
    (h : groundRound vars cs apply q = some r) :
    ∃ p, q = some p ∧ (((cs p).satisfiable (vars p) = false ∧ r = none)
      ∨ ∃ x c, x ∈ vars p ∧ (x.domain (cs p)).individuals = [c]
        ∧ r = apply p (.single ⟨x, .const c⟩)) := by
  cases q with
  | none => cases h
  | some p =>
    refine ⟨p, rfl, ?_⟩
    rw [groundRound] at h
    split at h
    · obtain ⟨b, hb, rfl⟩ := Option.map_eq_some_iff.mp h
      obtain ⟨x, c, hx, hc, rfl⟩ := singleton?_eq_some hb
      exact .inr ⟨x, c, hx, hc, rfl⟩
    · rename_i hsat
      exact .inl ⟨Bool.eq_false_of_not_eq_true hsat, (Option.some.inj h).symm⟩

/-- what is settled has a grounding -/
theorem groundRound_eq_none {P : Type} {vars : P → List LogVar} {cs : P → ConstraintSet}
    (apply : P → Substitution → Option P) {p : P}
    (h : groundRound vars cs apply (some p) = none) : (cs p).satisfiable (vars p) = true := by
  rw [groundRound] at h
  split at h
  · assumption
  · cases h

/-- a whole run of grounding: what holds at the start and is kept by a round holds at the end -/
theorem groundSingletons_ok {P : Type} {vars : P → List LogVar} {cs : P → ConstraintSet}
    {apply : P → Substitution → Option P} {I : Option P → Prop}
    (hempty : ∀ p, I (some p) → (cs p).satisfiable (vars p) = false → I none)
    (hround : ∀ p x c, I (some p) → x ∈ vars p → (x.domain (cs p)).individuals = [c] →
      I (apply p (.single ⟨x, .const c⟩)))
    {p : P} {r : Option P} (hp : I (some p)) (h : groundSingletons vars cs apply p = .ok r) :
    I r ∧ ∀ q, r = some q → (cs q).satisfiable (vars q) = true := by
  have hrun := settle_ok (p := I) (fun a b ha hab => by
    obtain ⟨q, rfl, ⟨hsat, rfl⟩ | ⟨x, c, hx, hc, rfl⟩⟩ := groundRound_ok (Except.ok.inj hab)
    · exact hempty q ha hsat
    · exact hround q x c ha hx hc) hp h
  refine ⟨hrun.1, fun q hq => groundRound_eq_none apply ?_⟩
  rw [← hq]
  exact Except.ok.inj hrun.2

namespace Parfactor

theorem rebuild_ok {cs : ConstraintSet} {prvs : List Prv} {f : List Nat → Except Error K}
    {q : Parfactor K} (h : rebuild cs prvs f = .ok q) :
    q.constraints = cs ∧ q.prvs = prvs ∧ Factor.ofFn (prvs.map Prv.rangeSize) f = .ok q.factor := by
  obtain ⟨t, ht, hq⟩ := bind_ok h
  cases hq
  exact ⟨rfl, rfl, ht⟩

theorem trivialFormula?_eq_some {p : Parfactor K} {i : Nat} {a : Option Atom}
    (h : p.trivialFormula? = some (i, a)) : ∃ f, p.prvs[i]? = some (.count f)
      ∧ ((f.domainSize = 0 ∧ a = none) ∨ (f.domainSize = 1 ∧ ∃ b, soleAtom? f = some b ∧ a = some b))
    := by
  obtain ⟨⟨q, j⟩, hq, hj⟩ := List.exists_of_findSome?_eq_some h
  have hget := List.mk_mem_zipIdx_iff_getElem?.mp hq
  split at hj
  · cases hj
  · rename_i f hf
    have hqf : q = .count f := hf
    split at hj
    · rename_i hsize
      cases hj
      exact ⟨f, hqf ▸ hget, .inl ⟨hsize, rfl⟩⟩
    · rename_i hsize
      obtain ⟨b, hb, heq⟩ := Option.map_eq_some_iff.mp hj
      cases heq
      exact ⟨f, hqf ▸ hget, .inr ⟨hsize, b, hb, rfl⟩⟩
    · cases hj

theorem simplifyRound_ok {p q : Parfactor K} (h : p.simplifyRound = .ok (some q)) :
    ∃ i f, p.prvs[i]? = some (.count f)
      ∧ ((f.domainSize = 0 ∧ p.dropPrv i 0 = .ok q)
        ∨ (f.domainSize = 1 ∧ ∃ a, soleAtom? f = some a ∧ q = p.replacePrv i (.atom a))) := by
  unfold simplifyRound at h
  split at h
  · cases h
  · rename_i i htriv
    obtain ⟨f, hf, ⟨hsize, -⟩ | ⟨-, b, -, hb⟩⟩ := trivialFormula?_eq_some htriv
    · obtain ⟨r, hr, heq⟩ := map_ok h
      cases heq
      exact ⟨i, f, hf, .inl ⟨hsize, hr⟩⟩
    · cases hb
  · rename_i i a htriv
    obtain ⟨f, hf, ⟨-, hb⟩ | ⟨hsize, b, hsole, hb⟩⟩ := trivialFormula?_eq_some htriv
    · cases hb
    · cases hb
      exact ⟨i, f, hf, .inr ⟨hsize, a, hsole, (Option.some.inj (Except.ok.inj h)).symm⟩⟩

theorem repeated?_eq_some {earlier qs : List Prv} {i j : Nat}
    (h : repeated? earlier qs = some (i, j)) : i < j ∧ earlier.length ≤ j
      ∧ ∃ q, (earlier ++ qs)[i]? = some q ∧ (earlier ++ qs)[j]? = some q := by
  induction qs generalizing earlier with
  | nil => cases h
  | cons q qs ih =>
    rw [repeated?] at h
    split at h
    · rename_i k hk
      cases h
      obtain ⟨hlt, hq, -⟩ := List.idxOf?_eq_some_iff.mp hk
      refine ⟨hlt, Nat.le_refl _, q, ?_, ?_⟩
      · rw [List.getElem?_append_left hlt, List.getElem?_eq_getElem hlt]
        exact congrArg some hq
      · rw [List.getElem?_append_right (Nat.le_refl _), Nat.sub_self]
        rfl
    · obtain ⟨hij, hlen, r, hi, hj⟩ := ih h
      rw [List.length_append, List.length_singleton] at hlen
      rw [← List.append_cons] at hi hj
      exact ⟨hij, Nat.le_of_succ_le hlen, r, hi, hj⟩

theorem mergeRound_ok {p q : Parfactor K} (h : p.mergeRound = .ok (some q)) :
    ∃ i j r, i < j ∧ p.prvs[i]? = some r ∧ p.prvs[j]? = some r
      ∧ rebuild p.constraints (p.prvs.eraseIdx j) (fun digits =>
          p.factor.entry p.sizes (digits.insertIdx j (digits.getD i 0))) = .ok q := by
  unfold mergeRound at h
  split at h
  · cases h
  · rename_i i j hrep
    obtain ⟨hij, -, r, hi, hj⟩ := repeated?_eq_some hrep
    obtain ⟨q', hq', heq⟩ := map_ok h
    cases heq
    exact ⟨i, j, r, hij, hi, hj, hq'⟩

/-- the normal form as three runs -/
theorem normalize_ok {p : Parfactor K} {r : Option (Parfactor K)} (h : p.normalize = .ok r) :
    ∃ g, groundSingletons logVars constraints apply p = .ok g
      ∧ ((g = none ∧ r = none) ∨ ∃ q s t, g = some q ∧ q.simplifyCounting = .ok s
        ∧ s.mergeRepeated = .ok t ∧ r = some t) := by
  obtain ⟨g, hg, h⟩ := bind_ok h
  refine ⟨g, hg, ?_⟩
  cases g with
  | none =>
    cases h
    exact .inl ⟨rfl, rfl⟩
  | some q =>
    obtain ⟨s, hs, h⟩ := bind_ok h
    obtain ⟨t, ht, h⟩ := bind_ok h
    cases h
    exact .inr ⟨q, s, t, rfl, hs, ht, rfl⟩

end Parfactor

/-! ## builders -/

theorem CountingFormula.make_ok {x : LogVar} {a : Atom} {cs : ConstraintSet} {f : CountingFormula}
    (h : CountingFormula.make x a cs = .ok f) : f = ⟨x, a, cs⟩ ∧ x ∈ a.variables
      ∧ ∀ c ∈ cs, x ∈ c.variables ∧ c.isContradiction = false := by
  unfold make at h
  split at h
  · rename_i hx
    split at h
    · cases h
    · rename_i hfind
      cases h
      refine ⟨rfl, Atom.mem_variables.mpr hx, fun c hc => ?_⟩
      have hnone := List.find?_eq_none.mp hfind c hc
      simp only [Bool.or_eq_true, Bool.not_eq_true', not_or, Bool.not_eq_false,
        Bool.not_eq_true] at hnone
      exact ⟨Constraint.mentions_iff.mp hnone.1, hnone.2⟩
  · cases h

/-- satisfiable constraints on a variable of an atom make a formula -/
theorem CountingFormula.make_onVariable {x : LogVar} {a : Atom} {cs : ConstraintSet}
    (hx : x ∈ a.variables) (hsat : ∀ c ∈ cs, x ∈ c.variables → c.isContradiction = false) :
    CountingFormula.make x a (cs.onVariable x) = .ok ⟨x, a, cs.onVariable x⟩ := by
  unfold CountingFormula.make
  rw [if_pos (Atom.mem_variables.mp hx)]
  split
  · rename_i c hfind
    obtain ⟨hmem, hxc⟩ := ConstraintSet.mem_onVariable.mp (List.mem_of_find?_eq_some hfind)
    have hbad := List.find?_some hfind
    rw [hsat c hmem hxc, Constraint.mentions_iff.mpr hxc] at hbad
    cases hbad
  · rfl

namespace Parfactor

theorem occursFree_iff {cs : ConstraintSet} {prvs : List Prv} {x : LogVar} :
    occursFree cs prvs x = true ↔ (∃ p ∈ prvs, x ∈ p.freeVars) ∨ x ∈ cs.variables := by
  rw [occursFree, Bool.or_eq_true, List.any_eq_true, List.any_eq_true, ConstraintSet.mem_variables]
  simp only [Prv.mentions, decide_eq_true_eq, Constraint.mentions_iff]
  rfl

/-- what the builder has checked -/
structure Made (cs : ConstraintSet) (qs : List Prv) (p : Parfactor K) : Prop where
  constraints_eq : p.constraints = cs
  prvs_eq : p.prvs = qs
  size : Index.volumeFrom? (qs.map Prv.rangeSize) 1 = .ok p.factor.size
  satisfiable : ∀ c ∈ cs, c.isContradiction = false
  bound : ∀ f, Prv.count f ∈ qs → (∀ q ∈ qs, f.bound ∉ q.freeVars) ∧ f.bound ∉ cs.variables

theorem expectedSize_ok {prvs : List Prv} {n : Nat} (h : expectedSize prvs = .ok n) :
    Index.volumeFrom? (prvs.map Prv.rangeSize) 1 = .ok n := by
  unfold expectedSize at h
  split at h
  · cases h
  · rename_i m hm
    cases h
    exact hm

theorem make_ok [Scalar K] {cs : ConstraintSet} {prvs : List Prv} {t : Option (Factor K)}
    {p : Parfactor K} (h : make cs prvs t = .ok p) :
    Made cs prvs p ∧ ∀ u, t = some u → p.factor = u := by
  obtain ⟨n, hn, h⟩ := bind_ok h
  -- the checks after the size, with the table given or not
  have hchecks : ∃ u : Factor K, (∀ v, t = some v → u = v) ∧ u.checkSize n = .ok ()
      ∧ cs.toList.find? Constraint.isContradiction = none
      ∧ (prvs.filterMap Prv.count?).find? (fun f => occursFree cs prvs f.bound) = none
      ∧ p = ⟨cs, prvs, u⟩ := by
    have hgiven : ∀ u, (∀ v, t = some v → Except.ok v = (.ok u : Except Error (Factor K))) →
        ∀ v, t = some v → u = v := fun u hu v hv => (Except.ok.inj (hu v hv)).symm
    rcases t with _ | v <;>
    · obtain ⟨u, hu, h⟩ := bind_ok h
      obtain ⟨⟨⟩, hsize, h⟩ := bind_ok h
      cases hcon : cs.toList.find? Constraint.isContradiction with
      | some c =>
        rw [hcon] at h
        cases h
      | none =>
      cases hbound : (prvs.filterMap Prv.count?).find? (fun f => occursFree cs prvs f.bound) with
      | some f =>
        rw [hcon, hbound] at h
        cases h
      | none =>
      rw [hcon, hbound] at h
      cases h
      refine ⟨u, hgiven u ?_, hsize, rfl, rfl, rfl⟩
      rintro w ⟨⟩ <;> exact hu
  obtain ⟨u, hu, hsize, hcon, hbound, rfl⟩ := hchecks
  have hun : u.size = n := by
    unfold Factor.checkSize at hsize
    split at hsize
    · assumption
    · cases hsize
  refine ⟨⟨rfl, rfl, hun.symm ▸ expectedSize_ok hn, fun c hc => ?_, fun f hf => ?_⟩, hu⟩
  · exact Bool.eq_false_of_not_eq_true (List.find?_eq_none.mp hcon c hc)
  · have hfree := List.find?_eq_none.mp hbound f (List.mem_filterMap.mpr ⟨_, hf, rfl⟩)
    rw [occursFree_iff] at hfree
    exact ⟨fun q hq hx => hfree (.inl ⟨q, hq, hx⟩), fun hx => hfree (.inr hx)⟩

end Parfactor

/-! ## expansion -/

theorem CountingFormula.isExpandable_var {f : CountingFormula} {x : LogVar}
    (h : f.isExpandable (.var x) = true) : x ≠ f.bound ∧ x.population = f.bound.population
      ∧ Constraint.ordered f.bound (.var x) ∉ f.constraints := by
  simp only [isExpandable, Bool.and_eq_true, bne_iff_ne, beq_iff_eq, Bool.not_eq_true'] at h
  refine ⟨h.1.1, h.1.2, fun hmem => ?_⟩
  rw [ConstraintSet.separates_iff.mpr hmem] at h
  cases h.2

theorem CountingFormula.isExpandable_const {f : CountingFormula} {c : Constant}
    (h : f.isExpandable (.const c) = true) : f.excludedVars = [] ∧ c ∈ f.individuals := by
  simp only [isExpandable, Bool.and_eq_true, decide_eq_true_eq, List.isEmpty_iff] at h
  exact h

namespace Parfactor

/-- what an expansion asks of the formula and the term -/
structure ExpandsOn (p : Parfactor K) (f : CountingFormula) (t : Term) : Prop where
  expandable : f.isExpandable t = true
  logVar : ∀ x, t = .var x → x ∈ p.logVars
  separated : p.prerequisite? f t = none

theorem expandsOn_of_isExpandable {p : Parfactor K} {f : CountingFormula} {t : Term}
    (h : p.isExpandable f t = true) : ExpandsOn p f t := by
  simp only [isExpandable, Bool.and_eq_true, Option.isNone_iff_eq_none] at h
  refine ⟨h.1.1.2, fun x hx => ?_, h.2⟩
  have hvar := h.1.2
  rw [hx] at hvar
  exact of_decide_eq_true hvar

/-- the entry of the old table for one individual apart from a group that is left -/
def expandEntry (p : Parfactor K) (f rest : CountingFormula) (i : Nat) (digits : List Nat) :
    Except Error K :=
  match rest.histograms.toArray[digits.getD (i + 1) 0]? with
  | none => .error .tableBounds
  | some h => do
    let h ← addOne h.counts (digits.getD i 0)
    p.factor.entry p.sizes
      (digits.take i ++ (f.histograms.idxOf? h).getD 0 :: digits.drop (i + 2))

/-- the entry of the old table for one individual with nobody else counted -/
def expandLastEntry (p : Parfactor K) (f : CountingFormula) (i : Nat) (digits : List Nat) :
    Except Error K := do
  let h ← addOne (List.replicate f.inner.range.size 0) (digits.getD i 0)
  p.factor.entry p.sizes
    (digits.take i ++ (f.histograms.idxOf? h).getD 0 :: digits.drop (i + 1))

theorem getElem?_of_position? {p : Parfactor K} {q : Prv} {i : Nat} (h : p.position? q = some i) :
    p.prvs[i]? = some q := by
  obtain ⟨hlt, hq, -⟩ := List.idxOf?_eq_some_iff.mp h
  rw [List.getElem?_eq_getElem hlt, hq]

theorem position?_of_isExpandable {p : Parfactor K} {f : CountingFormula} {t : Term}
    (h : p.isExpandable f t = true) : p.position? (.count f) = some (p.prvs.idxOf (.count f)) := by
  simp only [isExpandable, Bool.and_eq_true] at h
  have hmem : Prv.count f ∈ p.prvs := of_decide_eq_true h.1.1.1
  cases hi : p.position? (.count f) with
  | none => exact absurd hmem (List.idxOf?_eq_none_iff.mp hi)
  | some i =>
    rw [List.idxOf_eq_getD_idxOf?, ← position?, hi]
    rfl

/-- an expansion that is not refused builds the expanded table, and does nothing else -/
theorem expand_eq_rebuild {p : Parfactor K} {f : CountingFormula} {t : Term} {i : Nat}
    (h : p.isExpandable f t = true) (hi : p.position? (.count f) = some i) : p.expand f t
      = if 0 < (f.excluding t).domainSize then
          rebuild p.constraints (p.prvs.take i ++ .atom (f.instantiate t) :: .count (f.excluding t)
            :: p.prvs.drop (i + 1)) (p.expandEntry f (f.excluding t) i)
        else
          rebuild p.constraints (p.prvs.take i ++ .atom (f.instantiate t) :: p.prvs.drop (i + 1))
            (p.expandLastEntry f i) := by
  unfold expand CountingFormula.expand
  rw [hi, h, if_pos (expandsOn_of_isExpandable h).expandable]
  by_cases hpos : 0 < (f.excluding t).domainSize
  · simp only [if_pos hpos]
    rfl
  · simp only [if_neg hpos]
    rfl

theorem expand_ok {p q : Parfactor K} {f : CountingFormula} {t : Term}
    (h : p.expand f t = .ok q) : ∃ i, p.prvs[i]? = some (.count f) ∧ ExpandsOn p f t
      ∧ ((0 < (f.excluding t).domainSize ∧ rebuild p.constraints
            (p.prvs.take i ++ .atom (f.instantiate t) :: .count (f.excluding t)
              :: p.prvs.drop (i + 1)) (p.expandEntry f (f.excluding t) i) = .ok q)
        ∨ ((f.excluding t).domainSize = 0 ∧ rebuild p.constraints
            (p.prvs.take i ++ .atom (f.instantiate t) :: p.prvs.drop (i + 1))
            (p.expandLastEntry f i) = .ok q)) := by
  cases hexp : p.isExpandable f t with
  | false =>
    unfold expand at h
    rw [hexp] at h
    split at h <;> cases h
  | true =>
    have hi := position?_of_isExpandable hexp
    rw [expand_eq_rebuild hexp hi] at h
    refine ⟨_, getElem?_of_position? hi, expandsOn_of_isExpandable hexp, ?_⟩
    by_cases hpos : 0 < (f.excluding t).domainSize
    · rw [if_pos hpos] at h
      exact .inl ⟨hpos, h⟩
    · rw [if_neg hpos] at h
      exact .inr ⟨Nat.eq_zero_of_not_pos hpos, h⟩

end Parfactor

/-! ## aggregation parfactors -/

section
variable [Scalar K]

theorem Aggregation.toParfactors_ok {a : Aggregation K} {l : List (Parfactor K)}
    (h : a.toParfactors = .ok l) : ∃ weighed f aggregate, l = weighed ++ [aggregate]
      ∧ ((a.factor.isAllOnes = true ∧ weighed = [])
        ∨ ∃ p, Parfactor.make a.constraints (Prv.atom a.parent :: a.context.map Prv.atom)
            (some a.factor) = .ok p ∧ weighed = [p])
      ∧ CountingFormula.make a.extra a.parent a.constraintsOnExtra = .ok f
      ∧ Parfactor.make a.constraintsNotOnExtra [.count f, .atom a.child]
          (some ⟨(indicators a.operator f.histograms a.child.range.size).toArray⟩)
        = .ok aggregate := by
  unfold toParfactors at h
  split at h
  · rename_i hones
    obtain ⟨weighed, hw, h⟩ := bind_ok h
    cases hw
    obtain ⟨f, hf, h⟩ := bind_ok h
    obtain ⟨aggregate, hagg, h⟩ := bind_ok h
    cases h
    exact ⟨[], f, aggregate, rfl, .inl ⟨hones, rfl⟩, hf, hagg⟩
  · obtain ⟨p, hp, h⟩ := bind_ok h
    obtain ⟨weighed, hw, h⟩ := bind_ok h
    cases hw
    obtain ⟨f, hf, h⟩ := bind_ok h
    obtain ⟨aggregate, hagg, h⟩ := bind_ok h
    cases h
    exact ⟨[p], f, aggregate, rfl, .inr ⟨p, hp, rfl⟩, hf, hagg⟩

/-! ## components -/

namespace Component

theorem perform_ok {c : Component K} {a : Action} {l : List (Component K)}
    (h : c.perform a = .ok l) : ∃ pieces normal, c.pieces a = .ok pieces
      ∧ List.Forall₂ (fun p r => p.normalize = .ok r) pieces normal ∧ l = normal.filterMap id := by
  obtain ⟨pieces, hp, h⟩ := bind_ok h
  obtain ⟨normal, hn, h⟩ := bind_ok h
  cases h
  exact ⟨pieces, normal, hp, collect_ok hn, rfl⟩

/-- a component as it is, or the pieces of a split, an expansion or a conversion -/
inductive Pieces : Component K → List (Component K) → Prop where
  | split {p : Parfactor K} {b : Binding} {s : Split (Parfactor K)} (h : p.split b = .ok s) :
    Pieces (.standard p) [.standard s.fragment, .standard s.residual]
  | aggregationSplit {a : Aggregation K} {b : Binding} {s : Split (Aggregation K)}
    (h : a.split b = .ok s) :
    Pieces (.aggregation a) [.aggregation s.fragment, .aggregation s.residual]
  | expand {p q : Parfactor K} {f : CountingFormula} {t : Term} (h : p.expand f t = .ok q) :
    Pieces (.standard p) [.standard q]
  | convert {a : Aggregation K} {l : List (Parfactor K)} (h : a.toParfactors = .ok l) :
    Pieces (.aggregation a) (l.map .standard)

theorem pieces_ok {c : Component K} {a : Action} {l : List (Component K)}
    (h : c.pieces a = .ok l) : Pieces c l := by
  cases a with
  | split b =>
    cases c with
    | standard p =>
      obtain ⟨t, ht, rfl⟩ := map_ok h
      obtain ⟨s, hs, rfl⟩ := map_ok ht
      exact .split hs
    | aggregation a =>
      obtain ⟨t, ht, rfl⟩ := map_ok h
      obtain ⟨s, hs, rfl⟩ := map_ok ht
      exact .aggregationSplit hs
  | expand f t =>
    cases c with
    | standard p =>
      obtain ⟨q, hq, rfl⟩ := map_ok h
      exact .expand hq
    | aggregation a => cases h
  | convert =>
    cases c with
    | standard p => cases h
    | aggregation a =>
      obtain ⟨l, hl, rfl⟩ := map_ok h
      exact .convert hl

end Component

/-! ## lists of components -/

/-- what holds of two lists of components once `c` is put behind the first, folded with its
copies -/
theorem pushFolded_induct {P : List (Component K) → Component K → List (Component K) → Prop}
    (hnew : ∀ l c, (∀ d ∈ l, c.same d = false) → P l c (l ++ [c]))
    (hfold : ∀ l c i d, l[i]? = some d → c.same d = true →
      P (l.eraseIdx i) c.squared (Distribution.pushFolded (l.eraseIdx i) c.squared) →
      P l c (Distribution.pushFolded (l.eraseIdx i) c.squared))
    (l : List (Component K)) (c : Component K) : P l c (Distribution.pushFolded l c) := by
  induction hn : l.length generalizing l c with
  | zero =>
    obtain rfl := List.length_eq_zero_iff.mp hn
    rw [Distribution.pushFolded]
    exact hnew [] c fun d hd => absurd hd List.not_mem_nil
  | succ n ih =>
    rw [Distribution.pushFolded]
    split
    · rename_i hnone
      exact hnew l c (List.findIdx?_eq_none_iff.mp hnone)
    · rename_i i hi
      obtain ⟨hlt, hsame, -⟩ := List.findIdx?_eq_some_iff_getElem.mp hi
      refine hfold l c i l[i] (List.getElem?_eq_getElem hlt) hsame (ih _ _ ?_)
      rw [List.length_eraseIdx_of_lt hlt, hn, Nat.add_sub_cancel]

section
variable {P : Component K → Prop}

/-- what holds of components and of their squares holds of everything that is folded -/
theorem forall_mem_pushFolded (hsquared : ∀ c, P c → P c.squared) (l : List (Component K))
    (c : Component K) (hl : ∀ d ∈ l, P d) (hc : P c) : ∀ d ∈ Distribution.pushFolded l c, P d := by
  refine pushFolded_induct (P := fun l c m => (∀ d ∈ l, P d) → P c → ∀ d ∈ m, P d)
    (fun l c _ hl hc d hd => ?_) (fun l c i e _ _ ih hl hc => ?_) l c hl hc
  · rcases List.mem_append.mp hd with hd | hd
    · exact hl d hd
    · exact List.mem_singleton.mp hd ▸ hc
  · exact ih (fun d hd => hl d (List.mem_of_mem_eraseIdx hd)) (hsquared c hc)

theorem forall_mem_foldl_pushFolded (hsquared : ∀ c, P c → P c.squared)
    {l m : List (Component K)} (hl : ∀ c ∈ l, P c) (hm : ∀ c ∈ m, P c) :
    ∀ c ∈ l.foldl Distribution.pushFolded m, P c := by
  induction l generalizing m with
  | nil => exact hm
  | cons c l ih =>
    exact ih (fun d hd => hl d (List.mem_cons_of_mem _ hd))
      (forall_mem_pushFolded hsquared m c hm (hl c List.mem_cons_self))

end

theorem refineRound_ok {kept : List PrvSet} {cs ds : List (Component K)}
    (h : refineRound kept cs = .ok (some ds)) : ∃ (i : Nat) (c : Component K) (a : Action)
      (pieces : List (Component K)), nextAction cs kept = .ok (some (i, a)) ∧ cs[i]? = some c
      ∧ c.perform a = .ok pieces
      ∧ ds = pieces.foldl Distribution.pushFolded (cs.eraseIdx i) := by
  obtain ⟨next, hnext, h⟩ := bind_ok h
  cases next with
  | none => cases h
  | some q =>
    obtain ⟨i, a⟩ := q
    cases hc : cs[i]? with
    | none =>
      dsimp only at h
      rw [hc] at h
      cases h
    | some c =>
      dsimp only at h
      rw [hc] at h
      obtain ⟨pieces, hp, h⟩ := bind_ok h
      cases h
      exact ⟨i, c, a, pieces, hnext, hc, hp, rfl⟩

theorem refineRound_eq_none {kept : List PrvSet} {cs : List (Component K)}
    (h : refineRound kept cs = .ok none) : nextAction cs kept = .ok none ∨
      ∃ i a, nextAction cs kept = .ok (some (i, a)) ∧ cs[i]? = none := by
  obtain ⟨next, hnext, h⟩ := bind_ok h
  cases next with
  | none => exact .inl hnext
  | some q =>
    obtain ⟨i, a⟩ := q
    cases hc : cs[i]? with
    | none => exact .inr ⟨i, a, hnext, hc⟩
    | some c =>
      dsimp only at h
      rw [hc] at h
      obtain ⟨pieces, hp, h⟩ := bind_ok h
      cases h

/-- **Runs of shattering**: what holds of the normalised components and is kept by every
refinement holds of the refined ones, and these need no refinement. -/
theorem shatter_ok {m s : Marginal K} {P : List (Component K) → Prop}
    (hstart : ∀ normal, List.Forall₂ (fun (p : Component K) r => p.normalize = .ok r)
      m.distribution.toList normal →
      P ((normal.filterMap id).foldl Distribution.pushFolded []))
    (hround : ∀ cs i (c : Component K) a pieces, P cs → cs[i]? = some c → c.perform a = .ok pieces →
      P (pieces.foldl Distribution.pushFolded (cs.eraseIdx i)))
    (h : m.shatter = .ok s) : ∃ cs, P cs ∧ refineRound m.kept cs = .ok none
      ∧ s = m.withDistribution (.ofList cs) := by
  obtain ⟨cs₀, hcs₀, h⟩ := bind_ok h
  obtain ⟨normal, hn, hcs₀⟩ := bind_ok hcs₀
  cases hcs₀
  obtain ⟨cs, hrun, h⟩ := bind_ok h
  cases h
  have hsettled := settle_ok (p := P) (fun a b ha hab => by
    obtain ⟨i, c, act, pieces, -, hc, hp, rfl⟩ := refineRound_ok hab
    exact hround a i c act pieces ha hc hp) (hstart normal (collect_ok hn)) hrun
  exact ⟨cs, hsettled.1, hsettled.2, rfl⟩

end

/-! ## operations on a marginal -/

namespace Operation

variable {p q r : Parfactor K} {c : Constant} {cs : List Constant}

/-- the first individual is taken out, and then the others, as far as somebody is left -/
theorem expandAll_ok {f : CountingFormula} (h : expandAll p (some f) (c :: cs) = .ok q) :
    ∃ r, p.expand f (.const c) = .ok r ∧ f.isExpandable (.const c) = true
      ∧ expandAll r (if 0 < (f.excluding (.const c)).domainSize then some (f.excluding (.const c))
        else none) cs = .ok q := by
  unfold expandAll at h
  split at h
  · cases h
  · rename_i a rest hrest
    split at h
    · cases h
    · rename_i r hr
      unfold CountingFormula.expand at hrest
      split at hrest
      · rename_i hexpandable
        cases hrest
        exact ⟨r, hr, hexpandable, h⟩
      · cases hrest

/-- the variable is split on the first individual, and what is left is grounded on the others -/
theorem groundAll_ok {x : LogVar} {l : List (Parfactor K)}
    (h : groundAll x (some p) (c :: cs) = .ok l) : (x ∉ p.logVars ∧ l = [p])
      ∨ (x ∈ p.logVars ∧ ∃ s fragment residual rest, p.split ⟨x, .const c⟩ = .ok s
        ∧ s.fragment.normalize = .ok fragment ∧ s.residual.normalize = .ok residual
        ∧ groundAll x residual cs = .ok rest ∧ l = fragment.toList ++ rest) := by
  unfold groundAll at h
  split at h
  · rename_i hx
    obtain ⟨s, hs, h⟩ := bind_ok h
    obtain ⟨fragment, hfragment, h⟩ := bind_ok h
    obtain ⟨residual, hresidual, h⟩ := bind_ok h
    obtain ⟨rest, hrest, h⟩ := bind_ok h
    cases h
    exact .inr ⟨hx, s, fragment, residual, rest, hs, hfragment, hresidual, hrest, rfl⟩
  · rename_i hx
    cases h
    exact .inl ⟨hx, rfl⟩

section
variable [Scalar K] {m m' : Marginal K}

theorem remove_ok {b : Component K} {d d' : Distribution K} (h : remove d b = .ok d') :
    d' = d.erase b := by
  unfold remove at h
  split at h
  · exact (Except.ok.inj h).symm
  · cases h

theorem removeAll_cons_ok {b : Component K} {bs : List (Component K)} {d d' : Distribution K}
    (h : removeAll d (b :: bs) = .ok d') : ∃ e, remove d b = .ok e ∧ removeAll e bs = .ok d' := by
  unfold removeAll at h
  split at h
  · cases h
  · rename_i e he
    exact ⟨e, he, h⟩

theorem multiplyAll_ok {qs : List (Parfactor K)} (h : multiplyAll p (q :: qs) = .ok r) :
    ∃ s, p.multiply q = .ok s ∧ multiplyAll s qs = .ok r := by
  unfold multiplyAll at h
  split at h
  · cases h
  · rename_i s hs
    exact ⟨s, hs, h⟩

theorem runConvert_ok {a : Aggregation K} (h : runConvert m a = .ok m') : ∃ d ps l,
    remove m.distribution (.aggregation a) = .ok d ∧ a.toParfactors = .ok ps
      ∧ normalForms ps = .ok l ∧ m' = m.withDistribution (d.addAll l) := by
  obtain ⟨d, hd, h⟩ := bind_ok h
  obtain ⟨ps, hps, h⟩ := bind_ok h
  obtain ⟨l, hl, h⟩ := bind_ok h
  cases h
  exact ⟨d, ps, l, hd, hps, hl, rfl⟩

theorem runCount_ok {x : LogVar} (h : runCount m p x = .ok m') : ∃ q d l,
    p.count x = .ok q ∧ remove m.distribution (.standard p) = .ok d ∧ normalForms [q] = .ok l
      ∧ m' = m.withDistribution (d.addAll l) := by
  obtain ⟨q, hq, h⟩ := bind_ok h
  obtain ⟨d, hd, h⟩ := bind_ok h
  obtain ⟨l, hl, h⟩ := bind_ok h
  cases h
  exact ⟨q, d, l, hq, hd, hl, rfl⟩

theorem runSumOut_ok {e : SetElimination K} (h : runSumOut m e = .ok m') :
    ∃ p ps product summed d cs, e.aligned = p :: ps ∧ multiplyAll p ps = .ok product
      ∧ product.sumOut e.eliminated.prv = .ok summed ∧ removeAll m.distribution e.involved = .ok d
      ∧ normalForms [summed] = .ok cs ∧ m' = m.withDistribution (d.addAll cs) := by
  unfold runSumOut at h
  split at h
  · cases h
  · rename_i p ps haligned
    obtain ⟨product, hproduct, h⟩ := bind_ok h
    obtain ⟨summed, hsummed, h⟩ := bind_ok h
    obtain ⟨d, hd, h⟩ := bind_ok h
    obtain ⟨cs, hcs, h⟩ := bind_ok h
    cases h
    exact ⟨p, ps, product, summed, d, cs, haligned, hproduct, hsummed, hd, hcs, rfl⟩

theorem runExpand_ok {f : CountingFormula} (h : runExpand m p f = .ok m') : ∃ q d l,
    expandAll p (some f) f.individuals.individuals = .ok q
      ∧ remove m.distribution (.standard p) = .ok d ∧ normalForms [q] = .ok l
      ∧ (m.withDistribution (d.addAll l)).shatter = .ok m' := by
  obtain ⟨q, hq, h⟩ := bind_ok h
  obtain ⟨d, hd, h⟩ := bind_ok h
  obtain ⟨l, hl, h⟩ := bind_ok h
  exact ⟨q, d, l, hq, hd, hl, h⟩

theorem runGround_ok {x : LogVar} (h : runGround m p x = .ok m') : ∃ l d,
    groundAll x (some p) (x.domain p.constraints).individuals = .ok l
      ∧ remove m.distribution (.standard p) = .ok d
      ∧ (m.withDistribution (d.addAll (l.map .standard))).shatter = .ok m' := by
  obtain ⟨l, hl, h⟩ := bind_ok h
  obtain ⟨d, hd, h⟩ := bind_ok h
  exact ⟨l, d, hl, hd, h⟩

end

end Operation

end LiftedElimination
