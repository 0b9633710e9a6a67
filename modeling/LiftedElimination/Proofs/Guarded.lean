import LiftedElimination.Proofs.Refinable
import LiftedElimination.Proofs.Stable

/-!
# Shattering meets only errors without a guard

The guards of splits, expansions and conversions hold for the actions that are chosen, and whatever
else can fail is a table: one that is too large, or one that is read outside of its entries.

* `Aggregation.errorsIn_toParfactors`   conversions;
* `Component.errorsIn_perform`          an action that can be carried out, and the normal forms;
* `Component.Ready`                     what the engine keeps of all components;
* `Marginal.errorsIn_shatter`   whole runs of shattering.
-/

namespace LiftedElimination

variable {K : Type} {s : Schema}

/-! ## conversions -/

/-- a table that fits in 64 bits has a number of histograms that fits -/
theorem CountingFormula.rangeSize_lt {f : CountingFormula}
    (h : f.rangeSize * f.inner.range.size ≤ maxWord) : f.rangeSize < maxWord := by
  rcases Nat.lt_or_ge 1 f.inner.range.size with hlarge | hsmall
  · have hle := Nat.mul_le_mul_left f.rangeSize hlarge
    have hword : 0 < maxWord := by decide
    omega
  · -- over at most one value there is at most one histogram
    have hcount : ∃ n ≤ 1, Cost.histogramCount f.domainSize f.inner.range.size = .finite n := by
      unfold Cost.histogramCount
      split
      · split
        · exact ⟨1, le_rfl, rfl⟩
        · exact ⟨0, Nat.zero_le _, rfl⟩
      · have hone : f.inner.range.size - 1 = 0 := by omega
        rw [hone]
        dsimp only
        rw [show Nat.min 0 (f.domainSize + 0 - 0) = 0 from Nat.zero_min _]
        exact ⟨1, le_rfl, rfl⟩
    obtain ⟨n, hn, hfinite⟩ := hcount
    have hword : 1 < maxWord := by decide
    rw [rangeSize, hfinite]
    show min n maxWord < maxWord
    omega

theorem Index.prod_le_of_volumeFrom? {sizes : List Nat} {acc n : Nat}
    (h : volumeFrom? sizes acc = .ok n) (hacc : acc ≤ maxWord) : n ≤ maxWord := by
  induction sizes generalizing acc with
  | nil =>
    cases h
    exact hacc
  | cons size sizes ih =>
    unfold volumeFrom? at h
    split at h
    · exact ih h ‹_›
    · cases h

namespace Aggregation

/-- a table of the parents and the context that fits in 64 bits has the size that is expected -/
theorem expectedSize_eq {parent : Atom} {context : List Atom} {n : Nat}
    (h : Parfactor.expectedSize (.atom parent :: context.map .atom) = .ok n) :
    expectedSize parent context = n := by
  have hvolume := Parfactor.expectedSize_ok h
  rw [List.map_cons, List.map_map, Index.volumeFrom?, Nat.one_mul] at hvolume
  split at hvolume
  · unfold expectedSize
    show context.foldl _ (Prv.atom parent).rangeSize = n
    clear h
    generalize (Prv.atom parent).rangeSize = acc at hvolume
    induction context generalizing acc with
    | nil => exact Except.ok.inj hvolume
    | cons b context ih =>
      rw [List.map_cons, Index.volumeFrom?] at hvolume
      split at hvolume
      · rename_i hle
        rw [List.foldl_cons, show min (acc * b.range.size) maxWord = acc * b.range.size from
          Nat.min_eq_left hle]
        exact ih _ hvolume
      · cases hvolume
  · cases hvolume

variable {a : Aggregation K}

theorem length_indicators [Scalar K] (op : Operator) (hs : List Histogram) (n : Nat) :
    (indicators (K := K) op hs n).length = hs.length * n := by
  unfold indicators
  rw [List.length_flatMap]
  simp

/-- a comparing table that fits in 64 bits has the size that is expected -/
theorem Formed.length_indicators [Scalar K] (ha : a.Formed)
    (hle : a.formula.rangeSize * a.child.range.size ≤ maxWord) :
    (indicators (K := K) a.operator a.formula.histograms a.child.range.size).length
      = a.formula.rangeSize * a.child.range.size := by
  rw [Aggregation.length_indicators, CountingFormula.length_histograms]
  refine CountingFormula.rangeSize_lt ?_
  rwa [show a.formula.inner.range = a.child.range from ha.range]

/-- nothing of the comparing parfactor mentions the extra variable -/
theorem Formed.extra_notMem (ha : a.Formed) (hf : a.formula.Valid) :
    (∀ q ∈ [Prv.count a.formula, .atom a.child], a.extra ∉ q.freeVars)
      ∧ a.extra ∉ a.constraintsNotOnExtra.variables := by
  refine ⟨fun q hq hx => ?_, fun hx => ?_⟩
  · simp only [List.mem_cons, List.not_mem_nil, or_false] at hq
    rcases hq with rfl | rfl
    · exact hf.bound_notMem_freeVars hx
    · exact (ha.child _ hx).2 rfl
  · obtain ⟨c, hc, hxc⟩ := ConstraintSet.mem_variables.mp hx
    exact (ConstraintSet.mem_notOnVariable.mp hc).2 hxc

theorem errorsIn_makeFormula (ha : (Component.aggregation a).Regular s) {P : Error → Prop} :
    ErrorsIn P (CountingFormula.make a.extra a.parent a.constraintsOnExtra) := by
  have hmade : CountingFormula.make a.extra a.parent a.constraintsOnExtra = .ok a.formula :=
    CountingFormula.make_onVariable (Formed.extra_mem ha.formed) fun c hc _ =>
      ha.constraints.satisfiable c hc
  rw [hmade]
  exact .ok _

/-- the table of an aggregation parfactor is that of its weighed parents -/
theorem errorsIn_makeWeighed [Scalar K] (ha : (Component.aggregation a).Regular s) :
    ErrorsIn Error.Unguarded (Parfactor.make a.constraints
      (Prv.atom a.parent :: a.context.map Prv.atom) (some a.factor)) := by
  refine Parfactor.errorsIn_make .overflow .size (fun u n hu hn hne => ?_) (fun c hc hcon => ?_)
    fun f hf => ?_
  · cases hu
    exact absurd ((Formed.size ha.formed).trans (expectedSize_eq hn)) hne
  · rw [ha.constraints.satisfiable c hc] at hcon
    cases hcon
  · simp at hf

/-- the comparing table has the size that the counted parents and the child need -/
theorem errorsIn_makeComparing [Scalar K] (ha : (Component.aggregation a).Regular s)
    {f : CountingFormula} (hf : CountingFormula.make a.extra a.parent a.constraintsOnExtra = .ok f) :
    ErrorsIn Error.Unguarded (Parfactor.make a.constraintsNotOnExtra [.count f, .atom a.child]
      (some (⟨(indicators a.operator f.histograms a.child.range.size).toArray⟩ : Factor K))) := by
  have hformed : a.Formed := ha.formed
  obtain ⟨rfl, hbound, hcs⟩ := CountingFormula.make_ok hf
  refine Parfactor.errorsIn_make .overflow .size (fun u n hu hn hne => ?_) (fun c hc hcon => ?_)
    fun g hg hfree => ?_
  · cases hu
    refine absurd ?_ hne
    have hvolume := Parfactor.expectedSize_ok hn
    have hn := Index.volumeFrom?_ok hvolume
    have hle := Index.prod_le_of_volumeFrom? hvolume (by decide)
    simp only [List.map_cons, List.map_nil, List.prod_cons, List.prod_nil, Nat.mul_one,
      Nat.one_mul, Prv.rangeSize] at hn
    rw [hn] at hle
    show (indicators (K := K) _ _ _).toArray.size = n
    rw [List.size_toArray, hn]
    exact hformed.length_indicators hle
  · rw [ha.constraints.satisfiable c (ConstraintSet.mem_notOnVariable.mp hc).1] at hcon
    cases hcon
  · simp only [List.mem_cons, Prv.count.injEq, reduceCtorEq, List.not_mem_nil, or_false] at hg
    cases hg
    have hvalid : CountingFormula.Valid ⟨a.extra, a.parent, a.constraintsOnExtra⟩ :=
      ⟨hbound, fun c hc => (hcs c hc).1, fun c hc => (hcs c hc).2⟩
    obtain ⟨hprvs, hcs⟩ := hformed.extra_notMem hvalid
    rcases Parfactor.occursFree_iff.mp hfree with ⟨q, hq, hx⟩ | hx
    · exact absurd hx (hprvs q hq)
    · exact absurd hx hcs

/-- **A conversion** fails only because of the size of a table. -/
theorem errorsIn_toParfactors [Scalar K] (ha : (Component.aggregation a).Regular s) :
    ErrorsIn Error.Unguarded a.toParfactors := by
  have hrest : ∀ l : List (Parfactor K), ErrorsIn Error.Unguarded (do
      let f ← CountingFormula.make a.extra a.parent a.constraintsOnExtra
      let entries := indicators a.operator f.histograms a.child.range.size
      let aggregate ← Parfactor.make a.constraintsNotOnExtra [.count f, .atom a.child]
        (some ⟨entries.toArray⟩)
      return l ++ [aggregate]) := fun l =>
    (errorsIn_makeFormula ha).bind fun f hf => (errorsIn_makeComparing ha hf).bind fun _ _ => .ok _
  unfold toParfactors
  split
  · exact (ErrorsIn.ok []).bind fun l _ => hrest l
  · exact (errorsIn_makeWeighed ha).bind fun p _ => (ErrorsIn.ok [p]).bind fun l _ => hrest l

end Aggregation

/-! ## actions -/

namespace Component

variable [Scalar K] {c : Component K} {a : Action}

theorem errorsIn_pieces (hc : c.Regular s) (ha : c.Allows a) :
    ErrorsIn Error.Unguarded (c.pieces a) := by
  cases a with
  | split b =>
    have ha : c.isSplittable b = true := ha
    cases c with
    | standard p => exact (Parfactor.errorsIn_split fun h => absurd (h.symm.trans ha) nofun).map.map
    | aggregation d =>
      exact (Aggregation.errorsIn_split fun h => absurd (h.symm.trans ha) nofun).map.map
  | expand f t =>
    obtain ⟨p, rfl, hexpandable⟩ := ha
    exact (Parfactor.errorsIn_expand .overflow .bounds fun h =>
      absurd (h.symm.trans hexpandable) nofun).map
  | convert =>
    obtain ⟨d, rfl⟩ := ha
    exact (Aggregation.errorsIn_toParfactors hc).map

/-- **An action that is allowed** fails only because of a table. -/
theorem errorsIn_perform (hc : c.Regular s) (ha : c.Allows a) :
    ErrorsIn Error.Unguarded (c.perform a) := by
  refine (errorsIn_pieces hc ha).bind fun l hl => ?_
  have hregular := hc.pieces (pieces_ok hl)
  exact (ErrorsIn.collect fun d hd =>
    errorsIn_normalize .overflow .bounds (hregular d hd).proper).bind fun _ _ => .ok _

end Component

/-! ## normal forms -/

namespace Parfactor

theorem repeated?_eq_none {earlier qs : List Prv} (he : earlier.Nodup)
    (h : repeated? earlier qs = none) : (earlier ++ qs).Nodup := by
  induction qs generalizing earlier with
  | nil => rwa [List.append_nil]
  | cons q qs ih =>
    rw [repeated?] at h
    split at h
    · cases h
    · rename_i hnone
      rw [List.append_cons]
      refine ih (List.nodup_append.mpr ⟨he, List.nodup_singleton q, fun a ha b hb => ?_⟩) h
      rw [List.mem_singleton.mp hb]
      rintro rfl
      exact List.idxOf?_eq_none_iff.mp hnone ha

variable {p : Parfactor K}

/-- a normal form lists no random variable twice -/
theorem Stable.nodup (h : p.Stable) : p.prvs.Nodup := repeated?_eq_none List.nodup_nil h.merged

/-- the formulas of a normal form count somebody -/
theorem Stable.domainSize_pos (h : p.Stable) {f : CountingFormula} (hf : Prv.count f ∈ p.prvs) :
    0 < f.domainSize :=
  Nat.pos_of_ne_zero (trivialFormula?_eq_none_iff.mp h.simple f hf).1

end Parfactor

namespace Component

variable {c d : Component K}

/-- what the engine keeps of all components -/
structure Ready (s : Schema) (c : Component K) : Prop where
  regular : c.Regular s
  stable : c.Stable

theorem Regular.ready_normalize (hc : c.Regular s) (h : c.normalize = .ok (some d)) : d.Ready s :=
  ⟨hc.normalize h, stable_of_normalize h⟩

variable [Scalar K]

theorem Ready.squared (hc : c.Ready s) : c.squared.Ready s :=
  ⟨hc.regular.squared, hc.stable.squared⟩

theorem Regular.ready_perform {a : Action} {l : List (Component K)} (hc : c.Regular s)
    (h : c.perform a = .ok l) : ∀ d ∈ l, d.Ready s :=
  fun d hd => ⟨hc.perform h d hd, stable_perform h d hd⟩

end Component

/-! ## whole runs -/

section
variable [Scalar K] {cs ds : List (Component K)} {kept : List PrvSet}

/-- **One round of refinement.** -/
theorem errorsIn_refineRound (hcs : ∀ c ∈ cs, c.Regular s) (hkept : ∀ t ∈ kept, t.Follows s) :
    ErrorsIn Error.Unguarded (refineRound kept cs) := by
  have hnext := choosesAmong_nextAction hcs hkept
  refine hnext.errors.bind fun next h => ?_
  rcases next with _ | ⟨i, a⟩
  · exact .ok _
  · obtain ⟨c, hc, ha⟩ := hnext.allows i a h
    dsimp only
    rw [hc]
    exact (Component.errorsIn_perform (hcs c (List.mem_of_getElem? hc)) ha).bind fun _ _ => .ok _

theorem ready_refineRound (hcs : ∀ c ∈ cs, c.Ready s) (h : refineRound kept cs = .ok (some ds)) :
    ∀ d ∈ ds, d.Ready s := by
  obtain ⟨i, c, a, pieces, -, hc, hp, rfl⟩ := refineRound_ok h
  exact forall_mem_foldl_pushFolded (fun _ hd => hd.squared)
    ((hcs c (List.mem_of_getElem? hc)).regular.ready_perform hp)
    fun d hd => hcs d (List.mem_of_mem_eraseIdx hd)

namespace Marginal

variable {m m' : Marginal K}

/-- the components and the kept sets are of the schema -/
structure Regular (s : Schema) (m : Marginal K) : Prop where
  components : ∀ c ∈ m.distribution.toList, c.Regular s
  kept : ∀ t ∈ m.kept, t.Follows s

theorem Regular.ready_normalized (hm : m.Regular s) (h : m.normalized = .ok cs) :
    ∀ c ∈ cs, c.Ready s := by
  obtain ⟨normal, hn, h⟩ := bind_ok h
  cases h
  refine forall_mem_foldl_pushFolded (fun _ hd => hd.squared) (fun d hd => ?_)
    fun d hd => absurd hd List.not_mem_nil
  obtain ⟨c, hc, hcd⟩ := Component.mem_of_normalized (collect_ok hn) hd
  exact (hm.components c hc).ready_normalize hcd

/-- **Shattering** fails only because of a table, or because a formula that excludes variables would
have to be expanded on an individual. -/
theorem errorsIn_shatter (hm : m.Regular s) : ErrorsIn Error.Unguarded m.shatter := by
  have hnormalized : ErrorsIn Error.Unguarded m.normalized :=
    (ErrorsIn.collect fun c hc => Component.errorsIn_normalize .overflow .bounds
      (hm.components c hc).proper).bind fun _ _ => .ok _
  refine hnormalized.bind fun cs hcs => ErrorsIn.bind ?_ fun _ _ => .ok _
  refine errorsIn_settle (I := fun cs => ∀ c ∈ cs, c.Ready s) (m := refinementBound)
    (fun a b ha hab => ⟨ready_refineRound ha hab, ?_⟩) (fun a ha => ?_)
    (hm.ready_normalized hcs) le_rfl
  · exact (refinementBound_refineRound (fun c hc => (ha c hc).regular.proper) hab).2
  · exact errorsIn_refineRound (fun c hc => (ha c hc).regular) hm.kept

/-- what the engine keeps of the marginal -/
structure Ready (s : Schema) (m : Marginal K) : Prop where
  components : ∀ c ∈ m.distribution.toList, c.Ready s
  kept : ∀ t ∈ m.kept, t.Follows s

theorem Ready.regular (hm : m.Ready s) : m.Regular s :=
  ⟨fun c hc => (hm.components c hc).regular, hm.kept⟩

end Marginal

end

end LiftedElimination
