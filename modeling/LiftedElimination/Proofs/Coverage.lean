import LiftedElimination.Proofs.TableSize
import LiftedElimination.Proofs.Expand

/-!
# Tables that are read to the end

An operation that builds a new table reads the old one.  If it has succeeded, the last entry that it
has read is there, and so the old table has at least as many entries as its sizes ask for, whatever
they are.  Hence no normal form has a larger table than the parfactor, and the tables of counting and
of expansion are as large as the old table says.

* `Index.Tops`           digits at or above those of the last assignment;
* `Prv.HasValues`        the range is not empty;
* `Parfactor.Covers`     the table has at least one entry for every assignment;
* `size_normalize_le`    normal forms have no larger tables;
* `covers_expand`, `size_expand_mul`   expansion;
* `covers_count`, `size_count_mul`   counting.
-/

namespace LiftedElimination

variable {K : Type}

/-! ## the last assignment -/

namespace Index

variable {digits sizes : List Nat} {i n v : Nat}

/-- every digit is the last one of its size, or above it -/
def Tops (digits sizes : List Nat) : Prop := List.Forall₂ (fun d s => s ≤ d + 1) digits sizes

/-- the last assignment -/
def last (sizes : List Nat) : List Nat := sizes.map (· - 1)

theorem tops_last (sizes : List Nat) : Tops (last sizes) sizes :=
  List.forall₂_map_left_iff.mpr (List.forall₂_same.mpr fun _ _ => Nat.sub_le_iff_le_add.mp le_rfl)

theorem below_last (h : ∀ s ∈ sizes, 0 < s) : Below (last sizes) sizes :=
  List.forall₂_map_left_iff.mpr (List.forall₂_same.mpr fun s hs => Nat.sub_one_lt (h s hs).ne')

theorem Tops.getD (h : Tops digits sizes) (hi : sizes[i]? = some n) (d : Nat) :
    n ≤ digits.getD i d + 1 := by
  induction h generalizing i with
  | nil => cases hi
  | cons hd _ ih =>
    cases i with
    | zero =>
      cases hi
      exact hd
    | succ i => exact ih hi

/-- the places of a table end where the last assignment is -/
theorem Tops.prod_le (h : Tops digits sizes) : sizes.prod ≤ indexOf sizes digits + 1 := by
  induction h with
  | nil => exact le_rfl
  | @cons d s digits sizes hd hds ih =>
    rw [indexOf_cons hds.length_eq, List.prod_cons]
    calc s * sizes.prod ≤ (d + 1) * sizes.prod := Nat.mul_le_mul_right _ hd
      _ = d * sizes.prod + sizes.prod := Nat.succ_mul d sizes.prod
      _ ≤ d * sizes.prod + indexOf sizes digits + 1 := Nat.add_le_add_left ih _

end Index

/-- an entry that far behind is only in a table that is large enough -/
theorem Factor.prod_le_size {t : Factor K} {sizes digits : List Nat} {x : K}
    (h : t.entry sizes digits = .ok x) (hd : Index.Tops digits sizes) : sizes.prod ≤ t.size := by
  unfold entry at h
  split at h
  · cases h
  · rename_i j hj
    obtain rfl := Index.indexOf?_ok hj
    split at h
    · cases h
    · rename_i y hy
      obtain ⟨hlt, -⟩ := Array.getElem?_eq_some_iff.mp hy
      exact hd.prod_le.trans hlt

/-- the size at one place and the sizes at all others -/
theorem prod_eraseIdx {sizes : List Nat} {i n : Nat} (h : sizes[i]? = some n) :
    n * (sizes.eraseIdx i).prod = sizes.prod := by
  obtain ⟨hlt, rfl⟩ := List.getElem?_eq_some_iff.mp h
  rw [← (List.getElem_cons_eraseIdx_perm hlt).prod_eq, List.prod_cons]

/-! ## ranges -/

/-- the random variable has a value -/
def Prv.HasValues (q : Prv) : Prop := 0 < q.base.range.size

theorem Prv.HasValues.rangeSize_pos {q : Prv} (h : q.HasValues) : 0 < q.rangeSize := by
  cases q with
  | atom a => exact h
  | count f => exact CountingFormula.rangeSize_pos h

/-- no operation takes a value away -/
theorem hereditary_hasValues : Hereditary (fun _ => True) Prv.HasValues where
  subset _ _ := trivial
  insert _ _ _ := trivial
  apply _ _ _ := trivial
  substituted {q _} hq _ := by
    cases q <;> exact hq
  instantiate hq _ := hq
  excluding hq _ := hq
  counted _ hq := hq

/-- all random variables of the component have values -/
def Component.HasValues (c : Component K) : Prop := c.Meets (fun _ => True) Prv.HasValues

theorem CountingFormula.rangeSize_of_nobody {f : CountingFormula} (h : f.domainSize = 0) :
    f.rangeSize = 1 := by
  have hcount : Cost.histogramCount 0 f.inner.range.size = .finite 1 := by
    unfold Cost.histogramCount
    split
    · rfl
    · simp [Cost.chooseFrom]
  rw [rangeSize, h, hcount]
  decide

/-- instances are given the table of the aggregation parfactor -/
theorem Aggregation.factor_normalize {a b : Aggregation K} (h : a.normalize = .ok (some b)) :
    b.factor = a.factor :=
  (groundSingletons_ok (I := fun o => ∀ b, o = some b → b.factor = a.factor) (fun _ _ _ => nofun)
    (fun c _ _ hc _ _ b hb => by
      obtain ⟨ds, -, rfl⟩ := apply_eq_some hb
      exact hc c rfl)
    (fun _ hb => Option.some.inj hb ▸ rfl) h).1 b rfl

namespace Parfactor

variable {p q r : Parfactor K} {f : CountingFormula} {t : Term} {x : LogVar} {i : Nat}

/-- the table has at least one entry for every assignment -/
def Covers (p : Parfactor K) : Prop := p.sizes.prod ≤ p.factor.size

/-- instances are given the table of the parfactor -/
theorem factor_ground (h : groundSingletons logVars constraints apply p = .ok (some q)) :
    q.factor = p.factor :=
  (groundSingletons_ok (I := fun o => ∀ q, o = some q → q.factor = p.factor) (fun _ _ _ => nofun)
    (fun r _ _ hr _ _ q hq => by
      obtain ⟨ds, -, rfl⟩ := apply_eq_some hq
      exact hr r rfl)
    (fun _ hq => Option.some.inj hq ▸ rfl) h).1 q rfl

section
variable {cs : ConstraintSet} {prvs : List Prv} {entry : List Nat → Except Error K}

theorem size_rebuild (h : rebuild cs prvs entry = .ok q) :
    q.factor.size = (prvs.map Prv.rangeSize).prod
      ∧ (prvs.map Prv.rangeSize).prod ≤ Index.maxEntries :=
  Factor.size_ofFn (rebuild_ok h).2.2

/-- a table that has just been built is of the right size -/
theorem size_eq_of_rebuild (h : rebuild cs prvs entry = .ok q) :
    q.factor.size = q.sizes.prod ∧ q.sizes.prod ≤ Index.maxEntries := by
  rw [sizes, (rebuild_ok h).2.1]
  exact size_rebuild h

/-- every entry has been computed -/
theorem exists_entry [Scalar K] (h : rebuild cs prvs entry = .ok q) {digits : List Nat}
    (hd : Index.Below digits (prvs.map Prv.rangeSize)) : ∃ y, entry digits = .ok y :=
  ⟨_, (Factor.ofFn_ok (rebuild_ok h).2.2).2.2 digits hd⟩

theorem below_last (h : ∀ r ∈ prvs, r.HasValues) :
    Index.Below (Index.last (prvs.map Prv.rangeSize)) (prvs.map Prv.rangeSize) := by
  refine Index.below_last fun s hs => ?_
  obtain ⟨r, hr, rfl⟩ := List.mem_map.mp hs
  exact (h r hr).rangeSize_pos

end

/-! ## normal forms -/

variable [Scalar K]

/-- dropping a formula over nobody reads the old table to its end -/
theorem covers_dropPrv (hp : ∀ r ∈ p.prvs, r.HasValues) (hi : p.prvs[i]? = some (.count f))
    (hzero : f.domainSize = 0) (h : p.dropPrv i 0 = .ok q) : p.Covers := by
  obtain ⟨y, hy⟩ := exists_entry h (below_last fun r hr => hp r (List.mem_of_mem_eraseIdx hr))
  have htops : Index.Tops (Index.last ((p.prvs.eraseIdx i).map Prv.rangeSize))
      (p.sizes.eraseIdx i) := by
    rw [sizes, List.eraseIdx_map]
    exact Index.tops_last _
  exact Factor.prod_le_size hy (forall₂_insertIdx (getElem?_sizes hi)
    (show f.rangeSize ≤ 0 + 1 from (CountingFormula.rangeSize_of_nobody hzero).le) htops)

/-- merging reads the old table to its end, on the diagonal -/
theorem covers_mergeRound (hp : ∀ r ∈ p.prvs, r.HasValues) (h : p.mergeRound = .ok (some q)) :
    p.Covers := by
  obtain ⟨i, j, r, hij, hi, hj, hmerge⟩ := mergeRound_ok h
  obtain ⟨y, hy⟩ := exists_entry hmerge (below_last fun r hr => hp r (List.mem_of_mem_eraseIdx hr))
  have htops : Index.Tops (Index.last ((p.prvs.eraseIdx j).map Prv.rangeSize))
      (p.sizes.eraseIdx j) := by
    rw [sizes, List.eraseIdx_map]
    exact Index.tops_last _
  have hplace : (p.sizes.eraseIdx j)[i]? = some r.rangeSize := by
    rw [List.getElem?_eraseIdx_of_lt hij]
    exact getElem?_sizes hi
  exact Factor.prod_le_size hy (forall₂_insertIdx (getElem?_sizes hj) (htops.getD hplace 0) htops)

theorem size_simplifyRound_le (hp : ∀ r ∈ p.prvs, r.HasValues)
    (h : p.simplifyRound = .ok (some q)) : q.factor.size ≤ p.factor.size := by
  obtain ⟨i, f, hi, ⟨hzero, hdrop⟩ | ⟨-, a, -, rfl⟩⟩ := simplifyRound_ok h
  · have hprod := prod_eraseIdx (getElem?_sizes hi)
    rw [show (Prv.count f).rangeSize = 1 from CountingFormula.rangeSize_of_nobody hzero,
      Nat.one_mul] at hprod
    rw [(size_rebuild hdrop).1, ← List.eraseIdx_map]
    exact hprod.le.trans (covers_dropPrv hp hi hzero hdrop)
  · exact le_rfl

theorem size_mergeRound_le (hp : ∀ r ∈ p.prvs, r.HasValues) (h : p.mergeRound = .ok (some q)) :
    q.factor.size ≤ p.factor.size := by
  refine le_trans ?_ (covers_mergeRound hp h)
  obtain ⟨i, j, r, -, -, hj, hmerge⟩ := mergeRound_ok h
  rw [(size_rebuild hmerge).1, ← List.eraseIdx_map]
  show (p.sizes.eraseIdx j).prod ≤ p.sizes.prod
  rw [← prod_eraseIdx (getElem?_sizes hj)]
  exact Nat.le_mul_of_pos_left _ (hp r (List.mem_of_getElem? hj)).rangeSize_pos

/-- **Normal forms have no larger tables.** -/
theorem size_normalize_le (hp : ∀ r ∈ p.prvs, r.HasValues) (h : p.normalize = .ok (some q)) :
    q.factor.size ≤ p.factor.size := by
  obtain ⟨g, hg, ⟨-, hr⟩ | ⟨r, s, u, rfl, hs, hu, hqu⟩⟩ := normalize_ok h
  · cases hr
  cases hqu
  have hmeets : ∀ {a : Parfactor K}, (∀ r ∈ a.prvs, r.HasValues) →
      (Component.standard a).Meets (fun _ => True) Prv.HasValues := fun ha => ⟨trivial, ha⟩
  have hground := hereditary_hasValues.parfactor_ground (hmeets hp) hg
  have hsimple := settle_ok (p := fun a : Parfactor K => (∀ r ∈ a.prvs, r.HasValues)
      ∧ a.factor.size ≤ p.factor.size)
    (fun a b ha hab => ⟨(hereditary_hasValues.simplifyRound (hmeets ha.1) hab).prvs,
      (size_simplifyRound_le ha.1 hab).trans ha.2⟩)
    ⟨hground.prvs, (congrArg Factor.size (factor_ground hg)).le⟩ hs
  exact (settle_ok (p := fun a : Parfactor K => (∀ r ∈ a.prvs, r.HasValues)
      ∧ a.factor.size ≤ p.factor.size)
    (fun a b ha hab => ⟨(Hereditary.mergeRound (hmeets ha.1) hab).prvs,
      (size_mergeRound_le ha.1 hab).trans ha.2⟩) hsimple.1 hu).1.2

end Parfactor

/-! ## histograms -/

/-- a list with a positive sum is another one with one more at some place -/
theorem exists_modify_succ {l : List Nat} (h : 0 < l.sum) : ∃ v < l.length, ∃ m : List Nat,
    m.length = l.length ∧ m.sum + 1 = l.sum ∧ m.modify v (· + 1) = l := by
  induction l with
  | nil => cases h
  | cons a l ih =>
    cases a with
    | succ a =>
      refine ⟨0, Nat.succ_pos _, a :: l, rfl, ?_, rfl⟩
      rw [List.sum_cons, List.sum_cons]
      omega
    | zero =>
      rw [List.sum_cons, Nat.zero_add] at h
      obtain ⟨v, hv, m, hlen, hsum, hm⟩ := ih h
      refine ⟨v + 1, Nat.succ_lt_succ hv, 0 :: m, ?_, ?_, ?_⟩
      · rw [List.length_cons, List.length_cons, hlen]
      · rw [List.sum_cons, List.sum_cons, Nat.zero_add, Nat.zero_add, hsum]
      · rw [List.modify_succ_cons, hm]

/-- every histogram of a group has one individual more than one of a smaller group -/
theorem Histogram.exists_addOne {b n : Nat} {g : Histogram} (hg : g ∈ all b (n + 1)) :
    ∃ v < b, ∃ h ∈ all b n, Parfactor.addOne h.counts v = .ok g := by
  obtain ⟨hlength, htotal⟩ := mem_all.mp hg
  have htotal : g.counts.sum = n + 1 := htotal
  obtain ⟨v, hv, m, hm, hsum, hmodify⟩ := exists_modify_succ (l := g.counts) (by omega)
  refine ⟨v, hlength ▸ hv, ⟨m⟩, mem_all.mpr ⟨hm.trans hlength, ?_⟩, ?_⟩
  · show m.sum = n
    omega
  · rw [Parfactor.addOne_ok (hm ▸ hv), hmodify]

namespace CountingFormula

variable {f : CountingFormula} {t : Term}

theorem rangeSize_le_length (f : CountingFormula) : f.rangeSize ≤ f.histograms.length :=
  f.rangeSize_eq ▸ Nat.min_le_left _ _

/-- the place of the last histogram -/
theorem idxOf?_getLast (hne : f.histograms ≠ []) :
    f.histograms.idxOf? (f.histograms.getLast hne) = some (f.histograms.length - 1) := by
  have hlt : f.histograms.length - 1 < f.histograms.length :=
    Nat.sub_one_lt (List.length_pos_iff.mpr hne).ne'
  rw [List.getLast_eq_getElem]
  exact List.idxOf?_eq_some_iff.mpr ⟨hlt, rfl, fun j hj h =>
    absurd ((Histogram.nodup_all _ _).getElem_inj_iff.mp h) hj.ne⟩

end CountingFormula

/-- some individual with some value completes a smaller group to the last histogram -/
theorem CountingFormula.exists_completion {f : CountingFormula} (hb : 0 < f.inner.range.size) :
    ∃ v < f.inner.range.size, ∃ h ∈ Histogram.all f.inner.range.size (f.domainSize - 1),
      h.counts.length = f.inner.range.size
        ∧ f.rangeSize ≤ (f.histograms.idxOf? ⟨h.counts.modify v (· + 1)⟩).getD 0 + 1 := by
  cases hn : f.domainSize with
  | zero =>
    obtain ⟨h, hh⟩ : ∃ h, h ∈ Histogram.all f.inner.range.size 0 := by
      rw [Histogram.all, Histogram.spreads_nobody]
      exact ⟨_, List.mem_singleton_self _⟩
    refine ⟨0, hb, h, hh, (Histogram.mem_all.mp hh).1, ?_⟩
    rw [rangeSize_of_nobody hn]
    exact Nat.le_add_left 1 _
  | succ n =>
    have hlength : 0 < f.histograms.length := (rangeSize_pos hb).trans_le f.rangeSize_le_length
    have hne : f.histograms ≠ [] := List.length_pos_iff.mp hlength
    have hlast : f.histograms.getLast hne ∈ Histogram.all f.inner.range.size (n + 1) :=
      hn ▸ List.getLast_mem hne
    obtain ⟨v, hv, h, hh, hadd⟩ := Histogram.exists_addOne hlast
    have hcounts := (Histogram.mem_all.mp hh).1
    rw [Parfactor.addOne_ok (hcounts.symm ▸ hv)] at hadd
    refine ⟨v, hv, h, hh, hcounts, ?_⟩
    have hplace := f.idxOf?_getLast hne
    rw [Except.ok.inj hadd]
    rw [hplace, Option.getD_some, Nat.sub_one_add_one hlength.ne']
    exact f.rangeSize_le_length

/-! ## expansion -/

namespace Parfactor

variable {p q : Parfactor K} {f : CountingFormula} {t : Term} {x : LogVar} {i : Nat}

/-- other random variables in the place of one of them -/
theorem prod_around {s : Prv} (hi : p.prvs[i]? = some s) (middle : List Prv) :
    s.rangeSize * ((p.prvs.take i ++ (middle ++ p.prvs.drop (i + 1))).map Prv.rangeSize).prod
      = p.sizes.prod * (middle.map Prv.rangeSize).prod := by
  have hsizes : p.sizes.prod = ((p.prvs.take i).map Prv.rangeSize).prod
      * (s.rangeSize * ((p.prvs.drop (i + 1)).map Prv.rangeSize).prod) := by
    rw [sizes]
    conv_lhs => rw [(split_at hi).1, List.map_append, List.map_cons, List.prod_append,
      List.prod_cons]
  rw [hsizes, List.map_append, List.map_append, List.prod_append, List.prod_append]
  ring

/-- **The table of an expansion** has the values of the one taken out and the histograms of the
others for each histogram of the group. -/
theorem size_expand_mul (h : p.expand f t = .ok q) :
    f.rangeSize * q.factor.size
      = p.sizes.prod * (f.inner.range.size * (f.excluding t).rangeSize) := by
  obtain ⟨i, hi, -, ⟨-, hq⟩ | ⟨hzero, hq⟩⟩ := expand_ok h
  · rw [(size_rebuild hq).1]
    refine (prod_around hi [.atom (f.instantiate t), .count (f.excluding t)]).trans ?_
    rw [List.map_cons, List.map_singleton, List.prod_cons, List.prod_singleton]
    rfl
  · rw [(size_rebuild hq).1, CountingFormula.rangeSize_of_nobody hzero, Nat.mul_one]
    refine (prod_around hi [.atom (f.instantiate t)]).trans ?_
    rw [List.map_singleton, List.prod_singleton]
    rfl

/-- **An expansion reads the old table to its end.** -/
theorem covers_expand [Scalar K] (hp : ∀ r ∈ p.prvs, r.HasValues) (h : p.expand f t = .ok q) :
    p.Covers := by
  obtain ⟨i, hi, hon, hcases⟩ := expand_ok h
  have hf : 0 < f.inner.range.size := hp _ (List.mem_of_getElem? hi)
  obtain ⟨v, hv, g, hg, hlength, hplace⟩ := CountingFormula.exists_completion hf
  have hbefore := below_last fun r hr => hp r (List.mem_of_mem_take (i := i) hr)
  have hbehind := below_last fun r hr => hp r (List.mem_of_mem_drop (i := i + 1) hr)
  have hlen : (Index.last ((p.prvs.take i).map Prv.rangeSize)).length = i := by
    rw [hbefore.length_eq, List.length_map, (split_at hi).2]
  -- the last histogram with the last values around it
  have htops := forall₂_around (R := fun d s => s ≤ d + 1) (getElem?_sizes hi)
    (by rw [sizes, ← List.map_take]; exact Index.tops_last _) hplace
    (by rw [sizes, ← List.map_drop]; exact Index.tops_last _)
  have hvalues : ∀ r ∈ q.prvs, r.HasValues :=
    (hereditary_hasValues.expand (p := p) ⟨trivial, hp⟩ h).prvs
  rcases hcases with ⟨-, hq⟩ | ⟨hzero, hq⟩
  · have hcut : (f.excluding t).histograms.length = (f.excluding t).rangeSize :=
      tabular_of_le (size_rebuild hq).2
        (below_last fun r hr => hvalues r ((rebuild_ok hq).2.1 ▸ hr)).prod_pos (.count _) (by simp)
    have hmem : g ∈ (f.excluding t).histograms := by
      rw [CountingFormula.histograms, hon.domainSize]
      exact hg
    obtain ⟨j, hj⟩ := List.mem_iff_getElem?.mp hmem
    obtain ⟨hjlt, -⟩ := List.getElem?_eq_some_iff.mp hj
    have hbelow : Index.Below (Index.last ((p.prvs.take i).map Prv.rangeSize)
          ++ v :: j :: Index.last ((p.prvs.drop (i + 1)).map Prv.rangeSize))
        ((p.prvs.take i ++ .atom (f.instantiate t) :: .count (f.excluding t)
          :: p.prvs.drop (i + 1)).map Prv.rangeSize) := by
      rw [List.map_append]
      exact List.rel_append hbefore (.cons hv (.cons (hjlt.trans_eq hcut) hbehind))
    obtain ⟨y, hy⟩ := exists_entry hq hbelow
    rw [expandEntry_around hlen hj (hlength ▸ hv)] at hy
    exact Factor.prod_le_size hy htops
  · have hsole : g.counts = List.replicate f.inner.range.size 0 := by
      rw [← hon.domainSize, hzero, Histogram.all, Histogram.spreads_nobody, List.map_singleton,
        List.mem_singleton] at hg
      rw [hg]
    have hbelow : Index.Below (Index.last ((p.prvs.take i).map Prv.rangeSize)
          ++ v :: Index.last ((p.prvs.drop (i + 1)).map Prv.rangeSize))
        ((p.prvs.take i ++ .atom (f.instantiate t) :: p.prvs.drop (i + 1)).map Prv.rangeSize) := by
      rw [List.map_append]
      exact List.rel_append hbefore (.cons hv hbehind)
    obtain ⟨y, hy⟩ := exists_entry hq hbelow
    rw [expandLastEntry_around hlen hv, ← hsole] at hy
    exact Factor.prod_le_size hy htops

/-! ## counting -/

section
variable [Scalar K]

/-- a product over all values has read the entry of each of them -/
theorem exists_of_countedEntry {table : Factor K} {sizes digits counts : List Nat} {v : Nat}
    {acc y : K} (h : countedEntry table sizes i digits counts v acc = .ok y) :
    ∀ k < counts.length, ∃ z, table.entry sizes (digits.set i (v + k)) = .ok z := by
  induction counts generalizing v acc with
  | nil => exact fun k hk => absurd hk (Nat.not_lt_zero k)
  | cons n counts ih =>
    unfold countedEntry at h
    split at h
    · cases h
    · rename_i z hz
      intro k hk
      cases k with
      | zero => exact ⟨z, hz⟩
      | succ k =>
        have hrest := ih h k (Nat.lt_of_succ_lt_succ hk)
        rwa [Nat.add_right_comm] at hrest

/-- **Counting reads the old table to its end.** -/
theorem covers_count (hp : ∀ r ∈ p.prvs, r.HasValues) (h : p.count x = .ok r) : p.Covers := by
  obtain ⟨-, i, a, hcounts, -, hr⟩ := count_ok h
  have ha : 0 < a.range.size := hp _ (List.mem_of_getElem? hcounts.holder)
  have hvalues : ∀ s ∈ p.prvs.set i (.count ⟨x, a, p.constraints.onVariable x⟩), s.HasValues := by
    intro s hs
    rcases List.mem_or_eq_of_mem_set hs with hs | rfl
    · exact hp s hs
    · exact ha
  obtain ⟨y, hy⟩ := exists_entry hr (below_last hvalues)
  unfold countEntry at hy
  split at hy
  · cases hy
  · rename_i g hg
    have hlength : g.counts.length = a.range.size :=
      (Histogram.mem_all.mp (List.mem_of_getElem? (List.getElem?_toArray ▸ hg))).1
    obtain ⟨z, hz⟩ := exists_of_countedEntry hy (a.range.size - 1)
      (hlength.symm ▸ Nat.sub_one_lt ha.ne')
    refine Factor.prod_le_size hz (forall₂_set (R := fun d s => s ≤ d + 1)
      (getElem?_sizes hcounts.holder) ?_ (by rw [sizes, ← List.map_set]; exact Index.tops_last _))
    show a.range.size ≤ 0 + (a.range.size - 1) + 1
    omega

/-- **The table of counting** has the histograms of the group for each value of the atom. -/
theorem size_count_mul (h : p.count x = .ok r) : ∃ i a, Counts p x i a ∧ a.range.size * r.factor.size
    = p.sizes.prod * CountingFormula.rangeSize ⟨x, a, p.constraints.onVariable x⟩ := by
  obtain ⟨-, i, a, hcounts, -, hr⟩ := count_ok h
  obtain ⟨hlt, -⟩ := List.getElem?_eq_some_iff.mp hcounts.holder
  refine ⟨i, a, hcounts, ?_⟩
  rw [(size_rebuild hr).1, List.set_eq_take_append_cons_drop, if_pos hlt]
  refine (prod_around hcounts.holder [.count ⟨x, a, p.constraints.onVariable x⟩]).trans ?_
  rw [List.map_singleton, List.prod_singleton]
  rfl

end

end Parfactor

end LiftedElimination
