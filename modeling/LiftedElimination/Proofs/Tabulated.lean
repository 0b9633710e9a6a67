import LiftedElimination.Proofs.Descent

/-!
# Full tables

A table of the right size has an entry for every assignment.  What an operation computes from such a
table for an assignment of its result never looks outside of it, so no entry of the new table fails.

* `Index.Below.around`, `.insertIdx`, `.set`   assignments with another digit at one place;
* `Index.Fits.eraseIdx`    a table without one of its sizes;
* `Factor.entry_eq`        in a table of the right size every assignment has an entry;
* `Parfactor.Tabulated`    a parfactor with such a table;
* `Tabulated.errorsIn_droppedEntry`, `.errorsIn_mergedEntry`, `.errorsIn_expandEntry`,
  `.errorsIn_productEntry`, `.errorsIn_countEntry`, `.errorsIn_sumFrom`   the entries of the tables that
                           the operations build.
-/

namespace LiftedElimination

variable {K : Type}

/-! ## assignments -/

section
variable {α β : Type} {R : α → β → Prop} {as : List α} {bs : List β} {i : Nat} {a : α} {b c : β}

/-- an element put back at the place where its partner has been left out -/
theorem forall₂_insertIdx (hi : bs[i]? = some b) (hab : R a b)
    (h : List.Forall₂ R as (bs.eraseIdx i)) : List.Forall₂ R (as.insertIdx i a) bs := by
  induction bs generalizing i as with
  | nil => cases hi
  | cons d bs ih =>
    cases i with
    | zero =>
      cases hi
      exact .cons hab h
    | succ i =>
      obtain _ | ⟨hd, hds⟩ := h
      exact .cons hd (ih hi hds)

/-- an element between two parts, where its partner is -/
theorem forall₂_around {before behind : List α} (hi : bs[i]? = some b)
    (hbefore : List.Forall₂ R before (bs.take i)) (hab : R a b)
    (hbehind : List.Forall₂ R behind (bs.drop (i + 1))) :
    List.Forall₂ R (before ++ a :: behind) bs := by
  rw [(Parfactor.split_at hi).1]
  exact List.rel_append hbefore (.cons hab hbehind)

/-- an element put in the place of another one, where the partner has been changed, too -/
theorem forall₂_set (hi : bs[i]? = some b) (hab : R a b) (h : List.Forall₂ R as (bs.set i c)) :
    List.Forall₂ R (as.set i a) bs := by
  induction bs generalizing i as with
  | nil => cases hi
  | cons d bs ih =>
    cases i with
    | zero =>
      cases hi
      obtain _ | ⟨-, hds⟩ := h
      exact .cons hab hds
    | succ i =>
      obtain _ | ⟨hd, hds⟩ := h
      exact .cons hd (ih hi hds)

end

namespace Index

variable {sizes digits : List Nat} {i n v : Nat}

theorem Below.prod_pos (h : Below digits sizes) : 0 < sizes.prod :=
  Nat.zero_lt_of_lt (indexOf_lt h)

theorem Below.getD_lt (h : Below digits sizes) (hi : sizes[i]? = some n) (d : Nat) :
    digits.getD i d < n := by
  induction h generalizing i with
  | nil => cases hi
  | cons hd _ ih =>
    cases i with
    | zero =>
      cases hi
      exact hd
    | succ i => exact ih hi

/-- a digit between two parts of an assignment -/
theorem Below.around {before behind : List Nat} (hi : sizes[i]? = some n)
    (hbefore : Below before (sizes.take i)) (hv : v < n) (hbehind : Below behind (sizes.drop (i + 1))) :
    Below (before ++ v :: behind) sizes :=
  forall₂_around hi hbefore hv hbehind

/-- a digit put back at the place where its size has been left out -/
theorem Below.insertIdx (hi : sizes[i]? = some n) (hv : v < n)
    (h : Below digits (sizes.eraseIdx i)) : Below (digits.insertIdx i v) sizes :=
  forall₂_insertIdx hi hv h

/-- a digit put in the place of another one, where the size has been changed, too -/
theorem Below.set {m : Nat} (hi : sizes[i]? = some n) (hv : v < n) (h : Below digits (sizes.set i m)) :
    Below (digits.set i v) sizes := forall₂_set hi hv h

theorem exists_volumeFrom?_of_le {acc acc' : Nat} (hle : acc' ≤ acc)
    (h : ∃ m, volumeFrom? sizes acc = .ok m) : ∃ m, volumeFrom? sizes acc' = .ok m := by
  induction sizes generalizing acc acc' with
  | nil => exact ⟨acc', rfl⟩
  | cons s sizes ih =>
    have hmul : acc' * s ≤ acc * s := Nat.mul_le_mul_right s hle
    unfold volumeFrom? at h ⊢
    split at h
    · rename_i hfits
      rw [if_pos (hmul.trans hfits)]
      exact ih hmul h
    · obtain ⟨m, hm⟩ := h
      cases hm

theorem exists_volumeFrom?_eraseIdx {acc : Nat} (hi : sizes[i]? = some n) (hpos : 0 < n)
    (h : ∃ m, volumeFrom? sizes acc = .ok m) :
    ∃ m, volumeFrom? (sizes.eraseIdx i) acc = .ok m := by
  induction sizes generalizing i acc with
  | nil => cases hi
  | cons s sizes ih =>
    unfold volumeFrom? at h
    split at h
    · rename_i hfits
      cases i with
      | zero =>
        cases hi
        exact exists_volumeFrom?_of_le (Nat.le_mul_of_pos_right acc hpos) h
      | succ i =>
        rw [List.eraseIdx_cons_succ, volumeFrom?, if_pos hfits]
        exact ih hi h
    · obtain ⟨m, hm⟩ := h
      cases hm

/-- a table without one of its sizes fits, too, unless that size is zero -/
theorem Fits.eraseIdx (hi : sizes[i]? = some n) (hpos : 0 < n) (h : Fits sizes) :
    Fits (sizes.eraseIdx i) := by
  obtain ⟨hvolume, hle⟩ := fits_iff.mp h
  obtain ⟨hlt, hget⟩ := List.getElem?_eq_some_iff.mp hi
  refine fits_iff.mpr ⟨exists_volumeFrom?_eraseIdx hi hpos hvolume, ?_⟩
  calc (sizes.eraseIdx i).prod ≤ n * (sizes.eraseIdx i).prod := Nat.le_mul_of_pos_left _ hpos
    _ = sizes.prod := by rw [← hget, List.CommMonoid.mul_prod_eraseIdx]
    _ ≤ maxEntries := hle

theorem exists_volumeFrom?_zero (sizes : List Nat) : ∃ m, volumeFrom? sizes 0 = .ok m := by
  induction sizes with
  | nil => exact ⟨0, rfl⟩
  | cons s sizes ih =>
    rw [volumeFrom?, Nat.zero_mul, if_pos (Nat.zero_le _)]
    exact ih

/-- behind a size of zero no product is too large -/
theorem exists_volumeFrom?_behind {acc j : Nat} (hij : i < j) (hi : sizes[i]? = some 0)
    (h : ∃ m, volumeFrom? sizes acc = .ok m) : ∃ m, volumeFrom? (sizes.eraseIdx j) acc = .ok m := by
  induction sizes generalizing i j acc with
  | nil => cases hi
  | cons s sizes ih =>
    obtain ⟨j, rfl⟩ := Nat.exists_eq_add_one_of_ne_zero (Nat.ne_zero_of_lt hij)
    rw [List.eraseIdx_cons_succ]
    unfold volumeFrom? at h ⊢
    split at h
    · rename_i hfits
      rw [if_pos hfits]
      cases i with
      | zero =>
        cases hi
        exact exists_volumeFrom?_zero _
      | succ i => exact ih (Nat.lt_of_succ_lt_succ hij) hi h
    · obtain ⟨m, hm⟩ := h
      cases hm

/-- a table without a size that comes a second time fits, too -/
theorem Fits.eraseIdx_of_repeated {j : Nat} (hij : i < j) (hi : sizes[i]? = some n)
    (hj : sizes[j]? = some n) (h : Fits sizes) : Fits (sizes.eraseIdx j) := by
  rcases Nat.eq_zero_or_pos n with rfl | hpos
  · have hzero : (0 : Nat) ∈ sizes.eraseIdx j :=
      List.mem_of_getElem? (i := i) (by rw [List.getElem?_eraseIdx_of_lt hij, hi])
    refine fits_iff.mpr ⟨exists_volumeFrom?_behind hij hi (fits_iff.mp h).1, ?_⟩
    rw [List.prod_eq_zero hzero]
    exact Nat.zero_le _
  · exact h.eraseIdx hj hpos

/-- within 64 bits the place of an assignment is found -/
theorem indexOf?_eq (h : Below digits sizes) (hle : sizes.prod ≤ maxWord) :
    indexOf? sizes digits = .ok (indexOf sizes digits) := by
  suffices hfrom : ∀ acc, (acc + 1) * sizes.prod ≤ maxWord → indexFrom? (sizes.zip digits) acc
      = .ok ((sizes.zip digits).foldl (fun acc p => acc * p.1 + p.2) acc) by
    exact hfrom 0 (by omega)
  clear hle
  induction h with
  | nil => exact fun acc _ => rfl
  | @cons d s digits sizes hd hds ih =>
    intro acc hacc
    have hprod : 0 < sizes.prod := Below.prod_pos hds
    have hnext : (acc * s + d + 1) * sizes.prod ≤ maxWord := by
      calc (acc * s + d + 1) * sizes.prod ≤ ((acc + 1) * s) * sizes.prod :=
            Nat.mul_le_mul_right _ (by rw [Nat.succ_mul]; omega)
        _ = (acc + 1) * (s * sizes.prod) := Nat.mul_assoc _ _ _
        _ ≤ maxWord := List.prod_cons (a := s) ▸ hacc
    have hpush : push? acc s d = .ok (acc * s + d) :=
      if_pos ((Nat.le_succ _).trans ((Nat.le_mul_of_pos_right _ hprod).trans hnext))
    rw [List.zip_cons_cons, indexFrom?, hpush]
    exact ih _ hnext

end Index

/-- in a table of the right size every assignment has an entry of its own -/
theorem Factor.entry_eq {t : Factor K} {sizes digits : List Nat} (hsize : t.size = sizes.prod)
    (hstored : t.size ≤ Index.maxEntries) (h : Index.Below digits sizes) :
    ∃ x, t.entry sizes digits = .ok x ∧ t.get? (Index.indexOf sizes digits) = some x := by
  have hlt : Index.indexOf sizes digits < t.values.size :=
    (Index.indexOf_lt h).trans_eq hsize.symm
  have hindex := Index.indexOf?_eq h (hsize ▸ hstored.trans (by decide))
  have hget : t.values[Index.indexOf sizes digits]? = some t.values[Index.indexOf sizes digits] :=
    Array.getElem?_eq_getElem hlt
  refine ⟨_, ?_, hget⟩
  rw [entry, hindex]
  dsimp only
  rw [hget]

/-! ## the values of a counting formula -/

namespace CountingFormula

variable {f : CountingFormula}

theorem rangeSize_pos_of_mem {h : Histogram} (hh : h ∈ f.histograms) : 0 < f.rangeSize := by
  refine Nat.pos_of_ne_zero fun hzero => ?_
  have hlen := length_histograms (hzero.trans_lt (by decide))
  rw [hzero] at hlen
  exact List.not_mem_nil (List.length_eq_zero_iff.mp hlen ▸ hh)

/-- nobody is counted in one way -/
theorem rangeSize_pos_of_nobody (h : f.domainSize = 0) : 0 < f.rangeSize := by
  refine rangeSize_pos_of_mem (h := ⟨List.replicate f.inner.range.size 0⟩) ?_
  rw [histograms, h, Histogram.all, Histogram.spreads_nobody]
  exact List.mem_singleton_self _

/-- where the atom has a value, so has the formula -/
theorem rangeSize_pos (h : 0 < f.inner.range.size) : 0 < f.rangeSize := by
  have hlength : 0 < f.histograms.length := by
    obtain ⟨b, hb⟩ := Nat.exists_eq_add_one_of_ne_zero h.ne'
    rw [histograms, Histogram.length_all, hb, Histogram.length_spreads]
    exact Nat.choose_pos (Nat.le_add_left b _)
  exact rangeSize_pos_of_mem (List.getElem_mem hlength)

end CountingFormula

/-! ## parfactors with full tables -/

namespace Parfactor

variable {P : Error → Prop} {p q : Parfactor K} {f : CountingFormula} {v : Prv} {digits : List Nat}
  {i : Nat}

/-- the table has an entry for every assignment of the random variables, and memory holds it -/
structure Tabulated (p : Parfactor K) : Prop where
  size : p.factor.size = p.sizes.prod
  stored : p.factor.size ≤ Index.maxEntries

theorem tabulated_of_rebuild {cs : ConstraintSet} {prvs : List Prv}
    {entry : List Nat → Except Error K} (h : rebuild cs prvs entry = .ok q) : q.Tabulated := by
  obtain ⟨-, hprvs, hfactor⟩ := rebuild_ok h
  obtain ⟨hsize, hle⟩ := Factor.size_ofFn hfactor
  refine ⟨?_, hsize.trans_le hle⟩
  rw [hsize, sizes, hprvs]

theorem Accepted.tabulated [Scalar K] (hp : p.Accepted) : p.Tabulated := ⟨hp.size_eq, hp.stored⟩

theorem Accepted.fits [Scalar K] (hp : p.Accepted) : Index.Fits p.sizes :=
  Index.fits_iff.mpr ⟨⟨_, (make_ok hp.made).1.size⟩, hp.size_eq ▸ hp.stored⟩

theorem getElem?_sizes {i : Nat} (h : p.prvs[i]? = some v) : p.sizes[i]? = some v.rangeSize := by
  rw [sizes, List.getElem?_map, h]
  rfl

theorem tabulated_mergeRound (h : p.mergeRound = .ok (some q)) : q.Tabulated := by
  obtain ⟨i, j, r, -, -, -, hmerge⟩ := mergeRound_ok h
  exact tabulated_of_rebuild hmerge

theorem fits_mergeRound (hfits : Index.Fits p.sizes) (h : p.mergeRound = .ok (some q)) :
    Index.Fits q.sizes := by
  obtain ⟨i, j, r, hij, hi, hj, hmerge⟩ := mergeRound_ok h
  rw [sizes, (rebuild_ok hmerge).2.1, ← List.eraseIdx_map]
  exact hfits.eraseIdx_of_repeated hij (getElem?_sizes hi) (getElem?_sizes hj)

namespace Tabulated

theorem errorsIn_entry (hp : p.Tabulated) (h : Index.Below digits p.sizes) :
    ErrorsIn P (p.factor.entry p.sizes digits) := by
  obtain ⟨x, hx, -⟩ := Factor.entry_eq hp.size hp.stored h
  rw [hx]
  exact .ok x

/-! ### normal forms -/

/-- the entry with one digit put back -/
theorem errorsIn_droppedEntry {n : Nat} (hp : p.Tabulated) (hi : p.prvs[i]? = some v)
    (hn : n < v.rangeSize) (hd : Index.Below digits ((p.prvs.eraseIdx i).map Prv.rangeSize)) :
    ErrorsIn P (p.factor.entry p.sizes (digits.insertIdx i n)) := by
  rw [← List.eraseIdx_map] at hd
  exact hp.errorsIn_entry (hd.insertIdx (getElem?_sizes hi) hn)

/-- the entry with the digit of a repeated random variable put back -/
theorem errorsIn_mergedEntry {j : Nat} (hp : p.Tabulated) (hij : i < j) (hi : p.prvs[i]? = some v)
    (hj : p.prvs[j]? = some v) (hd : Index.Below digits ((p.prvs.eraseIdx j).map Prv.rangeSize)) :
    ErrorsIn P (p.factor.entry p.sizes (digits.insertIdx j (digits.getD i 0))) := by
  refine hp.errorsIn_droppedEntry hj (hd.getD_lt ?_ 0) hd
  rw [← List.eraseIdx_map, List.getElem?_eraseIdx_of_lt hij]
  exact getElem?_sizes hi

/-- repeated random variables are merged without errors where the table fits -/
theorem errorsIn_mergeRound (hp : p.Tabulated) (hfits : Index.Fits p.sizes) :
    ErrorsIn P p.mergeRound := by
  unfold mergeRound
  split
  · exact .ok _
  · rename_i i j hij
    obtain ⟨hlt, -, r, hi, hj⟩ := repeated?_eq_some hij
    rw [List.nil_append] at hi hj
    refine (errorsIn_rebuild_of_fits ?_ fun _ _ hd => hp.errorsIn_mergedEntry hlt hi hj hd).map
    rw [← List.eraseIdx_map]
    exact hfits.eraseIdx_of_repeated hlt (getElem?_sizes hi) (getElem?_sizes hj)

/-! ### expansion -/

/-- where the table has entries, the histograms of its formulas are all there -/
theorem length_histograms (hp : p.Tabulated) (hpos : 0 < p.sizes.prod) (hf : Prv.count f ∈ p.prvs) :
    f.histograms.length = f.rangeSize := by
  have htabular : ∀ q ∈ p.prvs, q.Tabular := tabular_of_le (hp.size ▸ hp.stored) hpos
  exact htabular _ hf

/-- the place of any histogram stands for one among those of the formula -/
theorem below_expanded (hp : p.Tabulated) {before behind : List Nat}
    (hi : p.prvs[i]? = some (.count f)) (hbefore : Index.Below before (p.sizes.take i))
    (hvalue : 0 < f.inner.range.size) (hbehind : Index.Below behind (p.sizes.drop (i + 1)))
    (h : Histogram) :
    Index.Below (before ++ (f.histograms.idxOf? h).getD 0 :: behind) p.sizes := by
  have hpos := CountingFormula.rangeSize_pos hvalue
  refine Index.Below.around (getElem?_sizes hi) hbefore ?_ hbehind
  cases hk : f.histograms.idxOf? h with
  | none => exact hpos
  | some k =>
    obtain ⟨hlt, -⟩ := List.idxOf?_eq_some_iff.mp hk
    have hbelow := Index.Below.around (getElem?_sizes hi) hbefore hpos hbehind
    exact hlt.trans_eq (hp.length_histograms hbelow.prod_pos (List.mem_of_getElem? hi))

/-- what stands around the formula keeps its digits, whatever comes in the place of the formula -/
theorem below_around (middle : List Prv) (hi : p.prvs[i]? = some (.count f))
    (hd : Index.Below digits
      ((p.prvs.take i ++ (middle ++ p.prvs.drop (i + 1))).map Prv.rangeSize)) :
    Index.Below (digits.take i) (p.sizes.take i)
      ∧ Index.Below (digits.drop (i + middle.length)) (p.sizes.drop (i + 1)) := by
  obtain ⟨hlt, -⟩ := List.getElem?_eq_some_iff.mp hi
  have hlength : (p.prvs.take i).length = i := List.length_take_of_le hlt.le
  have htake := List.forall₂_take i hd
  have hdrop := List.forall₂_drop (i + middle.length) hd
  rw [← List.map_take, List.take_left' hlength, List.map_take] at htake
  rw [← List.map_drop, ← List.append_assoc,
    List.drop_left' (by rw [List.length_append, hlength]), List.map_drop] at hdrop
  exact ⟨htake, hdrop⟩

theorem errorsIn_expandEntry {a : Atom} {rest : CountingFormula} (hp : p.Tabulated)
    (hi : p.prvs[i]? = some (.count f)) (ha : a.range = f.inner.range)
    (hrest : rest.inner = f.inner)
    (hle : ((p.prvs.take i ++ .atom a :: .count rest :: p.prvs.drop (i + 1)).map
      Prv.rangeSize).prod ≤ Index.maxEntries)
    (hd : Index.Below digits
      ((p.prvs.take i ++ .atom a :: .count rest :: p.prvs.drop (i + 1)).map Prv.rangeSize)) :
    ErrorsIn P (p.expandEntry f rest i digits) := by
  obtain ⟨hlt, -⟩ := List.getElem?_eq_some_iff.mp hi
  have hlength : (p.prvs.take i).length = i := List.length_take_of_le hlt.le
  obtain ⟨hbefore, hbehind⟩ := below_around [.atom a, .count rest] hi hd
  have hvalue : digits.getD i 0 < f.inner.range.size := by
    rw [← ha]
    refine hd.getD_lt ?_ 0
    rw [List.getElem?_map, List.getElem?_append_right hlength.le, hlength, Nat.sub_self]
    rfl
  have hothers : digits.getD (i + 1) 0 < rest.histograms.length := by
    have htab : rest.histograms.length = rest.rangeSize :=
      tabular_of_le hle (Index.Below.prod_pos hd) (.count rest) (by simp)
    rw [htab]
    refine hd.getD_lt ?_ 0
    rw [List.getElem?_map, List.getElem?_append_right (by omega), hlength, Nat.add_sub_cancel_left]
    rfl
  unfold expandEntry
  split
  · rename_i hnone
    rw [List.getElem?_toArray, List.getElem?_eq_none_iff] at hnone
    exact absurd hothers (Nat.not_lt.mpr hnone)
  · rename_i h hh
    rw [List.getElem?_toArray] at hh
    have hcounts := (Histogram.mem_all.mp (List.mem_of_getElem? hh)).1
    rw [addOne_ok (by rwa [hcounts, hrest])]
    exact hp.errorsIn_entry (hp.below_expanded hi hbefore (Nat.zero_lt_of_lt hvalue) hbehind _)

theorem errorsIn_expandLastEntry {a : Atom} (hp : p.Tabulated) (hi : p.prvs[i]? = some (.count f))
    (ha : a.range = f.inner.range)
    (hd : Index.Below digits
      ((p.prvs.take i ++ .atom a :: p.prvs.drop (i + 1)).map Prv.rangeSize)) :
    ErrorsIn P (p.expandLastEntry f i digits) := by
  obtain ⟨hlt, -⟩ := List.getElem?_eq_some_iff.mp hi
  have hlength : (p.prvs.take i).length = i := List.length_take_of_le hlt.le
  obtain ⟨hbefore, hbehind⟩ := below_around [.atom a] hi hd
  have hvalue : digits.getD i 0 < f.inner.range.size := by
    rw [← ha]
    refine hd.getD_lt ?_ 0
    rw [List.getElem?_map, List.getElem?_append_right hlength.le, hlength, Nat.sub_self]
    rfl
  unfold expandLastEntry
  rw [addOne_ok (by rwa [List.length_replicate])]
  exact hp.errorsIn_entry (hp.below_expanded hi hbefore (Nat.zero_lt_of_lt hvalue) hbehind _)

section
variable [Scalar K]

/-! ### products -/

/-- the entry of a product -/
theorem errorsIn_productEntry (hp : p.Tabulated) (hq : q.Tabulated)
    (hd : Index.Below digits ((unionPrvs p.prvs q.prvs).map Prv.rangeSize)) : ErrorsIn P (do
      let x ← p.factor.entry p.sizes (digits.take p.prvs.length)
      let y ← q.factor.entry q.sizes
        ((q.prvs.map (unionPrvs p.prvs q.prvs).idxOf).map fun k => digits.getD k 0)
      return x * y) := by
  refine (hp.errorsIn_entry ?_).bind fun _ _ => (hq.errorsIn_entry ?_).bind fun _ _ => .ok _
  · obtain ⟨rest, hunion, -⟩ := exists_unionPrvs p.prvs q.prvs
    rw [hunion, List.map_append] at hd
    have htake := List.forall₂_take_append _ _ _ hd
    rwa [List.length_map] at htake
  · rw [List.map_map]
    refine List.forall₂_map_left_iff.mpr (List.forall₂_map_right_iff.mpr ?_)
    refine List.forall₂_same.mpr fun r hr => hd.getD_lt ?_ 0
    rw [List.getElem?_map, List.getElem?_idxOf (mem_unionPrvs.mpr (.inr hr))]
    rfl

/-! ### counting -/

theorem errorsIn_countEntry {a : Atom} {prvs : List Prv} (hp : p.Tabulated)
    (hi : p.prvs[i]? = some (.atom a)) (ha : f.inner = a) (hprvs : prvs = p.prvs.set i (.count f))
    (hle : (prvs.map Prv.rangeSize).prod ≤ Index.maxEntries)
    (hd : Index.Below digits (prvs.map Prv.rangeSize)) : ErrorsIn P (p.countEntry f i digits) := by
  obtain ⟨hlt, -⟩ := List.getElem?_eq_some_iff.mp hi
  have hf : prvs[i]? = some (.count f) := hprvs ▸ List.getElem?_set_self hlt
  have hlength : f.histograms.length = f.rangeSize :=
    tabular_of_le hle (Index.Below.prod_pos hd) _ (List.mem_of_getElem? hf)
  have hlt : digits.getD i 0 < f.histograms.length := by
    rw [hlength]
    refine hd.getD_lt ?_ 0
    rw [List.getElem?_map, hf]
    rfl
  unfold countEntry
  split
  · rename_i hnone
    rw [List.getElem?_toArray, List.getElem?_eq_none_iff] at hnone
    exact absurd hlt (Nat.not_lt.mpr hnone)
  · rename_i h hh
    rw [List.getElem?_toArray] at hh
    have hcounts := (Histogram.mem_all.mp (List.mem_of_getElem? hh)).1
    refine errorsIn_countedEntry fun k hk => hp.errorsIn_entry ?_
    rw [hprvs, List.map_set] at hd
    refine hd.set (getElem?_sizes hi) ?_
    rwa [Nat.zero_add, show (Prv.atom a).rangeSize = a.range.size from rfl, ← ha, ← hcounts]

/-! ### summing out -/

/-- the entries that are added up for one entry without `v` -/
theorem errorsIn_sumFrom {powered : K → K} {acc : K} (hp : p.Tabulated)
    (hi : p.prvs[i]? = some v)
    (hd : Index.Below digits ((p.prvs.eraseIdx i).map Prv.rangeSize)) :
    ErrorsIn P (sumFrom p.factor p.sizes i digits powered (weights v) 0 acc) := by
  have hfrom : ∀ (ws : List K) n acc,
      (∀ k < ws.length, ErrorsIn P (p.factor.entry p.sizes (digits.insertIdx i (n + k)))) →
        ErrorsIn P (sumFrom p.factor p.sizes i digits powered ws n acc) := by
    intro ws
    induction ws with
    | nil => exact fun n acc _ => .ok acc
    | cons w ws ih =>
      intro n acc hentry
      unfold sumFrom
      split
      · rename_i e he
        exact .error (hentry 0 (Nat.succ_pos _) e he)
      · refine ih _ _ fun k hk => ?_
        rw [Nat.add_right_comm, Nat.add_assoc]
        exact hentry (k + 1) (Nat.succ_lt_succ hk)
  refine hfrom _ _ _ fun k hk => hp.errorsIn_entry ?_
  rw [← List.eraseIdx_map] at hd
  rw [Nat.zero_add]
  refine hd.insertIdx (getElem?_sizes hi) ?_
  cases v with
  | atom a => rwa [weights, List.length_replicate] at hk
  | count f =>
    rw [weights, List.length_map] at hk
    have hpos := CountingFormula.rangeSize_pos_of_mem (List.getElem_mem hk)
    have hbelow := hd.insertIdx (getElem?_sizes hi) hpos
    rwa [hp.length_histograms hbelow.prod_pos (List.mem_of_getElem? hi)] at hk

end

end Tabulated

end Parfactor

end LiftedElimination
