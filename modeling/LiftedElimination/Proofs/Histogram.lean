import Mathlib
import LiftedElimination.Histogram

/-!
# Histograms

* `mem_spreads`, `pairwise_spreads`   the listed histograms are those with the right total, in
                         falling lexicographic order, hence each once;
* `length_spreads`       their number as a binomial coefficient;
* `histogramCount_succ`  the cost that counts them: the number, unless the last product on the way to
                         it passes the limit;
* `spreads_one`          the histograms of one individual, in the order of the values.
-/

namespace LiftedElimination

namespace Histogram

theorem spreads_zero (n : Nat) : spreads 0 n = if n = 0 then [[]] else [] := by
  rw [spreads]

theorem spreads_one_bucket (n : Nat) : spreads 1 n = [[n]] := by
  rw [spreads]

theorem spreads_succ_succ (b n : Nat) : spreads (b + 2) n
    = (List.range (n + 1)).reverse.flatMap fun k => (spreads (b + 1) (n - k)).map (k :: ·) := by
  rw [spreads]

theorem mem_spreads_of {b n : Nat} {l : List Nat} (hlen : l.length = b) (hsum : l.sum = n) :
    l ∈ spreads b n := by
  induction b generalizing n l with
  | zero =>
    obtain rfl := List.length_eq_zero_iff.mp hlen
    cases hsum
    rw [spreads_zero, if_pos List.sum_nil]
    exact List.mem_singleton_self _
  | succ b ih =>
    obtain ⟨k, m, rfl⟩ := List.exists_cons_of_length_eq_add_one hlen
    have hm : m.length = b := Nat.succ.inj hlen
    rw [List.sum_cons] at hsum
    cases b with
    | zero =>
      obtain rfl := List.length_eq_zero_iff.mp hm
      rw [spreads_one_bucket]
      exact List.mem_singleton.mpr (congrArg (fun n => [n]) (by simpa using hsum))
    | succ b =>
      rw [spreads_succ_succ, List.mem_flatMap]
      refine ⟨k, List.mem_reverse.mpr (List.mem_range.mpr (by omega)), ?_⟩
      exact List.mem_map.mpr ⟨m, ih hm (by omega), rfl⟩

theorem sum_of_mem_spreads {b n : Nat} {l : List Nat} (h : l ∈ spreads b n) : l.sum = n := by
  fun_induction spreads b n generalizing l with
  | case1 => simp_all
  | case2 => simp_all
  | case3 => simp_all
  | case4 b n ih =>
    obtain ⟨k, hk, hl⟩ := List.mem_flatMap.mp h
    obtain ⟨m, hm, rfl⟩ := List.mem_map.mp hl
    have hkn : k < n + 1 := List.mem_range.mp (List.mem_reverse.mp hk)
    rw [List.sum_cons, ih k hm]
    omega

theorem mem_spreads {b n : Nat} {l : List Nat} :
    l ∈ spreads b n ↔ l.length = b ∧ l.sum = n :=
  ⟨fun h => ⟨length_of_mem_spreads h, sum_of_mem_spreads h⟩, fun h => mem_spreads_of h.1 h.2⟩

/-- the list with the larger count at the first difference comes first -/
theorem pairwise_spreads (b n : Nat) : (spreads b n).Pairwise fun l m => m < l := by
  induction b generalizing n with
  | zero =>
    rw [spreads_zero]
    split <;> simp
  | succ b ih =>
    cases b with
    | zero =>
      rw [spreads_one_bucket]
      exact List.pairwise_singleton _ _
    | succ b =>
      rw [spreads_succ_succ, List.pairwise_flatMap]
      refine ⟨fun k _ => ?_, ?_⟩
      · rw [List.pairwise_map]
        exact (ih (n - k)).imp fun h => List.cons_lt_cons_iff.mpr (.inr ⟨rfl, h⟩)
      · rw [List.pairwise_reverse]
        refine List.pairwise_lt_range.imp fun hlt l hl m hm => ?_
        obtain ⟨l', -, rfl⟩ := List.mem_map.mp hl
        obtain ⟨m', -, rfl⟩ := List.mem_map.mp hm
        exact List.cons_lt_cons_iff.mpr (.inl hlt)

theorem nodup_spreads (b n : Nat) : (spreads b n).Nodup :=
  (pairwise_spreads b n).imp fun hlt => (ne_of_lt hlt).symm

theorem mem_all {b n : Nat} {h : Histogram} :
    h ∈ all b n ↔ h.counts.length = b ∧ h.total = n := by
  rw [all, List.mem_map]
  constructor
  · rintro ⟨l, hl, rfl⟩
    exact mem_spreads.mp hl
  · exact fun hh => ⟨h.counts, mem_spreads.mpr hh, rfl⟩

theorem nodup_all (b n : Nat) : (all b n).Nodup :=
  (nodup_spreads b n).map fun _ _ h => congrArg Histogram.counts h

theorem length_all (b n : Nat) : (all b n).length = (spreads b n).length := List.length_map _

/-! ## their number -/

theorem length_spreads (b n : Nat) : (spreads (b + 1) n).length = (n + b).choose b := by
  induction b generalizing n with
  | zero =>
    rw [spreads_one_bucket, Nat.choose_zero_right]
    rfl
  | succ b ih =>
    have hsum : (spreads (b + 2) n).length
        = ((List.range (n + 1)).map fun k => (n - k + b).choose b).sum := by
      rw [spreads_succ_succ, List.length_flatMap, List.map_reverse, List.sum_reverse]
      refine congrArg List.sum (List.map_congr_left fun k _ => ?_)
      rw [List.length_map, ih]
    rw [hsum]
    -- the hockey stick, by induction on the number of individuals
    clear hsum ih
    induction n with
    | zero => simp
    | succ n ihn =>
      rw [List.range_succ_eq_map, List.map_cons, List.map_map, List.sum_cons]
      have hshift : ((fun k => (n + 1 - k + b).choose b) ∘ Nat.succ)
          = fun k => (n - k + b).choose b := by
        funext k
        rw [Function.comp_apply, Nat.succ_eq_add_one, Nat.add_sub_add_right]
      rw [hshift, ihn, Nat.sub_zero, show n + 1 + (b + 1) = n + 1 + b + 1 by omega,
        Nat.choose_succ_succ, show n + (b + 1) = n + 1 + b by omega]

end Histogram

namespace Cost

/-- up to the half the numbers of choices grow -/
theorem choose_mono {n i j : Nat} (hij : i ≤ j) (hj : 2 * j ≤ n) : n.choose i ≤ n.choose j := by
  induction j, hij using Nat.le_induction with
  | base => exact le_rfl
  | succ j _ ih => exact (ih (by omega)).trans (Nat.choose_le_succ_of_lt_half_left (by omega))

/-- the running product comes to the number of choices, unless the last of its factors lifts it over
the limit -/
theorem chooseFrom_eq {total k i : Nat} (hi : total.choose i * i ≤ limit)
    (hk : 2 * (i + k) ≤ total) : chooseFrom total k i (total.choose i)
      = if total.choose (i + k) * (i + k) ≤ limit then .finite (total.choose (i + k))
        else .infinite := by
  induction k generalizing i with
  | zero => exact (if_pos hi).symm
  | succ k ih =>
    have hnext : total.choose i * (total - i) = total.choose (i + 1) * (i + 1) :=
      (Nat.choose_succ_right_eq total i).symm
    rw [show i + (k + 1) = i + 1 + k by omega] at hk ⊢
    rw [chooseFrom, hnext, Nat.mul_div_cancel _ i.succ_pos]
    by_cases hle : total.choose (i + 1) * (i + 1) ≤ limit
    · rw [if_pos hle, ih hle hk]
    · -- later products are no smaller
      have hmono := Nat.mul_le_mul (choose_mono (Nat.le_add_right (i + 1) k) hk)
        (Nat.le_add_right (i + 1) k)
      rw [if_neg hle, if_neg fun h => hle (hmono.trans h)]

/-- choosing the smaller of two parts is choosing either -/
theorem choose_min (n b : Nat) :
    2 * Nat.min n b ≤ n + b ∧ (n + b).choose (Nat.min n b) = (n + b).choose b := by
  rcases Nat.le_total n b with hnb | hbn
  · rw [show Nat.min n b = n from Nat.min_eq_left hnb, Nat.choose_symm_add]
    exact ⟨by omega, rfl⟩
  · rw [show Nat.min n b = b from Nat.min_eq_right hbn]
    exact ⟨by omega, rfl⟩

/-- **The count of histograms** is their number where the number still fits after it is multiplied by
the smaller of `n` and `b`, and infinite elsewhere. -/
theorem histogramCount_succ (n b : Nat) : histogramCount n (b + 1)
    = if (n + b).choose b * Nat.min n b ≤ limit then .finite ((n + b).choose b) else .infinite := by
  obtain ⟨hhalf, hchoose⟩ := choose_min n b
  have hrun : chooseFrom (n + b) (Nat.min n b) 0 ((n + b).choose 0) = _ :=
    chooseFrom_eq (Nat.zero_le limit) (by rwa [Nat.zero_add])
  rw [Nat.zero_add, hchoose, Nat.choose_zero_right] at hrun
  rw [histogramCount, if_neg b.succ_ne_zero, ← hrun]
  show chooseFrom (n + b) (Nat.min b (n + b - b)) 0 1 = _
  rw [Nat.add_sub_cancel, show Nat.min b n = Nat.min n b from Nat.min_comm b n]

/-- with no value to take, there is a histogram for nobody only -/
theorem histogramCount_zero (n : Nat) : histogramCount n 0 = .finite (if n = 0 then 1 else 0) := by
  rw [histogramCount, if_pos rfl]
  split <;> rfl

/-- **A finite count of histograms is their number.** -/
theorem histogramCount_eq {n b m : Nat} (h : histogramCount n b = .finite m) :
    m = (Histogram.spreads b n).length := by
  cases b with
  | zero =>
    rw [histogramCount_zero] at h
    cases h
    rw [Histogram.spreads_zero]
    split <;> rfl
  | succ b =>
    rw [histogramCount_succ] at h
    split at h <;> cases h
    exact (Histogram.length_spreads b n).symm

/-- **Where the count is infinite**, there are more histograms than 64 bits can count. -/
theorem le_of_histogramCount {n b : Nat} (h : histogramCount n b = .infinite) :
    maxWord ≤ (Histogram.spreads b n).length := by
  cases b with
  | zero =>
    rw [histogramCount_zero] at h
    cases h
  | succ b =>
    rw [histogramCount_succ] at h
    split at h
    · cases h
    rename_i hlimit
    rw [Histogram.length_spreads]
    -- both factors are at most the number of histograms
    have hplace : Nat.min n b ≤ (n + b).choose b := by
      obtain ⟨hhalf, hchoose⟩ := choose_min n b
      rcases Nat.eq_zero_or_pos (Nat.min n b) with hzero | hpos
      · exact hzero ▸ Nat.zero_le _
      · calc Nat.min n b ≤ (n + b).choose 1 := by rw [Nat.choose_one_right]; omega
          _ ≤ (n + b).choose b := hchoose ▸ choose_mono hpos hhalf
    by_contra hlt
    have hword : (n + b).choose b ≤ maxWord := by omega
    have hsquare := Nat.mul_le_mul hword (hplace.trans hword)
    have hwords : maxWord * maxWord ≤ limit := by decide
    omega

end Cost

namespace Histogram

/-! ## one individual -/

theorem spreads_nobody (b : Nat) : spreads b 0 = [List.replicate b 0] := by
  have hmem : ∀ l, l ∈ spreads b 0 ↔ l = List.replicate b 0 := by
    intro l
    rw [mem_spreads, List.sum_eq_zero_iff_forall_eq_nat, List.eq_replicate_iff]
  refine List.perm_singleton.mp ((List.perm_ext_iff_of_nodup (nodup_spreads b 0)
    (List.nodup_singleton _)).mpr fun l => ?_)
  rw [hmem, List.mem_singleton]

/-- the histogram of one individual with the value `v` -/
def sole (b v : Nat) : Histogram := ⟨(List.replicate b 0).modify v (· + 1)⟩

theorem spreads_one (b : Nat) : spreads b 1
    = (List.range b).map fun v => (List.replicate b 0).modify v (· + 1) := by
  induction b with
  | zero => rfl
  | succ b ih =>
    cases b with
    | zero => rfl
    | succ b =>
      rw [spreads_succ_succ, show (List.range (1 + 1)).reverse = [1, 0] from rfl,
        List.flatMap_cons, List.flatMap_cons, List.flatMap_nil, List.append_nil, Nat.sub_self,
        Nat.sub_zero, spreads_nobody, ih, List.map_map, List.range_succ_eq_map (n := b + 1),
        List.map_cons, List.map_cons, List.map_map]
      rfl

theorem all_one (b : Nat) : all b 1 = (List.range b).map (sole b) := by
  rw [all, spreads_one, List.map_map]
  rfl

/-! ## how often each value is taken -/

section
variable {α : Type} {n : Nat} {s : Finset α} {value : α → Nat}

/-- how many elements of `s` have each value below `n` -/
def tally (n : Nat) (s : Finset α) (value : α → Nat) : List Nat :=
  (List.range n).map fun v => (s.filter fun c => value c = v).card

@[simp] theorem length_tally : (tally n s value).length = n := by
  rw [tally, List.length_map, List.length_range]

theorem getElem_tally {v : Nat} (hv : v < (tally n s value).length) :
    (tally n s value)[v] = (s.filter fun c => value c = v).card := by
  simp [tally]

theorem tally_pos {v : Nat} (hv : v < (tally n s value).length) :
    0 < (tally n s value)[v] ↔ ∃ c ∈ s, value c = v := by
  rw [getElem_tally, Finset.card_pos]
  simp only [Finset.Nonempty, Finset.mem_filter]

end

end Histogram

end LiftedElimination
