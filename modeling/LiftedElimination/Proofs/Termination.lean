import LiftedElimination.Proofs.Bulk
import LiftedElimination.Proofs.Settling
import LiftedElimination.Proofs.Refinement

/-!
# Shattering terminates

The bound on the number of refinements is the bulk of all components.  Every refinement with the
normal forms of its pieces, folded into the list, lowers it, so that the loop comes to rest within
the bound, as it would without one.

* `Component.Proper`         what the builders guarantee and every refinement keeps;
* `refinementBound_eq`       the bound is the sum of the bulks;
* `refinementBound_pieces`, `bulk_normalize`, `refinementBound_pushFolded`   what a piece, its normal form
                             and folding contribute;
* `Marginal.shatter_terminates`.
-/

namespace LiftedElimination

open Finset

variable {K : Type}

/-! ## the bound is the bulk -/

theorem foldl_add_eq {α : Type} (f : α → Nat) (l : List α) (k : Nat) :
    l.foldl (fun n a => n + f a) k = k + (l.map f).sum := by
  induction l generalizing k with
  | nil => rfl
  | cons a l ih => rw [List.foldl_cons, ih, List.map_cons, List.sum_cons, Nat.add_assoc]

theorem foldl_mul_eq {α : Type} (f : α → Nat) (l : List α) (k : Nat) :
    l.foldl (fun n a => n * f a) k = k * (l.map f).prod := by
  induction l generalizing k with
  | nil => exact (Nat.mul_one k).symm
  | cons a l ih => rw [List.foldl_cons, ih, List.map_cons, List.prod_cons, Nat.mul_assoc]

theorem length_unseparated {vars : List LogVar} (hvars : vars.Nodup) (cs : ConstraintSet)
    (x : LogVar) : (vars.filter fun y => !cs.separates x (.var y)).length
      = (vars.toFinset.filter fun y => cs.separates x (.var y) = false).card := by
  rw [← List.toFinset_card_of_nodup (hvars.filter _)]
  congr 1
  ext y
  simp

theorem ConstraintSet.divisions_eq {vars : List LogVar} (hvars : vars.Nodup)
    (cs : ConstraintSet) : cs.divisions vars = cs.freedom vars.toFinset := by
  have hpairs : cs.loosePairs vars.toFinset = ((vars.product vars).filter fun p =>
      p.1 != p.2 && !cs.separates p.1 (.var p.2)).toFinset := by
    ext p
    have hmem : p ∈ vars.product vars ↔ p.1 ∈ vars ∧ p.2 ∈ vars := List.mem_product
    rw [mem_loosePairs, List.mem_toFinset, List.mem_toFinset, List.mem_toFinset, List.mem_filter,
      hmem]
    simp [and_assoc]
  have hnodup : (vars.product vars).Nodup := hvars.product hvars
  rw [freedom, hpairs, List.toFinset_card_of_nodup (hnodup.filter _), List.prod_toFinset _ hvars,
    divisions, foldl_mul_eq, Nat.one_mul]
  rfl

theorem Prv.removals_eq {vars : List LogVar} (hvars : vars.Nodup) (q : Prv) :
    q.removals vars = q.load vars.toFinset := by
  cases q with
  | atom a => rfl
  | count f =>
    show 2 * (_ + (vars.filter fun x => !f.constraints.separates f.bound (.var x)).length) + 1 = _
    rw [length_unseparated hvars]
    rfl

namespace Component

def bulk : Component K → Nat
  | standard p => p.bulk
  | aggregation a => a.bulk

/-- no formula binds a logical variable of its parfactor; an aggregation parfactor never touches its
extra variable anyway -/
def Proper : Component K → Prop
  | standard p => p.Proper
  | aggregation _ => True

theorem Sound.proper {c : Component K} (hc : c.Sound) : c.Proper := by
  cases c with
  | standard p => exact Parfactor.Sound.proper hc
  | aggregation a => trivial

variable {c d : Component K}

theorem Accepted.proper [Scalar K] (hc : c.Accepted) : c.Proper := by
  cases c with
  | standard p => exact Parfactor.Accepted.proper hc
  | aggregation a => trivial

theorem Proper.squared [Scalar K] (hc : c.Proper) : c.squared.Proper := by
  cases c with
  | standard p =>
    have hp : p.Proper := hc
    exact ⟨hp.valid, hp.bound⟩
  | aggregation a => trivial

theorem bulk_pos (c : Component K) : 0 < c.bulk := by
  cases c with
  | standard p => exact p.bulk_pos
  | aggregation a => exact a.bulk_pos

theorem bulk_squared [Scalar K] (c : Component K) : c.squared.bulk = c.bulk := by
  cases c with
  | standard p => rfl
  | aggregation a => rfl

theorem refinementBound_eq (c : Component K) : c.refinementBound = c.bulk := by
  cases c with
  | standard p =>
    have hremovals : p.prvs.map (·.removals p.logVars) = p.prvs.map (·.load p.logVars.toFinset) :=
      List.map_congr_left fun q _ => q.removals_eq p.nodup_logVars
    show _ * p.prvs.foldl _ 1 = _
    rw [ConstraintSet.divisions_eq p.nodup_logVars, foldl_add_eq, hremovals]
    rfl
  | aggregation a =>
    show a.constraints.divisions a.logVars * _ = a.bulk
    rw [ConstraintSet.divisions_eq a.nodup_logVars, length_unseparated a.nodup_logVars]
    rfl

end Component

theorem refinementBound_eq (cs : List (Component K)) :
    refinementBound cs = (cs.map Component.bulk).sum := by
  rw [refinementBound, foldl_add_eq, Nat.zero_add]
  exact congrArg List.sum (List.map_congr_left fun c _ => c.refinementBound_eq)

theorem refinementBound_cons (c : Component K) (l : List (Component K)) :
    refinementBound (c :: l) = c.bulk + refinementBound l := by
  rw [refinementBound_eq, refinementBound_eq, List.map_cons, List.sum_cons]

theorem refinementBound_append (l m : List (Component K)) :
    refinementBound (l ++ m) = refinementBound l + refinementBound m := by
  rw [refinementBound_eq, refinementBound_eq, refinementBound_eq, List.map_append, List.sum_append]

theorem refinementBound_perm {l m : List (Component K)} (h : l.Perm m) :
    refinementBound l = refinementBound m := by
  rw [refinementBound_eq, refinementBound_eq]
  exact (h.map _).sum_eq

theorem refinementBound_sublist {l m : List (Component K)} (h : l.Sublist m) :
    refinementBound l ≤ refinementBound m := by
  rw [refinementBound_eq, refinementBound_eq]
  exact (h.map _).sum_le_sum fun _ _ => Nat.zero_le _

theorem refinementBound_eraseIdx {cs : List (Component K)} {i : Nat} {c : Component K}
    (h : cs[i]? = some c) : c.bulk + refinementBound (cs.eraseIdx i) = refinementBound cs := by
  obtain ⟨hlt, rfl⟩ := List.getElem?_eq_some_iff.mp h
  rw [← refinementBound_cons]
  exact refinementBound_perm (List.getElem_cons_eraseIdx_perm hlt)

/-! ## normal forms -/

/-- a normal form has no more bulk, and less unless it is the component itself -/
theorem Component.bulk_normalize {c d : Component K} (hc : c.Proper)
    (h : c.normalize = .ok (some d)) : d.Proper ∧ (d = c ∨ d.bulk < c.bulk) := by
  cases c with
  | standard p =>
    obtain ⟨r, hr, hrd⟩ := map_ok h
    obtain ⟨q, rfl, rfl⟩ := Option.map_eq_some_iff.mp hrd
    obtain ⟨hq, hcase⟩ := Parfactor.normalize_eq_or_lt hc hr
    exact ⟨hq, hcase.imp (congrArg _) id⟩
  | aggregation a =>
    obtain ⟨r, hr, hrd⟩ := map_ok h
    obtain ⟨b, rfl, rfl⟩ := Option.map_eq_some_iff.mp hrd
    exact ⟨trivial, (Aggregation.normalize_eq_or_lt hr).imp (congrArg _) id⟩

/-- normal forms are the components themselves, or together have less bulk -/
theorem normalForms_eq_or_lt {l : List (Component K)} {normal : List (Option (Component K))}
    (h : List.Forall₂ (fun (p : Component K) r => p.normalize = .ok r) l normal)
    (hl : ∀ c ∈ l, c.Proper) : (∀ d ∈ normal.filterMap id, d.Proper)
      ∧ ((normal.filterMap id = l ∧ ∀ c ∈ l, c.normalize = .ok (some c))
        ∨ refinementBound (normal.filterMap id) < refinementBound l) := by
  induction h with
  | nil =>
    exact ⟨fun d hd => absurd hd List.not_mem_nil,
      .inl ⟨rfl, fun d hd => absurd hd List.not_mem_nil⟩⟩
  | @cons p r l normal hpr _ ih =>
    obtain ⟨hproper, hcase⟩ := ih fun c hc => hl c (List.mem_cons_of_mem _ hc)
    have hle : refinementBound (normal.filterMap id) ≤ refinementBound l :=
      hcase.elim (fun h => h.1 ▸ le_rfl) Nat.le_of_lt
    cases r with
    | none =>
      refine ⟨hproper, .inr ?_⟩
      rw [refinementBound_cons]
      exact hle.trans_lt (Nat.lt_add_of_pos_left p.bulk_pos)
    | some d =>
      obtain ⟨hd, hdp⟩ := Component.bulk_normalize (hl p List.mem_cons_self) hpr
      refine ⟨fun e he => ?_, ?_⟩
      · rcases List.mem_cons.mp he with rfl | he
        · exact hd
        · exact hproper e he
      · show ((d :: normal.filterMap id) = p :: l ∧ _)
          ∨ refinementBound (d :: normal.filterMap id) < _
        rw [refinementBound_cons, refinementBound_cons]
        rcases hdp with rfl | hlt
        · refine hcase.imp (fun h => ⟨congrArg _ h.1, fun c hc => ?_⟩) (Nat.add_lt_add_left · _)
          rcases List.mem_cons.mp hc with rfl | hc
          · exact hpr
          · exact h.2 c hc
        · exact .inr (Nat.add_lt_add_of_lt_of_le hlt hle)

theorem refinementBound_normalForms {l : List (Component K)} {normal : List (Option (Component K))}
    (h : List.Forall₂ (fun (p : Component K) r => p.normalize = .ok r) l normal)
    (hl : ∀ c ∈ l, c.Proper) : refinementBound (normal.filterMap id) ≤ refinementBound l :=
  (normalForms_eq_or_lt h hl).2.elim (fun h => h.1 ▸ le_rfl) Nat.le_of_lt

theorem Component.errorsIn_normalize {P : Error → Prop} (hoverflow : P .overflow)
    (hbounds : P .tableBounds) {c : Component K} (hc : c.Proper) : ErrorsIn P c.normalize := by
  cases c with
  | standard p => exact (Parfactor.errorsIn_normalize hoverflow hbounds hc).map
  | aggregation a => exact a.errorsIn_normalize.map

theorem Component.rests_normalize {c : Component K} (hc : c.Proper) : Rests c.normalize :=
  errorsIn_normalize nofun nofun hc

/-! ## pieces -/

section
variable [Scalar K]

/-- **The pieces of a refinement** together have less bulk. -/
theorem refinementBound_pieces {c : Component K} {l : List (Component K)} (h : c.Pieces l)
    (hc : c.Proper) : (∀ d ∈ l, d.Proper) ∧ refinementBound l < c.bulk := by
  rw [refinementBound_eq]
  cases h with
  | split h =>
    obtain ⟨⟨hfragment, hresidual⟩, hlt⟩ := Parfactor.bulk_split hc h
    refine ⟨fun d hd => ?_, hlt⟩
    simp only [List.mem_cons, List.not_mem_nil, or_false] at hd
    rcases hd with rfl | rfl
    · exact hfragment
    · exact hresidual
  | aggregationSplit h =>
    refine ⟨fun d hd => ?_, Aggregation.bulk_split h⟩
    simp only [List.mem_cons, List.not_mem_nil, or_false] at hd
    rcases hd with rfl | rfl <;> trivial
  | expand h =>
    obtain ⟨hq, hlt⟩ := Parfactor.bulk_expand hc h
    exact ⟨fun d hd => List.mem_singleton.mp hd ▸ hq, hlt⟩
  | convert h =>
    obtain ⟨hproper, hlt⟩ := Aggregation.bulk_toParfactors h
    refine ⟨fun d hd => ?_, ?_⟩
    · obtain ⟨p, hp, rfl⟩ := List.mem_map.mp hd
      exact hproper p hp
    · rw [List.map_map]
      exact hlt

/-- **An action** and the normal forms of its pieces have less bulk than the component. -/
theorem refinementBound_perform {c : Component K} {a : Action} {pieces : List (Component K)}
    (h : c.perform a = .ok pieces) (hc : c.Proper) :
    (∀ d ∈ pieces, d.Proper) ∧ refinementBound pieces < c.bulk := by
  obtain ⟨l, normal, hl, hnormal, rfl⟩ := Component.perform_ok h
  obtain ⟨hproper, hlt⟩ := refinementBound_pieces (Component.pieces_ok hl) hc
  exact ⟨(normalForms_eq_or_lt hnormal hproper).1,
    (refinementBound_normalForms hnormal hproper).trans_lt hlt⟩

theorem Component.rests_perform {c : Component K} (hc : c.Proper) (a : Action) :
    Rests (c.perform a) := by
  refine (c.rests_pieces a).bind fun l hl => ?_
  have hproper := (refinementBound_pieces (pieces_ok hl) hc).1
  exact (ErrorsIn.collect fun d hd => rests_normalize (hproper d hd)).bind fun _ _ => .ok _

/-! ## folding -/

theorem refinementBound_pushFolded (l : List (Component K)) (c : Component K) :
    ((∀ d ∈ l, d.Proper) → c.Proper → ∀ d ∈ Distribution.pushFolded l c, d.Proper)
      ∧ refinementBound (Distribution.pushFolded l c) ≤ refinementBound l + c.bulk := by
  refine pushFolded_induct (P := fun l c m => ((∀ d ∈ l, d.Proper) → c.Proper → ∀ d ∈ m, d.Proper)
    ∧ refinementBound m ≤ refinementBound l + c.bulk) (fun l c _ => ?_)
    (fun l c i d hd _ ih => ?_) l c
  · refine ⟨fun hl hc d hd => ?_, ?_⟩
    · rcases List.mem_append.mp hd with hd | hd
      · exact hl d hd
      · exact List.mem_singleton.mp hd ▸ hc
    · have hsingle : refinementBound [c] = c.bulk := refinementBound_cons c []
      rw [refinementBound_append, hsingle]
  · obtain ⟨hproper, hle⟩ := ih
    have herase := refinementBound_eraseIdx hd
    rw [c.bulk_squared] at hle
    exact ⟨fun hl hc => hproper (fun e he => hl e (List.mem_of_mem_eraseIdx he)) hc.squared,
      by omega⟩

theorem refinementBound_foldl_pushFolded (pieces l : List (Component K)) :
    ((∀ d ∈ l, d.Proper) → (∀ d ∈ pieces, d.Proper) →
        ∀ d ∈ pieces.foldl Distribution.pushFolded l, d.Proper)
      ∧ refinementBound (pieces.foldl Distribution.pushFolded l)
        ≤ refinementBound l + refinementBound pieces := by
  induction pieces generalizing l with
  | nil => exact ⟨fun hl _ => hl, le_rfl⟩
  | cons c pieces ih =>
    obtain ⟨hpush, hle⟩ := refinementBound_pushFolded l c
    obtain ⟨hproper, hrest⟩ := ih (Distribution.pushFolded l c)
    refine ⟨fun hl hpieces => ?_, ?_⟩
    · exact hproper (hpush hl (hpieces c List.mem_cons_self))
        fun d hd => hpieces d (List.mem_cons_of_mem _ hd)
    · rw [List.foldl_cons, refinementBound_cons]
      omega

/-! ## rounds -/

/-- **One refinement** of the list lowers the bound: the action, the normal forms of its pieces,
and the folding of copies. -/
theorem refinementBound_round {cs pieces : List (Component K)} {i : Nat} {c : Component K}
    {a : Action} (hcs : ∀ c ∈ cs, c.Proper) (hi : cs[i]? = some c)
    (h : c.perform a = .ok pieces) :
    (∀ d ∈ pieces.foldl Distribution.pushFolded (cs.eraseIdx i), d.Proper)
      ∧ refinementBound (pieces.foldl Distribution.pushFolded (cs.eraseIdx i))
        < refinementBound cs := by
  obtain ⟨hpieces, hlt⟩ := refinementBound_perform h (hcs c (List.mem_of_getElem? hi))
  obtain ⟨hproper, hle⟩ := refinementBound_foldl_pushFolded pieces (cs.eraseIdx i)
  have herase := refinementBound_eraseIdx hi
  exact ⟨hproper (fun d hd => hcs d (List.mem_of_mem_eraseIdx hd)) hpieces, by omega⟩

theorem refinementBound_refineRound {kept : List PrvSet} {cs ds : List (Component K)}
    (hcs : ∀ c ∈ cs, c.Proper) (h : refineRound kept cs = .ok (some ds)) :
    (∀ d ∈ ds, d.Proper) ∧ refinementBound ds < refinementBound cs := by
  obtain ⟨i, c, a, pieces, -, hi, hp, rfl⟩ := refineRound_ok h
  exact refinementBound_round hcs hi hp

theorem rests_refineRound (kept : List PrvSet) {cs : List (Component K)}
    (hcs : ∀ c ∈ cs, c.Proper) : Rests (refineRound kept cs) := by
  refine (rests_nextAction cs kept).bind fun next _ => ?_
  rcases next with _ | ⟨i, a⟩
  · exact .ok _
  · dsimp only
    cases hi : cs[i]? with
    | none => exact .ok _
    | some c =>
      exact (Component.rests_perform (hcs c (List.mem_of_getElem? hi)) a).bind fun _ _ => .ok _

namespace Marginal

/-- what the builders guarantee of all components, and what refinements keep -/
def Proper (m : Marginal K) : Prop := ∀ c ∈ m.distribution.toList, c.Proper

theorem Accepted.proper {m : Marginal K} (hm : m.Accepted) : m.Proper := fun c hc => (hm c hc).proper

theorem rests_normalized {m : Marginal K} (hm : m.Proper) : Rests m.normalized :=
  (ErrorsIn.collect fun c hc => Component.rests_normalize (hm c hc)).bind fun _ _ => .ok _

theorem Proper.normalized {m : Marginal K} (hm : m.Proper) {cs : List (Component K)}
    (h : m.normalized = .ok cs) : (∀ c ∈ cs, c.Proper)
      ∧ refinementBound cs ≤ refinementBound m.distribution.toList := by
  obtain ⟨normal, hn, h⟩ := bind_ok h
  cases h
  have hnormal := collect_ok hn
  obtain ⟨hfold, hle⟩ := refinementBound_foldl_pushFolded (normal.filterMap id) []
  have hnil : refinementBound ([] : List (Component K)) = 0 := rfl
  have hnormal' := refinementBound_normalForms hnormal hm
  exact ⟨hfold (fun d hd => absurd hd List.not_mem_nil) (normalForms_eq_or_lt hnormal hm).1,
    by omega⟩

/-- **Shattering terminates.**  Whatever action is taken on whatever component, together with the
normal forms of the pieces and the folding of copies it lowers the bound of the list.  So after at
most as many refinements as the bound says no action is left or an error has occurred, and the
marginal that shattering returns is that of the loop without any bound.

The builder refuses a formula that binds a logical variable of its parfactor, but a substitution can
bring one about.  Such a variable stays when it is bound to its only individual, and no normal form is
ever reached. -/
theorem shatter_terminates {m : Marginal K} (hm : m.Proper) :
    (∀ (cs pieces : List (Component K)) (i : Nat) (c : Component K) (a : Action),
        (∀ d ∈ cs, d.Proper) → cs[i]? = some c → c.perform a = .ok pieces →
        (∀ d ∈ pieces.foldl Distribution.pushFolded (cs.eraseIdx i), d.Proper)
          ∧ refinementBound (pieces.foldl Distribution.pushFolded (cs.eraseIdx i))
            < refinementBound cs)
      ∧ m.shatter ≠ .error .unsettled
      ∧ ((∃ e, m.normalized = .error e ∧ m.shatter = .error e)
        ∨ ∃ cs n r, m.normalized = .ok cs ∧ (∀ c ∈ cs, c.Proper) ∧ n ≤ refinementBound cs
          ∧ Settles (refineRound m.kept) cs n r
          ∧ m.shatter = r.map fun ds => m.withDistribution (.ofList ds)) := by
  refine ⟨fun cs pieces i c a hcs hi hp => refinementBound_round hcs hi hp, ?_⟩
  cases hnormal : m.normalized with
  | error e =>
    have hshatter : m.shatter = .error e := by rw [shatter, hnormal]; rfl
    refine ⟨fun h => ?_, .inl ⟨e, rfl, hshatter⟩⟩
    rw [hshatter] at h
    exact rests_normalized hm e hnormal (Except.error.inj h)
  | ok cs =>
    have hcs := (hm.normalized hnormal).1
    obtain ⟨n, hn, hsettles⟩ := settles_settle (I := fun cs => ∀ c ∈ cs, c.Proper)
      (m := refinementBound) (fun _ _ ha h => refinementBound_refineRound ha h)
      hcs le_rfl
    have hrests := hsettles.rests (fun _ _ ha h => (refinementBound_refineRound ha h).1)
      (fun _ ha => rests_refineRound m.kept ha) hcs
    have hshatter : m.shatter = (settle (refineRound m.kept) (refinementBound cs) cs).map
        fun ds => m.withDistribution (.ofList ds) := by
      rw [shatter, hnormal]
      cases h : settle (refineRound m.kept) (refinementBound cs) cs with
      | error e =>
        show (settle (refineRound m.kept) (refinementBound cs) cs >>= _) = _
        rw [h]
        rfl
      | ok ds =>
        show (settle (refineRound m.kept) (refinementBound cs) cs >>= _) = _
        rw [h]
        rfl
    refine ⟨fun h => ?_, .inr ⟨cs, n, _, rfl, hcs, hn, hsettles, hshatter⟩⟩
    rw [hshatter] at h
    exact hrests.map _ h rfl

end Marginal

end

open scoped ExactScalar in
/-- a variable that a formula binds and excludes stays, whatever it is bound to -/
example : let x : LogVar := ⟨"X", .numbered "x" 1⟩
    let p : Parfactor Nat :=
      ⟨∅, [.count ⟨x, Epidemic.sick (.var x), .ofList [⟨x, .var x⟩]⟩], ⟨#[1]⟩⟩
    p.apply (.single ⟨x, .const ⟨"x1"⟩⟩) = some p ∧ p.normalize = .error .unsettled :=
  ⟨rfl, rfl⟩

open scoped ExactScalar in
/-- the epidemic with a counting formula and an alarm -/
theorem Epidemic.shatter_terminates_counted : counted.Proper ∧ counted.shatter ≠ .error .unsettled
    ∧ ∃ cs n r, counted.normalized = .ok cs ∧ n ≤ refinementBound cs
      ∧ Settles (refineRound counted.kept) cs n r := by
  have hproper := accepted_counted.proper
  obtain ⟨-, hrests, ⟨e, he, -⟩ | ⟨cs, n, r, hcs, -, hn, hsettles, -⟩⟩ :=
    Marginal.shatter_terminates hproper
  · have hok : counted.normalized.isOk = true := by decide +kernel
    rw [he] at hok
    cases hok
  · exact ⟨hproper, hrests, cs, n, r, hcs, hn, hsettles⟩

end LiftedElimination
