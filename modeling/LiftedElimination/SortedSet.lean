import LiftedElimination.Increasing

/-!
# Finite sets as strictly increasing lists

* `SortedSet α`      a strictly increasing list, so that equal sets are equal lists;
* `insert`, `erase`, `union`, `filter`, `filterMap`, `ofList`   the operations, all by insertion.

Main statements: `mem_insert`, `mem_ofList`, `mem_filter` say what an operation does to the
members, and `ext_mem` says that the members determine the set.
-/

namespace LiftedElimination

universe u v

/-- a finite set kept as a strictly increasing list -/
structure SortedSet (α : Type u) [Ord α] where
  toList : List α
  increasing : toList.Pairwise (fun a b => compare a b = .lt)

namespace SortedSet

variable {α : Type u} [Ord α]

instance [DecidableEq α] : DecidableEq (SortedSet α) := fun s t =>
  decidable_of_iff (s.toList = t.toList)
    ⟨fun h => by cases s; cases t; simp_all, fun h => by rw [h]⟩

instance : Ord (SortedSet α) := ⟨compareOn SortedSet.toList⟩

instance : Membership α (SortedSet α) := ⟨fun s a => a ∈ s.toList⟩

instance [DecidableEq α] (a : α) (s : SortedSet α) : Decidable (a ∈ s) :=
  inferInstanceAs (Decidable (a ∈ s.toList))

theorem mem_toList {a : α} {s : SortedSet α} : a ∈ s.toList ↔ a ∈ s := Iff.rfl

theorem toList_inj {s t : SortedSet α} : s.toList = t.toList ↔ s = t :=
  ⟨fun h => by cases s; cases t; simp_all, fun h => by rw [h]⟩

instance [Std.TransOrd α] : Std.TransOrd (SortedSet α) :=
  inferInstanceAs (Std.TransCmp (compareOn SortedSet.toList))

instance [Std.LawfulEqOrd α] : Std.LawfulEqOrd (SortedSet α) where
  compare_self {s} := (Std.ReflCmp.compare_self : compare s.toList s.toList = .eq)
  eq_of_compare {_ _} h := toList_inj.mp (Std.LawfulEqOrd.eq_of_compare (α := List α) h)

/-! ## the empty set -/

def empty : SortedSet α := ⟨[], .nil⟩

instance : EmptyCollection (SortedSet α) := ⟨empty⟩
instance : Inhabited (SortedSet α) := ⟨empty⟩

@[simp] theorem toList_empty : (∅ : SortedSet α).toList = [] := rfl

def isEmpty (s : SortedSet α) : Bool := s.toList.isEmpty

def size (s : SortedSet α) : Nat := s.toList.length

/-- membership by the order: some member compares equal to `a` -/
def contains (s : SortedSet α) (a : α) : Bool := s.toList.any (fun b => compare a b == .eq)

theorem contains_iff_mem [Std.LawfulEqOrd α] {s : SortedSet α} {a : α} :
    s.contains a = true ↔ a ∈ s := by
  simp only [contains, List.any_eq_true, beq_iff_eq]
  constructor
  · rintro ⟨b, hb, h⟩
    exact Std.LawfulEqOrd.eq_of_compare h ▸ hb
  · intro h
    exact ⟨a, h, Std.ReflCmp.compare_self⟩

/-! ## insertion -/

/-- `a` put before the first larger element; a list that already has it is left alone -/
def insertList (a : α) : List α → List α
  | [] => [a]
  | b :: bs =>
    match compare a b with
    | .lt => a :: b :: bs
    | .eq => b :: bs
    | .gt => b :: insertList a bs

theorem forall_insertList {p : α → Prop} {a : α} {l : List α} (ha : p a) (hl : ∀ b ∈ l, p b) :
    ∀ b ∈ insertList a l, p b := by
  induction l with
  | nil => simpa [insertList] using ha
  | cons c l ih =>
    unfold insertList
    split
    · simpa [ha] using hl
    · exact hl
    · intro b hb
      rcases List.mem_cons.mp hb with rfl | hb
      · exact hl _ List.mem_cons_self
      · exact ih (fun b hb => hl b (List.mem_cons_of_mem _ hb)) b hb

theorem increasing_insertList [Std.TransOrd α] {a : α} {l : List α}
    (h : l.Pairwise (fun a b => compare a b = .lt)) :
    (insertList a l).Pairwise (fun a b => compare a b = .lt) := by
  induction l with
  | nil => simp [insertList]
  | cons b l ih =>
    have hb := List.pairwise_cons.mp h
    unfold insertList
    split
    · rename_i hab
      refine List.pairwise_cons.mpr ⟨fun c hc => ?_, h⟩
      rcases List.mem_cons.mp hc with rfl | hc
      · exact hab
      · exact Std.TransCmp.lt_trans hab (hb.1 c hc)
    · exact h
    · rename_i hab
      exact List.pairwise_cons.mpr
        ⟨forall_insertList (Std.OrientedCmp.lt_of_gt hab) hb.1, ih hb.2⟩

theorem mem_insertList [Std.LawfulEqOrd α] {a b : α} {l : List α} :
    b ∈ insertList a l ↔ b = a ∨ b ∈ l := by
  induction l with
  | nil => simp [insertList]
  | cons c l ih =>
    unfold insertList
    split
    · simp
    · rename_i h
      obtain rfl := Std.LawfulEqOrd.eq_of_compare h
      simp
    · rw [List.mem_cons, ih, List.mem_cons]
      exact ⟨fun h => h.elim (fun h => .inr (.inl h)) (·.imp_right .inr),
        fun h => h.elim (fun h => .inr (.inl h)) (·.imp_right .inr)⟩

variable [Std.TransOrd α]

def insert (a : α) (s : SortedSet α) : SortedSet α :=
  ⟨insertList a s.toList, increasing_insertList s.increasing⟩

@[simp] theorem mem_insert [Std.LawfulEqOrd α] {a b : α} {s : SortedSet α} :
    b ∈ s.insert a ↔ b = a ∨ b ∈ s := mem_insertList

/-- everything of `l` put into `s`, one after the other -/
def insertMany (s : SortedSet α) (l : List α) : SortedSet α :=
  l.foldl (fun s a => s.insert a) s

@[simp] theorem insertMany_nil (s : SortedSet α) : s.insertMany [] = s := rfl

@[simp] theorem insertMany_cons (s : SortedSet α) (a : α) (l : List α) :
    s.insertMany (a :: l) = (s.insert a).insertMany l := rfl

theorem mem_insertMany [Std.LawfulEqOrd α] {s : SortedSet α} {l : List α} {b : α} :
    b ∈ s.insertMany l ↔ b ∈ l ∨ b ∈ s := by
  induction l generalizing s with
  | nil => simp
  | cons a l ih =>
    rw [insertMany_cons, ih, mem_insert, List.mem_cons]
    exact ⟨fun h => h.elim (fun h => .inl (.inr h)) (·.imp_left .inl),
      fun h => h.elim (fun h => h.elim (fun h => .inr (.inl h)) .inl) (fun h => .inr (.inr h))⟩

/-- the elements of `l`; a list in order is a set as it stands -/
def ofList (l : List α) : SortedSet α :=
  if h : isIncreasing compare l = true then ⟨l, pairwise_of_isIncreasing h⟩ else insertMany ∅ l

theorem mem_ofList [Std.LawfulEqOrd α] {l : List α} {b : α} : b ∈ ofList l ↔ b ∈ l := by
  unfold ofList
  split
  · exact Iff.rfl
  · rw [mem_insertMany]
    exact ⟨fun h => h.elim id (fun h => nomatch h), .inl⟩

def union (s t : SortedSet α) : SortedSet α := s.insertMany t.toList

theorem mem_union [Std.LawfulEqOrd α] {s t : SortedSet α} {b : α} :
    b ∈ s.union t ↔ b ∈ s ∨ b ∈ t :=
  mem_insertMany.trans Or.comm

omit [Std.TransOrd α]

/-! ## selection -/

def filter (p : α → Bool) (s : SortedSet α) : SortedSet α :=
  ⟨s.toList.filter p, s.increasing.filter p⟩

@[simp] theorem toList_filter (p : α → Bool) (s : SortedSet α) :
    (s.filter p).toList = s.toList.filter p := rfl

theorem mem_filter {p : α → Bool} {s : SortedSet α} {b : α} :
    b ∈ s.filter p ↔ b ∈ s ∧ p b = true := List.mem_filter

/-- the set without the elements that compare equal to `a` -/
def erase (a : α) (s : SortedSet α) : SortedSet α := s.filter (fun b => compare a b != .eq)

/-- the set of the images that exist -/
def filterMap {β : Type v} [Ord β] [Std.TransOrd β] (f : α → Option β) (s : SortedSet α) :
    SortedSet β := ofList (s.toList.filterMap f)

theorem mem_filterMap {β : Type v} [Ord β] [Std.TransOrd β] [Std.LawfulEqOrd β]
    {f : α → Option β} {s : SortedSet α} {b : β} :
    b ∈ s.filterMap f ↔ ∃ a ∈ s, f a = some b := by
  rw [filterMap, mem_ofList, List.mem_filterMap]
  rfl

/-! ## extensionality -/

theorem not_lt_self [Std.TransOrd α] {a : α} : ¬ compare a a = .lt := fun h => by
  have heq : compare a a = .eq := Std.ReflCmp.compare_self
  cases h.symm.trans heq

theorem eq_of_mem_iff [Std.TransOrd α] :
    ∀ {l m : List α}, l.Pairwise (fun a b => compare a b = .lt) →
      m.Pairwise (fun a b => compare a b = .lt) → (∀ a, a ∈ l ↔ a ∈ m) → l = m
  | [], [], _, _, _ => rfl
  | [], b :: _, _, _, h => absurd ((h b).mpr List.mem_cons_self) List.not_mem_nil
  | a :: _, [], _, _, h => absurd ((h a).mp List.mem_cons_self) List.not_mem_nil
  | a :: l, b :: m, hl, hm, h => by
    have hal := (List.pairwise_cons.mp hl).1
    have hbm := (List.pairwise_cons.mp hm).1
    have hab : a = b := by
      rcases List.mem_cons.mp ((h a).mp List.mem_cons_self) with hab | ha
      · exact hab
      rcases List.mem_cons.mp ((h b).mpr List.mem_cons_self) with hba | hb
      · exact hba.symm
      exact absurd (Std.TransCmp.lt_trans (hal b hb) (hbm a ha)) not_lt_self
    subst hab
    rw [eq_of_mem_iff (List.pairwise_cons.mp hl).2 (List.pairwise_cons.mp hm).2]
    intro c
    constructor
    · intro hc
      rcases List.mem_cons.mp ((h c).mp (List.mem_cons_of_mem _ hc)) with rfl | hc'
      · exact absurd (hal c hc) not_lt_self
      · exact hc'
    · intro hc
      rcases List.mem_cons.mp ((h c).mpr (List.mem_cons_of_mem _ hc)) with rfl | hc'
      · exact absurd (hbm c hc) not_lt_self
      · exact hc'

/-- two sets with the same members are equal -/
theorem ext_mem [Std.TransOrd α] {s t : SortedSet α} (h : ∀ a, a ∈ s ↔ a ∈ t) : s = t :=
  toList_inj.mp (eq_of_mem_iff s.increasing t.increasing h)

end SortedSet

end LiftedElimination
