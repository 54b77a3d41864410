/-
A ring of counts: `n` buckets and the index of the head one. What it
stands for is the buckets by age (`ago`): the head's is 0, and one turn
of the ring makes every bucket one older, drops the oldest and starts an
empty head.
-/
import Mathlib.Algebra.BigOperators.Fin
import Mathlib.Algebra.Group.Fin.Basic

namespace Hotserve

open Finset (range sum_range_succ sum_range_succ')

structure Ring (n : Nat) where
  buckets : Fin n → Nat
  head : Fin n

namespace Ring

variable {n : Nat} [NeZero n]

def empty : Ring n := ⟨fun _ => 0, 0⟩

variable (r : Ring n)

/-- The count of the bucket `j` turns old. -/
def ago (j : Nat) : Nat := r.buckets (r.head - Fin.ofNat n j)

/-- The bucket the next turn takes for its head. -/
def next : Fin n := r.head + 1

def turn : Ring n :=
  ⟨Function.update r.buckets r.next 0, r.next⟩

/-- The ring with another count in its head bucket. -/
def put (k : Nat) : Ring n :=
  { r with buckets := Function.update r.buckets r.head k }

/-- Count in the head bucket. -/
def bump (k : Nat) : Ring n := r.put (r.buckets r.head + k)

/-- The sum of the buckets. -/
def sum : Nat := ∑ j ∈ range n, r.ago j

@[simp] theorem ago_empty (j : Nat) : (empty : Ring n).ago j = 0 := rfl

@[simp] theorem sum_empty : (empty : Ring n).sum = 0 := by simp [sum]

theorem ofNat_ne_zero {j : Nat} (hpos : 0 < j) (hj : j < n) :
    Fin.ofNat n j ≠ 0 := by
  intro h
  have hval := congrArg Fin.val h
  rw [Fin.ofNat, Fin.val_mk, Nat.mod_eq_of_lt hj, Fin.val_zero] at hval
  omega

/-- Another bucket than the head. -/
theorem sub_ne {h : Fin n} {j : Nat} (hpos : 0 < j) (hj : j < n) :
    h - Fin.ofNat n j ≠ h := by
  intro heq
  exact ofNat_ne_zero hpos hj (sub_eq_self.mp heq)

theorem ofNat_succ (j : Nat) : Fin.ofNat n (j + 1) = Fin.ofNat n j + 1 := by
  apply Fin.ext
  simp [Fin.ofNat, Fin.val_add]

theorem ago_turn_zero : r.turn.ago 0 = 0 := by
  have hzero : Fin.ofNat n 0 = 0 := rfl
  rw [ago, turn, hzero, sub_zero]
  exact Function.update_self ..

/-- Turning ages every slot but the oldest. -/
theorem ago_turn_succ {j : Nat} (hj : j + 1 < n) :
    r.turn.ago (j + 1) = r.ago j := by
  have hother : r.turn.ago (j + 1) =
      r.buckets (r.next - Fin.ofNat n (j + 1)) :=
    Function.update_of_ne (sub_ne (Nat.succ_pos j) hj) ..
  rw [hother, ago, next, ofNat_succ, add_sub_add_right_eq_sub]

/-- The bucket a turn takes is the oldest. -/
theorem buckets_next : r.buckets r.next = r.ago (n - 1) := by
  have hn : 0 < n := Nat.pos_of_neZero n
  have hwrap : Fin.ofNat n (n - 1) + 1 = 0 := by
    rw [← ofNat_succ, Nat.sub_add_cancel hn]
    apply Fin.ext
    simp [Fin.ofNat]
  rw [ago, next]
  congr 1
  rw [eq_sub_iff_add_eq, add_assoc, add_comm 1, hwrap, add_zero]

/-- A turn loses the oldest bucket's count. -/
theorem sum_turn : r.turn.sum + r.buckets r.next = r.sum := by
  obtain ⟨m, rfl⟩ : ∃ m, n = m + 1 :=
    ⟨n - 1, (Nat.sub_add_cancel (Nat.pos_of_neZero n)).symm⟩
  rw [buckets_next, sum, sum, sum_range_succ', ago_turn_zero, add_zero,
    Nat.add_sub_cancel, sum_range_succ]
  congr 1
  refine Finset.sum_congr rfl fun j hj => ?_
  exact r.ago_turn_succ (Nat.succ_lt_succ (Finset.mem_range.mp hj))

/-- The head bucket has no more than all have. -/
theorem head_le_sum : r.buckets r.head ≤ r.sum := by
  have hzero : r.ago 0 = r.buckets r.head := by
    rw [ago, Fin.ofNat_zero, sub_zero]
  obtain ⟨m, rfl⟩ : ∃ m, n = m + 1 :=
    ⟨n - 1, (Nat.sub_add_cancel (Nat.pos_of_neZero n)).symm⟩
  rw [← hzero, sum, sum_range_succ']
  exact Nat.le_add_left _ _

/-- After some turns the young buckets are empty and the others are as
old as the turns have made them. -/
theorem ago_turns {k j : Nat} (hj : j < n) :
    (turn^[k] r).ago j = if j < k then 0 else r.ago (j - k) := by
  induction k generalizing j with
  | zero => simp
  | succ k ih =>
    rw [Function.iterate_succ_apply']
    cases j with
    | zero => rw [ago_turn_zero, if_pos (Nat.succ_pos k)]
    | succ j =>
      rw [ago_turn_succ _ hj, ih (Nat.lt_of_succ_lt hj)]
      simp

theorem ago_bump_zero (k : Nat) : (r.bump k).ago 0 = r.ago 0 + k := by
  have hzero : Fin.ofNat n 0 = 0 := rfl
  rw [ago, ago, bump, put, hzero, sub_zero]
  exact Function.update_self ..

theorem ago_bump_succ (k : Nat) {j : Nat} (hpos : 0 < j)
    (hj : j < n) : (r.bump k).ago j = r.ago j :=
  Function.update_of_ne (sub_ne hpos hj) ..

/-- A count goes into the sum once. -/
theorem sum_bump (k : Nat) : (r.bump k).sum = r.sum + k := by
  obtain ⟨m, rfl⟩ : ∃ m, n = m + 1 :=
    ⟨n - 1, (Nat.sub_add_cancel (Nat.pos_of_neZero n)).symm⟩
  rw [sum, sum, sum_range_succ', sum_range_succ', ago_bump_zero, ← add_assoc]
  congr 2
  refine Finset.sum_congr rfl fun j hj => ?_
  exact r.ago_bump_succ k (Nat.succ_pos j)
    (Nat.succ_lt_succ (Finset.mem_range.mp hj))

end Ring

end Hotserve
