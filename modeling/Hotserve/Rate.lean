/-
A sliding-window budget: at most `B` times in any window of length `W`.
Times come newest first. What the budget keeps is that a time and the one
`B` before it are `W` apart (`Rated`), and so no interval of length `W`
holds more than `B` of them.

A `Ledger` is how a program keeps one: a list of the times it has granted,
oldest first, from which it prunes those that have left the window. The
times granted for good stay rated whatever it prunes, and giving the last
one back leaves it a ledger.
-/
import Mathlib.Data.List.Basic

namespace Hotserve

/-- Times, newest first, of which no `B + 1` come within `W`. -/
structure Rated (B : Nat) (W : Int) (times : List Int) : Prop where
  sorted : times.Pairwise (· ≥ ·)
  spaced : ∀ i x y, times[i]? = some x → times[i + B]? = some y → W ≤ x - y

variable {B : Nat} {W x now : Int} {times : List Int}

/-- The time is in the window that ends now. -/
abbrev recent (W now : Int) (t : Int) : Bool := decide (now - t < W)

theorem rated_nil : Rated B W [] :=
  ⟨List.Pairwise.nil, fun i x y hx => by simp at hx⟩

theorem Rated.tail (h : Rated B W (x :: times)) : Rated B W times where
  sorted := (List.pairwise_cons.mp h.sorted).2
  spaced := fun i a b ha hb => h.spaced (i + 1) a b ha
    (by rw [Nat.add_right_comm]; exact hb)

/-- Newest first, the times of the window are a prefix. -/
theorem recent_append (W now : Int) (hsorted : times.Pairwise (· ≥ ·)) :
    times.filter (recent W now) ++ times.filter (fun t => !recent W now t) =
      times := by
  induction times with
  | nil => rfl
  | cons t times ih =>
    obtain ⟨hall, hrest⟩ := List.pairwise_cons.mp hsorted
    by_cases ht : now - t < W
    · rw [List.filter_cons_of_pos (by simp [ht]),
        List.filter_cons_of_neg (by simp [ht]), List.cons_append, ih hrest]
    · -- nothing older than a time out of the window is in it
      have hold : ∀ u ∈ times, ¬ now - u < W := by
        intro u hu
        have := hall u hu
        omega
      rw [List.filter_cons_of_neg (by simp [ht]),
        List.filter_cons_of_pos (by simp [ht]),
        List.filter_eq_nil_iff.mpr (by simpa using hold), List.nil_append,
        List.filter_eq_self.mpr (by simpa using hold)]

/-- A window with room for one more. -/
theorem Rated.cons (h : Rated B W times) (hnow : ∀ t ∈ times, t ≤ now)
    (hroom : (times.filter (recent W now)).length < B) :
    Rated B W (now :: times) := by
  refine ⟨List.pairwise_cons.mpr ⟨hnow, h.sorted⟩, ?_⟩
  intro i x y hx hy
  cases i with
  | succ i =>
    rw [Nat.add_right_comm] at hy
    exact h.spaced i x y hx hy
  | zero =>
    rw [List.getElem?_cons_zero, Option.some_inj] at hx
    obtain ⟨b, rfl⟩ : ∃ b, B = b + 1 := ⟨B - 1, by omega⟩
    rw [Nat.zero_add, List.getElem?_cons_succ] at hy
    -- the window's times come first, and there are at most `b` of them
    have hsplit := recent_append W now h.sorted
    rw [← hsplit, List.getElem?_append_right (by omega)] at hy
    have hold := (List.mem_filter.mp (List.mem_of_getElem? hy)).2
    simp only [recent, Bool.not_eq_true', decide_eq_false_iff_not] at hold
    omega

/-- No interval of length `W` holds more than `B` of the times. -/
theorem Rated.count_le (h : Rated B W times) (t : Int) :
    (times.filter fun x => decide (t ≤ x ∧ x < t + W)).length ≤ B := by
  induction times with
  | nil => exact Nat.zero_le B
  | cons x times ih =>
    by_cases hx : t ≤ x ∧ x < t + W
    · -- from the `B`th on, the times are before `t`
      have hlate : ∀ y ∈ (x :: times).drop B, ¬ (t ≤ y ∧ y < t + W) := by
        intro y hy
        have hsorted := h.sorted.sublist (List.drop_sublist B (x :: times))
        cases hdrop : (x :: times).drop B with
        | nil =>
          rw [hdrop] at hy
          exact absurd hy List.not_mem_nil
        | cons z older =>
          have hz : (x :: times)[0 + B]? = some z := by
            rw [Nat.zero_add, ← List.head?_drop, hdrop]
            rfl
          have hgap := h.spaced 0 x z rfl hz
          rw [hdrop] at hy hsorted
          rcases List.mem_cons.mp hy with rfl | hy
          · omega
          · have := (List.pairwise_cons.mp hsorted).1 y hy
            omega
      have hsplit : (x :: times).filter (fun x => decide (t ≤ x ∧ x < t + W)) =
            ((x :: times).take B).filter
              (fun x => decide (t ≤ x ∧ x < t + W)) := by
        have hnone : ((x :: times).drop B).filter
            (fun x => decide (t ≤ x ∧ x < t + W)) = [] :=
          List.filter_eq_nil_iff.mpr (by simpa using hlate)
        conv_lhs => rw [← List.take_append_drop B (x :: times)]
        rw [List.filter_append, hnone, List.append_nil]
      rw [hsplit]
      exact Nat.le_trans (List.length_filter_le ..) (List.length_take_le ..)
    · rw [List.filter_cons_of_neg (by simpa using hx)]
      exact ih h.tail

-- ====== the ledger

/-- The list `held` of a budget that has granted `granted`, newest first:
what it no longer holds has left the window. -/
structure Ledger (B : Nat) (W now : Int) (held granted : List Int) : Prop where
  covered : ∃ old, granted = held.reverse ++ old ∧ ∀ t ∈ old, W ≤ now - t
  rated : Rated B W granted
  past : ∀ t ∈ granted, t ≤ now

namespace Ledger

variable {held granted : List Int} {later : Int}

theorem empty : Ledger B W now [] [] :=
  ⟨⟨[], rfl, by simp⟩, rated_nil, by simp⟩

section

variable (h : Ledger B W now held granted)
include h

theorem mono (hnow : now ≤ later) : Ledger B W later held granted := by
  obtain ⟨old, heq, hold⟩ := h.covered
  refine ⟨⟨old, heq, fun t ht => ?_⟩, h.rated, fun t ht => ?_⟩
  · have := hold t ht
    omega
  · have := h.past t ht
    omega

/-- Pruned, it is a ledger of the same times. -/
theorem prune : Ledger B W now (held.filter (recent W now)) granted := by
  obtain ⟨old, heq, hold⟩ := h.covered
  have hsorted : held.reverse.Pairwise (· ≥ ·) := by
    have := h.rated.sorted
    rw [heq] at this
    exact (List.pairwise_append.mp this).1
  refine ⟨⟨held.reverse.filter (fun t => !recent W now t) ++ old, ?_, ?_⟩,
    h.rated, h.past⟩
  · rw [← List.append_assoc, ← List.filter_reverse,
      recent_append W now hsorted, heq]
  · intro t ht
    rcases List.mem_append.mp ht with ht | ht
    · have hout := (List.mem_filter.mp ht).2
      simp only [recent, Bool.not_eq_true', decide_eq_false_iff_not] at hout
      omega
    · exact hold t ht

/-- Pruned from the front as far as the times have left the window. -/
theorem expire :
    Ledger B W now (held.dropWhile fun t => decide (W ≤ now - t)) granted := by
  obtain ⟨old, heq, hold⟩ := h.covered
  refine ⟨⟨(held.takeWhile fun t => decide (W ≤ now - t)).reverse ++ old, ?_,
    fun t ht => ?_⟩, h.rated, h.past⟩
  · rw [← List.append_assoc, ← List.reverse_append,
      List.takeWhile_append_dropWhile, heq]
  · rcases List.mem_append.mp ht with ht | ht
    · simpa using List.all_eq_true.mp List.all_takeWhile t
        (List.mem_reverse.mp ht)
    · exact hold t ht

/-- The times of the window are held. -/
theorem recent_le : (granted.filter (recent W now)).length ≤ held.length := by
  obtain ⟨old, heq, hold⟩ := h.covered
  have hnone : old.filter (recent W now) = [] := by
    refine List.filter_eq_nil_iff.mpr fun t ht => ?_
    have := hold t ht
    simp only [recent, decide_eq_true_eq]
    omega
  have hle := List.length_filter_le (recent W now) held.reverse
  rw [List.length_reverse] at hle
  rw [heq, List.filter_append, hnone, List.append_nil]
  exact hle

/-- One more, where fewer than `B` are held. -/
theorem grant (hroom : held.length < B) :
    Ledger B W now (held ++ [now]) (now :: granted) := by
  obtain ⟨old, heq, hold⟩ := h.covered
  refine ⟨⟨old, ?_, hold⟩, ?_, ?_⟩
  · rw [List.reverse_append, heq]
    rfl
  · exact h.rated.cons h.past (Nat.lt_of_le_of_lt h.recent_le hroom)
  · intro t ht
    rcases List.mem_cons.mp ht with rfl | ht
    · exact Int.le_refl t
    · exact h.past t ht

end

/-- The last one given back. -/
theorem giveBack (h : Ledger B W now held (x :: granted)) :
    Ledger B W now held.dropLast granted := by
  obtain ⟨old, heq, hold⟩ := h.covered
  refine ⟨?_, h.rated.tail, fun t ht => h.past t (.tail _ ht)⟩
  rw [← List.tail_reverse]
  cases hrev : held.reverse with
  | nil =>
    rw [hrev, List.nil_append] at heq
    rw [← heq] at hold
    exact ⟨granted, rfl, fun t ht => hold t (.tail _ ht)⟩
  | cons t rest =>
    rw [hrev, List.cons_append] at heq
    exact ⟨old, (List.cons.inj heq).2, hold⟩

end Ledger

end Hotserve
