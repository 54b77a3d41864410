/-
What the penalty box is for, said of one key's history: the units it
cost a budget in an interval of time, and the times it is boxed. Nothing
here is a ring or a map; a history has each response at the time it was
added and whether that add boxed the key.
-/
import Hotserve.Penaltybox.Store

namespace Hotserve.Penaltybox

/-- One `add` of a key: when, of what level, and whether it boxed it. -/
structure Response where
  time : Int
  level : Nat
  boxing : Bool
  deriving DecidableEq

/-- A key's adds, newest first. -/
abbrev History := List Response

/-- The end of the box a response shut. -/
def Response.boxEnd (S : Setup) (r : Response) : Int :=
  r.time + (S.budget (S.levelSlot r.level)).penaltyTTL

namespace History

/-- The key is boxed at `t`: an earlier response shut a box that has not
ended. -/
def Boxed (S : Setup) (h : History) (t : Int) : Prop :=
  ∃ r ∈ h, r.boxing = true ∧ t < r.boxEnd S

instance (S : Setup) (h : History) (t : Int) : Decidable (h.Boxed S t) :=
  inferInstanceAs (Decidable (∃ r ∈ h, r.boxing = true ∧ t < r.boxEnd S))

/-- The units recorded for a slot from `lo` to before `hi`, while the key
was not boxed and since that slot last boxed it. -/
def units (S : Setup) (slot : Nat) (lo hi : Int) : History → Nat
  | [] => 0
  | r :: older =>
    if S.levelSlot r.level ≠ slot then units S slot lo hi older
    else if r.boxing then 0
    else if Boxed S older r.time then units S slot lo hi older
    else
      (if lo ≤ r.time ∧ r.time < hi then (S.budget slot).cost r.level
        else 0) + units S slot lo hi older

/-- The units of the last `d`, `now` included. -/
def lastUnits (S : Setup) (h : History) (slot : Nat) (now d : Int) : Nat :=
  h.units S slot (now - d) (now + 1)

variable {S : Setup} {h : History} {slot : Nat} {lo hi : Int}

-- ====== the sums

theorem units_split {mid : Int} (hlo : lo ≤ mid) (hhi : mid ≤ hi) :
    h.units S slot lo mid + h.units S slot mid hi = h.units S slot lo hi := by
  induction h with
  | nil => rfl
  | cons r older ih =>
    simp only [units]
    split
    · exact ih
    split
    · rfl
    split
    · exact ih
    · rw [← ih]
      by_cases h₁ : lo ≤ r.time ∧ r.time < mid
      · have h₂ : ¬ (mid ≤ r.time ∧ r.time < hi) := by omega
        have h₃ : lo ≤ r.time ∧ r.time < hi := by omega
        rw [if_pos h₁, if_neg h₂, if_pos h₃]
        omega
      · by_cases h₂ : mid ≤ r.time ∧ r.time < hi
        · have h₃ : lo ≤ r.time ∧ r.time < hi := by omega
          rw [if_neg h₁, if_pos h₂, if_pos h₃]
          omega
        · have h₃ : ¬ (lo ≤ r.time ∧ r.time < hi) := by omega
          rw [if_neg h₁, if_neg h₂, if_neg h₃]
          omega

/-- A longer interval has no fewer units. -/
theorem units_mono {lo' hi' : Int} (hlo : lo' ≤ lo) (hhi : hi ≤ hi') :
    h.units S slot lo hi ≤ h.units S slot lo' hi' := by
  induction h with
  | nil => exact Nat.le_refl 0
  | cons r older ih =>
    simp only [units]
    split
    · exact ih
    split
    · exact Nat.le_refl 0
    split
    · exact ih
    · refine Nat.add_le_add ?_ ih
      by_cases hr : lo ≤ r.time ∧ r.time < hi
      · have hr' : lo' ≤ r.time ∧ r.time < hi' := by omega
        rw [if_pos hr, if_pos hr']
      · rw [if_neg hr]
        exact Nat.zero_le _

/-- Nothing is recorded from after the last response on. -/
theorem units_after (hbefore : ∀ r ∈ h, r.time < lo) :
    h.units S slot lo hi = 0 := by
  induction h with
  | nil => rfl
  | cons r older ih =>
    have hr := hbefore r (.head _)
    have hrest := ih fun x hx => hbefore x (.tail _ hx)
    simp only [units]
    split
    · exact hrest
    split
    · rfl
    split
    · exact hrest
    · rw [hrest, if_neg (by omega)]

theorem units_empty (x : Int) : h.units S slot x x = 0 := by
  have hsplit : h.units S slot x x + h.units S slot x x =
      h.units S slot x x := units_split (le_refl x) (le_refl x)
  omega

/-- The sum of consecutive intervals of one length, back from a start. -/
theorem units_sum {start dur : Int} (hdur : 0 ≤ dur) (n : Nat) :
    ∑ j ∈ Finset.range n,
        h.units S slot (start - j * dur) (start - j * dur + dur) =
      h.units S slot (start + dur - n * dur) (start + dur) := by
  induction n with
  | zero =>
    rw [Finset.sum_range_zero, Nat.cast_zero, zero_mul, sub_zero, units_empty]
  | succ n ih =>
    have hsucc : ((n + 1 : Nat) : Int) * dur = n * dur + dur := by
      rw [Nat.cast_succ, add_mul, one_mul]
    have hn : 0 ≤ (n : Int) * dur :=
      Int.mul_nonneg (Int.natCast_nonneg n) hdur
    have hmid : start - n * dur + dur = start + dur - n * dur := by omega
    have hlow : start + dur - ((n + 1 : Nat) : Int) * dur =
        start - n * dur := by omega
    rw [Finset.sum_range_succ, ih, hmid, hlow, Nat.add_comm]
    exact units_split (by omega) (by omega)

end History

-- ====== along a run

/-- A key's history after a call and its answer. -/
def record (key : Bytes) (h : History) (s : Step) (a : Answer) : History :=
  match s.call, a with
  | .add k level, .added boxing =>
    if k = key ∧ 1 ≤ level ∧ level ≤ maxLevel then
      ⟨s.now, level, boxing⟩ :: h
    else h
  | _, _ => h

/-- A key's history along a run. -/
def historyOf (S : Setup) (key : Bytes) :
    List Step → Store → History → History
  | [], _, h => h
  | s :: steps, st, h =>
    let r := s.apply S st
    historyOf S key steps r.2 (record key h s r.1)

/-- The key a call evicts. -/
def Step.evicts (S : Setup) (s : Step) (st : Store) : Option Bytes :=
  match s.call with
  | .add key level =>
    let sh := st (S.shardFor key)
    if level < 1 ∨ maxLevel < level ∨ (sh.get key).isSome ∨
        sh.len < S.maxPerShard then none
    else evicted S s.iteration s.now sh
  | _ => none

/-- The run never evicts the key. -/
def Kept (S : Setup) (key : Bytes) : List Step → Store → Prop
  | [], _ => True
  | s :: steps, st =>
    s.evicts S st ≠ some key ∧ Kept S key steps (s.apply S st).2

instance decidableKept (S : Setup) (key : Bytes) :
    (steps : List Step) → (st : Store) → Decidable (Kept S key steps st)
  | [], _ => inferInstanceAs (Decidable True)
  | _ :: steps, _ =>
    have := decidableKept S key steps
    inferInstanceAs (Decidable (_ ∧ _))

/-- The key a call counts a response of. -/
def Call.counted : Call → Option Bytes
  | .add key _ => some key
  | _ => none

/-- A call that is not a sweep, with its time. -/
def Step.asked (s : Step) : Option (Int × Call) :=
  match s.call with
  | .sweepAll => none
  | call => some (s.now, call)

/-- The calls of a run that are not sweeps. -/
def calls (steps : List Step) : List (Int × Call) :=
  steps.filterMap Step.asked

/-- What those calls answered. -/
def results (S : Setup) (steps : List Step) (st : Store) : List Answer :=
  (run S steps st).1.filter fun a => a ≠ .swept

end Hotserve.Penaltybox
