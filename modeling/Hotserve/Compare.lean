/-
Comparisons made key by key, and sorting by one.

Go's `sort.Slice` promises a sorted list and nothing of ties. Where the
comparison tells any two elements of a list apart there is one sorted
list, so what is proved of `sortBy` holds of whatever Go's sort returns
(`eq_sortBy`).
-/
import Mathlib.Data.List.Sort

namespace Hotserve.Compare

variable {α κ : Type} {less : α → α → Bool}

-- ====== what a comparison is

/-- A comparison that orders its elements up to ties. -/
structure Weak (less : α → α → Bool) : Prop where
  irrefl : ∀ a, less a a = false
  trans : ∀ a b c, less a b = true → less b c = true → less a c = true
  between : ∀ a b c, less a c = true → less a b = true ∨ less b c = true

/-- A comparison with no ties. -/
structure Strict (lt : κ → κ → Bool) : Prop where
  irrefl : ∀ a, lt a a = false
  trans : ∀ a b c, lt a b = true → lt b c = true → lt a c = true
  total : ∀ a b, a ≠ b → lt a b = true ∨ lt b a = true

theorem Weak.asymm (hw : Weak less) {a b : α} (h : less a b = true) :
    less b a = false := by
  rw [Bool.eq_false_iff]
  intro hba
  exact Bool.eq_false_iff.mp (hw.irrefl a) (hw.trans a b a h hba)

/-- The elements compared by a key without ties. -/
theorem Strict.comap {lt : κ → κ → Bool} (hs : Strict lt) (key : α → κ) :
    Weak fun a b => lt (key a) (key b) where
  irrefl := fun a => hs.irrefl (key a)
  trans := fun a b c => hs.trans (key a) (key b) (key c)
  between := by
    intro a b c h
    by_cases hab : key a = key b
    · right
      rw [← hab]
      exact h
    · rcases hs.total _ _ hab with hlt | hgt
      · exact .inl hlt
      · exact .inr (hs.trans _ _ _ hgt h)

-- ====== key by key

/-- `if key(a) != key(b) { return key(a) < key(b) }`, then the rest. -/
def thenBy [DecidableEq κ] (key : α → κ) (lt : κ → κ → Bool)
    (next : α → α → Bool) (a b : α) : Bool :=
  if key a ≠ key b then lt (key a) (key b) else next a b

section ThenBy

variable [DecidableEq κ] {key : α → κ} {lt : κ → κ → Bool}
  {next : α → α → Bool} {a b c : α}

theorem thenBy_of_ne (h : key a ≠ key b) :
    thenBy key lt next a b = lt (key a) (key b) := if_pos h

theorem thenBy_of_eq (h : key a = key b) :
    thenBy key lt next a b = next a b := if_neg (not_not.mpr h)

/-- A key without ties before a comparison up to ties. -/
theorem Weak.thenBy (hs : Strict lt) (hn : Weak next) :
    Weak (thenBy key lt next) where
  irrefl := by
    intro a
    rw [thenBy_of_eq rfl]
    exact hn.irrefl a
  trans := by
    intro a b c hab hbc
    by_cases heq : key a = key b
    · rw [thenBy_of_eq heq] at hab
      by_cases heq' : key b = key c
      · rw [thenBy_of_eq heq'] at hbc
        rw [thenBy_of_eq (heq.trans heq')]
        exact hn.trans a b c hab hbc
      · rw [thenBy_of_ne heq', ← heq] at hbc
        rw [thenBy_of_ne (heq ▸ heq')]
        exact hbc
    · rw [thenBy_of_ne heq] at hab
      by_cases heq' : key b = key c
      · rw [thenBy_of_ne (heq' ▸ heq), ← heq']
        exact hab
      · rw [thenBy_of_ne heq'] at hbc
        have hac := hs.trans _ _ _ hab hbc
        have hne : key a ≠ key c := by
          intro h
          rw [h, hs.irrefl] at hac
          cases hac
        rw [thenBy_of_ne hne]
        exact hac
  between := by
    intro a b c hac
    by_cases heq : key a = key c
    · rw [thenBy_of_eq heq] at hac
      by_cases hab : key a = key b
      · rw [thenBy_of_eq hab, thenBy_of_eq (hab.symm.trans heq)]
        exact hn.between a b c hac
      · have hbc : key b ≠ key c := fun h => hab (heq.trans h.symm)
        rw [thenBy_of_ne hab, thenBy_of_ne hbc, ← heq]
        exact hs.total _ _ hab
    · rw [thenBy_of_ne heq] at hac
      by_cases hab : key a = key b
      · right
        rw [thenBy_of_ne (hab ▸ heq), ← hab]
        exact hac
      · by_cases hbc : key b = key c
        · left
          rw [thenBy_of_ne hab, hbc]
          exact hac
        · rw [thenBy_of_ne hab, thenBy_of_ne hbc]
          exact (hs.comap id).between (key a) (key b) (key c) hac

/-- Elements with two keys compare, and so do those the rest tells
apart. -/
theorem thenBy_apart (hs : Strict lt)
    (hnext : key a = key b → next a b = true ∨ next b a = true) :
    Compare.thenBy key lt next a b = true ∨
      Compare.thenBy key lt next b a = true := by
  by_cases heq : key a = key b
  · rw [thenBy_of_eq heq, thenBy_of_eq heq.symm]
    exact hnext heq
  · rw [thenBy_of_ne heq, thenBy_of_ne (Ne.symm heq)]
    exact hs.total _ _ heq

end ThenBy

/-- Numbers, the smaller first. -/
theorem strict_nat : Strict fun a b : Nat => decide (a < b) where
  irrefl := by simp
  trans := by
    intro a b c hab hbc
    rw [decide_eq_true_eq] at *
    omega
  total := by
    intro a b hne
    rw [decide_eq_true_eq, decide_eq_true_eq]
    omega

/-- Times, the later first. -/
theorem strict_later : Strict fun a b : Int => decide (b < a) where
  irrefl := by simp
  trans := by
    intro a b c hab hbc
    rw [decide_eq_true_eq] at *
    omega
  total := by
    intro a b hne
    rw [decide_eq_true_eq, decide_eq_true_eq]
    omega

-- ====== sorting

/-- The list in the order of a comparison. -/
def sortBy (less : α → α → Bool) (l : List α) : List α :=
  l.insertionSort fun a b => less b a = false

theorem sortBy_perm (l : List α) : (sortBy less l).Perm l :=
  List.perm_insertionSort _ l

theorem sortBy_sorted (hw : Weak less) (l : List α) :
    (sortBy less l).Pairwise fun a b => less b a = false := by
  have htotal : Std.Total fun a b => less b a = false := by
    constructor
    intro a b
    cases hba : less b a with
    | false => exact .inl rfl
    | true => exact .inr (hw.asymm hba)
  have htrans : IsTrans α fun a b => less b a = false := by
    constructor
    intro a b c hba hcb
    rw [Bool.eq_false_iff]
    intro hca
    rcases hw.between c b a hca with h | h
    · rw [hcb] at h
      cases h
    · rw [hba] at h
      cases h
  exact List.pairwise_insertionSort _ l

/-- Where any two elements are told apart, whatever is sorted is what
`sortBy` returns. -/
theorem eq_sortBy (hw : Weak less) {l l' : List α}
    (hapart : ∀ a ∈ l, ∀ b ∈ l, a ≠ b → less a b = true ∨ less b a = true)
    (hperm : l'.Perm l) (hsorted : l'.Pairwise fun a b => less b a = false) :
    l' = sortBy less l := by
  refine List.Perm.eq_of_pairwise ?_ hsorted (sortBy_sorted hw l)
    (hperm.trans (sortBy_perm l).symm)
  intro a b ha hb hba hab
  by_contra hne
  rcases hapart a (hperm.mem_iff.mp ha) b ((sortBy_perm l).mem_iff.mp hb) hne
    with h | h
  · rw [hab] at h
    cases h
  · rw [hba] at h
    cases h

end Hotserve.Compare
