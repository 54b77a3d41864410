/-
Cutting, splitting and trimming byte strings: what is before and after a
separator, and when nothing is taken off.
-/
import Hotserve.Bytes

namespace Hotserve.Bytes

-- ====== cut

/-- What is before the cut, the separator and what is after it are the
whole. -/
theorem cut_eq_some {sep : UInt8} : ∀ {b p q : Bytes}, cut sep b = some (p, q) →
    b = p ++ sep :: q
  | [], _, _, h => by cases h
  | c :: rest, p, q, h => by
    rw [cut] at h
    split at h
    next hc =>
      cases h
      rw [hc]
      rfl
    next hc =>
      obtain ⟨⟨p', q'⟩, hcut, heq⟩ := Option.map_eq_some_iff.mp h
      cases heq
      rw [cut_eq_some hcut]
      rfl

variable {sep : UInt8} {b x s : Bytes}

/-- The separator is not before the cut. -/
theorem cut_not_mem {y : Bytes} (h : cut sep b = some (x, y)) : sep ∉ x := by
  induction b generalizing x with
  | nil => cases h
  | cons c rest ih =>
    rw [cut] at h
    split at h
    · cases h
      simp
    next hne =>
      obtain ⟨⟨x', y'⟩, hrest, heq⟩ := Option.map_eq_some_iff.mp h
      cases heq
      rw [List.mem_cons, not_or]
      exact ⟨Ne.symm hne, ih hrest⟩

/-- What is after the cut is shorter, so a scan that cuts again ends. -/
theorem cut_length {y : Bytes} (h : cut sep b = some (x, y)) :
    y.length < b.length := by
  rw [cut_eq_some h, List.length_append, List.length_cons]
  omega

/-- The first separator is where the cut is. -/
theorem cut_append (hx : sep ∉ x) (y : Bytes) :
    cut sep (x ++ sep :: y) = some (x, y) := by
  induction x with
  | nil => simp [cut]
  | cons c x ih =>
    rw [List.mem_cons, not_or] at hx
    rw [List.cons_append, cut, if_neg (Ne.symm hx.1), ih hx.2]
    rfl

/-- Where there is no cut there is no separator. -/
theorem not_mem_of_cut_none (h : cut sep b = none) : sep ∉ b := by
  intro hmem
  obtain ⟨x, y, rfl, hx⟩ := List.eq_append_cons_of_mem hmem
  rw [cut_append hx] at h
  cases h

/-- `cut_eq_some` for a separator of several bytes. -/
theorem cutOn_eq_some {sep : Bytes} : ∀ {b p q : Bytes},
    cutOn sep b = some (p, q) → b = p ++ (sep ++ q)
  | [], _, _, h => by cases h
  | c :: rest, p, q, h => by
    rw [cutOn] at h
    split at h
    next hpre =>
      cases h
      obtain ⟨q, hq⟩ := List.isPrefixOf_iff_prefix.mp hpre
      rw [← hq, List.drop_left]
      rfl
    next =>
      obtain ⟨⟨p', q'⟩, hcut, heq⟩ := Option.map_eq_some_iff.mp h
      cases heq
      rw [cutOn_eq_some hcut]
      rfl

-- ====== split

/-- A split has a part, of the empty string too. -/
theorem split_ne_nil (p : Bytes) : split sep p ≠ [] := by
  cases p with
  | nil => simp [split]
  | cons c rest =>
    rw [split]
    split
    · simp
    · split <;> simp

/-- No part has the separator. -/
theorem not_mem_split {p c : Bytes} (hc : c ∈ split sep p) : sep ∉ c := by
  induction p generalizing c with
  | nil =>
    simp only [split, List.mem_singleton] at hc
    simp [hc]
  | cons d rest ih =>
    rw [split] at hc
    split at hc
    next =>
      rcases List.mem_cons.mp hc with rfl | hc
      · simp
      · exact ih hc
    next hd =>
      cases hsplit : split sep rest with
      | nil => exact absurd hsplit (split_ne_nil rest)
      | cons q qs =>
        rw [hsplit] at hc ih
        rcases List.mem_cons.mp hc with rfl | hc
        · intro hmem
          rcases List.mem_cons.mp hmem with heq | hmem
          · exact hd heq.symm
          · exact ih (.head _) hmem
        · exact ih (.tail _ hc)

/-- A separator parts the parts of what is on its two sides. -/
theorem split_append (a b : Bytes) :
    split sep (a ++ sep :: b) = split sep a ++ split sep b := by
  induction a with
  | nil => simp [split]
  | cons c rest ih =>
    rw [List.cons_append, split, split, ih]
    split
    · rfl
    · cases hsplit : split sep rest with
      | nil => exact absurd hsplit (split_ne_nil rest)
      | cons p ps => rfl

/-- What has no separator is one part. -/
theorem split_of_not_mem {c : Bytes} (hc : sep ∉ c) : split sep c = [c] := by
  induction c with
  | nil => rfl
  | cons d rest ih =>
    rw [List.mem_cons, not_or] at hc
    rw [split, if_neg (Ne.symm hc.1), ih hc.2]

-- ====== trim

/-- A byte that neither begins nor ends a space. -/
def Solid (c : UInt8) : Prop := 0x20 < c ∧ c < 0x80

/-- Nothing is stripped off what begins with none of the words. -/
theorem strip_self {words : List Bytes} (h : ∀ w ∈ words, ¬ w <+: s) :
    strip words s = s := by
  rw [strip]
  have hnone : words.find? (·.isPrefixOf s) = none := by
    rw [List.find?_eq_none]
    intro w hw hpre
    exact h w hw (List.isPrefixOf_iff_prefix.mp hpre)
  rw [hnone]

/-- No space begins or ends with a solid byte. -/
theorem spaces_ends : ∀ w ∈ spaces, ∃ a b, w.head? = some a ∧
    w.reverse.head? = some b ∧ ¬ (0x20 < a ∧ a < 0x80) ∧
    ¬ (0x20 < b ∧ b < 0x80) := by
  intro w hw
  simp only [spaces, List.mem_cons, List.not_mem_nil, or_false] at hw
  rcases hw with rfl | rfl | rfl | rfl | rfl | rfl | rfl | rfl | rfl | rfl |
    rfl | rfl | rfl | rfl | rfl | rfl | rfl | rfl | rfl | rfl | rfl | rfl |
    rfl | rfl | rfl <;> exact ⟨_, _, rfl, rfl, by decide, by decide⟩

theorem head_of_pre {w : Bytes} {a : UInt8} (h : w <+: s)
    (ha : w.head? = some a) : s.head? = some a := by
  obtain ⟨rest, rfl⟩ := h
  cases w with
  | nil => cases ha
  | cons c w => exact ha

/-- Nothing is trimmed off what begins and ends with solid bytes. -/
theorem trimSpace_self (hfirst : ∀ a, s.head? = some a → Solid a)
    (hlast : ∀ a, s.getLast? = some a → Solid a) : trimSpace s = s := by
  have hfront : strip spaces s = s := by
    refine strip_self fun w hw hpre => ?_
    obtain ⟨a, -, ha, -, hsolid, -⟩ := spaces_ends w hw
    exact hsolid (hfirst a (head_of_pre hpre ha))
  have hback : strip (spaces.map List.reverse) s.reverse = s.reverse := by
    refine strip_self fun w hw hpre => ?_
    obtain ⟨v, hv, rfl⟩ := List.mem_map.mp hw
    obtain ⟨-, b, -, hb, -, hsolid⟩ := spaces_ends v hv
    have hlast' := head_of_pre hpre hb
    rw [List.head?_reverse] at hlast'
    exact hsolid (hlast b hlast')
  rw [trimSpace, hfront, hback, List.reverse_reverse]

end Hotserve.Bytes
