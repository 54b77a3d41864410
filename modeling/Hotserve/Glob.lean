/-
A file of patterns that say which paths to leave out: what a line of it
is read as, and which paths the pattern then matches.

A line is trimmed; an empty one and one that starts with `#` say nothing.
Variables in it are replaced, `$$` being a dollar, and the rest is a glob
in which a backslash takes the next byte literally. How a bracketed class
reads is a parameter: nothing here depends on it.

A text whose special bytes are escaped matches itself alone
(`matches_literal`), and comes through the reading of a line but for the
spaces at its end (`read_escaped`).
-/
import Hotserve.Text
import Mathlib.Data.List.Find

namespace Hotserve.Glob

open Bytes

-- ====== patterns

/-- A class, read from what follows its bracket: what it takes, and the
pattern after it. -/
abbrev Classes := Bytes → Option ((Bytes → Bool) × Bytes)

/-- A byte that is more than itself in a pattern. -/
def isSpecial (c : UInt8) : Bool := c == 92 || c == 42 || c == 63 || c == 91

/-- One character's bytes, in UTF-8, other than a slash. -/
def isChar (r : Bytes) : Bool :=
  validUTF8 r && r != [47] && (r.filter fun c => c &&& 0xC0 != 0x80).length == 1

inductive Matches (classes : Classes) : Bytes → Bytes → Prop
  | nil : Matches classes [] []
  | star {p t : Bytes} (skip : Bytes) (hskip : (47 : UInt8) ∉ skip) :
      Matches classes p t → Matches classes (42 :: p) (skip ++ t)
  | any {p t : Bytes} (r : Bytes) (hr : isChar r = true) :
      Matches classes p t → Matches classes (63 :: p) (r ++ t)
  | cls {p t : Bytes} {takes : Bytes → Bool} {rest : Bytes} (r : Bytes)
      (hclass : classes p = some (takes, rest)) (hr : isChar r = true)
      (htakes : takes r = true) :
      Matches classes rest t → Matches classes (91 :: p) (r ++ t)
  | quoted {p t : Bytes} (c : UInt8) :
      Matches classes p t → Matches classes (92 :: c :: p) (c :: t)
  | plain {p t : Bytes} {c : UInt8} (hc : isSpecial c = false) :
      Matches classes p t → Matches classes (c :: p) (c :: t)

variable (s : Bytes)

/-- A text with a backslash before each special byte. -/
def literal : Bytes :=
  s.flatMap fun c => if isSpecial c then [92, c] else [c]

theorem literal_cons (c : UInt8) (s : Bytes) : literal (c :: s) =
    (if isSpecial c then [92, c] else [c]) ++ literal s := rfl

theorem matches_literal {classes : Classes} {s t : Bytes} :
    Matches classes (literal s) t ↔ t = s := by
  constructor
  · intro h
    induction s generalizing t with
    | nil =>
      cases h
      rfl
    | cons c s ih =>
      rw [literal_cons] at h
      split at h
      · cases h with
        | quoted c h => rw [ih h]
        | plain hc h => cases hc
      next hc =>
        rw [Bool.not_eq_true] at hc
        rw [List.singleton_append] at h
        generalize hp : literal s = p at h
        cases h with
        | plain _ h =>
          subst hp
          rw [ih h]
        | _ => cases hc
  · rintro rfl
    induction t with
    | nil => exact .nil
    | cons c t ih =>
      rw [literal_cons]
      split
      · exact .quoted c ih
      next hc =>
        rw [Bool.not_eq_true] at hc
        exact .plain hc ih

-- ====== variables

/-- A byte of a variable's name. -/
def isNameByte (c : UInt8) : Bool :=
  (48 ≤ c && c ≤ 57) || (65 ≤ c && c ≤ 90) || (97 ≤ c && c ≤ 122) || c == 95

/-- Each `$NAME` replaced by its value; `$$` is a dollar, and so is one
that no name follows. -/
def expand (vars : Bytes → Bytes) : Nat → Bytes → Bytes
  | 0, s => s
  | _ + 1, [] => []
  | n + 1, c :: rest =>
    if c ≠ 36 then c :: expand vars n rest
    else if rest.head? = some 36 then 36 :: expand vars n rest.tail
    else
      match rest.takeWhile isNameByte with
      | [] => 36 :: expand vars n rest
      | name => vars name ++ expand vars n (rest.drop name.length)

/-- Every dollar doubled. -/
def dollars : Bytes :=
  s.flatMap fun c => if c = 36 then [36, 36] else [c]

theorem length_le_dollars : s.length ≤ (dollars s).length := by
  induction s with
  | nil => exact Nat.le_refl 0
  | cons c s ih =>
    have hcons : dollars (c :: s) =
        (if c = 36 then [36, 36] else [c]) ++ dollars s := rfl
    rw [hcons, List.length_append, List.length_cons]
    split
    · simp only [List.length_cons]
      omega
    · rw [List.length_singleton]
      omega

theorem expand_dollars {vars : Bytes → Bytes} {s : Bytes} {n : Nat}
    (hn : s.length ≤ n) : expand vars n (dollars s) = s := by
  induction s generalizing n with
  | nil =>
    cases n with
    | zero => rfl
    | succ n => rfl
  | cons c s ih =>
    cases n with
    | zero => cases hn
    | succ n =>
      have hle : s.length ≤ n := Nat.le_of_succ_le_succ hn
      have hcons : dollars (c :: s) =
          (if c = 36 then [36, 36] else [c]) ++ dollars s := rfl
      rw [hcons]
      split
      next hc =>
        subst hc
        change 36 :: expand vars n (dollars s) = 36 :: s
        rw [ih hle]
      next hc =>
        rw [List.singleton_append, expand, if_pos hc, ih hle]

-- ====== lines

/-- A line read: the pattern it is, if it is one. -/
def readLine (vars : Bytes → Bytes) (line : Bytes) : Option Bytes :=
  let l := trimSpace line
  if l = [] ∨ l.head? = some 35 then none
  else some (expand vars l.length l)

/-- A path the file's patterns leave out. -/
def Excludes (classes : Classes) (vars : Bytes → Bytes) (file path : Bytes) :
    Prop :=
  ∃ line ∈ split 10 file, ∃ p, readLine vars line = some p ∧
    Matches classes p path

-- ====== escaped text

/-- A text as a line that is to match it: special bytes quoted, dollars
doubled. -/
def escape : Bytes := dollars (literal s)

/-- What trimming leaves at the end of a text. -/
def trimBack : Bytes :=
  (strip (spaces.map List.reverse) s.reverse).reverse

section Strip

variable {words : List Bytes} {s : Bytes}

theorem strip_cases (s : Bytes) (hne : ∀ w ∈ words, w ≠ []) :
    (∀ w ∈ words, ¬ w <+: s) ∧ strip words s = s ∨ ∃ w ∈ words, w <+: s ∧
        words.find? (fun v => v.isPrefixOf s) = some w ∧
        strip words s = strip words (s.drop w.length) := by
  cases hfind : words.find? (fun v => v.isPrefixOf s) with
  | none =>
    have hno : ∀ w ∈ words, ¬ w <+: s := fun w hw hpre =>
      List.find?_eq_none.mp hfind w hw (List.isPrefixOf_iff_prefix.mpr hpre)
    exact .inl ⟨hno, strip_self hno⟩
  | some w =>
    have hw := List.mem_of_find?_eq_some hfind
    have hpre : w <+: s := by
      have := List.find?_some hfind
      exact List.isPrefixOf_iff_prefix.mp this
    have hpos := List.length_pos_iff.mpr (hne w hw)
    have hle := hpre.length_le
    refine .inr ⟨w, hw, hpre, rfl, ?_⟩
    rw [strip, hfind]
    dsimp only
    rw [dif_pos ⟨hpos, by omega⟩]

section

variable (hne : ∀ w ∈ words, w ≠ [])
include hne

/-- What leaves the words at the front of a text as they are commutes with
taking them off. -/
theorem strip_comm {f : Bytes → Bytes}
    (hpre : ∀ w ∈ words, ∀ s, w <+: f s ↔ w <+: s)
    (hdrop : ∀ w ∈ words, ∀ s, w <+: s →
      (f s).drop w.length = f (s.drop w.length)) (s : Bytes) :
    strip words (f s) = f (strip words s) := by
  have hfind : ∀ s, words.find? (fun v => v.isPrefixOf (f s)) =
      words.find? (fun v => v.isPrefixOf s) := by
    intro s
    refine List.find?_congr fun w hw => ?_
    rw [Bool.eq_iff_iff, List.isPrefixOf_iff_prefix,
      List.isPrefixOf_iff_prefix, hpre w hw s]
  induction hn : s.length using Nat.strongRecOn generalizing s with
  | ind n ih =>
    rcases strip_cases s hne with ⟨hno, hs⟩ | ⟨w, hw, hws, hfw, hs⟩
    · rw [hs]
      exact strip_self fun w hw h => hno w hw ((hpre w hw s).mp h)
    · rcases strip_cases (f s) hne with ⟨hno, -⟩ | ⟨v, hv, hvs, hfv, hfs⟩
      · exact absurd ((hpre w hw s).mpr hws) (hno w hw)
      · rw [hfind, hfw] at hfv
        cases hfv
        have hpos := List.length_pos_iff.mpr (hne w hw)
        have hle := hws.length_le
        rw [hfs, hs, hdrop w hw s hws]
        exact ih _ (by rw [List.length_drop]; omega) _ rfl

/-- No word is at the front of what is left. -/
theorem strip_clear (s : Bytes) : ∀ w ∈ words, ¬ w <+: strip words s := by
  induction hn : s.length using Nat.strongRecOn generalizing s with
  | ind n ih =>
    rcases strip_cases s hne with ⟨hno, hs⟩ | ⟨w, hw, hws, -, hs⟩
    · rw [hs]
      exact hno
    · have hpos := List.length_pos_iff.mpr (hne w hw)
      have hle := hws.length_le
      rw [hs]
      exact ih _ (by rw [List.length_drop]; omega) _ rfl

/-- A byte of no word stops the stripping, and what follows it stays. -/
theorem strip_append {c : UInt8} (hc : ∀ w ∈ words, c ∉ w) (s t : Bytes) :
    strip words (s ++ c :: t) = strip words s ++ c :: t := by
  refine strip_comm (f := fun s => s ++ c :: t) hne (fun w hw s => ?_)
    (fun w hw s hws => ?_) s
  · refine ⟨fun h => ?_, fun h => h.trans (List.prefix_append s _)⟩
    rcases List.prefix_or_prefix_of_prefix h (List.prefix_append s (c :: t))
      with hle | ⟨r, rfl⟩
    · exact hle
    · cases r with
      | nil => simp
      | cons d r =>
        have hcons := (List.prefix_append_right_inj s).mp h
        have heq := (List.cons_prefix_cons.mp hcons).1
        exact absurd (heq ▸ by simp) (hc _ hw)
  · exact List.drop_append_of_le_length hws.length_le

/-- Text in which each byte of a word is written as itself, and any other
with that byte first. -/
theorem strip_flatMap {e : UInt8 → Bytes} (hfirst : ∀ c, ∃ r, e c = c :: r)
    (hself : ∀ w ∈ words, ∀ c ∈ w, e c = [c]) (s : Bytes) :
    strip words (s.flatMap e) = (strip words s).flatMap e := by
  have hword : ∀ w, (∀ c ∈ w, e c = [c]) → ∀ s : Bytes,
      (w <+: s.flatMap e ↔ w <+: s) ∧ (w <+: s →
        (s.flatMap e).drop w.length = (s.drop w.length).flatMap e) := by
    intro w hw
    induction w with
    | nil => intro s; simp
    | cons c w ih =>
      intro s
      cases s with
      | nil => simp
      | cons d s =>
        have ih := ih (fun x hx => hw x (.tail _ hx)) s
        obtain ⟨r, hr⟩ := hfirst d
        rw [List.flatMap_cons, hr, List.cons_append,
          List.cons_prefix_cons, List.cons_prefix_cons]
        by_cases hcd : c = d
        · subst hcd
          rw [hw c (.head _)] at hr
          cases hr
          simpa using ih
        · simp [hcd]
  exact strip_comm hne (fun w hw s => (hword w (hself w hw) s).1)
    (fun w hw s => (hword w (hself w hw) s).2) s

end

end Strip

-- ====== reading a line

theorem back_ne_nil : ∀ w ∈ spaces.map List.reverse, w ≠ [] := by decide

/-- Spaces are written as themselves. -/
theorem back_plain : ∀ w ∈ spaces.map List.reverse, ∀ c ∈ w,
    isSpecial c = false ∧ c ≠ 36 ∧ c ≠ 47 := by
  decide +kernel

/-- A byte as `escape` writes it. -/
def escapeByte (c : UInt8) : Bytes :=
  if isSpecial c then [92, c] else if c = 36 then [36, 36] else [c]

theorem escape_eq : escape s = s.flatMap escapeByte := by
  rw [escape, dollars, literal, List.flatMap_assoc]
  congr 1
  funext c
  unfold escapeByte
  split
  next hc =>
    have hne : c ≠ 36 := by
      rintro rfl
      cases hc
    simp [hne]
  · simp

theorem trimBack_escape : trimBack (escape s) = escape (trimBack s) := by
  have hrev : ∀ s : Bytes, (s.flatMap escapeByte).reverse =
      s.reverse.flatMap fun c => (escapeByte c).reverse := by
    intro s
    rw [List.reverse_flatMap]
    rfl
  have hfirst : ∀ c, ∃ r, (escapeByte c).reverse = c :: r := by
    intro c
    unfold escapeByte
    split
    · exact ⟨[92], rfl⟩
    · split
      next hc => exact ⟨[36], by rw [hc]; rfl⟩
      · exact ⟨[], rfl⟩
  have hself : ∀ w ∈ spaces.map List.reverse, ∀ c ∈ w,
      (escapeByte c).reverse = [c] := by
    intro w hw c hc
    obtain ⟨hspecial, hdollar, -⟩ := back_plain w hw c hc
    rw [escapeByte, hspecial, if_neg hdollar]
    rfl
  rw [escape_eq, escape_eq, trimBack, hrev,
    strip_flatMap back_ne_nil hfirst hself]
  rw [← List.reverse_inj, List.reverse_reverse, hrev, trimBack,
    List.reverse_reverse]

/-- What is before a slash stays, and the slash with it. -/
theorem trimBack_slash (s t : Bytes) :
    trimBack (s ++ 47 :: t) = s ++ 47 :: trimBack t := by
  have hrev : (s ++ 47 :: t).reverse = t.reverse ++ 47 :: s.reverse := by simp
  have hslash : ∀ w ∈ spaces.map List.reverse, (47 : UInt8) ∉ w :=
    fun w hw hmem => (back_plain w hw 47 hmem).2.2 rfl
  rw [trimBack, hrev, strip_append back_ne_nil hslash]
  simp [trimBack]

/-- A text that ends in a space. -/
def endsInSpace : Bool := spaces.any fun w => w.isSuffixOf s

theorem trimBack_eq_self_iff {s : Bytes} :
    trimBack s = s ↔ endsInSpace s = false := by
  have hsuffix : endsInSpace s = false ↔
      ∀ w ∈ spaces.map List.reverse, ¬ w <+: s.reverse := by
    rw [endsInSpace, List.any_eq_false, List.forall_mem_map]
    simp only [List.reverse_prefix, List.isSuffixOf_iff_suffix]
  rw [hsuffix]
  constructor
  · intro h
    have hstrip : strip (spaces.map List.reverse) s.reverse = s.reverse := by
      rw [← List.reverse_inj, List.reverse_reverse]
      exact h
    rw [← hstrip]
    exact strip_clear back_ne_nil s.reverse
  · intro h
    rw [trimBack, strip_self h, List.reverse_reverse]

theorem trimBack_trimBack : trimBack (trimBack s) = trimBack s := by
  rw [trimBack, trimBack, List.reverse_reverse,
    strip_self (strip_clear back_ne_nil s.reverse)]

/-- The line of an escaped text that begins with a slash matches the text
without the spaces at its end. -/
theorem read_escaped {classes : Classes} {vars : Bytes → Bytes}
    {s path : Bytes} : (∃ p, readLine vars (escape (47 :: s)) = some p ∧
      Matches classes p path) ↔ path = trimBack (47 :: s) := by
  have htrim : trimSpace (escape (47 :: s)) = escape (47 :: trimBack s) := by
    have hfront : strip spaces (escape (47 :: s)) = escape (47 :: s) := by
      refine strip_self fun w hw hpre => ?_
      obtain ⟨a, -, ha, -, hsolid, -⟩ := spaces_ends w hw
      have hhead := head_of_pre hpre ha
      have hslash : (escape (47 :: s)).head? = some 47 := by
        rw [escape_eq]
        rfl
      rw [hslash] at hhead
      cases hhead
      exact hsolid (by decide)
    have hback := trimBack_escape (47 :: s)
    rw [show (47 : UInt8) :: s = [] ++ 47 :: s from rfl,
      trimBack_slash] at hback
    rw [trimSpace, hfront]
    exact hback
  have hhead : (escape (47 :: trimBack s)).head? = some 47 := by
    rw [escape_eq]
    rfl
  have hne : escape (47 :: trimBack s) ≠ [] := by
    intro hnil
    rw [hnil] at hhead
    cases hhead
  have hexpand : ∀ q, expand vars (escape q).length (escape q) = literal q := by
    intro q
    exact expand_dollars (length_le_dollars (literal q))
  rw [readLine, htrim, if_neg (by simp [hne, hhead]), hexpand]
  rw [show (47 : UInt8) :: s = [] ++ 47 :: s from rfl, trimBack_slash]
  simp [matches_literal]

end Hotserve.Glob
