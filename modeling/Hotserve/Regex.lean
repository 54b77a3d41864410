/-
Anchored regular expressions over bytes, with captures.

# The shape

Go's `regexp` prefers, among the ways an expression can match, the one a
backtracking search would come to first. `run` is that search: the ways
an expression matches the front of a string, in the order they are tried,
each with its captures and what it leaves. `submatch` takes the first
that leaves nothing, which is `^(?:r)$`.

# Reading

`Reads r w c` says that `r` can be read over exactly `w` with captures
`c`, whatever the order. `mem_run` ties the two together, so a string
with one reading has that reading's captures (`submatch_eq`) and no
proof about a particular expression follows the search.
-/
import Hotserve.Bytes

namespace Hotserve

/-- A literal, a class repeated greedily between two counts, one after
another, a capturing group, and `(…)?`. -/
inductive Regex
  | lit (s : Bytes)
  | rep (p : UInt8 → Bool) (lo hi : Nat)
  | seq (r s : Regex)
  | group (r : Regex)
  | opt (r : Regex)

namespace Regex

/-- How many groups it has. -/
def groups : Regex → Nat
  | .lit _ | .rep .. => 0
  | .seq r s => r.groups + s.groups
  | .group r => r.groups + 1
  | .opt r => r.groups

/-- The ways it matches the front of a string, the preferred one first. -/
def run : Regex → Bytes → List (List Bytes × Bytes)
  | .lit s, b => if s.isPrefixOf b then [([], b.drop s.length)] else []
  | .rep p lo hi, b =>
    let most := min hi (b.takeWhile p).length
    ((List.range (most + 1)).reverse.filter (lo ≤ ·)).map
      fun n => ([], b.drop n)
  | .seq r s, b =>
    (r.run b).flatMap fun x => (s.run x.2).map fun y => (x.1 ++ y.1, y.2)
  | .group r, b =>
    (r.run b).map fun x => (b.take (b.length - x.2.length) :: x.1, x.2)
  | .opt r, b => r.run b ++ [(List.replicate r.groups [], b)]

/-- `FindStringSubmatch` between `^` and `$`, less the whole match. -/
def submatch (r : Regex) (b : Bytes) : Option (List Bytes) :=
  ((r.run b).find? fun x => x.2.isEmpty).map Prod.fst

/-- `MatchString` between `^` and `$`. -/
def matchString (r : Regex) (b : Bytes) : Bool := (r.submatch b).isSome

/-- The expression can be read over the whole of `w`, capturing `c`. -/
def Reads : Regex → Bytes → List Bytes → Prop
  | .lit s, w, c => w = s ∧ c = []
  | .rep p lo hi, w, c =>
    lo ≤ w.length ∧ w.length ≤ hi ∧ (∀ a ∈ w, p a = true) ∧ c = []
  | .seq r s, w, c => ∃ w₁ w₂ c₁ c₂, w = w₁ ++ w₂ ∧ c = c₁ ++ c₂ ∧
      r.Reads w₁ c₁ ∧ s.Reads w₂ c₂
  | .group r, w, c => ∃ c', c = w :: c' ∧ r.Reads w c'
  | .opt r, w, c => r.Reads w c ∨ w = [] ∧ c = List.replicate r.groups []

-- ====== the search

variable {b rest : Bytes} {c : List Bytes} {r : Regex}

private theorem mem_run_lit {s : Bytes} :
    (c, rest) ∈ (lit s).run b ↔ ∃ w, b = w ++ rest ∧ (lit s).Reads w c := by
  simp only [run, Reads]
  constructor
  · intro h
    split at h
    next hpre =>
      obtain ⟨t, rfl⟩ := List.isPrefixOf_iff_prefix.mp hpre
      simp only [List.drop_left, List.mem_singleton, Prod.mk.injEq] at h
      obtain ⟨rfl, rfl⟩ := h
      exact ⟨s, rfl, rfl, rfl⟩
    next => cases h
  · rintro ⟨w, rfl, rfl, rfl⟩
    rw [if_pos (List.isPrefixOf_iff_prefix.mpr ⟨rest, rfl⟩), List.drop_left]
    exact List.mem_singleton.mpr rfl

/-- A front of a string is in a class iff it is within the longest. -/
private theorem all_take_iff {p : UInt8 → Bool} {n : Nat} (hn : n ≤ b.length) :
    (∀ a ∈ b.take n, p a = true) ↔ n ≤ (b.takeWhile p).length := by
  induction b generalizing n with
  | nil => simpa using hn
  | cons x b ih =>
    cases n with
    | zero => simp
    | succ n =>
      rw [List.length_cons] at hn
      have hrest := ih (Nat.le_of_succ_le_succ hn)
      cases hx : p x with
      | false => simp [hx]
      | true => simp [hx, hrest]

private theorem mem_run_rep {p : UInt8 → Bool} {lo hi : Nat} :
    (c, rest) ∈ (rep p lo hi).run b ↔
      ∃ w, b = w ++ rest ∧ (rep p lo hi).Reads w c := by
  simp only [run, Reads, List.mem_map, List.mem_filter, List.mem_reverse,
    List.mem_range, decide_eq_true_eq, Prod.mk.injEq]
  constructor
  · rintro ⟨n, ⟨hmost, hlo⟩, rfl, rfl⟩
    have hlen : n ≤ b.length := by
      have := (List.takeWhile_prefix p (l := b)).length_le
      omega
    have htake : (b.take n).length = n := List.length_take_of_le hlen
    refine ⟨b.take n, (List.take_append_drop n b).symm, ?_, ?_, ?_, rfl⟩
    · rwa [htake]
    · rw [htake]
      omega
    · exact (all_take_iff hlen).mpr (by omega)
  · rintro ⟨w, rfl, hlo, hhi, hall, rfl⟩
    refine ⟨w.length, ⟨?_, hlo⟩, rfl, List.drop_left⟩
    have hlong : w.length ≤ ((w ++ rest).takeWhile p).length := by
      rw [← all_take_iff (by simp), List.take_left]
      exact hall
    omega

/-- The search finds every reading of a front, and nothing else. -/
theorem mem_run : (c, rest) ∈ r.run b ↔ ∃ w, b = w ++ rest ∧ r.Reads w c := by
  induction r generalizing b rest c with
  | lit s => exact mem_run_lit
  | rep p lo hi => exact mem_run_rep
  | seq r s ihr ihs =>
    simp only [run, Reads, List.mem_flatMap, List.mem_map, Prod.exists,
      Prod.mk.injEq]
    constructor
    · rintro ⟨c₁, mid, hr, c₂, rest, hs, rfl, rfl⟩
      obtain ⟨w₁, rfl, h₁⟩ := ihr.mp hr
      obtain ⟨w₂, rfl, h₂⟩ := ihs.mp hs
      exact ⟨w₁ ++ w₂, by simp, w₁, w₂, c₁, c₂, rfl, rfl, h₁, h₂⟩
    · rintro ⟨w, rfl, w₁, w₂, c₁, c₂, rfl, rfl, h₁, h₂⟩
      exact ⟨c₁, w₂ ++ rest, ihr.mpr ⟨w₁, by simp, h₁⟩, c₂, rest,
        ihs.mpr ⟨w₂, rfl, h₂⟩, rfl, rfl⟩
  | group r ih =>
    simp only [run, Reads, List.mem_map, Prod.exists, Prod.mk.injEq]
    constructor
    · rintro ⟨c', rest', hr, rfl, rfl⟩
      obtain ⟨w, rfl, hw⟩ := ih.mp hr
      exact ⟨w, rfl, c', by simp, hw⟩
    · rintro ⟨w, rfl, c', rfl, hw⟩
      exact ⟨c', rest, ih.mpr ⟨w, rfl, hw⟩, by simp, rfl⟩
  | opt r ih =>
    simp only [run, Reads, List.mem_append, List.mem_singleton, Prod.mk.injEq]
    constructor
    · rintro (hr | ⟨rfl, rfl⟩)
      · obtain ⟨w, hb, hw⟩ := ih.mp hr
        exact ⟨w, hb, .inl hw⟩
      · exact ⟨[], rfl, .inr ⟨rfl, rfl⟩⟩
    · rintro ⟨w, rfl, hw | ⟨rfl, rfl⟩⟩
      · exact .inl (ih.mpr ⟨w, rfl, hw⟩)
      · exact .inr ⟨rfl, rfl⟩

-- ====== a match

/-- What a match captures is a reading of the whole string. -/
theorem submatch_reads (h : r.submatch b = some c) : r.Reads b c := by
  obtain ⟨⟨c', rest⟩, hfind, rfl⟩ := Option.map_eq_some_iff.mp h
  obtain ⟨w, rfl, hw⟩ := mem_run.mp (List.mem_of_find?_eq_some hfind)
  have hrest : rest = [] := by simpa using List.find?_some hfind
  rwa [hrest, List.append_nil]

theorem matchString_iff : r.matchString b = true ↔ ∃ c, r.Reads b c := by
  rw [matchString, Option.isSome_iff_exists]
  constructor
  · rintro ⟨c, hc⟩
    exact ⟨c, submatch_reads hc⟩
  · rintro ⟨c, hc⟩
    have hmem : (c, []) ∈ r.run b := mem_run.mpr ⟨b, by simp, hc⟩
    have hsome : ((r.run b).find? fun x => x.2.isEmpty).isSome := by
      rw [List.find?_isSome]
      exact ⟨(c, []), hmem, rfl⟩
    obtain ⟨x, hx⟩ := Option.isSome_iff_exists.mp hsome
    exact ⟨x.1, by rw [submatch, hx]; rfl⟩

/-- A string with one reading is captured as that reading says. -/
theorem submatch_eq (h : r.Reads b c) (hone : ∀ c', r.Reads b c' → c' = c) :
    r.submatch b = some c := by
  have hsome : (r.submatch b).isSome := matchString_iff.mpr ⟨c, h⟩
  obtain ⟨c', hc'⟩ := Option.isSome_iff_exists.mp hsome
  rw [hc', hone c' (submatch_reads hc')]

end Regex

end Hotserve
