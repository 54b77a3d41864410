/-
Go's strconv.Quote over byte strings.

A string is read a piece at a time, as a range over it does: a rune, or
one byte where no valid encoding begins. A piece is written as it is if
it is printable, and with an escape if not; what is printable is a
parameter. An escape says which piece it stands for and where it ends
(`unescape_escape`), and no piece is written with a quote first. So a
quoted text is told from whatever follows it (`quote_inj`).
-/
import Hotserve.Bytes
import Mathlib.Algebra.Group.Nat.Defs

namespace Hotserve.Quote

open Bytes
open String (utf8EncodeChar)

-- ====== the pieces

/-- The rune a text begins with; none where no valid encoding begins. -/
def firstRune (s : Bytes) : Option Char := s.toByteArray.utf8DecodeChar? 0

/-- A rune, or a byte that is part of none. -/
inductive Piece
  | rune (c : Char)
  | byte (b : UInt8)

/-- The bytes a piece was read from. -/
def Piece.source : Piece → Bytes
  | .rune c => utf8EncodeChar c
  | .byte b => [b]

/-- The rune a range gives: for a lone byte, the replacement character. -/
def Piece.char : Piece → Char
  | .rune c => c
  | .byte _ => Char.ofNat 0xFFFD

/-- The pieces of a text, the bytes of the last rune skipped first. -/
def piecesFrom : Nat → Bytes → List Piece
  | _, [] => []
  | n + 1, _ :: s => piecesFrom n s
  | 0, b :: s =>
    match firstRune (b :: s) with
    | some c => .rune c :: piecesFrom (c.utf8Size - 1) s
    | none => .byte b :: piecesFrom 0 s

def pieces (s : Bytes) : List Piece := piecesFrom 0 s

-- ====== the literal

/-- The last `w` hexadecimal digits. -/
def hex : Nat → Nat → Bytes
  | 0, _ => []
  | w + 1, n => hexDigit (n / 16 ^ w % 16) :: hex w n

/-- The controls that have a letter. -/
def letters : List (Nat × UInt8) :=
  [(7, 97), (8, 98), (12, 102), (10, 110), (13, 114), (9, 116), (11, 118)]

/-- A piece in a literal. -/
def escape (isPrint : Char → Bool) : Piece → Bytes
  | .byte b => 92 :: 120 :: hex 2 b.toNat
  | .rune c =>
    let n := c.toNat
    if n = 34 ∨ n = 92 then [92, .ofNat n]
    else if isPrint c then utf8EncodeChar c
    else
      match letters.lookup n with
      | some k => [92, k]
      | none =>
        if n < 32 ∨ n = 127 then 92 :: 120 :: hex 2 n
        else if n < 0x10000 then 92 :: 117 :: hex 4 n
        else 92 :: 85 :: hex 8 n

/-- `strconv.Quote`. -/
def quote (isPrint : Char → Bool) (s : Bytes) : Bytes :=
  34 :: ((pieces s).flatMap (escape isPrint) ++ [34])

-- ====== UTF-8

variable {c : Char} {b : UInt8} {s t x y : Bytes} {p q : Piece}
  {isPrint : Char → Bool}

theorem encode_ascii (h : c.toNat < 128) :
    utf8EncodeChar c = [UInt8.ofNat c.toNat] :=
  if_pos (Nat.le_of_lt_succ h)

/-- An ASCII byte is in the encoding of its own rune only. -/
theorem mem_encode (hb : b ∈ utf8EncodeChar c) (h : b.toNat < 128) :
    c.toNat = b.toNat := by
  by_cases hc : c.toNat < 128
  · rw [encode_ascii hc, List.mem_singleton] at hb
    rw [hb, UInt8.toNat_ofNat', Nat.mod_eq_of_lt (by omega)]
  -- every byte of a longer one has the high bit
  have hlead : ∀ n, 128 ≤ n ∧ n < 256 → b ≠ UInt8.ofNat n := by
    rintro n hn rfl
    rw [UInt8.toNat_ofNat', Nat.mod_eq_of_lt hn.2] at h
    omega
  rw [utf8EncodeChar, if_neg (show ¬ c.val.toNat ≤ 127 from
    fun hle => hc (Nat.lt_succ_of_le hle))] at hb
  split at hb <;> [skip; split at hb] <;>
    simp only [List.mem_cons, List.not_mem_nil, or_false] at hb
  · rcases hb with hb | hb <;> exact absurd hb (hlead _ (by omega))
  · rcases hb with hb | hb | hb <;> exact absurd hb (hlead _ (by omega))
  · rcases hb with hb | hb | hb | hb <;> exact absurd hb (hlead _ (by omega))

theorem firstRune_encode : firstRune (utf8EncodeChar c ++ x) = some c := by
  rw [firstRune, List.toByteArray_append]
  exact ByteArray.utf8DecodeChar?_utf8EncodeChar_append

theorem firstRune_eq_some (h : firstRune s = some c) :
    ∃ t, s = utf8EncodeChar c ++ t := by
  obtain ⟨l, hl⟩ := ByteArray.exists_of_utf8DecodeChar?_eq_some h
  refine ⟨l.data.toList, ?_⟩
  have hdata := congrArg (fun b => b.data.toList) hl
  simpa using hdata

/-- A rune begins with every ASCII byte. -/
theorem firstRune_ascii (h : b.toNat < 128) :
    firstRune (b :: s) = some (Char.ofNat b.toNat) := by
  have hall : ∀ n < 128, utf8EncodeChar (Char.ofNat n) = [UInt8.ofNat n] := by
    decide +kernel
  have hb := hall b.toNat h
  rw [UInt8.ofNat_toNat] at hb
  rw [← List.singleton_append, ← hb]
  exact firstRune_encode

-- ====== the pieces are the text

theorem piecesFrom_length : piecesFrom t.length (t ++ s) = pieces s := by
  induction t with
  | nil => rfl
  | cons b t ih => exact ih

/-- What is read first, and the rest. -/
theorem pieces_cons :
    ∃ p t, pieces (b :: s) = p :: pieces t ∧ b :: s = p.source ++ t ∧
      (∀ b', p = .byte b' → 128 ≤ b'.toNat) := by
  cases hfirst : firstRune (b :: s) with
  | some c =>
    obtain ⟨t, ht⟩ := firstRune_eq_some hfirst
    refine ⟨.rune c, t, ?_, ht, by rintro b' ⟨⟩⟩
    have hlen := String.length_utf8EncodeChar c
    cases henc : utf8EncodeChar c with
    | nil =>
      rw [henc] at hlen
      exact absurd hlen.symm (Nat.ne_of_gt c.utf8Size_pos)
    | cons b' u =>
      rw [henc] at ht hlen
      obtain ⟨-, rfl⟩ := List.cons.inj ht
      rw [pieces, piecesFrom, hfirst]
      dsimp only
      rw [← hlen]
      exact congrArg _ piecesFrom_length
  | none =>
    refine ⟨.byte b, s, ?_, rfl, ?_⟩
    · rw [pieces, piecesFrom, hfirst]
      rfl
    · rintro b' ⟨⟩
      by_contra hlt
      rw [firstRune_ascii (by omega)] at hfirst
      cases hfirst

theorem source_ne_nil : p.source ≠ [] := by
  cases p with
  | byte b => simp [Piece.source]
  | rune c =>
    rw [Piece.source, ← List.length_pos_iff, String.length_utf8EncodeChar]
    exact c.utf8Size_pos

/-- The pieces of a text, in order; a lone byte is not ASCII. -/
theorem pieces_source (s : Bytes) : (pieces s).flatMap Piece.source = s ∧
    ∀ b, .byte b ∈ pieces s → 128 ≤ b.toNat := by
  induction hn : s.length using Nat.strongRecOn generalizing s with
  | ind n ih =>
    cases s with
    | nil => exact ⟨rfl, fun b hb => by cases hb⟩
    | cons b s =>
      obtain ⟨p, t, hp, hs, hbyte⟩ := pieces_cons
      have hlen : t.length < n := by
        have := List.length_pos_iff.mpr (source_ne_nil (p := p))
        rw [← hn, hs, List.length_append]
        omega
      obtain ⟨hsource, hbytes⟩ := ih _ hlen t rfl
      rw [hp]
      refine ⟨by rw [List.flatMap_cons, hsource, hs], fun b' hb' => ?_⟩
      rcases List.mem_cons.mp hb' with hb' | hb'
      · exact hbyte b' hb'.symm
      · exact hbytes b' hb'

/-- An ASCII byte of a text is one of its runes. -/
theorem mem_pieces (hb : b ∈ s) (h : b.toNat < 128) :
    ∃ p ∈ pieces s, p.char.toNat = b.toNat := by
  obtain ⟨hsource, hbytes⟩ := pieces_source s
  rw [← hsource] at hb
  obtain ⟨p, hp, hbp⟩ := List.mem_flatMap.mp hb
  refine ⟨p, hp, ?_⟩
  cases p with
  | rune c => exact mem_encode hbp h
  | byte b' =>
    obtain rfl := List.mem_singleton.mp hbp
    exact absurd (hbytes b hp) (by omega)

-- ====== reading a literal

def digitVal (c : UInt8) : Nat :=
  if c.toNat < 58 then c.toNat - 48 else c.toNat - 87

theorem digitVal_hexDigit : ∀ n < 16, digitVal (hexDigit n) = n := by
  decide +kernel

/-- The number in the first `w` digits. -/
def unhex (w : Nat) (s : Bytes) : Nat :=
  (s.take w).foldl (fun n c => 16 * n + digitVal c) 0

theorem hex_length (w n : Nat) : (hex w n).length = w := by
  induction w with
  | zero => rfl
  | succ w ih => rw [hex, List.length_cons, ih]

theorem foldl_hex (w n acc : Nat) :
    (hex w n).foldl (fun n c => 16 * n + digitVal c) acc =
      16 ^ w * acc + n % 16 ^ w := by
  induction w generalizing acc with
  | zero => simp [hex, Nat.mod_one]
  | succ w ih =>
    rw [hex, List.foldl_cons, ih,
      digitVal_hexDigit _ (Nat.mod_lt _ (by decide)), Nat.pow_succ,
      Nat.mod_mul, Nat.mul_add, Nat.mul_assoc]
    omega

theorem unhex_hex {w n : Nat} (h : n < 16 ^ w) :
    unhex w (hex w n ++ x) = n := by
  rw [unhex, List.take_left' (hex_length w n), foldl_hex, Nat.mod_eq_of_lt h]
  simp

theorem drop_hex {w n : Nat} : (hex w n ++ x).drop w = x :=
  List.drop_left' (hex_length w n)

/-- The bytes the first piece of a literal stands for, and what is behind
it. -/
def unescape : Bytes → Bytes × Bytes
  | 92 :: k :: s =>
    if k = 120 then ([.ofNat (unhex 2 s)], s.drop 2)
    else if k = 117 then (utf8EncodeChar (.ofNat (unhex 4 s)), s.drop 4)
    else if k = 85 then (utf8EncodeChar (.ofNat (unhex 8 s)), s.drop 8)
    else
      match letters.find? fun l => l.2 == k with
      | some l => ([.ofNat l.1], s)
      | none => ([k], s)
  | s =>
    match firstRune s with
    | some c => (utf8EncodeChar c, s.drop c.utf8Size)
    | none => ([], s)

theorem unescape_encode (h : c.toNat ≠ 92) :
    unescape (utf8EncodeChar c ++ x) = (utf8EncodeChar c, x) := by
  unfold unescape
  split
  next k s heq =>
    refine absurd ?_ h
    refine mem_encode (b := 92) ?_ (by decide)
    cases henc : utf8EncodeChar c with
    | nil => exact absurd henc (source_ne_nil (p := .rune c))
    | cons b t =>
      rw [henc] at heq
      obtain ⟨rfl, -⟩ := List.cons.inj heq
      exact .head _
  next =>
    rw [firstRune_encode]
    simp only [Prod.mk.injEq, true_and]
    exact List.drop_left' (String.length_utf8EncodeChar c)

theorem unescape_escape (p : Piece) (x : Bytes) :
    unescape (escape isPrint p ++ x) = (p.source, x) := by
  cases p with
  | byte b =>
    have hn : unhex 2 (hex 2 b.toNat ++ x) = b.toNat :=
      unhex_hex b.toNat_lt
    simp [escape, unescape, hn, drop_hex, Piece.source]
  | rune c =>
    have hc : c.toNat < 0x110000 := by
      have hvalid : c.toNat < 0xd800 ∨ 0xdfff < c.toNat ∧ c.toNat < 0x110000 :=
        c.valid
      omega
    rw [escape]
    dsimp only [Piece.source]
    split
    next hq =>
      rcases hq with hq | hq <;> rw [hq, encode_ascii (by omega), hq] <;> rfl
    next hq =>
      rw [not_or] at hq
      split
      · exact unescape_encode hq.2
      split
      next k hk =>
        have hmem : (c.toNat, k) ∈ letters := by
          obtain ⟨l₁, l₂, hl, -⟩ := List.lookup_eq_some_iff.mp hk
          rw [hl]
          simp
        simp only [letters, List.mem_cons, Prod.mk.injEq, List.not_mem_nil,
          or_false] at hmem
        rw [encode_ascii (by omega)]
        rcases hmem with ⟨hn, rfl⟩ | ⟨hn, rfl⟩ | ⟨hn, rfl⟩ | ⟨hn, rfl⟩ |
          ⟨hn, rfl⟩ | ⟨hn, rfl⟩ | ⟨hn, rfl⟩ <;> rw [hn] <;> rfl
      next =>
        split
        next hlt =>
          have hn : unhex 2 (hex 2 c.toNat ++ x) = c.toNat :=
            unhex_hex (by omega)
          simp [unescape, hn, drop_hex, encode_ascii (c := c) (by omega)]
        split
        next hlt =>
          have hn : unhex 4 (hex 4 c.toNat ++ x) = c.toNat := unhex_hex hlt
          simp [unescape, hn, drop_hex]
        next =>
          have hn : unhex 8 (hex 8 c.toNat ++ x) = c.toNat :=
            unhex_hex (by omega)
          simp [unescape, hn, drop_hex]

/-- No piece is written with a quote first. -/
theorem escape_head : ∃ k t, escape isPrint p = k :: t ∧ k ≠ 34 := by
  cases p with
  | byte b => exact ⟨92, _, rfl, by decide⟩
  | rune c =>
    rw [escape]
    split
    · exact ⟨92, _, rfl, by decide⟩
    next hq =>
      rw [not_or] at hq
      split
      · cases henc : utf8EncodeChar c with
        | nil => exact absurd henc (source_ne_nil (p := .rune c))
        | cons b t =>
          refine ⟨b, t, rfl, ?_⟩
          rintro rfl
          have hmem : (34 : UInt8) ∈ utf8EncodeChar c := by simp [henc]
          exact hq.1 (mem_encode hmem (by decide))
      split
      · exact ⟨92, _, rfl, by decide⟩
      split
      · exact ⟨92, _, rfl, by decide⟩
      split
      · exact ⟨92, _, rfl, by decide⟩
      · exact ⟨92, _, rfl, by decide⟩

/-- A literal's body ends at the first quote that begins a piece. -/
theorem body_inj {ps qs : List Piece}
    (h : ps.flatMap (escape isPrint) ++ 34 :: x =
      qs.flatMap (escape isPrint) ++ 34 :: y) :
    ps.flatMap Piece.source = qs.flatMap Piece.source ∧ x = y := by
  induction ps generalizing qs with
  | nil =>
    cases qs with
    | nil => exact ⟨rfl, (List.cons.inj h).2⟩
    | cons q qs =>
      obtain ⟨k, t, hk, hne⟩ := escape_head
      rw [List.flatMap_nil, List.flatMap_cons, hk] at h
      exact absurd (List.cons.inj h).1.symm hne
  | cons p ps ih =>
    cases qs with
    | nil =>
      obtain ⟨k, t, hk, hne⟩ := escape_head
      rw [List.flatMap_nil, List.flatMap_cons, hk] at h
      exact absurd (List.cons.inj h).1 hne
    | cons q qs =>
      rw [List.flatMap_cons, List.flatMap_cons, List.append_assoc,
        List.append_assoc] at h
      have hboth := congrArg unescape h
      rw [unescape_escape, unescape_escape] at hboth
      obtain ⟨hsource, hrest⟩ := Prod.mk.inj hboth
      obtain ⟨hsources, hxy⟩ := ih hrest
      exact ⟨by rw [List.flatMap_cons, List.flatMap_cons, hsource, hsources],
        hxy⟩

/-- A quoted text is told from what follows it. -/
theorem quote_inj (h : quote isPrint s ++ x = quote isPrint t ++ y) :
    s = t ∧ x = y := by
  simp only [quote, List.cons_append, List.append_assoc, List.cons.injEq,
    true_and, List.nil_append] at h
  obtain ⟨hsources, hxy⟩ := body_inj h
  rw [(pieces_source s).1, (pieces_source t).1] at hsources
  exact ⟨hsources, hxy⟩

example : quote (fun c => decide (32 ≤ c.toNat ∧ c.toNat < 127))
    (str "a \"b\\\n" ++ [0xc3, 0xa9, 0xff]) =
      str "\"a \\\"b\\\\\\n\\u00e9\\xff\"" := by
  decide +kernel

end Hotserve.Quote
