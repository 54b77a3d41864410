/-
Go's strings and byte slices as lists of bytes, with the few functions
of `strings` and `bytes` the models use. Nothing here is about the
repository: it is the part of the language's library that the source
leans on, each function by what its documentation says.
-/
import Hotserve.Table
import Mathlib.Data.List.Basic

namespace Hotserve

/-- A Go string or byte slice. -/
abbrev Bytes := List UInt8

instance lawfulBytes : LawfulBEq Bytes := inferInstance

instance lawfulPaths : LawfulBEq (List Bytes) := inferInstance

namespace Bytes

/-- A string literal's bytes. -/
def str (s : String) : Bytes := s.toUTF8.data.toList

/-- `strings.Cut` at a one-byte separator: what is before the first one
and what is after it. -/
def cut (sep : UInt8) : Bytes → Option (Bytes × Bytes)
  | [] => none
  | c :: rest =>
    if c = sep then some ([], rest)
    else (cut sep rest).map fun p => (c :: p.1, p.2)

/-- `bytes.Cut` at a non-empty separator. -/
def cutOn (sep : Bytes) : Bytes → Option (Bytes × Bytes)
  | [] => none
  | c :: rest =>
    if sep.isPrefixOf (c :: rest) then some ([], (c :: rest).drop sep.length)
    else (cutOn sep rest).map fun p => (c :: p.1, p.2)

/-- `strings.Split` at a one-byte separator; never empty. -/
def split (sep : UInt8) : Bytes → List Bytes
  | [] => [[]]
  | c :: rest =>
    if c = sep then [] :: split sep rest
    else match split sep rest with
      | [] => [[c]]
      | p :: ps => (c :: p) :: ps

/-- `strings.Replace` of the first occurrence of a non-empty `old`. -/
def replaceFirst (old new : Bytes) : Bytes → Bytes
  | [] => []
  | c :: rest =>
    if old.isPrefixOf (c :: rest) then new ++ (c :: rest).drop old.length
    else c :: replaceFirst old new rest

/-- `strings.TrimPrefix`. -/
def trimPrefix (pre b : Bytes) : Bytes :=
  if pre.isPrefixOf b then b.drop pre.length else b

/-- The runes `unicode.IsSpace` holds of, as UTF-8 writes them. -/
def spaces : List Bytes :=
  [[0x09], [0x0A], [0x0B], [0x0C], [0x0D], [0x20], [0xC2, 0x85], [0xC2, 0xA0],
    [0xE1, 0x9A, 0x80], [0xE2, 0x80, 0x80], [0xE2, 0x80, 0x81],
    [0xE2, 0x80, 0x82], [0xE2, 0x80, 0x83], [0xE2, 0x80, 0x84],
    [0xE2, 0x80, 0x85], [0xE2, 0x80, 0x86], [0xE2, 0x80, 0x87],
    [0xE2, 0x80, 0x88], [0xE2, 0x80, 0x89], [0xE2, 0x80, 0x8A],
    [0xE2, 0x80, 0xA8], [0xE2, 0x80, 0xA9], [0xE2, 0x80, 0xAF],
    [0xE2, 0x81, 0x9F], [0xE3, 0x80, 0x80]]

/-- What is left once no word of `words` is at the front. -/
def strip (words : List Bytes) (s : Bytes) : Bytes :=
  match words.find? (·.isPrefixOf s) with
  | none => s
  | some w =>
    if _h : 0 < w.length ∧ 0 < s.length then strip words (s.drop w.length)
    else s
termination_by s.length
decreasing_by
  rw [List.length_drop]
  omega

/-- `strings.TrimSpace`. A byte that is no rune's is not a space, so from
the back, too, a space is one of those words. -/
def trimSpace (s : Bytes) : Bytes :=
  (strip (spaces.map List.reverse) (strip spaces s).reverse).reverse

/-- A continuation byte within the bounds its lead byte sets. -/
def contIn (lo hi c : UInt8) : Bool := lo ≤ c && c ≤ hi

/-- `utf8.ValidString`: no overlong form, no surrogate, nothing past
U+10FFFF. -/
def validUTF8 : Bytes → Bool
  | [] => true
  | a :: rest =>
    if a < 0x80 then validUTF8 rest
    else match rest with
      | [] => false
      | b :: rest =>
        if 0xC2 ≤ a && a ≤ 0xDF then contIn 0x80 0xBF b && validUTF8 rest
        else match rest with
          | [] => false
          | c :: rest =>
            if 0xE0 ≤ a && a ≤ 0xEF then
              contIn (if a = 0xE0 then 0xA0 else 0x80)
                  (if a = 0xED then 0x9F else 0xBF) b &&
                contIn 0x80 0xBF c && validUTF8 rest
            else match rest with
              | [] => false
              | d :: rest =>
                0xF0 ≤ a && a ≤ 0xF4 &&
                  contIn (if a = 0xF0 then 0x90 else 0x80)
                    (if a = 0xF4 then 0x8F else 0xBF) b &&
                  contIn 0x80 0xBF c && contIn 0x80 0xBF d &&
                  validUTF8 rest

/-- Digits and `a` to `f`. -/
def isLowerHex (s : Bytes) : Bool :=
  s.all fun c => (48 ≤ c && c ≤ 57) || (97 ≤ c && c ≤ 102)

/-- A lowercase hexadecimal digit. -/
def hexDigit (n : Nat) : UInt8 := .ofNat (if n < 10 then 48 + n else 87 + n)

end Bytes

/-- A Go `map[string]string` as its pairs in key order, which is how
`slices.Sorted(maps.Keys(m))` walks it. -/
structure StrMap where
  entries : List (Bytes × Bytes)
  sorted : (entries.map Prod.fst).Pairwise (· < ·)
  deriving DecidableEq

namespace StrMap

def empty : StrMap := ⟨[], .nil⟩

/-- `m[key]`, with whether it is there. -/
def get? (m : StrMap) (key : Bytes) : Option Bytes := m.entries.lookup key

theorem get?_eq_some_iff {m : StrMap} {p : Bytes × Bytes} :
    m.get? p.1 = some p.2 ↔ p ∈ m.entries := by
  refine lookup_eq_some_iff (List.Pairwise.imp ?_ m.sorted)
  rintro a _ hlt rfl
  exact List.lt_irrefl a hlt

end StrMap

end Hotserve
