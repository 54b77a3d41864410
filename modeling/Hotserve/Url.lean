/-
Go's net/url as far as a parsed URL is read: the escaping of a path
(`EscapedPath`, `PathUnescape`) and the host apart from its port
(`Hostname`, `Port`), each by what the package does. Nothing here is
about the repository.

An escape is three bytes, and unescaping reads a string from the left,
so where a byte of the result comes from is an induction over that
reading (`unescape_mem`).
-/
import Hotserve.Text

namespace Hotserve

namespace Bytes

/-- `strings.Contains`. -/
def includes (sub : Bytes) : Bytes → Bool
  | [] => sub.isEmpty
  | c :: rest => sub.isPrefixOf (c :: rest) || includes sub rest

theorem includes_of_infix {sub s : Bytes} (h : sub <:+: s) :
    includes sub s = true := by
  induction s with
  | nil =>
    rw [List.infix_nil.mp h]
    rfl
  | cons c rest ih =>
    rw [includes, Bool.or_eq_true, List.isPrefixOf_iff_prefix]
    exact (List.infix_cons_iff.mp h).imp id ih

/-- A part of a split is a piece of it. -/
theorem infix_of_mem_split {sep : UInt8} {p c : Bytes}
    (h : c ∈ split sep p) : c <:+: p := by
  -- the first part is where the string begins
  have hboth : (∀ q qs, split sep p = q :: qs → q <+: p) ∧
      ∀ c ∈ split sep p, c <:+: p := by
    clear h
    induction p with
    | nil => simp [split]
    | cons d rest ih =>
      rw [split]
      split
      · refine ⟨fun q qs heq => ?_, fun c hc => ?_⟩
        · cases heq
          exact List.nil_prefix
        · rcases List.mem_cons.mp hc with rfl | hc
          · exact List.nil_infix
          · exact (ih.2 c hc).trans (List.suffix_cons d rest).isInfix
      · cases hsplit : split sep rest with
        | nil => exact absurd hsplit (split_ne_nil rest)
        | cons q qs =>
          rw [hsplit] at ih
          have hq : d :: q <+: d :: rest :=
            List.cons_prefix_cons.mpr ⟨rfl, ih.1 q qs rfl⟩
          refine ⟨fun r rs heq => ?_, fun c hc => ?_⟩
          · cases heq
            exact hq
          · rcases List.mem_cons.mp hc with rfl | hc
            · exact hq.isInfix
            · exact (ih.2 c (.tail _ hc)).trans
                (List.suffix_cons d rest).isInfix
  exact hboth.2 c h

def isASCII (s : Bytes) : Bool := s.all fun c => c < 0x80

/-- A letter of ASCII in lower case. -/
def lowerByte (c : UInt8) : UInt8 := if 65 ≤ c && c ≤ 90 then c + 32 else c

/-- `strings.TrimSuffix`. -/
def trimSuffix (suffix s : Bytes) : Bytes :=
  if suffix.isSuffixOf s then s.take (s.length - suffix.length) else s

theorem trimSuffix_append (suffix s : Bytes) :
    trimSuffix suffix (s ++ suffix) = s := by
  have h : suffix.isSuffixOf (s ++ suffix) = true :=
    List.isSuffixOf_iff_suffix.mpr (List.suffix_append s suffix)
  rw [trimSuffix, if_pos h, List.length_append, Nat.add_sub_cancel,
    List.take_left]

theorem trimPrefix_append (pre s : Bytes) : trimPrefix pre (pre ++ s) = s := by
  have h : pre.isPrefixOf (pre ++ s) = true :=
    List.isPrefixOf_iff_prefix.mpr (List.prefix_append pre s)
  rw [trimPrefix, if_pos h, List.drop_left]

end Bytes

namespace Url

open Bytes

/-- `url.URL`, what is read of it. -/
structure URL where
  scheme : Bytes
  host : Bytes
  path : Bytes
  rawPath : Bytes
  rawQuery : Bytes

-- ====== escaping

def isAlnum (c : UInt8) : Bool :=
  (97 ≤ c && c ≤ 122) || (65 ≤ c && c ≤ 90) || (48 ≤ c && c ≤ 57)

/-- `shouldEscape` in a path. -/
def shouldEscape (c : UInt8) : Bool :=
  if isAlnum c then false
  else if (str "-_.~").contains c then false
  else if (str "$&+,/:;=@").contains c then false
  else true

/-- The value of a hexadecimal digit. -/
def unhex (c : UInt8) : Option UInt8 :=
  if 48 ≤ c && c ≤ 57 then some (c - 48)
  else if 97 ≤ c && c ≤ 102 then some (c - 97 + 10)
  else if 65 ≤ c && c ≤ 70 then some (c - 65 + 10)
  else none

/-- `unescape`, in a path. -/
def unescape : Bytes → Option Bytes
  | [] => some []
  | c :: rest =>
    if c = 37 then
      match rest with
      | h :: l :: rest =>
        match unhex h, unhex l with
        | some hi, some lo => (unescape rest).map fun d => (hi * 16 + lo) :: d
        | _, _ => none
      | _ => none
    else (unescape rest).map fun d => c :: d

/-- `url.PathUnescape`. -/
def pathUnescape (s : Bytes) : Option Bytes := unescape s

def upperHex (n : UInt8) : UInt8 := if n < 10 then 48 + n else 55 + n

/-- `escape`, in a path. -/
def escape (s : Bytes) : Bytes :=
  s.flatMap fun c =>
    if shouldEscape c then [37, upperHex (c / 16), upperHex (c % 16)] else [c]

/-- `validEncoded`, in a path. -/
def validEncoded (s : Bytes) : Bool :=
  s.all fun c => (str "!$&'()*+,;=:@[]%").contains c || !shouldEscape c

/-- `EscapedPath`. -/
def URL.escapedPath (u : URL) : Bytes :=
  if u.rawPath ≠ [] ∧ validEncoded u.rawPath ∧
      unescape u.rawPath = some u.path then u.rawPath
  else if u.path = str "*" then str "*"
  else escape u.path

-- ====== the host

/-- `validOptionalPort`. -/
def validOptionalPort : Bytes → Bool
  | [] => true
  | c :: rest => c == 58 && rest.all fun d => 48 ≤ d && d ≤ 57

/-- `splitHostPort`. -/
def splitHostPort (hostPort : Bytes) : Bytes × Bytes :=
  -- from the back to the last colon
  let port := (hostPort.reverse.takeWhile (· != 58)).reverse
  let (host, port) :=
    if hostPort.contains 58 && validOptionalPort (58 :: port) then
      (hostPort.take (hostPort.length - port.length - 1), port)
    else (hostPort, [])
  (if host.head? = some 91 ∧ host.getLast? = some 93 then
      (host.drop 1).dropLast
    else host, port)

def URL.hostname (u : URL) : Bytes := (splitHostPort u.host).1

def URL.port (u : URL) : Bytes := (splitHostPort u.host).2

-- ====== what is read

variable {c : UInt8} {d s : Bytes}

theorem unescape_cons_ne (h : c ≠ 37) (rest : Bytes) :
    unescape (c :: rest) = (unescape rest).map fun d => c :: d := by
  rw [unescape.eq_def]
  exact if_neg h

/-- What an escape is read as. -/
theorem unescape_escape {rest : Bytes} (h : unescape (37 :: rest) = some d) :
    ∃ x y more hi lo d', rest = x :: y :: more ∧ unhex x = some hi ∧
      unhex y = some lo ∧ unescape more = some d' ∧
      d = (hi * 16 + lo) :: d' := by
  rw [unescape.eq_def] at h
  simp only [↓reduceIte] at h
  split at h
  next x y more =>
    split at h
    next hi lo hx hy =>
      obtain ⟨d', hd', rfl⟩ := Option.map_eq_some_iff.mp h
      exact ⟨x, y, more, hi, lo, d', rfl, hx, hy, hd', rfl⟩
    · cases h
  · cases h

theorem unescape_ne_nil (h : unescape s = some d) (hs : s ≠ []) : d ≠ [] := by
  cases s with
  | nil => exact absurd rfl hs
  | cons c rest =>
    by_cases hc : c = 37
    · subst hc
      obtain ⟨_, _, _, _, _, _, -, -, -, -, rfl⟩ := unescape_escape h
      simp
    · rw [unescape_cons_ne hc] at h
      obtain ⟨d', -, rfl⟩ := Option.map_eq_some_iff.mp h
      simp

/-- Where a byte of what was read comes from: itself, or an escape. -/
theorem unescape_mem (h : unescape s = some d) {b : UInt8}
    (hb : b ∈ d) : b ∈ s ∨ ∃ x y hi lo, [37, x, y] <:+: s ∧
      unhex x = some hi ∧ unhex y = some lo ∧ b = hi * 16 + lo := by
  induction hn : s.length using Nat.strongRecOn generalizing s d with
  | _ n ih =>
    cases s with
    | nil =>
      cases h
      cases hb
    | cons c rest =>
      by_cases hc : c = 37
      · subst hc
        obtain ⟨x, y, more, hi, lo, d', rfl, hx, hy, hd', rfl⟩ :=
          unescape_escape h
        rcases List.mem_cons.mp hb with rfl | hb
        · refine .inr ⟨x, y, hi, lo, ?_, hx, hy, rfl⟩
          exact (List.prefix_append [37, x, y] more).isInfix
        · have hlt : more.length < n := by
            rw [← hn]
            simp only [List.length_cons]
            omega
          have htail : more <:+: 37 :: x :: y :: more :=
            (List.suffix_append [37, x, y] more).isInfix
          rcases ih _ hlt hd' hb rfl with hmem | ⟨x', y', hi', lo', hin, hr⟩
          · exact .inl (htail.mem hmem)
          · exact .inr ⟨x', y', hi', lo', hin.trans htail, hr⟩
      · rw [unescape_cons_ne hc] at h
        obtain ⟨d', hd', rfl⟩ := Option.map_eq_some_iff.mp h
        rcases List.mem_cons.mp hb with rfl | hb
        · exact .inl (.head _)
        · have hlt : rest.length < n := by
            rw [← hn, List.length_cons]
            omega
          have htail : rest <:+: c :: rest :=
            (List.suffix_cons c rest).isInfix
          rcases ih _ hlt hd' hb rfl with hmem | ⟨x', y', hi', lo', hin, hr⟩
          · exact .inl (htail.mem hmem)
          · exact .inr ⟨x', y', hi', lo', hin.trans htail, hr⟩

/-- What holds of every byte, by looking at each. -/
theorem forall_byte {p : UInt8 → Bool}
    (h : ∀ n < 256, p (UInt8.ofNat n) = true) (c : UInt8) : p c = true := by
  have hc := h c.toNat c.toNat_lt
  rwa [UInt8.ofNat_toNat] at hc

/-- The digits of a slash. -/
theorem unhex_slash_digits {v : UInt8} (h : unhex c = some v) :
    v < 16 ∧ (v = 2 → c = 50) ∧ (v = 15 → lowerByte c = 102) := by
  have hall := forall_byte (p := fun c => (unhex c).all fun v =>
    decide (v < 16 ∧ (v = 2 → c = 50) ∧ (v = 15 → lowerByte c = 102)))
    (by decide +kernel) c
  rw [h, Option.all_some, decide_eq_true_eq] at hall
  exact hall

/-- A slash is escaped in one way, but for the case of its letter. -/
theorem unhex_slash {x y hi lo : UInt8} (hx : unhex x = some hi)
    (hy : unhex y = some lo) (h : (47 : UInt8) = hi * 16 + lo) :
    [37, x, y].map lowerByte = str "%2f" := by
  obtain ⟨hhi, htwo, -⟩ := unhex_slash_digits hx
  obtain ⟨hlo, -, hfifteen⟩ := unhex_slash_digits hy
  have hdigits : hi = 2 ∧ lo = 15 := by
    rw [← UInt8.toNat_inj, ← UInt8.toNat_inj]
    have h' := congrArg UInt8.toNat h
    rw [UInt8.toNat_add, UInt8.toNat_mul] at h'
    rw [UInt8.lt_iff_toNat_lt] at hhi hlo
    simp only [UInt8.reduceToNat] at h' hhi hlo ⊢
    omega
  rw [List.map_cons, List.map_cons, List.map_cons, List.map_nil,
    htwo hdigits.1, hfifteen hdigits.2]
  decide

-- ====== ASCII only

theorem lt_of_not_shouldEscape (h : shouldEscape c = false) : c < 0x80 := by
  have hall := forall_byte (p := fun c => shouldEscape c || decide (c < 0x80))
    (by decide +kernel) c
  rw [h, Bool.false_or, decide_eq_true_eq] at hall
  exact hall

theorem ascii_of_valid (h : validEncoded s = true) : isASCII s = true := by
  rw [isASCII, List.all_eq_true]
  intro c hc
  have hvalid := List.all_eq_true.mp h c hc
  rw [Bool.or_eq_true, Bool.not_eq_true'] at hvalid
  rw [decide_eq_true_eq]
  rcases hvalid with hsub | hno
  · have hall : ∀ d ∈ str "!$&'()*+,;=:@[]%", d < 0x80 := by
      decide +kernel
    exact hall c (List.contains_iff_mem.mp hsub)
  · exact lt_of_not_shouldEscape hno

theorem ascii_escape : isASCII (escape s) = true := by
  rw [isASCII, List.all_eq_true]
  intro c hc
  obtain ⟨d, -, hd⟩ := List.mem_flatMap.mp hc
  split at hd
  · have hall := forall_byte (p := fun d =>
      [37, upperHex (d / 16), upperHex (d % 16)].all fun c => c < 0x80)
      (by decide +kernel) d
    exact List.all_eq_true.mp hall c hd
  next hno =>
    rw [List.mem_singleton.mp hd, decide_eq_true_eq]
    exact lt_of_not_shouldEscape (Bool.eq_false_iff.mpr hno)

theorem escapedPath_ascii (u : URL) : isASCII u.escapedPath = true := by
  unfold URL.escapedPath
  split
  next h => exact ascii_of_valid h.2.1
  split
  · decide
  · exact ascii_escape

end Url

end Hotserve
