/-
An artifact URL stays where the allowlist entry puts it.

What admits a URL is taken apart once (`matchAllowlist_ok`): an entry of
the list whose host and path cover it, whose port is the URL's, whose
query is vetted, and a path that is canonical. A canonical path's
segments decode to names (`Segment`): a slash could only come from an
escape, and the escapes of one are refused on the whole path. An entry's
prefix ends in a slash, so a path under it is the prefix's segments and
more.
-/
import Hotserve.Check
import Hotserve.Liveswap.Allowlist

namespace Hotserve.Liveswap.Allowlist

open Bytes Url

variable {lib : Lib} {u : URL} {e : ArtifactAllowEntry} {ep : Bytes}

-- ====== the entries

/-- A prefix is rooted, and ends in a slash. -/
def Wrapped (p : Bytes) : Prop := p = [] ∨ ∃ q, p = 47 :: q ++ [47]

theorem parsePrefix_wrapped {s rest p : Bytes}
    (h : parsePrefix lib s rest = .ok p) : Wrapped p := by
  unfold parsePrefix at h
  split at h
  · cases h
    exact .inl rfl
  · dsimp only at h
    obtain ⟨hcanon, ⟨⟩⟩ := passed h
    rw [not_or, not_not] at hcanon
    rw [hcanon.2]
    exact .inr ⟨_, rfl⟩

theorem parseAllowlistEntry_wrapped {s : Bytes}
    (h : parseAllowlistEntry lib s = .ok e) : Wrapped e.pathPrefix := by
  unfold parseAllowlistEntry at h
  dsimp only at h
  obtain ⟨-, h⟩ := passed h
  obtain ⟨-, h⟩ := passed h
  obtain ⟨-, h⟩ := passed h
  obtain ⟨-, h⟩ := passed h
  obtain ⟨port, -, h⟩ := Except.bind_eq_ok.mp h
  obtain ⟨p, hpath, h⟩ := Except.bind_eq_ok.mp h
  obtain ⟨params, -, h⟩ := Except.bind_eq_ok.mp h
  cases h
  exact parsePrefix_wrapped hpath

variable {es : List ArtifactAllowEntry}

theorem parseAllowlist_wrapped {entries : List Bytes}
    (h : parseAllowlist lib entries = .ok es) :
    ∀ e ∈ es, Wrapped e.pathPrefix := by
  intro e he
  obtain ⟨s, -, hs⟩ := Except.mem_mapM h e he
  exact parseAllowlistEntry_wrapped hs

-- ====== the path

/-- The segments of an escaped path. -/
def segments (p : Bytes) : List Bytes :=
  if p = [] then [] else split 47 (p.drop 1)

/-- What a segment of a path decodes to. -/
structure Segment (dec : Bytes) : Prop where
  nonempty : dec ≠ []
  utf8 : validUTF8 dec = true
  dot : dec ≠ str "."
  dotDot : dec ≠ str ".."
  slash : (47 : UInt8) ∉ dec
  backslash : (92 : UInt8) ∉ dec
  control : ∀ c ∈ dec, 0x20 ≤ c ∧ c ≠ 0x7f

/-- What a segment that is let through decodes to. -/
theorem badSegment_none {seg : Bytes} (h : badSegment seg = none) :
    seg ≠ [] ∧ ∃ dec, pathUnescape seg = some dec ∧ dec ≠ str "." ∧
      dec ≠ str ".." ∧ (92 : UInt8) ∉ dec ∧ validUTF8 dec = true ∧
      ∀ c ∈ dec, 0x20 ≤ c ∧ c ≠ 0x7f := by
  unfold badSegment at h
  obtain ⟨hne, h⟩ := passedNone h
  refine ⟨hne, ?_⟩
  split at h
  · cases h
  rename_i dec hdec
  split at h
  · cases h
  rename_i hdot
  split at h
  · cases h
  rename_i hback
  split at h
  · cases h
  rename_i hutf
  split at h
  · cases h
  rename_i hctl
  rw [not_or] at hdot
  refine ⟨dec, hdec, hdot.1, hdot.2, ?_, ?_, fun c hc => ?_⟩
  · simpa using hback
  · simpa using hutf
  · rw [List.any_eq_true, not_exists] at hctl
    have hc' : ¬ (decide (c < 0x20) || c == 0x7f) = true :=
      fun hbad => hctl c ⟨hc, hbad⟩
    rw [Bool.or_eq_true, decide_eq_true_eq, beq_iff_eq,
      not_or] at hc'
    exact ⟨UInt8.not_lt.mp hc'.1, hc'.2⟩

/-- A canonical path is the URL's, and empty or of segments. -/
theorem canonicalEscapedPath_ok (h : canonicalEscapedPath lib u = .ok ep) :
    (ep = [] ∨ ep.head? = some 47) ∧ ∀ seg ∈ segments ep, ∃ dec,
        pathUnescape seg = some dec ∧ Segment dec := by
  unfold canonicalEscapedPath at h
  dsimp only at h
  split at h
  · cases h
    exact ⟨.inl rfl, by simp [segments]⟩
  next hne =>
    obtain ⟨hroot, h⟩ := passed h
    obtain ⟨hslash, h⟩ := passed h
    obtain ⟨-, h⟩ := passed h
    split at h
    · cases h
    rename_i hsegs
    cases h
    refine ⟨.inr (not_not.mp hroot), fun seg hseg => ?_⟩
    rw [segments, if_neg hne] at hseg
    have hgood := List.findSome?_eq_none_iff.mp hsegs seg hseg
    obtain ⟨hsne, dec, hdec, h₁, h₂, h₃, h₄, h₅⟩ :=
      badSegment_none hgood
    refine ⟨dec, hdec, unescape_ne_nil hdec hsne, h₄, h₁, h₂, ?_, h₃, h₅⟩
    -- a slash is no byte of a segment, and no escape of the path's
    intro hmem
    rcases unescape_mem hdec hmem with hin | ⟨x, y, hi, lo, hin, hx, hy, hv⟩
    · exact not_mem_split hseg hin
    · refine hslash ?_
      rw [lib.toLower_ascii _ (escapedPath_ascii u)]
      refine includes_of_infix ?_
      rw [← unhex_slash hx hy hv]
      exact (hin.trans ((infix_of_mem_split hseg).trans
        (List.drop_suffix 1 _).isInfix)).map lowerByte

/-- The segments of a prefix, its slashes taken off, begin those of a path
under it. -/
theorem segments_under {p : Bytes} (hp : Wrapped p)
    (h : p = [] ∨ ep = trimSuffix (str "/") p ∨ p <+: ep) :
    segments (trimSuffix (str "/") p) <+: segments ep := by
  rcases hp with rfl | ⟨q, rfl⟩
  · exact List.nil_prefix
  · have htrim : trimSuffix (str "/") (47 :: q ++ [47]) = 47 :: q :=
      trimSuffix_append (str "/") (47 :: q)
    rw [htrim] at h ⊢
    rcases h with h | rfl | ⟨rest, rfl⟩
    · cases h
    · exact List.prefix_rfl
    · have hsplit : segments (47 :: q ++ [47] ++ rest) =
          segments (47 :: q) ++ split 47 rest := by
        simp only [segments, List.cons_append, List.append_assoc,
          List.nil_append, reduceCtorEq, ↓reduceIte, List.drop_succ_cons,
          List.drop_zero]
        exact split_append q rest
      rw [hsplit]
      exact List.prefix_append _ _

-- ====== the match

theorem firstMatch_ok {nearMiss : Option Bytes}
    (h : firstMatch lib u ep es nearMiss = .ok e) :
    e ∈ es ∧ e.covers lib u ep = true ∧ e.refuses lib u = none := by
  induction es generalizing nearMiss with
  | nil => cases h
  | cons d es ih =>
    rw [firstMatch] at h
    split at h
    next hcovers =>
      split at h
      · obtain ⟨hmem, hrest⟩ := ih h
        exact ⟨.tail _ hmem, hrest⟩
      next hno =>
        cases h
        exact ⟨.head _, hcovers, hno⟩
    · obtain ⟨hmem, hrest⟩ := ih h
      exact ⟨.tail _ hmem, hrest⟩

/-- What admits a URL. -/
structure Admits (lib : Lib) (e : ArtifactAllowEntry) (u : URL)
    (ep : Bytes) : Prop where
  canonical : canonicalEscapedPath lib u = .ok ep
  under : e.pathPrefix = [] ∨ ep = trimSuffix (str "/") e.pathPrefix ∨
    e.pathPrefix <+: ep
  port : e.portAllowed u = true
  query : e.vetQuery lib u.rawQuery = .ok ()

/-- A match is an entry that admits the URL. -/
theorem matchAllowlist_ok (h : matchAllowlist lib es u = .ok (e, ep)) :
    e ∈ es ∧ Admits lib e u ep := by
  unfold matchAllowlist at h
  split at h
  · cases h
  rename_i ep' hep
  split at h
  next e' hfirst =>
    cases h
    obtain ⟨hmem, hcovers, hrefuses⟩ := firstMatch_ok hfirst
    refine ⟨hmem, hep, ?_, ?_, ?_⟩
    · simp only [ArtifactAllowEntry.covers, Bool.and_eq_true, Bool.or_eq_true,
        beq_iff_eq, List.isPrefixOf_iff_prefix, or_assoc] at hcovers
      exact hcovers.2
    · unfold ArtifactAllowEntry.refuses at hrefuses
      obtain ⟨hport, hrefuses⟩ := passedNone hrefuses
      simpa using hport
    · unfold ArtifactAllowEntry.refuses at hrefuses
      obtain ⟨-, hrefuses⟩ := passedNone hrefuses
      split at hrefuses
      · cases hrefuses
      next hok => exact hok
  · cases h
  · cases h

-- ====== the query

/-- The entry declares a name: exactly, or by a family it begins. -/
def Declares (e : ArtifactAllowEntry) (name : Bytes) : Prop :=
  name ∈ e.queryParams ∨ ∃ fam, fam ++ str "*" ∈ e.queryParams ∧ fam <+: name

/-- A name as its bytes stand: not empty, and nothing of it encoded. -/
def Literal (name : Bytes) : Prop :=
  name ≠ [] ∧ (37 : UInt8) ∉ name ∧ (43 : UInt8) ∉ name

theorem declares_of_allowed {name : Bytes}
    (h : e.queryParamAllowed name = true) : Declares e name := by
  obtain ⟨p, hp, hadmits⟩ := List.any_eq_true.mp h
  unfold ArtifactAllowEntry.paramAdmits at hadmits
  split at hadmits
  next hstar =>
    obtain ⟨fam, rfl⟩ := List.isSuffixOf_iff_suffix.mp hstar
    refine .inr ⟨fam, hp, ?_⟩
    have htake : (fam ++ str "*").take ((fam ++ str "*").length - 1) = fam := by
      rw [List.length_append]
      exact List.take_left
    rw [htake] at hadmits
    exact List.isPrefixOf_iff_prefix.mp hadmits
  · rw [beq_iff_eq] at hadmits
    exact .inl (hadmits ▸ hp)

theorem badComponent_none {comp : Bytes} (h : e.badComponent lib comp = none) :
    Literal (ArtifactAllowEntry.compName comp) ∧
      Declares e (ArtifactAllowEntry.compName comp) := by
  unfold ArtifactAllowEntry.badComponent at h
  dsimp only at h
  obtain ⟨hne, h⟩ := passedNone h
  split at h
  · cases h
  rename_i hlit
  split at h
  next hallowed =>
    rw [List.any_eq_true, not_exists] at hlit
    have hno : ∀ c ∈ str "%+", c ∉ ArtifactAllowEntry.compName comp :=
      fun c hc hmem => hlit c ⟨hmem, List.contains_iff_mem.mpr hc⟩
    exact ⟨⟨hne, hno 37 (by decide), hno 43 (by decide)⟩,
      declares_of_allowed hallowed⟩
  · split at h
    · cases h
    · cases h

/-- A query that is let through has only declared names. -/
theorem vetQuery_ok {q : Bytes} (h : e.vetQuery lib q = .ok ()) (hq : q ≠ []) :
    ∀ comp ∈ split 38 q, Literal (ArtifactAllowEntry.compName comp) ∧
      Declares e (ArtifactAllowEntry.compName comp) := by
  unfold ArtifactAllowEntry.vetQuery at h
  rw [if_neg hq] at h
  split at h
  · cases h
  split at h
  · cases h
  split at h
  · cases h
  next hcomps =>
    intro comp hcomp
    exact badComponent_none (List.findSome?_eq_none_iff.mp hcomps comp hcomp)

-- ====== the URL

/-- The URL the fetch uses: constants and the entry's own host and port,
then the path and the query as they came. -/
def fetched (e : ArtifactAllowEntry) (u : URL) (ep : Bytes) : Bytes :=
  (if u.scheme = str "http" then str "http" else str "https") ++
    str "://" ++ e.host ++ (if e.port ≠ [] then str ":" ++ e.port else []) ++
    ep ++ if u.rawQuery ≠ [] then str "?" ++ u.rawQuery else []

/-- An admitted URL is fetched from the entry's own host and port. -/
theorem pinnedURLString_ok (h : Admits lib e u ep)
    (hwrapped : Wrapped e.pathPrefix) :
    e.pinnedURLString lib u ep = .ok (fetched e u ep) := by
  have hvet : (if u.rawQuery ≠ [] then e.vetQuery lib u.rawQuery
      else .ok ()) = .ok () := by
    split
    · exact h.query
    · rfl
  obtain ⟨hrooted, -⟩ := canonicalEscapedPath_ok h.canonical
  unfold ArtifactAllowEntry.pinnedURLString
  dsimp only
  rw [h.port, hvet]
  simp only [Bool.not_true, Bool.false_eq_true, ↓reduceIte]
  rcases hwrapped with hnone | ⟨q, hq⟩
  · rw [hnone]
    simp only [ne_eq, not_true_eq_false, ↓reduceIte]
    rcases hrooted with rfl | hhead
    · simp [fetched]
    · cases ep with
      | nil => cases hhead
      | cons c rest =>
        cases hhead
        have hslash : str "/" = [47] := by decide
        rw [if_neg (List.cons_ne_nil _ _), hslash]
        simp [fetched]
  · -- the path is the prefix without its last slash, and what follows it
    obtain ⟨suffix, rfl, hsuffix⟩ : ∃ suffix, ep = 47 :: q ++ suffix ∧
        (suffix = [] ∨ suffix.head? = some 47) := by
      have htrim : trimSuffix (str "/") (47 :: q ++ [47]) = 47 :: q :=
        trimSuffix_append (str "/") (47 :: q)
      rcases h.under with hno | heq | ⟨rest, rfl⟩
      · rw [hno] at hq
        cases hq
      · rw [hq, htrim] at heq
        exact ⟨[], by rw [heq, List.append_nil], .inl rfl⟩
      · refine ⟨47 :: rest, ?_, .inr rfl⟩
        rw [hq, List.append_assoc]
        rfl
    have htrim : trimSuffix (str "/") e.pathPrefix = 47 :: q := by
      rw [hq]
      exact trimSuffix_append (str "/") (47 :: q)
    have hne : e.pathPrefix ≠ [] := by
      rw [hq]
      exact List.cons_ne_nil _ _
    have hbound : ¬ (suffix ≠ [] ∧ suffix.head? ≠ some 47) := by
      rintro ⟨h₁, h₂⟩
      exact hsuffix.elim h₁ h₂
    rw [if_pos hne, htrim, trimPrefix_append, if_neg hbound]
    simp [fetched]

/-- An admitted URL is fetched from the entry's host and port, at its own
path, which lies under the entry's prefix in segments that are names, with
a query whose names the entry declares. -/
theorem artifact_url_confined {entries : List Bytes}
    {es : List ArtifactAllowEntry}
    (hparse : parseAllowlist lib entries = .ok es)
    (hmatch : matchAllowlist lib es u = .ok (e, ep)) :
    e.pinnedURLString lib u ep = .ok (fetched e u ep) ∧
    (∀ seg ∈ segments ep, ∃ dec, pathUnescape seg = some dec ∧ Segment dec) ∧
    segments (trimSuffix (str "/") e.pathPrefix) <+: segments ep ∧
    (u.rawQuery ≠ [] → ∀ comp ∈ split 38 u.rawQuery,
      Literal (ArtifactAllowEntry.compName comp) ∧
        Declares e (ArtifactAllowEntry.compName comp)) := by
  obtain ⟨hmem, hadmits⟩ := matchAllowlist_ok hmatch
  have hwrapped := parseAllowlist_wrapped hparse e hmem
  exact ⟨pinnedURLString_ok hadmits hwrapped,
    (canonicalEscapedPath_ok hadmits.canonical).2,
    segments_under hwrapped hadmits.under,
    fun hq => vetQuery_ok hadmits.query hq⟩

/-- ASCII as it is, and no quoting. -/
def exampleLib : Lib where
  toLower := fun s => s.map lowerByte
  toLower_ascii := fun _ _ => rfl
  equalFold := fun a b => a.map lowerByte == b.map lowerByte
  quote := id
  quoteByte := fun b => [b]
  quoteRune := id

def exampleEntry : ArtifactAllowEntry :=
  ⟨str "github.com", str "/your-org/", str "8443", [str "job", str "X-Amz-*"]⟩

def exampleURL : URL where
  scheme := str "https"
  host := str "GitHub.com:8443"
  path := str "/your-org/app v1.tgz"
  rawPath := []
  rawQuery := str "job=7&X-Amz-Date=1"

theorem artifact_url_confined_example :
    exampleEntry.pinnedURLString exampleLib exampleURL
        (str "/your-org/app%20v1.tgz") =
      .ok (str ("https://github.com:8443/your-org/app%20v1.tgz" ++
        "?job=7&X-Amz-Date=1")) ∧
    segments (trimSuffix (str "/") exampleEntry.pathPrefix) <+:
      segments (str "/your-org/app%20v1.tgz") := by
  have h := artifact_url_confined (show parseAllowlist exampleLib
      [str "github.com:8443/your-org/?job&X-Amz-*"] = .ok [exampleEntry] by rfl)
    (show matchAllowlist exampleLib [exampleEntry] exampleURL =
      .ok (exampleEntry, str "/your-org/app%20v1.tgz") by rfl)
  exact ⟨h.1.trans (by decide +kernel), h.2.2.1⟩

end Hotserve.Liveswap.Allowlist
