/-
Who a deploy is recorded under (liveswap/deploytrust/deploytrust.go,
`attribute`): the source's label, then ` name=value` for each of the
claims it names that the token has.

The signer of a token chooses the values. A value is quoted unless it has
no space and no quote in it, so where one ends can be told from the text
alone (`rendered_inj`); and where the next begins is told by its name, as
long as no name has an `=` in it. None that the presets name has.
`strconv.IsPrint`, a table of Unicode's, is a parameter.
-/
import Hotserve.Quote
import Hotserve.Table
import Hotserve.Text

namespace Hotserve.Liveswap.Attribution

open Bytes Quote

/-- A claim as `decodeClaims` leaves it: of a number, its source digits. -/
inductive Claim
  | null
  | bool (b : Bool)
  | number (digits : Bytes)
  | string (s : Bytes)
  | composite
  deriving DecidableEq

/-- `claimScalar`; a claim that is absent is nil. -/
def claimScalar : Option Claim → Option Bytes
  | some (.string s) => some s
  | some (.number digits) => some digits
  | some (.bool true) => some (str "true")
  | some (.bool false) => some (str "false")
  | _ => none

variable (isPrint : Char → Bool) {names : List Bytes}
  {claims claims' : Table Bytes Claim} {s s' r r' : Bytes}

/-- A rune that has a value quoted. -/
def special (c : Char) : Bool :=
  c.toNat == 32 || c.toNat == 34 || c.toNat == 92 || !isPrint c

/-- A value as it is written. -/
def rendered (s : Bytes) : Bytes :=
  if s = [] ∨ (pieces s).any (fun p => special isPrint p.char) then
    quote isPrint s
  else s

/-- `presented`. -/
def presented (names : List Bytes) (claims : Table Bytes Claim) : Bytes :=
  names.flatMap fun name =>
    match claimScalar (claims.get name) with
    | none => []
    | some s => 32 :: (name ++ 61 :: rendered isPrint s)

/-- `attribute`, which is a word of Lean's. -/
def attributed (label : Bytes) (names : List Bytes)
    (claims : Table Bytes Claim) : Bytes :=
  label ++ presented isPrint names claims

/-- `attributionClaims`. -/
def attributionClaims : List (Bytes × List Bytes) :=
  [(str "github", [str "repository", str "ref", str "actor"]),
    (str "gitlab", [str "project_path", str "ref", str "user_login"]),
    (str "oidc", [str "sub"]),
    (str "local", [str "sub"])]

-- ====== a value

/-- What follows a value: nothing, or another claim. -/
def Ends (r : Bytes) : Prop := r = [] ∨ ∃ t, r = 32 :: t

variable {isPrint}

theorem rendered_cases (isPrint : Char → Bool) :
    rendered isPrint s = quote isPrint s ∨ rendered isPrint s = s ∧ s ≠ [] ∧
      (32 : UInt8) ∉ s ∧ (34 : UInt8) ∉ s := by
  unfold rendered
  split
  next => exact .inl rfl
  next h =>
    rw [not_or, List.any_eq_true] at h
    -- a byte of ASCII is one of the runes
    have hno : ∀ b : UInt8, b ∈ s → b.toNat < 128 →
        (b.toNat = 32 ∨ b.toNat = 34) → False := by
      intro b hb hlt heq
      obtain ⟨p, hp, hchar⟩ := mem_pieces hb hlt
      refine h.2 ⟨p, hp, ?_⟩
      rcases heq with heq | heq <;> simp [special, hchar, heq]
    exact .inr ⟨rfl, h.1, fun hc => hno _ hc (by decide) (.inl rfl),
      fun hc => hno _ hc (by decide) (.inr rfl)⟩

/-- A text with no space in it goes up to the first one. -/
theorem bare_inj (hs : (32 : UInt8) ∉ s) (hs' : (32 : UInt8) ∉ s')
    (hr : Ends r) (hr' : Ends r') (h : s ++ r = s' ++ r') :
    s = s' ∧ r = r' := by
  have hcut : ∀ {s r : Bytes}, (32 : UInt8) ∉ s → Ends r →
      (s ++ r).takeWhile (· ≠ 32) = s := by
    intro s r hs hr
    have hall : ∀ c ∈ s, decide (c ≠ 32) = true := fun c hc =>
      decide_eq_true fun heq => hs (heq ▸ hc)
    rw [List.takeWhile_append_of_pos hall]
    rcases hr with rfl | ⟨t, rfl⟩
    · rw [List.takeWhile_nil, List.append_nil]
    · simp
  have hsame : s = s' := by rw [← hcut hs hr, h, hcut hs' hr']
  subst hsame
  exact ⟨rfl, List.append_cancel_left h⟩

/-- A quoted value is not one that is written as it is. -/
theorem quote_ne (hne : s' ≠ []) (hs' : (34 : UInt8) ∉ s') :
    quote isPrint s ++ r ≠ s' ++ r' := by
  obtain ⟨c, u, rfl⟩ := List.exists_cons_of_ne_nil hne
  intro h
  rw [quote, List.cons_append, List.cons_append, List.cons.injEq] at h
  exact hs' (h.1 ▸ (.head _))

theorem rendered_inj (hr : Ends r) (hr' : Ends r')
    (h : rendered isPrint s ++ r = rendered isPrint s' ++ r') :
    s = s' ∧ r = r' := by
  rcases rendered_cases isPrint with hq | ⟨hq, hne, hspace, hquote⟩
  · rcases rendered_cases isPrint with hq' | ⟨hq', hne', -, hquote'⟩
    · rw [hq, hq'] at h
      exact quote_inj h
    · rw [hq, hq'] at h
      exact absurd h (quote_ne hne' hquote')
  · rcases rendered_cases isPrint with hq' | ⟨hq', -, hspace', -⟩
    · rw [hq, hq'] at h
      exact absurd h.symm (quote_ne hne hquote)
    · rw [hq, hq'] at h
      exact bare_inj hspace hspace' hr hr' h

-- ====== the claims

theorem presented_cons (name : Bytes) :
    presented isPrint (name :: names) claims =
    (match claimScalar (claims.get name) with
      | none => []
      | some s => 32 :: (name ++ 61 :: rendered isPrint s)) ++
      presented isPrint names claims :=
  List.flatMap_cons

/-- What is presented begins with a name of the list. -/
theorem presented_cases (isPrint : Char → Bool) :
    presented isPrint names claims = [] ∨ ∃ name ∈ names, ∃ t,
      presented isPrint names claims = 32 :: (name ++ 61 :: t) := by
  induction names with
  | nil => exact .inl rfl
  | cons name names ih =>
    rw [presented_cons]
    cases claimScalar (claims.get name) with
    | none =>
      refine ih.imp_right ?_
      rintro ⟨name', hmem, hrest⟩
      exact ⟨name', .tail _ hmem, hrest⟩
    | some s =>
      refine .inr ⟨name, .head _, rendered isPrint s ++
        presented isPrint names claims, ?_⟩
      simp

theorem presented_ends : Ends (presented isPrint names claims) :=
  (presented_cases isPrint).imp_right fun ⟨_, _, _, h⟩ => ⟨_, h⟩

/-- A claim is not read as one of those named after it. -/
theorem presented_ne {name : Bytes} (hnew : name ∉ names)
    (hname : (61 : UInt8) ∉ name) (hnames : ∀ n ∈ names, (61 : UInt8) ∉ n) :
    32 :: (name ++ 61 :: r) ≠ presented isPrint names claims := by
  intro h
  rcases presented_cases isPrint with
    hnil | ⟨name', hmem, t, hcons⟩
  · rw [hnil] at h
    cases h
  · rw [hcons, List.cons.injEq] at h
    have hcut := cut_append hname r
    rw [h.2, cut_append (hnames name' hmem)] at hcut
    cases hcut
    exact hnew hmem

theorem presented_inj (hnodup : names.Nodup)
    (hnames : ∀ n ∈ names, (61 : UInt8) ∉ n)
    (h : presented isPrint names claims = presented isPrint names claims') :
    ∀ n ∈ names, claimScalar (claims.get n) = claimScalar (claims'.get n) := by
  induction names with
  | nil => simp
  | cons name names ih =>
    obtain ⟨hnew, hnodup⟩ := List.nodup_cons.mp hnodup
    obtain ⟨hname, hnames⟩ := List.forall_mem_cons.mp hnames
    rw [presented_cons, presented_cons] at h
    rw [List.forall_mem_cons]
    cases hs : claimScalar (claims.get name) with
    | none =>
      cases hs' : claimScalar (claims'.get name) with
      | none =>
        rw [hs, hs'] at h
        exact ⟨rfl, ih hnodup hnames h⟩
      | some s' =>
        rw [hs, hs'] at h
        simp only [List.nil_append, List.cons_append, List.append_assoc] at h
        exact absurd h.symm (presented_ne hnew hname hnames)
    | some s =>
      cases hs' : claimScalar (claims'.get name) with
      | none =>
        rw [hs, hs'] at h
        simp only [List.nil_append, List.cons_append, List.append_assoc] at h
        exact absurd h (presented_ne hnew hname hnames)
      | some s' =>
        rw [hs, hs'] at h
        simp only [List.cons_append, List.append_assoc, List.cons.injEq,
          List.append_cancel_left_eq, true_and] at h
        obtain ⟨rfl, hrest⟩ := rendered_inj presented_ends presented_ends h
        exact ⟨rfl, ih hnodup hnames hrest⟩

/-- The text says of each claim whether the token has it, and with what
value: none can be made to read as another. -/
theorem attributed_injective (isPrint : Char → Bool) (label : Bytes)
    (names : List Bytes) (claims claims' : Table Bytes Claim)
    (hnodup : names.Nodup) (hnames : ∀ n ∈ names, (61 : UInt8) ∉ n)
    (h : attributed isPrint label names claims =
      attributed isPrint label names claims') :
    ∀ n ∈ names, claimScalar (claims.get n) = claimScalar (claims'.get n) :=
  presented_inj hnodup hnames (List.append_cancel_left h)

/-- The lists the presets name are such lists. -/
theorem attributionClaims_plain : ∀ p ∈ attributionClaims,
    p.2.Nodup ∧ ∀ n ∈ p.2, (61 : UInt8) ∉ n := by
  decide +kernel

/-- `strconv.IsPrint` of ASCII. -/
def isPrintASCII (c : Char) : Bool := decide (32 ≤ c.toNat ∧ c.toNat < 127)

/-- A token and the claims it may have. -/
def token (l : List (Bytes × Bytes)) : Table Bytes Claim :=
  l.foldl (fun t p => t.set p.1 (.string p.2)) .empty

/-- A subject cannot add an actor to itself: its value is quoted. -/
theorem attributed_injective_example :
    attributed isPrintASCII (str "local") [str "sub", str "actor"]
        (token [(str "sub", str "alice actor=bob")]) =
      str "local sub=\"alice actor=bob\"" ∧
    attributed isPrintASCII (str "local") [str "sub", str "actor"]
        (token [(str "sub", str "alice actor=bob")]) ≠
      attributed isPrintASCII (str "local") [str "sub", str "actor"]
        (token [(str "sub", str "alice"), (str "actor", str "bob")]) := by
  refine ⟨by decide +kernel, fun h => ?_⟩
  have hsub := attributed_injective isPrintASCII _ _ _ _ (by decide +kernel)
    (by decide +kernel) h (str "sub") (.head _)
  exact absurd hsub (by decide +kernel)

/-- With an `=` in a name, the value of another reads as it. -/
theorem name_read_in_a_value :
    attributed isPrintASCII (str "local") [str "a", str "a=1"]
        (token [(str "a", str "1=2")]) =
      attributed isPrintASCII (str "local") [str "a", str "a=1"]
        (token [(str "a=1", str "2")]) ∧ [str "a", str "a=1"].Nodup ∧
      claimScalar ((token [(str "a", str "1=2")]).get (str "a")) =
        some (str "1=2") ∧
      claimScalar ((token [(str "a=1", str "2")]).get (str "a")) = none := by
  decide +kernel

end Hotserve.Liveswap.Attribution
