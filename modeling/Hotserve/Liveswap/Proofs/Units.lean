/-
Unit names read back as they were built.

An app has no dot, so the first dot after `motel-` ends it. A nonce is
sixteen hex digits and `prestart` ends in none, so the end of the name
tells a pre_start from an instance, and the nonce is the sixteen bytes
before. What is between is the version, dots and all.
-/
import Hotserve.Text
import Hotserve.Liveswap.Units

namespace Hotserve.Liveswap

open Bytes

/-- What a name can be built of. -/
structure ValidParts (app version nonce : Bytes) : Prop where
  app : appNameRe.matchString app = true
  version : validVersion version = true
  nonce : nonceRe.matchString nonce = true

variable {w app nonce : Bytes} {c : List Bytes}

-- ====== the alphabets

theorem appNameRe_reads (h : appNameRe.Reads w c) : c = [] := h.2.2.2

theorem nonceRe_reads (h : nonceRe.Reads w c) : c = [] := h.2.2.2

theorem versionRe_reads (h : versionRe.Reads w c) : c = [] := by
  obtain ⟨_, _, c₁, c₂, -, rfl, h₁, h₂⟩ := h
  rw [h₁.2.2.2, h₂.2.2.2]
  rfl

/-- A match without groups is a reading without captures. -/
theorem reads_of_match {r : Regex} (hc : ∀ {c}, r.Reads w c → c = [])
    (h : r.matchString w = true) : r.Reads w [] := by
  obtain ⟨c, hread⟩ := Regex.matchString_iff.mp h
  exact hc hread ▸ hread

/-- An app's name has no dot, so the first one ends it. -/
theorem dot_not_mem_app (h : appNameRe.matchString app = true) : 46 ∉ app := by
  intro hmem
  have hread := reads_of_match appNameRe_reads h
  exact absurd (hread.2.2.1 46 hmem) (by decide)

theorem underscore_not_mem_app (h : appNameRe.matchString app = true) :
    95 ∉ app := by
  intro hmem
  have hread := reads_of_match appNameRe_reads h
  exact absurd (hread.2.2.1 95 hmem) (by decide)

theorem nonce_length (h : nonceRe.matchString nonce = true) :
    nonce.length = 16 := by
  have hread := reads_of_match nonceRe_reads h
  exact Nat.le_antisymm hread.2.1 hread.1

theorem nonce_hex (h : nonceRe.matchString nonce = true) :
    ∀ a ∈ nonce, isHex a = true :=
  (reads_of_match nonceRe_reads h).2.2.1

-- ====== the whole expression

/-- What the expression captures at its fourth group. -/
def preStartMark (oneshot : Bool) : Bytes :=
  if oneshot then str ".prestart" else []

theorem preStartMark_reads
    (h : (Regex.opt (.group (.lit (str ".prestart")))).Reads w c) :
    ∃ oneshot, w = preStartMark oneshot ∧ c = [preStartMark oneshot] := by
  rcases h with ⟨c', rfl, rfl, rfl⟩ | ⟨rfl, rfl⟩
  · exact ⟨true, rfl, rfl⟩
  · exact ⟨false, rfl, rfl⟩

variable {name : Bytes}

/-- The expression reads exactly the names `joinName` makes of parts that
are valid. -/
theorem unitNameRe_reads :
    unitNameRe.Reads name c ↔ ∃ app version nonce oneshot,
      ValidParts app version nonce ∧ name = joinName app version nonce oneshot ∧
      c = [app, version, nonce, preStartMark oneshot] := by
  constructor
  · rintro ⟨_, _, _, _, rfl, rfl, ⟨rfl, rfl⟩, _, _, _, _, rfl, rfl,
      ⟨_, rfl, happ⟩, _, _, _, _, rfl, rfl, ⟨rfl, rfl⟩, _, _, _, _, rfl, rfl,
      ⟨_, rfl, hversion⟩, _, _, _, _, rfl, rfl, ⟨rfl, rfl⟩, _, _, _, _, rfl,
      rfl, ⟨_, rfl, hnonce⟩, _, _, _, _, rfl, rfl, hmark, rfl, rfl⟩
    obtain ⟨oneshot, rfl, rfl⟩ := preStartMark_reads hmark
    refine ⟨_, _, _, oneshot, ⟨Regex.matchString_iff.mpr ⟨_, happ⟩,
      Regex.matchString_iff.mpr ⟨_, hversion⟩,
      Regex.matchString_iff.mpr ⟨_, hnonce⟩⟩, ?_, ?_⟩
    · simp [joinName, preStartMark]
    · rw [appNameRe_reads happ, versionRe_reads hversion, nonceRe_reads hnonce]
      rfl
  · rintro ⟨app, version, nonce, oneshot, hvalid, rfl, rfl⟩
    have happ := reads_of_match appNameRe_reads hvalid.app
    have hversion := reads_of_match versionRe_reads hvalid.version
    have hnonce := reads_of_match nonceRe_reads hvalid.nonce
    have hmark : (Regex.opt (.group (.lit (str ".prestart")))).Reads
        (preStartMark oneshot) [preStartMark oneshot] := by
      cases oneshot
      · exact .inr ⟨rfl, rfl⟩
      · exact .inl ⟨[], rfl, rfl, rfl⟩
    exact ⟨_, _, [], _, by simp [joinName, preStartMark], rfl, ⟨rfl, rfl⟩,
      _, _, [app], _, rfl, rfl, ⟨[], rfl, happ⟩,
      _, _, [], _, rfl, rfl, ⟨rfl, rfl⟩,
      _, _, [version], _, rfl, rfl, ⟨[], rfl, hversion⟩,
      _, _, [], _, rfl, rfl, ⟨rfl, rfl⟩,
      _, _, [nonce], _, rfl, rfl, ⟨[], rfl, hnonce⟩,
      _, _, [preStartMark oneshot], [], rfl, rfl, hmark, rfl, rfl⟩

-- ====== unique decodability

/-- A name's end, its nonce and mark, has one reading. -/
theorem tail_inj {v v' n n' : Bytes} {o o' : Bool}
    (hn : nonceRe.matchString n = true) (hn' : nonceRe.matchString n' = true)
    (h : v ++ str "." ++ n ++ preStartMark o =
      v' ++ str "." ++ n' ++ preStartMark o') : v = v' ∧ n = n' ∧ o = o' := by
  -- the last byte is a hex digit or the `t` of `prestart`
  have hend : ∀ {w x y : Bytes}, nonceRe.matchString x = true →
      w ++ x ≠ y ++ str ".prestart" := by
    intro w x y hx heq
    have hlast := congrArg List.getLast? heq
    have hne : x ≠ [] := by
      rintro rfl
      exact absurd (nonce_length hx) (by decide)
    rw [List.getLast?_append_of_ne_nil _ hne,
      List.getLast?_append_of_ne_nil _ (by decide)] at hlast
    have hmem : (116 : UInt8) ∈ x := List.mem_of_getLast? (hlast.trans rfl)
    exact absurd (nonce_hex hx 116 hmem) (by decide)
  have hsame : v ++ str "." ++ n = v' ++ str "." ++ n' →
      v = v' ∧ n = n' := by
    intro heq
    obtain ⟨hv, hnn⟩ := List.append_inj' heq
      ((nonce_length hn).trans (nonce_length hn').symm)
    exact ⟨List.append_cancel_right hv, hnn⟩
  cases o <;> cases o'
  · obtain ⟨hv, hnn⟩ := hsame (by simpa [preStartMark] using h)
    exact ⟨hv, hnn, rfl⟩
  · exact absurd ((List.append_nil _).symm.trans h) (hend hn)
  · exact absurd ((List.append_nil _).symm.trans h.symm) (hend hn')
  · obtain ⟨hv, hnn⟩ := hsame (List.append_cancel_right h)
    exact ⟨hv, hnn, rfl⟩

theorem joinName_eq (app version nonce : Bytes) (oneshot : Bool) :
    joinName app version nonce oneshot = unitPrefix ++ (app ++ 46 ::
      (version ++ str "." ++ nonce ++ preStartMark oneshot ++
        str ".service")) := by
  have hdot : str "." = [46] := by decide
  simp [joinName, preStartMark, hdot]

/-- A unit's name says what it was joined from. -/
theorem joinName_inj {a a' v v' n n' : Bytes} {o o' : Bool}
    (h : ValidParts a v n) (h' : ValidParts a' v' n')
    (heq : joinName a v n o = joinName a' v' n' o') :
    a = a' ∧ v = v' ∧ n = n' ∧ o = o' := by
  rw [joinName_eq, joinName_eq] at heq
  have hcut := congrArg (cut 46) (List.append_cancel_left heq)
  rw [cut_append (dot_not_mem_app h.app), cut_append (dot_not_mem_app h'.app),
    Option.some.injEq, Prod.mk.injEq] at hcut
  exact ⟨hcut.1, tail_inj h.nonce h'.nonce (List.append_cancel_right hcut.2)⟩

/-- A name built of valid parts is captured as them. -/
theorem submatch_joinName {version : Bytes} (h : ValidParts app version nonce)
    (oneshot : Bool) :
    unitNameRe.submatch (joinName app version nonce oneshot) =
      some [app, version, nonce, preStartMark oneshot] := by
  refine Regex.submatch_eq
    (unitNameRe_reads.mpr ⟨app, version, nonce, oneshot, h, rfl, rfl⟩) ?_
  intro c hc
  obtain ⟨a, v, n, o, h', heq, rfl⟩ := unitNameRe_reads.mp hc
  obtain ⟨rfl, rfl, rfl, rfl⟩ := joinName_inj h h' heq
  rfl

-- ====== decoding

/-- What `unitApp` reads is a name built of valid parts. -/
theorem unitApp_eq_some (h : unitApp name = some app) :
    ∃ version nonce oneshot, ValidParts app version nonce ∧
      name = joinName app version nonce oneshot := by
  obtain ⟨m, hm, happ⟩ := Option.bind_eq_some_iff.mp h
  obtain ⟨a, v, n, o, hvalid, rfl, rfl⟩ :=
    unitNameRe_reads.mp (Regex.submatch_reads hm)
  cases happ
  exact ⟨v, n, o, hvalid, rfl⟩

section Decode

variable {app version nonce : Bytes} (h : ValidParts app version nonce)
  (oneshot : Bool)
include h

/-- So the app is read back from it. -/
theorem unitApp_joinName :
    unitApp (joinName app version nonce oneshot) = some app := by
  rw [unitApp, submatch_joinName h]
  rfl

theorem unitNonce_joinName :
    unitNonce (joinName app version nonce oneshot) = some nonce := by
  rw [unitNonce, submatch_joinName h]
  rfl

theorem unitPreStart_joinName :
    unitPreStart (joinName app version nonce oneshot) =
      if oneshot then some version else none := by
  rw [unitPreStart, submatch_joinName h]
  cases oneshot
  · rfl
  · have hmark : some (preStartMark true) ≠ some [] := by decide
    exact if_neg hmark

/-- `unitName` gives valid parts their name. -/
theorem unitName_ok : unitName ⟨app, version, nonce, false⟩ oneshot =
      .ok (joinName app version nonce oneshot) := by
  have hmatch : unitNameRe.matchString (joinName app version nonce oneshot) =
      true := by
    rw [Regex.matchString, submatch_joinName h]
    rfl
  simp [unitName, h.app, h.version, h.nonce, hmatch]

end Decode

/-- A name `unitName` gives an app's unit is of valid parts. -/
theorem unitName_eq_ok {spec : StartSpec} {oneshot : Bool}
    (hprobe : spec.probe = false) (h : unitName spec oneshot = .ok name) :
    ValidParts spec.app spec.version spec.nonce ∧
      name = joinName spec.app spec.version spec.nonce oneshot := by
  simp only [unitName, hprobe, Bool.not_false, Bool.true_and, Bool.or_eq_true,
    Bool.not_eq_true', Bool.false_eq_true, if_false] at h
  split at h
  · cases h
  rename_i hnames
  split at h
  · cases h
  rename_i hnonce
  split at h
  · cases h
  · cases h
    simp only [not_or, Bool.not_eq_false] at hnames hnonce
    exact ⟨⟨hnames.1, hnames.2, hnonce⟩, rfl⟩

/-- A probe's name has an underscore where an app's first dot would be
looked for. -/
theorem unitApp_probe {spec : StartSpec} {oneshot : Bool}
    (hprobe : spec.probe = true) (h : unitName spec oneshot = .ok name) :
    unitApp name = none := by
  simp only [unitName, hprobe, Bool.not_true, Bool.false_and,
    Bool.false_eq_true, if_false, if_true, Bool.not_eq_true'] at h
  split at h
  · cases h
  rename_i hnonce
  cases h
  rw [Option.eq_none_iff_forall_ne_some]
  intro app happ
  obtain ⟨v, n, o, hvalid, heq⟩ := unitApp_eq_some happ
  rw [joinName_eq, List.append_assoc, List.append_assoc] at heq
  have hcut := congrArg (cut 46) (List.append_cancel_left heq)
  have hdot : str ".service" = 46 :: str "service" := by decide
  have hno : (46 : UInt8) ∉ str "sandboxprobe_" ++ spec.nonce := by
    rw [List.mem_append, not_or]
    refine ⟨by decide, fun hmem => ?_⟩
    exact absurd (nonce_hex (by simpa using hnonce) 46 hmem) (by decide)
  rw [hdot, ← List.append_assoc, cut_append hno,
    cut_append (dot_not_mem_app hvalid.app), Option.some.injEq,
    Prod.mk.injEq] at hcut
  refine underscore_not_mem_app hvalid.app ?_
  rw [← hcut.1]
  exact List.mem_append_left _ (by decide)

end Hotserve.Liveswap
