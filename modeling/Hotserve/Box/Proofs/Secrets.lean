/-
A committed secret reaches the app byte for byte: what secretValue
admits renders, and what is rendered a launch reads back.
-/
import Hotserve.Box.Secrets
import Hotserve.Liveswap.Proofs.EnvFile
import Mathlib.Algebra.GroupWithZero.Nat

namespace Hotserve.Box

open Bytes
open Liveswap (Quote renderEnvFile parseEnvLines Carried Fits Comment Unfit
  joined keyOf sorted renderLine)
open Bundle (SecretVar SecretApp Secrets cutSuffix)

-- ====== the value

/-- `value` is what a decrypted file holds, less one newline at its end,
LF or CRLF. -/
def Chomped (plain value : Bytes) : Prop :=
  plain = value ++ [13, 10] ∨
    (plain = value ++ [10] ∧ value.getLast? ≠ some 13) ∨
    (plain = value ∧ value.getLast? ≠ some 10)

theorem cutSuffix_append (v suffix : Bytes) :
    cutSuffix suffix (v ++ suffix) = some v := by
  simp [cutSuffix]

variable {plain secrets app : Bytes} {k : Key} {vars : List SecretVar}
  {plains : List Bytes}

theorem cutSuffix_some {suffix v : Bytes}
    (h : cutSuffix suffix plain = some v) : plain = v ++ suffix := by
  unfold cutSuffix at h
  split at h
  next hs =>
    obtain ⟨t, rfl⟩ := List.isSuffixOf_iff_suffix.mp hs
    cases h
    simp
  next => cases h

theorem cutSuffix_none {suffix : Bytes} (h : cutSuffix suffix plain = none)
    (v : Bytes) : plain ≠ v ++ suffix := by
  rintro rfl
  rw [cutSuffix_append] at h
  cases h

/-- `lessNewline` takes one newline off the end, and nothing else. -/
theorem chomped_lessNewline : Chomped plain (lessNewline plain) := by
  unfold lessNewline
  split
  next v hcr => exact .inl (cutSuffix_some hcr)
  next hcr =>
    split
    next v hlf =>
      refine .inr (.inl ⟨cutSuffix_some hlf, fun hlast => ?_⟩)
      obtain ⟨w, rfl⟩ := List.getLast?_eq_some_iff.mp hlast
      refine cutSuffix_none hcr w ?_
      rw [cutSuffix_some hlf]
      simp
    next hlf =>
      refine .inr (.inr ⟨rfl, fun hlast => ?_⟩)
      obtain ⟨w, hw⟩ := List.getLast?_eq_some_iff.mp hlast
      exact cutSuffix_none hlf w hw

/-- What secretValue takes for the value. -/
theorem secretValue_ok {name value : Bytes}
    (h : secretValue plain name = .ok value) :
    value = lessNewline plain ∧ Carried value := by
  obtain ⟨hlines, h⟩ := passed h
  obtain ⟨hnul, h⟩ := passed h
  obtain ⟨hutf, ⟨⟩⟩ := passed h
  exact ⟨rfl, by simpa using hlines, by simpa using hnul,
    by simpa using hutf⟩

-- ====== the app

/-- A variable the box opens: a name an env file carries, and a file that
decrypts to a value secretValue accepts. -/
structure Opens (k : Key) (secrets app : Bytes) (v : SecretVar)
    (plain : Bytes) : Prop where
  name : validEnvKey v.name = true
  opened : openSecret k v.data
    (secrets ++ str "/" ++ app ++ str "/" ++ v.name ++ str ".age") secrets =
      .ok plain
  accepted : ∃ value, secretValue plain (app ++ str "/" ++ v.name) = .ok value

/-- The variable, as `KEY=VALUE`. -/
def given (v : SecretVar) (plain : Bytes) : Bytes × Bytes :=
  (v.name, lessNewline plain)

/-- A value that opens is given to its variable, in a line that fits. -/
theorem Opens.openVar {k : Key} {secrets app plain : Bytes} {v : SecretVar}
    (h : Opens k secrets app v plain) :
    openVar k secrets app v = .ok (joined (given v plain)) ∧
      Fits (given v plain) := by
  obtain ⟨value, hvalue⟩ := h.accepted
  obtain ⟨rfl, hcarried⟩ := secretValue_ok hvalue
  refine ⟨?_, h.name, hcarried⟩
  rw [Box.openVar, h.opened]
  change (secretValue plain _ >>= fun value =>
    pure (v.name ++ 61 :: value)) = _
  rw [hvalue]
  rfl

section

variable (h : List.Forall₂ (Opens k secrets app) vars plains)
include h

theorem mapM_openVar : vars.mapM (openVar k secrets app) =
      .ok ((List.zipWith given vars plains).map joined) := by
  induction h with
  | nil => rfl
  | cons hv _ ih =>
    rw [List.mapM_cons, hv.openVar.1, ih]
    rfl

theorem fits_given : ∀ p ∈ List.zipWith given vars plains, Fits p := by
  induction h with
  | nil => simp
  | cons hv _ ih => exact List.forall_mem_cons.mpr ⟨hv.openVar.2, ih⟩

theorem names_given :
    (List.zipWith given vars plains).map Prod.fst = vars.map (·.name) := by
  induction h with
  | nil => rfl
  | cons _ _ ih =>
    rw [List.zipWith_cons_cons, List.map_cons, List.map_cons, ih]
    rfl

end

/-- How long an env file of these pairs is. -/
def sizeOf (pairs : List (Bytes × Bytes)) : Nat :=
  (pairs.map fun p => p.1.length + p.2.length + 4).sum

/-- The size the source adds up is the length of what it renders. -/
theorem length_rendered (pairs : List (Bytes × Bytes)) :
    (pairs.flatMap renderLine).length = sizeOf pairs := by
  induction pairs with
  | nil => rfl
  | cons p pairs ih =>
    rw [List.flatMap_cons, List.length_append, ih, sizeOf, sizeOf,
      List.map_cons, List.sum_cons, renderLine]
    simp only [List.length_append, List.length_cons, List.length_nil]
    omega

theorem sizeOf_sorted (pairs : List (Bytes × Bytes)) :
    sizeOf (sorted pairs) = sizeOf pairs :=
  ((Liveswap.sorted_perm pairs).map _).sum_nat

/-- The header is a comment to whoever reads the file. -/
theorem comment_header : Comment envFileHeaderLine := by
  constructor
  · decide +kernel
  · decide +kernel

/-- An app whose secrets the box can open and its env file can hold, with
each variable's plaintext. -/
structure Openable (k : Key) (secrets : Bytes) (a : SecretApp)
    (plains : List Bytes) : Prop where
  vars : List.Forall₂ (Opens k secrets a.name) a.vars plains
  distinct : (a.vars.map (·.name)).Nodup
  size : sizeOf (List.zipWith given a.vars plains) ≤ maxEnvFile

/-- The app's env file gives a launch each variable, its plaintext less
the newline. -/
def Reaches (quote : Quote) (a : SecretApp) (plains : List Bytes)
    (o : OpenedApp) : Prop :=
  o.name = a.name ∧ ∀ path, ∃ out, parseEnvLines quote path o.file = .ok out ∧
    ∃ values, List.Forall₂ Chomped plains values ∧
      out.Perm
        (List.zipWith (fun v value => v.name ++ 61 :: value) a.vars values)

/-- So one app is opened, whatever its variables. -/
theorem Openable.openApp {quote : Quote} {k : Key} {secrets : Bytes}
    {a : SecretApp} {plains : List Bytes} (h : Openable k secrets a plains) :
    ∃ o, openApp quote k secrets a = .ok o ∧ Reaches quote a plains o := by
  have hrender : renderEnvFile quote
      ((List.zipWith given a.vars plains).map joined) =
      .ok ((sorted (List.zipWith given a.vars plains)).flatMap renderLine) :=
    Liveswap.renderEnvFile_ok.mpr ⟨_, rfl, fits_given h.vars,
      by rw [names_given h.vars]; exact h.distinct, rfl⟩
  have hsize : ¬ maxEnvFile <
      ((sorted (List.zipWith given a.vars plains)).flatMap
        renderLine).length := by
    rw [length_rendered, sizeOf_sorted]
    exact not_lt.mpr h.size
  generalize (sorted (List.zipWith given a.vars plains)).flatMap renderLine =
    body at hrender hsize
  refine ⟨⟨a.name, a.vars.map (·.name), envFileHeader ++ body⟩, ?_, rfl, ?_⟩
  · rw [Box.openApp, mapM_openVar h.vars]
    dsimp only [bind, Except.bind]
    rw [hrender]
    dsimp only
    rw [if_neg hsize]
  · intro path
    obtain ⟨out, hout, hperm, -⟩ :=
      Liveswap.parseEnvLines_renderEnvFile comment_header hrender
    refine ⟨out, hout, plains.map lessNewline, ?_, ?_⟩
    · rw [List.forall₂_map_right_iff]
      exact List.forall₂_same.mpr fun plain _ => chomped_lessNewline
    · refine hperm.trans (List.Perm.of_eq ?_)
      rw [List.map_zipWith, List.zipWith_map_right]
      rfl

/-- And so is each app of a push, in order. -/
theorem mapM_openApp {quote : Quote} {apps : List SecretApp}
    {plains : List (List Bytes)}
    (h : List.Forall₂ (Openable k secrets) apps plains) :
    ∃ out, apps.mapM (openApp quote k secrets) = .ok out ∧
      List.Forall₂ (fun x o => Reaches quote x.1 x.2 o)
        (apps.zip plains) out := by
  induction h with
  | nil => exact ⟨[], rfl, .nil⟩
  | cons ha _ ih =>
    obtain ⟨o, ho, hreach⟩ := ha.openApp
    obtain ⟨out, hout, hall⟩ := ih
    refine ⟨o :: out, ?_, .cons hreach hall⟩
    rw [List.mapM_cons, ho, hout]
    rfl

/-- A committed secret reaches the app byte for byte. -/
theorem secret_reaches_app (quote : Quote) :
    (∀ path vars body, renderEnvFile quote vars = .ok body →
      (∃ out, parseEnvLines quote path (envFileHeader ++ body) = .ok out ∧
        out.Perm vars ∧ out.Pairwise fun a b => keyOf a ≤ keyOf b) ∧
      (∀ vars', vars'.Perm vars → renderEnvFile quote vars' = .ok body) ∧
      ∀ vars', renderEnvFile quote vars' = .ok body → vars'.Perm vars) ∧
    (∀ vars e, renderEnvFile quote vars = .error e → Unfit vars) ∧
    ∀ h k s caddyfile plains,
      List.Forall₂ (Openable k (secretsShown h caddyfile)) s.apps plains →
      ∃ out, openSecrets h quote k s caddyfile = .ok out ∧
        List.Forall₂ (fun x o => Reaches quote x.1 x.2 o)
          (s.apps.zip plains) out := by
  refine ⟨fun path vars body h =>
      ⟨?_, fun vars' hperm => ?_, fun vars' h' => ?_⟩,
    fun vars e h => Liveswap.renderEnvFile_error h,
    fun h k s caddyfile plains hall => mapM_openApp hall⟩
  · exact Liveswap.parseEnvLines_renderEnvFile comment_header h
  · exact Liveswap.renderEnvFile_perm h hperm
  · -- one file has one reading
    have hread : ∀ {vars}, renderEnvFile quote vars = .ok body → ∃ out,
        parseEnvLines quote path (envFileHeader ++ body) = .ok out ∧
          out.Perm vars := fun h =>
      let ⟨out, hout, hperm, _⟩ :=
        Liveswap.parseEnvLines_renderEnvFile comment_header h
      ⟨out, hout, hperm⟩
    obtain ⟨out, hout, hperm⟩ := hread h
    obtain ⟨out', hout', hperm'⟩ := hread h'
    rw [hout] at hout'
    cases hout'
    exact hperm'.symm.trans hperm

/-- A key that opens every file to itself. -/
def exampleKey : Key := ⟨str "age1", fun data => .payload (some data)⟩

/-- A value with quotes, a hash and edge spaces, and a CRLF to take off. -/
def exampleVar : SecretVar :=
  ⟨str "TOKEN", [], str " \"a\" # b=c " ++ [13, 10]⟩

def exampleHost : Host where
  digest := fun _ => List.replicate 64 48
  digest_isDigest := fun _ => by decide
  bound := id

theorem secret_reaches_app_example :
    ∃ out, openSecrets exampleHost id exampleKey
      ⟨[], [⟨str "web", [exampleVar]⟩]⟩ (str "Caddyfile") = .ok out ∧
      List.Forall₂ (fun x o => Reaches id x.1 x.2 o)
        ([⟨str "web", [exampleVar]⟩].zip [[exampleVar.data]]) out := by
  have hopens : Opens exampleKey (secretsShown exampleHost (str "Caddyfile"))
      (str "web") exampleVar exampleVar.data :=
    ⟨by decide +kernel, by
      rw [openSecret]
      rfl, str " \"a\" # b=c ", by
      decide +kernel⟩
  exact (secret_reaches_app id).2.2 exampleHost exampleKey
    ⟨[], [⟨str "web", [exampleVar]⟩]⟩ (str "Caddyfile") [[exampleVar.data]]
    (.cons ⟨.cons hopens .nil, by decide +kernel, by decide +kernel⟩ .nil)

end Hotserve.Box
