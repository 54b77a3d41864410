/-
What a record that passed `Record.valid` is.

Later proofs never unfold the validator: they use `Record.Sound`, which
says what recovery relies on, and `Record.valid_stage`, which says
that a record on its way through the phases stays valid.
-/
import Mathlib.Data.List.Nodup
import Hotserve.Box.Txn

namespace Hotserve.Box

open Bytes

/-- An entry recovery can act on: its previous bytes are the ones its
digest names, and it was there before the push or is after it. -/
structure EnvEntry.Sound (h : Host) (e : EnvEntry) : Prop where
  app : appName e.app = true
  present : e.prevSHA256 = [] → e.newSHA256 ≠ []
  prev_len : e.prevSHA256 ≠ [] → e.prev.length ≤ maxEnvRead
  prev_digest : e.prevSHA256 ≠ [] → h.digest e.prev = e.prevSHA256
  new_digest : e.newSHA256 ≠ [] → isDigest e.newSHA256 = true

/-- What a valid record's set is, whatever its phase. -/
structure Record.SetSound (h : Host) (r : Record) : Prop where
  prev_isDigest : isDigest r.prevSHA256 = true
  new_isDigest : isDigest r.newSHA256 = true
  prev_len : r.prev.length ≤ maxCaddyfile
  prev_digest : h.digest r.prev = r.prevSHA256
  entries : ∀ e ∈ r.secrets, e.Sound h
  sorted : (r.secrets.map EnvEntry.app).Pairwise (· < ·)
  managed : ∀ p ∈ r.secretsInstalled.entries,
    appName p.1 = true ∧ isDigest p.2 = true
  listed : ∀ e ∈ r.secrets, r.listedAs e = true
  init_alone : r.origin = .init → r.secrets = []

/-- What a valid record is, as far as a transaction depends on it. -/
structure Record.Sound (h : Host) (r : Record) : Prop extends r.SetSound h where
  no_change : r.phase = .noChange → r.newSHA256 = r.prevSHA256 ∧ r.secrets = []
  phase : r.phase = .noChange ∨ r.phase = .installing ∨ r.phase = .swapped ∨
    r.phase = .applied ∨ r.phase = .rollingBack

theorem isDigest_ne_nil {s : Bytes} (hs : isDigest s = true) : s ≠ [] := by
  rintro rfl
  simp [isDigest] at hs

variable {h : Host} {e : EnvEntry} {r : Record}

-- ====== the entries

/-- The checks of one entry, taken apart. -/
theorem validEntries_cons {last : Option Bytes} {es : List EnvEntry}
    (hv : validEntries h last (e :: es) = .ok ()) :
    e.Sound h ∧ (∀ a ∈ last, a < e.app) ∧
      validEntries h (some e.app) es = .ok () := by
  simp only [validEntries, Except.check_eq_ok, failIf_eq_ok,
    Bool.or_eq_false_iff, Bool.not_eq_eq_eq_not, Bool.not_false,
    Bool.and_eq_false_iff, beq_eq_false_iff_ne, bne_eq_false_iff_eq,
    decide_eq_false_iff_not, Nat.not_lt] at hv
  obtain ⟨⟨happ, hlast⟩, habsent, hprev, hnew, hrest⟩ := hv
  refine ⟨⟨happ, ?_, ?_, ?_, ?_⟩, ?_, hrest⟩
  · intro hnil
    rcases habsent with hne | ⟨-, hne⟩
    · exact absurd hnil hne
    · exact hne
  · intro hne
    rcases hprev with hnil | ⟨hlen, -⟩
    · exact absurd hnil hne
    · exact hlen
  · intro hne
    rcases hprev with hnil | ⟨-, hd⟩
    · exact absurd hnil hne
    · exact hd
  · intro hne
    rcases hnew with hnil | hd
    · exact absurd hnil hne
    · exact hd
  · intro a ha
    cases ha
    simpa using hlast

/-- Every entry is sound, and each app comes after the ones before. -/
theorem validEntries_sound {h : Host} : ∀ {es : List EnvEntry}
    {last : Option Bytes}, validEntries h last es = .ok () →
      (∀ e ∈ es, e.Sound h) ∧ (∀ a ∈ last, ∀ e ∈ es, a < e.app) ∧
        (es.map EnvEntry.app).Pairwise (· < ·)
  | [], _, _ => by simp
  | e :: es, last, hv => by
    obtain ⟨hsound, hlast, hrest⟩ := validEntries_cons hv
    obtain ⟨hes, hafter, hsorted⟩ := validEntries_sound hrest
    have hlt : ∀ x ∈ es, e.app < x.app := hafter e.app rfl
    refine ⟨?_, ?_, ?_⟩
    · intro x hx
      rcases List.mem_cons.mp hx with rfl | hx
      · exact hsound
      · exact hes x hx
    · intro a ha x hx
      rcases List.mem_cons.mp hx with rfl | hx
      · exact hlast a ha
      · exact List.lt_trans (hlast a ha) (hlt x hx)
    · rw [List.map_cons, List.pairwise_cons]
      refine ⟨?_, hsorted⟩
      intro b hb
      obtain ⟨x, hx, rfl⟩ := List.mem_map.mp hb
      exact hlt x hx

-- ====== the record

theorem validPhase_cases (hv : r.validPhase = .ok ()) :
    (r.phase = .noChange → r.newSHA256 = r.prevSHA256 ∧ r.secrets = []) ∧
      (r.phase = .noChange ∨ r.phase = .installing ∨ r.phase = .swapped ∨
        r.phase = .applied ∨ r.phase = .rollingBack) := by
  unfold Record.validPhase at hv
  split at hv
  next hp =>
    simp only [Except.check_eq_ok, failIf_eq_ok, bne_eq_false_iff_eq,
      Bool.or_eq_false_iff, decide_eq_false_iff_not, Nat.not_lt,
      Nat.le_zero, List.length_eq_zero_iff] at hv
    exact ⟨fun _ => ⟨hv.1, hv.2.1⟩, .inl hp⟩
  all_goals simp_all

theorem validManaged_entries {tree : Bytes} {m : StrMap}
    (hv : validManaged tree m = .ok ()) : ∀ p ∈ m.entries,
      appName p.1 = true ∧ isDigest p.2 = true := by
  simp only [validManaged, Except.check_eq_ok, failIf_eq_ok,
    List.any_eq_false, Bool.or_eq_true, Bool.not_eq_true', not_or,
    Bool.not_eq_false] at hv
  intro p hp
  exact hv.2.2.1 p hp

theorem Record.valid_sound (hv : r.valid h = .ok ()) : r.Sound h := by
  simp only [Record.valid, Except.check_eq_ok, failIf_eq_ok,
    Bool.or_eq_false_iff, Bool.not_eq_eq_eq_not, Bool.not_false,
    bne_eq_false_iff_eq, decide_eq_false_iff_not, Nat.not_lt,
    List.any_eq_false] at hv
  obtain ⟨-, -, ⟨hprev, hnew⟩, ⟨hlen, hdig⟩, -, hphase, hinit, -, hentries,
    hmanaged, hlisted, -⟩ := hv
  obtain ⟨hsound, -, hsorted⟩ := validEntries_sound hentries
  obtain ⟨hnochange, hphases⟩ := validPhase_cases hphase
  refine ⟨⟨hprev, hnew, hlen, hdig, hsound, hsorted,
    validManaged_entries hmanaged, ?_, ?_⟩, hnochange, hphases⟩
  · intro e he
    simpa using hlisted e he
  · intro ho
    have hboth : r.secrets = [] ∧ r.changes = 0 := by simpa [ho] using hinit
    exact hboth.1

/-- Two entries of one app are one entry. -/
theorem Record.SetSound.entry_eq (hs : r.SetSound h) {e' : EnvEntry}
    (he : e ∈ r.secrets) (he' : e' ∈ r.secrets) (happ : e.app = e'.app) :
    e = e' := by
  have hnodup : (r.secrets.map EnvEntry.app).Nodup := by
    refine hs.sorted.imp ?_
    rintro a _ hlt rfl
    exact List.lt_irrefl a hlt
  exact List.inj_on_of_nodup_map hnodup he he' happ

theorem appName_ne_nil {app : Bytes} (happ : appName app = true) :
    app ≠ [] := by
  rintro rfl
  cases happ

theorem Record.SetSound.app_ne_nil (hs : r.SetSound h) (he : e ∈ r.secrets) :
    e.app ≠ [] :=
  appName_ne_nil (hs.entries e he).app

/-- An app of the set has one entry, the one a lookup finds. -/
theorem Txn.env_eq {t : Txn} (hsecrets : t.record.secrets = r.secrets)
    (hs : r.SetSound h) (he : e ∈ r.secrets) : t.env e.app = e := by
  unfold Txn.env
  rw [hsecrets]
  cases hfind : r.secrets.find? fun x => x.app == e.app with
  | none =>
    have hnot := List.find?_eq_none.mp hfind e he
    simp at hnot
  | some x =>
    have happ : x.app = e.app := by simpa using List.find?_some hfind
    exact hs.entry_eq (List.mem_of_find?_eq_some hfind) he happ

/-- A record that was written stays valid through the phases of its
transaction. -/
theorem Record.valid_stage {p : Phase} {err : Bytes} (hv : r.valid h = .ok ())
    (hp : p = .installing ∨ p = .swapped ∨ p = .applied ∨ p = .rollingBack) :
    (r.stage p err).valid h = .ok () := by
  have hphase : (r.stage p err).validPhase = .ok () := by
    rcases hp with rfl | rfl | rfl | rfl <;> rfl
  simp only [Record.valid, Except.check_eq_ok] at hv ⊢
  exact ⟨hv.1, hv.2.1, hv.2.2.1, hv.2.2.2.1, hv.2.2.2.2.1, hphase,
    hv.2.2.2.2.2.2⟩

end Hotserve.Box
