/-
The invariant of the install transaction, and what one change of the
disk does to it.

# The ledger

`Inv` holds in every world of every run: each file of the set is at its
prev or its new, no Caddyfile names a missing env file, the record on
disk is the transaction's own, and the `Ledger` ties what was reported
and what phase the record says to where the files are. The one
exception is a `Tainted` run: a rolling_back record that was lost while
txn.json said applied. From there on the record promises files the
rollback is putting back, and only the first three survive.

# Moves

The files change by one write at a time. `Touches` is what such a write
leaves alone, and `Inv.move` is the step lemma: a write while the
transaction is open keeps `Inv` when it leaves the file at its prev, or
at its new with nothing terminal reported. What is left for each write
of the swap and of the rollback is its case of `NoDangling`.
-/
import Hotserve.Box.Settle
import Hotserve.Box.Proofs.Record

namespace Hotserve.Box

open Bytes Effect

variable {h : Host} {b : Record} {w w' : World}

variable {d app : Bytes} {s : Slot} {r : Record}

-- ====== digests

/-- A Caddyfile within the cap reads as the digest of its bytes. -/
theorem caddyfileDigest_setCaddyfile (hd : d.length ≤ maxCaddyfile) :
    (w.setCaddyfile (.file d)).caddyfileDigest h = some (h.digest d) := by
  simp [World.caddyfileDigest, World.caddyfileRead, World.setCaddyfile,
    Slot.resolve, hd]

@[simp] theorem World.setEnv_env_self : (w.setEnv app s).env app = s := by
  simp [World.setEnv]

theorem World.setEnv_env_ne {app' : Bytes} (hne : app' ≠ app) :
    (w.setEnv app s).env app' = w.env app' := by
  simp [World.setEnv, Function.update, hne]

theorem envDigest_setEnv_file (hd : d.length ≤ maxEnvRead) :
    (w.setEnv app (.file d)).envDigest h app = h.digest d := by
  simp [World.envDigest, World.envRead, hd]

theorem envDigest_setEnv_absent :
    (w.setEnv app .absent).envDigest h app = [] := by
  simp [World.envDigest, World.envRead]

theorem envDigest_setEnv_ne {app' : Bytes} (hne : app' ≠ app) :
    (w.setEnv app s).envDigest h app' = w.envDigest h app' := by
  simp [World.envDigest, World.envRead, World.setEnv_env_ne hne]

/-- Only a regular file reads as a digest. -/
theorem file_of_envDigest (hd : isDigest d = true)
    (heq : w.envDigest h app = d) : ∃ data, w.env app = .file data := by
  have hnil : d ≠ [] := isDigest_ne_nil hd
  have hneither : d ≠ envNeither := by
    rintro rfl
    revert hd
    decide
  unfold World.envDigest World.envRead at heq
  cases hslot : w.env app with
  | file data => exact ⟨data, rfl⟩
  | absent => simp [hslot] at heq; exact absurd heq hnil
  | link target => simp [hslot] at heq; exact absurd heq hnil
  | dir => simp [hslot] at heq; exact absurd heq.symm hneither
  | special => simp [hslot] at heq; exact absurd heq.symm hneither

-- ====== the invariant

/-- The phases whose files recovery puts back. -/
def Phase.opened : Phase → Bool
  | .installing | .swapped | .rollingBack => true
  | _ => false

/-- A terminal report was made. -/
def World.Ended (w : World) : Prop :=
  w.Reported fun res => res.phase.terminal = true

/-- A rolling_back record was lost while txn.json said applied. -/
def World.Tainted (w : World) : Prop :=
  ∃ r old, Event.recordLost r (some old) ∈ w.log ∧
    r.phase = .rollingBack ∧ old.phase = .applied

/-- Where the files are, by what was reported and what the record
says. -/
structure Ledger (h : Host) (b : Record) (w : World) : Prop where
  reverted : w.Reported Result.reverted → AllPrev h b w
  gone : w.txn = none →
    AllPrev h b w ∨ AllNew h b w ∧ w.Reported (Result.advanced b)
  no_change : ∀ r, w.txn = some r → r.phase = .noChange → AllPrev h b w
  applied : ∀ r, w.txn = some r → r.phase = .applied → AllNew h b w ∧
      (w.Ended → AllPrev h b w ∨ w.Reported (Result.advanced b))
  opened : ∀ r, w.txn = some r → r.phase.opened = true →
    w.Ended → AllPrev h b w

/-- A record of the transaction `b` began: only the phase and the reason
of a rollback differ. -/
def Record.OwnedBy (b r : Record) : Prop :=
  ∃ phase error, r = b.stage phase error

section

variable (hown : b.OwnedBy r)
include hown

theorem Record.OwnedBy.stage (p : Phase) (err : Bytes) :
    r.stage p err = b.stage p err := by
  obtain ⟨_, _, rfl⟩ := hown
  rfl

theorem Record.ownedBy_stage (p : Phase) (err : Bytes) :
    b.OwnedBy (r.stage p err) :=
  ⟨p, err, hown.stage p err⟩

/-- A record of the transaction has `b`'s fields, but for the phase and
the reason. -/
theorem Record.OwnedBy.field {β : Type} (g : Record → β)
    (hg : ∀ p err, g (b.stage p err) = g b) : g r = g b := by
  obtain ⟨p, err, rfl⟩ := hown
  exact hg p err

theorem Record.OwnedBy.secrets : r.secrets = b.secrets :=
  hown.field Record.secrets fun _ _ => rfl

theorem Record.OwnedBy.prevSHA256 : r.prevSHA256 = b.prevSHA256 :=
  hown.field Record.prevSHA256 fun _ _ => rfl

theorem Record.OwnedBy.newSHA256 : r.newSHA256 = b.newSHA256 :=
  hown.field Record.newSHA256 fun _ _ => rfl

end

/-- The invariant of the transaction that began with the record `b`. -/
structure Inv (h : Host) (b : Record) (w : World) : Prop where
  known : ∀ f ∈ b.set, AtPrev h b w f ∨ AtNew h b w f
  dangling : b.prevSHA256 ≠ b.newSHA256 → NoDangling h b w
  own : ∀ r, w.txn = some r → r.valid h = .ok () ∧ b.OwnedBy r
  listed : b.origin = .applier → ∀ p ∈ b.secretsInstalled.entries,
    p.1 ∉ b.secrets.map EnvEntry.app → w.envDigest h p.1 = p.2
  ledger : w.Tainted ∨ Ledger h b w

/-- The record on disk is one recovery rolls back from, or the run is
tainted. -/
def Opened (w : World) : Prop :=
  w.Tainted ∨ ∃ r, w.txn = some r ∧ r.phase.opened = true

theorem Reverted.ended {w : World} (hr : w.Reported Result.reverted) :
    w.Ended := by
  obtain ⟨res, hmem, hp⟩ := hr
  refine ⟨res, hmem, ?_⟩
  rcases hp with hp | hp <;> rw [hp] <;> rfl

-- ====== moves

/-- What a write of one file of the set leaves alone. -/
structure Touches (h : Host) (b : Record) (f : File) (w w' : World) : Prop where
  files : ∀ g ∈ b.set, g ≠ f → w'.digestOf h g = w.digestOf h g
  txn : w'.txn = w.txn
  reports : w'.reports = w.reports
  log : ∀ e ∈ w.log, e ∈ w'.log
  unlisted : ∀ app, app ∉ b.secrets.map EnvEntry.app →
    w'.envDigest h app = w.envDigest h app

theorem World.Tainted.of_log (ht : w.Tainted) (hlog : ∀ e ∈ w.log, e ∈ w'.log) :
    w'.Tainted := by
  obtain ⟨r, old, hmem, hr, ho⟩ := ht
  exact ⟨r, old, hlog _ hmem, hr, ho⟩

/-- A file put at its prev leaves an all-prev set all-prev. -/
theorem Touches.allPrev {f : File} (ht : Touches h b f w w')
    (hf : AtPrev h b w' f) (hall : AllPrev h b w) : AllPrev h b w' := by
  intro g hg
  by_cases hgf : g = f
  · exact hgf ▸ hf
  · exact (ht.files g hg hgf).trans (hall g hg)

/-- The step lemma: one write of a file while the transaction is
open. -/
theorem Inv.move {f : File} (hI : Inv h b w) (ht : Touches h b f w w')
    (hopen : Opened w) (hside : AtPrev h b w' f ∨ AtNew h b w' f ∧ ¬w.Ended)
    (hd : b.prevSHA256 ≠ b.newSHA256 → NoDangling h b w') : Inv h b w' := by
  refine ⟨?_, hd, ?_, ?_, ?_⟩
  · intro g hg
    by_cases hgf : g = f
    · subst hgf
      exact hside.imp id And.left
    · have hsame := ht.files g hg hgf
      exact (hI.known g hg).imp hsame.trans hsame.trans
  · intro r hr
    exact hI.own r (ht.txn ▸ hr)
  · intro ho p hp hnot
    exact (ht.unlisted p.1 hnot).trans (hI.listed ho p hp hnot)
  · rcases hopen with htaint | ⟨r, hr, hphase⟩
    · exact .inl (htaint.of_log ht.log)
    rcases hI.ledger with htaint | hL
    · exact .inl (htaint.of_log ht.log)
    right
    -- in an open phase all the ledger asks is that an ended push is all-prev
    have hback : w'.Ended → AllPrev h b w' := by
      intro hend
      have hend' : w.Ended := by
        obtain ⟨res, hmem, hterm⟩ := hend
        exact ⟨res, ht.reports ▸ hmem, hterm⟩
      rcases hside with hprev | ⟨-, hnone⟩
      · exact ht.allPrev hprev (hL.opened r hr hphase hend')
      · exact absurd hend' hnone
    have hr' : w'.txn = some r := ht.txn.trans hr
    refine ⟨fun hrev => hback (Reverted.ended hrev), ?_, ?_, ?_,
      fun _ _ _ => hback⟩
    · intro hnone
      rw [hnone] at hr'
      cases hr'
    · intro r' hr'' hp
      obtain rfl : r = r' := by rw [hr'] at hr''; exact Option.some.inj hr''
      rw [hp] at hphase
      cases hphase
    · intro r' hr'' hp
      obtain rfl : r = r' := by rw [hr'] at hr''; exact Option.some.inj hr''
      rw [hp] at hphase
      cases hphase

end Hotserve.Box
