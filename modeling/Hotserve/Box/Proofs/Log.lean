/-
The log of a run, and which programs keep it in order.

# The invariant

It is about the log alone. `Good` says of each event, given the ones
before it: a write of applied.json was backed, and a file was written by
a transaction that had put an installing record on disk since its last
baseline (`Cleared`). What ties it to the disk is that a record in a
phase recovery rolls back from belongs to a cleared transaction.

# What needs following

Only four kinds of call add to the log, so most of each program is dealt
with by looking at which calls it can come to (`Ordinary`): a program of
ordinary calls of one transaction keeps the invariant, whatever is
answered and whatever the console does.
-/
import Hotserve.Box.Baseline
import Hotserve.Box.Proofs.Calls
import Hotserve.Box.Proofs.Ledger

namespace Hotserve.Box

open Bytes Effect

variable {h : Host} {w w' : World} {id : Bytes} {t : Txn} {α : Type}

-- ====== the log

/-- Since its last baseline, the transaction has put an installing
record on disk. -/
def Cleared (id : Bytes) : List Event → Prop
  | [] => True
  | .recordWritten r :: log =>
    (r.id = id ∧ r.phase = .installing) ∨ Cleared id log
  | .baselineWritten id' _ _ _ :: log => id' ≠ id ∧ Cleared id log
  | _ :: log => Cleared id log

/-- Each event is in order, given the ones before it. -/
def Good (h : Host) : List Event → Prop
  | [] => True
  | .fileWritten id :: log => Cleared id log ∧ Good h log
  | .baselineWritten id v record reads :: log =>
    Backed h id v record reads ∧ Good h log
  | _ :: log => Good h log

variable {log : List Event} {e : EnvEntry} {recovering : Bool} {i : Bytes}

/-- Without its last event a log is still good. -/
theorem Good.tail {ev : Event} (hg : Good h (ev :: log)) : Good h log := by
  cases ev with
  | fileWritten id => exact hg.2
  | baselineWritten id v record reads => exact hg.2
  | recordWritten r => exact hg
  | recordLost r old => exact hg
  | recordRemoved => exact hg

/-- A file written after a transaction's baseline has an installing
record of it between the two. -/
theorem Cleared.between {v : Applied} {record : Option Record}
    {reads : List Sight} {before : List Event} :
    ∀ {between : List Event}, Cleared id
      (between ++ .baselineWritten id v record reads :: before) →
      ∃ r, .recordWritten r ∈ between ∧ r.id = id ∧ r.phase = .installing
  | [], hc => absurd rfl hc.1
  | ev :: between, hc => by
    have hrest : Cleared id
        (between ++ .baselineWritten id v record reads :: before) ∨
        ∃ r, ev = .recordWritten r ∧ r.id = id ∧ r.phase = .installing := by
      cases ev with
      | fileWritten id' => exact .inl hc
      | recordLost r old => exact .inl hc
      | recordRemoved => exact .inl hc
      | baselineWritten id' _ _ _ => exact .inl hc.2
      | recordWritten r => exact hc.symm.imp_right fun hr => ⟨r, rfl, hr⟩
    rcases hrest with hrest | ⟨r, rfl, hr⟩
    · obtain ⟨r, hmem, hr⟩ := hrest.between
      exact ⟨r, .tail _ hmem, hr⟩
    · exact ⟨r, .head _, hr⟩

/-- Every baseline written in a good log was backed. -/
theorem Good.backed {v : Applied} {record : Option Record} {reads : List Sight}
    (hg : Good h log) (hmem : .baselineWritten id v record reads ∈ log) :
    Backed h id v record reads := by
  induction log with
  | nil => cases hmem
  | cons ev log ih =>
    rcases List.mem_cons.mp hmem with rfl | hmem
    · exact hg.1
    · exact ih hg.tail hmem

/-- Every file written in one was a cleared transaction's. -/
theorem Good.cleared {later : List Event}
    (hg : Good h (later ++ .fileWritten id :: log)) : Cleared id log := by
  induction later with
  | nil => exact hg.1
  | cons ev later ih => exact ih hg.tail

-- ====== the invariant

/-- The log is good, and a record that is rolled back from is a cleared
transaction's. -/
structure LogInv (h : Host) (w : World) : Prop where
  good : Good h w.log
  cleared : ∀ r, w.txn = some r → r.phase.opened = true → Cleared r.id w.log

/-- With a transaction in hand that may write its files. -/
def LogInvFor (h : Host) (id : Option Bytes) (w : World) : Prop :=
  LogInv h w ∧ ∀ i, id = some i → Cleared i w.log

/-- The calls of a transaction outside `advance`; with none in hand no
file and no record is written. -/
def Ordinary (id : Option Bytes) : Call → Prop
  | .writeCaddyfile i _ => id = some i
  | .writeEnvFile i _ _ => id = some i
  | .unlinkEnvFile i _ => id = some i
  | .writeTxn r => id = some r.id
  | .writeAppliedFile _ _ => False
  | _ => True

/-- Such a call writes no other transaction's file. -/
theorem Ordinary.file {id : Option Bytes} {e : Call} (he : Ordinary id e)
    (hfile : e.writesFor = some i) : id = some i := by
  cases e with
  | writeCaddyfile j _ => cases hfile; exact he
  | writeEnvFile j _ _ => cases hfile; exact he
  | unlinkEnvFile j _ => cases hfile; exact he
  | _ => cases hfile

/-- An ordinary call keeps the invariant and the transaction cleared. -/
theorem ordinary_apply {id : Option Bytes} {e : Call} {c : Fate} {r : Answer e}
    (he : Ordinary id e) (hI : LogInvFor h id w)
    (happ : apply e c w = some (r, w')) : LogInvFor h id w' := by
  obtain ⟨⟨hgood, hclr⟩, hid⟩ := hI
  cases change_of_apply happ with
  | still | seen | lost | remembered | filed | reported | dropped | cleaned =>
    exact ⟨⟨hgood, hclr⟩, hid⟩
  | removed => exact ⟨⟨hgood, fun _ hr => by cases hr⟩, hid⟩
  | file hfile =>
    exact ⟨⟨⟨hid _ (he.file hfile), hgood⟩, hclr⟩, hid⟩
  | written =>
    refine ⟨⟨hgood, ?_⟩, fun i hi => .inr (hid i hi)⟩
    rintro r ⟨⟩ -
    exact .inr (hid _ he)
  | baseline => exact he.elim

/-- A hand at the console adds nothing to the log. -/
theorem consoleEdit_keeps {id : Option Bytes} (hI : LogInvFor h id w)
    (henv : consoleEdit w w') : LogInvFor h id w' := by
  obtain ⟨c, e, rfl⟩ := henv
  exact ⟨⟨hI.1.good, hI.1.cleared⟩, hI.2⟩

/-- A program of ordinary calls keeps the invariant, and the transaction
in hand cleared. -/
theorem safe_ordinary {id : Option Bytes} {p : Act α}
    (hp : p.All (Ordinary id)) (hI : LogInvFor h id w) :
    Safe manned (LogInv h) p (fun _ => LogInvFor h id) w :=
  (safe_of_all (LogInvFor h id)
    (fun _ _ _ _ _ he hI _ happ => ordinary_apply he hI happ)
    (fun _ _ hI henv => consoleEdit_keeps hI henv) hp hI).mono
    (fun _ hI => hI.1) (fun _ _ hI => hI)

-- ====== which programs are ordinary

section Ordinary

variable {id : Option Bytes}

/-- What is done under a condition, or not. -/
theorem all_when {b : Bool} {p : Act Unit} (hp : p.All (Ordinary id)) :
    (when b p).All (Ordinary id) := by
  unfold when
  split
  · exact hp
  · trivial

/-- Removing the record writes none. -/
theorem all_removeRecord : removeRecord.All (Ordinary id) :=
  ⟨trivial, fun _ => trivial⟩

theorem all_removeEntry {entry : Option Bytes} :
    (removeEntry entry).All (Ordinary id) := by
  cases entry with
  | none => trivial
  | some i => exact ⟨trivial, fun _ => trivial⟩

/-- The report and the clearing up. -/
theorem all_finish {phase : Phase} {msg : Bytes} :
    (finish t phase msg).All (Ordinary id) := by
  refine Prog.All.bind ?_ fun _ => (all_when all_removeRecord).bind fun _ =>
    all_removeEntry.bind fun _ => trivial
  unfold report
  cases t.record.origin with
  | applier => exact ⟨trivial, fun _ => trivial⟩
  | init => exact ⟨trivial, fun _ => trivial⟩

variable {app : Bytes}

/-- A drift, reported. -/
theorem all_changed : (changed t app).All (Ordinary id) :=
  all_finish

/-- Reads are ordinary. -/
theorem all_installedDigest : (installedDigest h).All (Ordinary id) := by
  refine ⟨trivial, fun r => ?_⟩
  cases r with
  | ok b => trivial
  | error e => cases e <;> trivial

theorem all_envDigest : (envDigest h app).All (Ordinary id) := by
  refine ⟨trivial, fun r => ?_⟩
  cases r with
  | ok b => trivial
  | error e => cases e <;> trivial

/-- A file of the set, looked at. -/
theorem all_state : (state h t app).All (Ordinary id) := by
  unfold state
  split
  · refine all_installedDigest.bind fun r => ?_
    cases r <;> trivial
  · refine all_envDigest.bind fun r => ?_
    cases r <;> trivial

/-- And all of them. -/
theorem all_states : (states h t).All (Ordinary id) := by
  refine Prog.all_loop (fun fs app => all_state.bind fun r => ?_) _ _
  cases r <;> trivial

/-- The service reloaded on the previous configuration. -/
theorem all_reloadPrev : (reloadPrev t).All (Ordinary id) := by
  refine ⟨trivial, fun a => ?_⟩
  cases a with
  | none => exact all_finish
  | some _ => exact all_finish

/-- What follows the files' return. -/
theorem all_rolledBack : (rolledBack t recovering).All (Ordinary id) := by
  unfold rolledBack
  split
  · exact all_finish
  split
  · refine ⟨trivial, fun a => ?_⟩
    cases a with
    | error _ => trivial
    | ok s =>
      change Prog.All _ (if up s = true then _ else _)
      split
      · exact all_reloadPrev
      · exact all_finish
  · exact all_reloadPrev

/-- Whether an entry has ended. -/
theorem all_settled : (settled i).All (Ordinary id) := by
  refine ⟨trivial, fun a => ?_⟩
  change Prog.All _ (if a.any Phase.terminal = true then _ else _)
  split
  · trivial
  · refine ⟨trivial, fun a => ?_⟩
    cases a <;> trivial

theorem all_removeVerified : (removeVerified i).All (Ordinary id) := by
  refine ⟨trivial, fun a => ?_⟩
  cases a with
  | error _ => trivial
  | ok r =>
    change Prog.All _ (if r.phase = .verified then _ else _)
    split
    · exact ⟨trivial, fun _ => trivial⟩
    · trivial

/-- An entry of work/ that no record is about. -/
theorem all_recoverEntry : (recoverEntry i).All (Ordinary id) := by
  refine all_settled.bind fun b => ?_
  split
  · exact all_removeEntry
  · refine ⟨trivial, fun a => ?_⟩
    cases a with
    | error _ => exact all_finish.bind fun _ => all_removeVerified
    | ok v =>
      change Prog.All _ (if v.phase = .verified then _ else _)
      split
      · exact all_finish.bind fun _ => all_removeVerified
      · exact all_finish.bind fun _ => all_removeVerified

end Ordinary

/-- The calls of a transaction once it has a record on disk. -/
abbrev Txn.Calls (t : Txn) (p : Act α) : Prop :=
  p.All (Ordinary (some t.record.id))

theorem all_putBack : t.Calls (putBack t e) := by
  unfold putBack
  split
  · exact ⟨rfl, fun _ => trivial⟩
  · exact ⟨rfl, fun _ => trivial⟩

/-- An env file, put back and tried twice. -/
theorem all_restoreEnv : t.Calls (restoreEnv h t e) := by
  refine all_putBack.bind fun a => ?_
  cases a with
  | none => trivial
  | some _ =>
    refine all_putBack.bind fun a => ?_
    cases a with
    | none => trivial
    | some err =>
      refine all_envDigest.bind fun a => ?_
      cases a <;> trivial

/-- The Caddyfile, likewise. -/
theorem all_restore : t.Calls (restore h t) := by
  refine ⟨rfl, fun a => ?_⟩
  cases a with
  | none => trivial
  | some _ =>
    refine ⟨rfl, fun a => ?_⟩
    cases a with
    | none => trivial
    | some err =>
      refine all_installedDigest.bind fun a => ?_
      cases a <;> trivial

/-- A file that could not be put back. -/
theorem all_restoreFailed {app : Bytes} : t.Calls (restoreFailed h t app) := by
  refine all_state.bind fun a => ?_
  cases a with
  | error _ => trivial
  | ok f =>
    change Prog.All _ (if f.known = true then _ else _)
    split
    · trivial
    · exact all_changed

/-- The env files that had a previous version, or those that had none. -/
theorem all_restoreGroup {had : Bool} {fs : List FileAt} :
    t.Calls (restoreGroup h t had fs) := by
  refine Prog.all_loop (fun _ f => ?_) _ _
  split
  · refine all_restoreEnv.bind fun a => ?_
    cases a with
    | none => trivial
    | some _ => exact all_restoreFailed.bind fun _ => trivial
  · trivial

/-- All the files put back, in their order. -/
theorem all_writeBack {fs : List FileAt} : t.Calls (writeBack h t fs) := by
  refine all_restoreGroup.bind fun r => ?_
  cases r with
  | error o => trivial
  | ok _ =>
    change Prog.All _ (if _ ∧ _ then _ else _)
    split
    · refine all_restore.bind fun a => ?_
      cases a with
      | some _ => trivial
      | none => exact all_restoreGroup
    · exact all_restoreGroup

/-- A rollback whose record is on disk. -/
theorem all_rollingBack : t.Calls (rollingBack h t recovering) := by
  refine all_states.bind fun a => ?_
  cases a with
  | error _ => trivial
  | ok fs =>
    dsimp only
    split
    · exact all_changed
    · refine all_writeBack.bind fun r => ?_
      cases r with
      | error o => trivial
      | ok _ => exact all_rolledBack

/-- A record of its own. -/
theorem all_writeRecord {r : Record} :
    (writeRecord h r).All (Ordinary (some r.id)) := by
  unfold writeRecord
  split
  · trivial
  · exact ⟨rfl, fun _ => trivial⟩

/-- A rollback, from its record on. -/
theorem all_rollback {why : Bytes} : t.Calls (rollback h t why recovering) :=
  Prog.All.bind (all_writeRecord (r := (t.rolling why).record)) fun _ =>
    all_rollingBack (t := t.rolling why)

/-- A write that failed half way. -/
theorem all_swapFailed {app err : Bytes} {dirty : Bool} :
    t.Calls (swapFailed h t app dirty err) := by
  unfold swapFailed
  split
  · exact all_rollback
  · refine all_state.bind fun a => ?_
    cases a with
    | error _ => trivial
    | ok f =>
      change Prog.All _ (if f.prev = true then _ else
        if f.next = true then _ else _)
      split
      · exact all_finish
      split
      · exact all_rollback
      · exact all_changed

/-- An env file, written or removed. -/
theorem all_writeEnv : t.Calls (writeEnv t e) := by
  unfold writeEnv
  split
  · exact ⟨rfl, fun _ => trivial⟩
  · exact ⟨rfl, fun _ => trivial⟩

/-- The env files with a new version, or those without. -/
theorem all_swapGroup {has dirty : Bool} :
    t.Calls (swapGroup h t has dirty) := by
  refine Prog.all_loop (fun dirty e => ?_) _ _
  split
  · refine all_writeEnv.bind fun a => ?_
    cases a with
    | some err => exact all_swapFailed.bind fun _ => trivial
    | none => trivial
  · trivial

/-- All the files, in their order. -/
theorem all_swapFiles : t.Calls (swapFiles h t) := by
  refine all_swapGroup.bind fun r => ?_
  cases r with
  | error o => trivial
  | ok dirty =>
    change Prog.All _ (if t.caddyfileInSet = true then _ else _)
    split
    · refine ⟨rfl, fun a => ?_⟩
      cases a with
      | some err => exact all_swapFailed.bind fun _ => trivial
      | none => exact all_swapGroup
    · exact all_swapGroup

end Hotserve.Box
