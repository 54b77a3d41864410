/-
What it means for an install to be settled: the vocabulary of the
transaction's guarantees, over the files of a record's set.

# Files

A `File` of the set is the Caddyfile or an entry's env file. A file is
at its prev or at its new by the digest a read of it answers with, as
the code itself decides; a Caddyfile the push keeps is at both.

# Runs

`Txn.Planned` is what `process` and `runInit` hand to `install`: the
files read in steps 10 and 15a still stand, and the bytes to write are
the ones the record's digests name. After a crash the next run starts
with fresh memory and the record it finds (`reboot`).
-/
import Hotserve.Box.Txn

namespace Hotserve.Box

open Bytes Effect

-- ====== what a read answers

variable (h : Host) (r : Record) (w : World)

/-- The digest `installedDigest` answers with; none when the read is an
error. -/
def World.caddyfileDigest : Option Bytes :=
  match w.caddyfileRead with
  | .ok b => some (h.digest b)
  | .error .notExist => some []
  | .error .tooLarge => some []
  | .error (.other _) => none

/-- The digest `envDigest` answers with. -/
def World.envDigest (app : Bytes) : Bytes :=
  match w.envRead app with
  | .ok e => if e.regular then h.digest e.data else []
  | .error _ => envNeither

-- ====== files of the set

/-- A file of a record's set. -/
inductive File
  | caddyfile
  | env (e : EnvEntry)
  deriving DecidableEq

namespace File

/-- How the transaction names it. -/
def app : File → Bytes
  | .caddyfile => []
  | .env e => e.app

def prevSHA256 : File → Bytes
  | .caddyfile => r.prevSHA256
  | .env e => e.prevSHA256

def newSHA256 : File → Bytes
  | .caddyfile => r.newSHA256
  | .env e => e.newSHA256

end File

/-- The files of a record's set, the Caddyfile first. -/
def Record.set : List File := .caddyfile :: r.secrets.map .env

def World.digestOf : File → Option Bytes
  | .caddyfile => w.caddyfileDigest h
  | .env e => some (w.envDigest h e.app)

def AtPrev (f : File) : Prop :=
  w.digestOf h f = some (f.prevSHA256 r)

def AtNew (f : File) : Prop :=
  w.digestOf h f = some (f.newSHA256 r)

instance (h : Host) (r : Record) (w : World) (f : File) :
    Decidable (AtPrev h r w f) :=
  inferInstanceAs (Decidable (_ = _))

instance (h : Host) (r : Record) (w : World) (f : File) :
    Decidable (AtNew h r w f) :=
  inferInstanceAs (Decidable (_ = _))

/-- Every file of the set is at its prev. -/
def AllPrev : Prop :=
  ∀ f ∈ r.set, AtPrev h r w f

/-- Every file of the set is at its new. -/
def AllNew : Prop :=
  ∀ f ∈ r.set, AtNew h r w f

instance (h : Host) (r : Record) (w : World) : Decidable (AllPrev h r w) :=
  inferInstanceAs (Decidable (∀ f ∈ r.set, AtPrev h r w f))

instance (h : Host) (r : Record) (w : World) : Decidable (AllNew h r w) :=
  inferInstanceAs (Decidable (∀ f ∈ r.set, AtNew h r w f))

/-- No Caddyfile names an env file that is not there: at prev, every env
file the set had is a file; at new, every one the push has. -/
structure NoDangling (h : Host) (r : Record) (w : World) : Prop where
  prev : AtPrev h r w .caddyfile → ∀ e ∈ r.secrets, e.prevSHA256 ≠ [] →
    ∃ d, w.env e.app = .file d
  new : AtNew h r w .caddyfile → ∀ e ∈ r.secrets, e.newSHA256 ≠ [] →
    ∃ d, w.env e.app = .file d

-- ====== reports

/-- A report that nothing changed, or that the change was undone. -/
def Result.reverted (res : Result) : Prop :=
  res.phase = .failed ∨ res.phase = .rolledBack

/-- A report that the files are the new ones: applied, or unknown for a
baseline that could not be written. -/
def Result.advanced (res : Result) : Prop :=
  res.phase = .applied ∨ res.phase = .unknown ∧
    ∃ phase, res.error = baselineUnrecorded r.origin phase r.commit

/-- Some report so far is as `p` says. -/
def World.Reported (p : Result → Prop) : Prop :=
  ∃ res ∈ w.reports, p res

-- ====== runs

/-- What a transaction starts from. -/
structure Txn.Planned (h : Host) (t : Txn) (w : World) : Prop where
  no_record : w.txn = none
  at_prev : AllPrev h t.record w
  next_digest : h.digest t.next = t.record.newSHA256
  next_len : t.next.length ≤ maxCaddyfile
  env_digest : ∀ e ∈ t.record.secrets, e.newSHA256 ≠ [] →
    h.digest (t.nextEnv e.app) = e.newSHA256
  env_len : ∀ e ∈ t.record.secrets, e.newSHA256 ≠ [] →
    (t.nextEnv e.app).length ≤ maxEnvRead
  /-- `planSecrets` gives an entry the digest of the bytes it read. -/
  env_prev : ∀ e ∈ t.record.secrets, e.prevSHA256 ≠ [] →
    h.digest e.prev = e.prevSHA256
  /-- `planSecrets` leaves out of the set only an env file that already
  is the rendered one. -/
  listed : t.record.origin = .applier →
    ∀ p ∈ t.record.secretsInstalled.entries, p.1 ∉ t.envApps →
      w.envDigest h p.1 = p.2
  /-- `take` drops a bundle whose push has its terminal result. -/
  unsettled : t.record.origin = .applier →
    ∀ r, w.out t.record.id = some r → r.phase.terminal = false
  unwritten : t.record.origin = .applier →
    ∀ p, w.wrote t.record.id = some p → p.terminal = false
  unreported : w.reports = []
  unlogged : w.log = []

/-- A later run: fresh memory, and the record a crash left settled. -/
def reboot (p : Act Outcome) (w' : World) : Prop :=
  p = recoverTxn h ∧ w' = { w with wrote := fun _ => none }

end Hotserve.Box
