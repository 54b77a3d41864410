/-
The install transaction (box/txn.go) and the runs it is part of
(box/apply.go), as programs over the box's calls. Each function has the
source's name and order of reads and writes, since a crash may fall
after any of them; journal lines are left out except the outcome's.

Memory is passed explicitly: a `Txn` is the source's `txn`, and a
function that changes it hands the changed one on. `t.outcome` is the
returned value of a run that settled.
-/
import Hotserve.Box.Disk

namespace Hotserve.Box

open Bytes Effect

-- ====== the catalogue

def msgInterrupted : Bytes :=
  str "interrupted before the Caddyfile changed; nothing changed"

def msgInterruptedStopped : Bytes :=
  str ("interrupted; the previous Caddyfile is on disk; motel is " ++
    "not running — systemctl reset-failed motel, then systemctl " ++
    "start motel, loads it")

def msgReloadFailed : Bytes :=
  str ("the reload failed; the previous Caddyfile is back and " ++
    "running — journalctl -u motel -n 50 on the box says why")

def msgRecordAfterReload : Bytes :=
  str ("the record could not be updated after a successful reload " ++
    "(disk full); rolled back to keep the file and the record " ++
    "consistent")

def msgRolledBackUnrecorded : Bytes :=
  str ("the Caddyfile was swapped, then a write after the swap " ++
    "failed; rolled back: the previous Caddyfile is back and " ++
    "running")

def msgRolledBackInterrupted : Bytes :=
  str ("interrupted after the Caddyfile changed; rolled back: the " ++
    "previous Caddyfile is back and running")

def msgBothReloads : Bytes :=
  str ("the reload failed and so did the reload of the previous " ++
    "file; the previous file is on disk; journalctl -u motel")

def msgPrevReloadFailed : Bytes :=
  str ("rolled back, but the reload of the previous file failed; " ++
    "the previous file is on disk; journalctl -u motel")

def msgChanged : Bytes :=
  str ("the Caddyfile changed during the transaction; it is left " ++
    "as found")

def msgDiskFull : Bytes :=
  str "disk full; the previous Caddyfile could not be restored"

def msgInterruptedFiles : Bytes :=
  str ("interrupted before the box's files changed; nothing " ++
    "changed")

def msgRolledBackUnrecordedFiles : Bytes :=
  str ("a write after the first file changed failed; rolled back: " ++
    "the previous Caddyfile and env files are back")

def msgRolledBackInterruptedFiles : Bytes :=
  str ("interrupted after the box's files changed; rolled back: " ++
    "the previous files are back")

def msgEnvChanged : Bytes :=
  str ("the env file for <app> changed during the transaction; it " ++
    "is left as found")

def msgEnvDiskFull : Bytes :=
  str ("disk full; the previous env file for <app> could not be " ++
    "restored")

def msgNotRunning : Bytes :=
  str "motel is not running; nothing applied"

def msgStillStarting : Bytes :=
  str "motel is still starting after 300 s; nothing applied"

/-- A catalogue text with its app named. -/
def fill (msg app : Bytes) : Bytes := replaceFirst (str "<app>") app msg

variable (h : Host) (t : Txn)

/-- `failed` for an install that stopped before the Caddyfile changed. -/
def installFailed (err : Bytes) : Bytes :=
  str "the install failed before the Caddyfile changed: " ++ h.bound err ++
    str "; nothing changed"

def installFailedFiles (err : Bytes) : Bytes :=
  str "the install failed before the box's files changed: " ++ h.bound err ++
    str "; nothing changed"

/-- `unknown` for a transaction whose applied.json could not be written,
by who ran it and how it ended. -/
def baselineUnrecorded (o : Origin) (phase : Phase) (commit : Bytes) : Bytes :=
  let what :=
    if phase = .noChange then str "unchanged, but" else str "applied but"
  match o with
  | .init => what ++ str " the baseline could not be recorded; motel init " ++
      commit ++ str " again, which ends no_change and records it"
  | .applier =>
    if phase = .noChange then
      what ++ str (" the baseline could not be recorded; " ++
        "push again, which records it")
    else
      what ++ str " the baseline could not be recorded; motel box baseline " ++
        commit ++ str (" on the box records it (the next push then reports " ++
          "the file as edited out of band; it was not)")

/-- `unknown` for a rollback whose reload failed, by the reason it
rolled back. -/
def bothFailed (why : Bytes) : Bytes :=
  if why = msgReloadFailed then msgBothReloads else msgPrevReloadFailed

-- ====== a transaction

/-- A record at a phase, with the reason a rollback has. -/
def Record.stage (r : Record) (phase : Phase) (error : Bytes) : Record :=
  { r with phase := phase, error := error }

/-- One transaction in memory. -/
structure Txn where
  record : Record
  next : Bytes
  nextEnv : Bytes → Bytes
  /-- The id of its entry in work/; none for init. -/
  entry : Option Bytes
  recorded : Bool
  named : List Bytes

/-- How a run stops with the record on disk. -/
inductive Stop
  | fullDisk (msg : Bytes)
  | unsettled
  deriving DecidableEq

/-- A run's end: stopped as found, or settled with the result if one was
made. -/
abbrev Outcome := Except Stop (Option Result)

namespace Txn

def files : Bool := !t.record.secrets.isEmpty

/-- Whether the push changes the Caddyfile. -/
def caddyfileInSet : Bool := t.record.prevSHA256 != t.record.newSHA256

/-- The catalogue's text for the set. -/
def pick (caddyfile files : Bytes) : Bytes :=
  if t.files then files else caddyfile

def installFailed (err : Bytes) : Bytes :=
  t.pick (Box.installFailed h err) (installFailedFiles h err)

/-- The set's entry for an app. -/
def env (app : Bytes) : EnvEntry :=
  (t.record.secrets.find? fun e => e.app == app).getD ⟨[], [], [], []⟩

def envApps : List Bytes := t.record.secrets.map EnvEntry.app

def result (phase : Phase) (msg : Bytes) : Result where
  id := t.record.id
  phase := phase
  commit := t.record.commit
  path := t.record.path
  signer := t.record.signer
  boxWebhook := t.record.boxWebhook
  outOfBand := t.record.outOfBand
  apps := t.record.apps
  diff := t.record.diff
  error := msg
  named := t.named
  secretsAdded := t.record.secretsAdded
  secretsChanged := t.record.secretsChanged
  secretsRemoved := t.record.secretsRemoved
  secretsOutOfBand := t.record.secretsOutOfBand

/-- With a new phase in the record, which is about to be written: it may
reach the disk whatever the write reports. -/
def atPhase (phase : Phase) : Txn :=
  { t with record := t.record.stage phase t.record.error, recorded := true }

/-- With a record that says rolling_back, and why. -/
def rolling (why : Bytes) : Txn :=
  { t with record := t.record.stage .rollingBack why, recorded := true }

end Txn

-- ====== writes

/-- A part of a program that only some runs have. -/
def when (b : Bool) (p : Act Unit) : Act Unit := if b then p else .ret ()

/-- `writeRecord`: only a record that reads back is written. -/
def writeRecord (r : Record) : Act (Option Bytes) :=
  match r.valid h with
  | .error e => .ret (some (str "the record would not read back: " ++ e))
  | .ok () => ask (.writeTxn r)

/-- `readRecord`, a missing file apart. -/
def readRecord : Act (Except Bytes (Option Record)) := do
  match ← ask .readTxn with
  | .error e => pure (.error e)
  | .ok none => pure (.ok none)
  | .ok (some r) =>
    match r.valid h with
    | .error e => pure (.error (str "txn.json: " ++ e))
    | .ok () => pure (.ok (some r))

/-- What applied.json gets from a record. -/
def Record.baseline (r : Record) : Applied where
  sha := r.commit
  path := r.path
  sha256 := r.newSHA256
  signer := r.signer
  secretsTree := r.secretsTree
  secrets := r.secretsInstalled

def putApplied (id : Bytes) (v : Applied) : Act (Option Bytes) :=
  match v.valid with
  | .error e => .ret (some (str "the baseline would not read back: " ++ e))
  | .ok () => ask (.writeAppliedFile id v)

def writeApplied (r : Record) : Act (Option Bytes) :=
  putApplied r.id r.baseline

/-- A removal that fails is journaled and left for the next run. -/
def removeRecord : Act Unit := do
  let _ ← ask .removeTxn
  pure ()

def removeEntry (entry : Option Bytes) : Act Unit :=
  match entry with
  | none => .ret ()
  | some id => do
    let _ ← ask (.removeEntry id)
    pure ()

/-- The result to out/ for a push, to the journal for init. -/
def report (res : Result) : Act Unit :=
  match t.record.origin with
  | .applier => do
    let _ ← ask (.writeResult res)
    pure ()
  | .init => ask (.logOutcome res)

/-- The end of a transaction at a terminal phase: the result, then the
record, then the entry. -/
def finish (phase : Phase) (msg : Bytes) : Act Outcome := do
  report t (t.result phase msg)
  when t.recorded removeRecord
  removeEntry t.entry
  pure (.ok (some (t.result phase msg)))

/-- `changed`: a console edit under the transaction, of the file `app`
names (`""` for the Caddyfile). -/
def changed (app : Bytes) : Act Outcome :=
  finish t .unknown (if app = [] then msgChanged else fill msgEnvChanged app)

def unsettled : Act Outcome := .ret (.error .unsettled)

/-- `fullDisk`: the record and the entry stay, and the run stops. -/
def fullDisk (app : Bytes) : Act Outcome :=
  .ret (.error (.fullDisk
    (if app = [] then msgDiskFull else fill msgEnvDiskFull app)))

-- ====== reads

/-- The installed file's digest as it stands; a missing file and one
over the cap read as `""`. -/
def installedDigest : Act (Except Bytes Bytes) := do
  match ← ask .readCaddyfile with
  | .ok b => pure (.ok (h.digest b))
  | .error .notExist => pure (.ok [])
  | .error .tooLarge => pure (.ok [])
  | .error (.other e) => pure (.error e)

/-- The digest of an env file no record can name. -/
def envNeither : Bytes := str "-"

/-- An env file's digest as it stands. -/
def envDigest (app : Bytes) : Act (Except Bytes Bytes) := do
  match ← ask (.readEnv app) with
  | .ok e => pure (.ok (if e.regular then h.digest e.data else []))
  | .error .notRegular => pure (.ok envNeither)
  | .error .tooLarge => pure (.ok envNeither)
  | .error (.other e) => pure (.error e)

/-- One file of the set as it stands; `app` is `""` for the
Caddyfile. -/
structure FileAt where
  app : Bytes
  prev : Bool
  next : Bool
  deriving DecidableEq

def FileAt.known (f : FileAt) : Bool := f.prev || f.next

/-- `fileAt` from a digest read. -/
def fileAt (app d prevSHA256 newSHA256 : Bytes) : FileAt :=
  ⟨app, decide (d = prevSHA256), decide (d = newSHA256)⟩

/-- One file of the set, by its app. -/
def state (app : Bytes) : Act (Except Bytes FileAt) :=
  if app = [] then do
    match ← installedDigest h with
    | .error e => pure (.error e)
    | .ok d => pure (.ok (fileAt [] d t.record.prevSHA256 t.record.newSHA256))
  else do
    match ← envDigest h app with
    | .error e => pure (.error e)
    | .ok d => pure (.ok (fileAt app d (t.env app).prevSHA256
        (t.env app).newSHA256))

/-- Every file of the set, the Caddyfile first. -/
def states : Act (Except Bytes (List FileAt)) :=
  Prog.loop (fun fs app => do
    match ← state h t app with
    | .error e => pure (.error e)
    | .ok f => pure (.ok (fs ++ [f]))) [] ([] :: t.envApps)

/-- The files a rollback puts back. -/
def Txn.rollbackSet (fs : List FileAt) : List FileAt :=
  if t.caddyfileInSet then fs else fs.drop 1

/-- The first file that is not as `want` says, if any. -/
def firstNot (fs : List FileAt) (want : FileAt → Bool) : Option Bytes :=
  (fs.find? fun f => !want f).map FileAt.app

-- ====== rollback

/-- The previous Caddyfile back, retried once; a write whose rename
landed counts. -/
def restore : Act (Option Bytes) := do
  match ← ask (.writeCaddyfile t.record.id t.record.prev) with
  | none => pure none
  | some _ =>
    match ← ask (.writeCaddyfile t.record.id t.record.prev) with
    | none => pure none
    | some err =>
      match ← installedDigest h with
      | .error _ => pure (some err)
      | .ok d => pure (if d = t.record.prevSHA256 then none else some err)

/-- One attempt at an env file's previous state: its bytes, or no
file. -/
def putBack (e : EnvEntry) : Act (Option Bytes) :=
  if e.prevSHA256 = [] then ask (.unlinkEnvFile t.record.id e.app)
  else ask (.writeEnvFile t.record.id e.app e.prev)

/-- One env file back at its prev, retried once. -/
def restoreEnv (e : EnvEntry) : Act (Option Bytes) := do
  match ← putBack t e with
  | none => pure none
  | some _ =>
    match ← putBack t e with
    | none => pure none
    | some err =>
      match ← envDigest h e.app with
      | .error _ => pure (some err)
      | .ok d => pure (if d = e.prevSHA256 then none else some err)

/-- A write-back that failed: a console put something at the name since,
or the disk is full. -/
def restoreFailed (app : Bytes) : Act Outcome := do
  match ← state h t app with
  | .error _ => fullDisk app
  | .ok f => if f.known then fullDisk app else changed t app

/-- One group of a rollback: the env files of the set not at their prev
which had bytes, or those which had none. -/
def restoreGroup (had : Bool) (set : List FileAt) : Act (Except Outcome Unit) :=
  Prog.loop (fun _ f =>
    if f.app ≠ [] ∧ f.prev = false ∧
        ((t.env f.app).prevSHA256 != []) = had then do
      match ← restoreEnv h t (t.env f.app) with
      | none => pure (.ok ())
      | some _ => do
        let o ← restoreFailed h t f.app
        pure (.error o)
    else pure (.ok ())) () set

/-- `up`: motel serves and a reload reaches it. -/
def up (state : Bytes) : Bool :=
  state == str "active" || state == str "reloading"

/-- The text of a rolled_back result: the record's reason, if it has
one. -/
def Txn.why (otherwise : Bytes) : Bytes :=
  if t.record.error = [] then otherwise else t.record.error

/-- The reload of the previous Caddyfile, and the end. -/
def reloadPrev : Act Outcome := do
  match ← ask .reload with
  | some _ => finish t .unknown (bothFailed t.record.error)
  | none => finish t .rolledBack (t.why msgReloadFailed)

/-- The end of a rollback whose files are back: the reload, if the
Caddyfile was in the set and motel runs. -/
def rolledBack (recovering : Bool) : Act Outcome :=
  if t.caddyfileInSet = false then
    finish t .rolledBack (t.why msgRolledBackInterruptedFiles)
  else if recovering then do
    match ← ask .running with
    | .error _ => unsettled
    | .ok s =>
      if up s then reloadPrev t else finish t .failed msgInterruptedStopped
  else reloadPrev t

/-- The swap's order reversed: every env file that had bytes gets them
back, then the Caddyfile, then the env files the push added go. -/
def writeBack (fs : List FileAt) :
    Act (Except Outcome Unit) := do
  match ← restoreGroup h t true (t.rollbackSet fs) with
  | .error o => pure (.error o)
  | .ok () =>
    if t.caddyfileInSet ∧ fs.head?.any (fun f => !f.prev) then do
      match ← restore h t with
      | some _ => do
        let o ← fullDisk []
        pure (.error o)
      | none => restoreGroup h t false (t.rollbackSet fs)
    else restoreGroup h t false (t.rollbackSet fs)

/-- The rolling_back row: the previous bytes of every file of the set on
disk, then a reload. -/
def rollingBack (recovering : Bool) : Act Outcome := do
  match ← states h t with
  | .error _ => unsettled
  | .ok fs =>
    match firstNot (t.rollbackSet fs) FileAt.known with
    | some odd => changed t odd
    | none => do
      match ← writeBack h t fs with
      | .error o => pure o
      | .ok () => rolledBack t recovering

/-- The record says rolling_back if it can be written, then the
rolling_back row. -/
def rollback (why : Bytes) (recovering : Bool) :
    Act Outcome := do
  let _ ← writeRecord h (t.rolling why).record
  rollingBack h (t.rolling why) recovering

-- ====== install

/-- The env files applied.json will list and the set does not hold, each
read against its digest. -/
def checkListed : Act (Except Outcome Unit) :=
  Prog.loop (fun _ p =>
    if p.1 ∈ t.envApps then pure (.ok ())
    else do
      match ← envDigest h p.1 with
      | .error _ => do
        let o ← unsettled
        pure (.error o)
      | .ok d =>
        if d = p.2 then pure (.ok ())
        else do
          let o ← changed t p.1
          pure (.error o)) () t.record.secretsInstalled.entries

/-- applied.json from the record, then the end at its phase. -/
def recordBaseline (phase : Phase) : Act Outcome := do
  let unrecorded := baselineUnrecorded t.record.origin phase t.record.commit
  match ← writeApplied t.record with
  | some _ => finish t .unknown unrecorded
  | none => finish t phase []

/-- applied.json written from a record that says no_change or applied:
every file it names is read again first. -/
def advance (phase : Phase) : Act Outcome := do
  match ← states h t with
  | .error _ => unsettled
  | .ok fs =>
    match firstNot fs FileAt.next with
    | some odd => changed t odd
    | none =>
      match t.record.origin with
      | .init => recordBaseline t phase
      | .applier => do
        match ← checkListed h t with
        | .error o => pure o
        | .ok () => recordBaseline t phase

/-- A write of the swap that failed, on the file `app` names. -/
def swapFailed (app : Bytes) (dirty : Bool) (err : Bytes) : Act Outcome :=
  if dirty then rollback h t msgRolledBackUnrecordedFiles false
  else do
    match ← state h t app with
    | .error _ => unsettled
    | .ok f =>
      let why := t.pick msgRolledBackUnrecorded msgRolledBackUnrecordedFiles
      if f.prev then finish t .failed (t.installFailed h err)
      else if f.next then rollback h t why false
      else changed t app

/-- `writeEnv`: one env file at its new state. -/
def writeEnv (e : EnvEntry) : Act (Option Bytes) :=
  if e.newSHA256 = [] then ask (.unlinkEnvFile t.record.id e.app)
  else ask (.writeEnvFile t.record.id e.app (t.nextEnv e.app))

/-- One group of the swap: the env files the push writes, or those it
removes. The state is whether a file's bytes have changed. -/
def swapGroup (has : Bool) (dirty : Bool) : Act (Except Outcome Bool) :=
  Prog.loop (fun dirty e =>
    if (e.newSHA256 != []) = has then do
      match ← writeEnv t e with
      | some err => do
        let o ← swapFailed h t e.app dirty err
        pure (.error o)
      | none => pure (.ok (dirty || !has || e.prevSHA256 != e.newSHA256))
    else pure (.ok dirty)) dirty t.record.secrets

/-- The swap: each env file the push writes, then the Caddyfile, then
each env file it removes. -/
def swapFiles : Act (Except Outcome Bool) := do
  match ← swapGroup h t true false with
  | .error o => pure (.error o)
  | .ok dirty =>
    if t.caddyfileInSet then do
      match ← ask (.writeCaddyfile t.record.id t.next) with
      | some err => do
        let o ← swapFailed h t [] dirty err
        pure (.error o)
      | none => swapGroup h t false true
    else swapGroup h t false dirty

/-- swapped → applied, once motel runs on the new files: every file read
back, then the record, then the baseline. -/
def confirmSwapped : Act Outcome := do
  match ← states h t with
  | .error _ => unsettled
  | .ok fs =>
    match firstNot fs FileAt.next with
    | some odd => changed t odd
    | none => do
      let t := t.atPhase .applied
      let why := if t.caddyfileInSet then msgRecordAfterReload
        else msgRolledBackUnrecordedFiles
      match ← writeRecord h t.record with
      | some _ => rollback h t why false
      | none => advance h t .applied

/-- The reload, if the Caddyfile is in the set. -/
def reloadSwapped : Act Outcome :=
  if t.caddyfileInSet then do
    match ← ask .reload with
    | some _ => rollback h t msgReloadFailed false
    | none => confirmSwapped h t
  else confirmSwapped h t

/-- installing → swapped → applied. -/
def swap : Act Outcome := do
  let t := t.atPhase .installing
  match ← writeRecord h t.record with
  | some err => finish t .failed (t.installFailed h err)
  | none =>
    match ← states h t with
    | .error err => finish t .failed (t.installFailed h err)
    | .ok fs =>
      match firstNot fs FileAt.prev with
      | some odd => changed t odd
      | none =>
        match ← swapFiles h t with
        | .error o => pure o
        | .ok _ => do
          let t := t.atPhase .swapped
          let why := t.pick msgRolledBackUnrecorded
            msgRolledBackUnrecordedFiles
          match ← writeRecord h t.record with
          | some _ => rollback h t why false
          | none => reloadSwapped h t

/-- `removeVerified`: a `verified` result that nothing will replace. -/
def removeVerified (id : Bytes) : Act Unit := do
  match ← ask (.readResult id) with
  | .error _ => pure ()
  | .ok r =>
    if r.phase = .verified then do
      let _ ← ask (.removeResult id)
      pure ()
    else pure ()

/-- The transaction from the buffer comparison on. -/
def install : Act Outcome :=
  if t.record.prev = t.next ∧ t.files = false then do
    let t := t.atPhase .noChange
    match ← writeRecord h t.record with
    | some err => finish t .failed (installFailed h err)
    | none => advance h t .noChange
  else
    match t.record.origin with
    | .init => swap h t
    | .applier => do
      match ← ask (.writeResult (t.result .verified [])) with
      | none => swap h t
      | some err => do
        let again ← ask
          (.writeResult (t.result .failed (t.installFailed h err)))
        when again.isSome (removeVerified t.record.id)
        removeEntry t.entry
        pure (.ok none)

-- ====== recovery

/-- `settled`: the push has its terminal result. -/
def settled (id : Bytes) : Act Bool := do
  let phase ← ask (.wrote id)
  if phase.any Phase.terminal then pure true
  else
    match ← ask (.readResult id) with
    | .error _ => pure false
    | .ok r => pure r.phase.terminal

/-- A record whose swap a crash cut, rolled back. -/
def rollbackInterrupted : Act Outcome :=
  rollback h t (t.pick msgRolledBackInterrupted msgRolledBackInterruptedFiles)
    true

/-- The States table: what a record a crash left comes to, by its phase
and the files of its set. -/
def settleByPhase (fs : List FileAt) : Act Outcome :=
  match t.record.phase with
  | .noChange =>
    match firstNot fs FileAt.prev with
    | none => advance h t .noChange
    | some odd => changed t odd
  | .applied =>
    match firstNot fs FileAt.next with
    | none => advance h t .applied
    | some odd => changed t odd
  | .installing =>
    match firstNot (t.rollbackSet fs) FileAt.prev with
    | none => finish t .failed (t.pick msgInterrupted msgInterruptedFiles)
    | some _ =>
      match firstNot (t.rollbackSet fs) FileAt.known with
      | none => rollbackInterrupted h t
      | some odd => changed t odd
  | .swapped =>
    match firstNot (t.rollbackSet fs) FileAt.known with
    | none => rollbackInterrupted h t
    | some odd => changed t odd
  | .rollingBack =>
    match firstNot (t.rollbackSet fs) FileAt.known with
    | none => rollingBack h t true
    | some odd => changed t odd
  | _ => changed t ((firstNot (t.rollbackSet fs) FileAt.known).getD [])

/-- The transaction a record read back stands for. -/
def recovered (r : Record) : Txn where
  record := r
  next := []
  nextEnv := fun _ => []
  entry := if r.origin = .applier then some r.id else none
  recorded := true
  named := []

/-- A record settled by its phase after reading every file of the
set. -/
def recoverPhase : Act Outcome := do
  match ← states h t with
  | .error _ => unsettled
  | .ok fs => settleByPhase h t fs

/-- A record whose result is already terminal finished all but its
removals; any other is settled by its phase. -/
def recoverRecord (r : Record) : Act Outcome :=
  match r.origin with
  | .init => recoverPhase h (recovered r)
  | .applier => do
    if ← settled r.id then do
      removeRecord
      removeEntry (some r.id)
      pure (.ok none)
    else recoverPhase h (recovered r)

/-- The record a crash left, if any: the first part of `recoverAll`. -/
def recoverTxn : Act Outcome := do
  match ← readRecord h with
  | .error _ => unsettled
  | .ok none => pure (.ok none)
  | .ok (some r) => recoverRecord h r

end Hotserve.Box
