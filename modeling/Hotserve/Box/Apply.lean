/-
The two commands that run transactions (box/apply.go, box/txn.go): the
applier's `run` over the bundles it took, and `motel init`. Both settle
what a crash left before anything else.

What `process` decides of a bundle before `install` (its proofs, its
signatures, the plan of its env files) is the run's input here: a `Job`
is a bundle that ended before the transaction, or the transaction the
checks came to, with nothing assumed of it.
-/
import Hotserve.Box.Txn

namespace Hotserve.Box

open Bytes Effect

/-- `record{ID: id, Origin: originApplier}`; the phase of a record that
is never written is read by nobody. -/
def blankRecord (id : Bytes) : Record where
  id := id
  origin := .applier
  phase := .installing
  commit := []
  path := []
  signer := []
  prev := []
  prevSHA256 := []
  newSHA256 := []
  diff := []
  apps := []
  boxWebhook := []
  outOfBand := false
  error := []
  secrets := []
  secretsTree := []
  secretsInstalled := .empty
  secretsAdded := []
  secretsChanged := []
  secretsRemoved := []
  secretsOutOfBand := []

/-- A transaction that never reaches the disk. -/
def unrecorded (r : Record) (entry : Option Bytes) (named : List Bytes) :
    Txn where
  record := r
  next := []
  nextEnv := fun _ => []
  entry := entry
  recorded := false
  named := named

-- ====== recoverAll

/-- An interrupted push's record with what its `verified` result said. -/
def Record.keeping (r : Record) (v : Result) : Record :=
  { r with
    commit := v.commit
    path := v.path
    signer := v.signer
    boxWebhook := v.boxWebhook
    outOfBand := v.outOfBand
    apps := v.apps
    diff := v.diff
    secretsAdded := v.secretsAdded
    secretsChanged := v.secretsChanged
    secretsRemoved := v.secretsRemoved
    secretsOutOfBand := v.secretsOutOfBand }

/-- Whether a result names a secret or an app of the set. -/
def Result.namesSecrets (v : Result) : Bool :=
  decide (0 < v.secretsAdded.length + v.secretsChanged.length +
    v.secretsRemoved.length + v.secretsOutOfBand.length)

/-- One bundle a crash left in work/: removed if its push has settled,
else ended as interrupted. -/
def recoverEntry (id : Bytes) : Act Unit := do
  if ← settled id then removeEntry (some id)
  else do
    let blank := unrecorded (blankRecord id) (some id) []
    match ← ask (.readResult id) with
    | .error _ => do
      let _ ← finish blank .failed msgInterrupted
      removeVerified id
    | .ok v =>
      let kept := unrecorded ((blankRecord id).keeping v) (some id) []
      let msg := if v.namesSecrets then msgInterruptedFiles
        else msgInterrupted
      if v.phase = .verified then do
        let _ ← finish kept .failed msg
        removeVerified id
      else do
        let _ ← finish blank .failed msgInterrupted
        removeVerified id

/-- The record a crash left, then the bundles it left. -/
def recoverAll (h : Host) : Act (Except Stop Unit) := do
  match ← recoverTxn h with
  | .error stop => pure (.error stop)
  | .ok _ =>
    match ← ask .listWork with
    | .error _ => pure (.error .unsettled)
    | .ok ids =>
      Prog.loop (fun _ id => do
        recoverEntry id
        pure (.ok ())) () ids

-- ====== the applier

/-- A bundle as `process` leaves it to the transaction. -/
inductive Job
  /-- Refused or failed before anything was written. -/
  | ended (id commit path : Bytes) (named : List Bytes) (entry : Bool)
      (phase : Phase) (msg : Bytes)
  /-- Ready to install. -/
  | ready (r : Record) (next : Bytes) (nextEnv : Bytes → Bytes)

def process (h : Host) : Job → Act Outcome
  | .ended id commit path named entry phase msg =>
    finish (unrecorded { blankRecord id with commit := commit, path := path }
      (if entry then some id else none) named) phase msg
  | .ready r next nextEnv =>
    install h
      { record := { r with origin := .applier }
        next := next
        nextEnv := nextEnv
        entry := some r.id
        recorded := false
        named := [] }

/-- One run of the applier. -/
def run (h : Host) (jobs : List Job) : Act (Except Stop Unit) := do
  match ← recoverAll h with
  | .error stop => pure (.error stop)
  | .ok () =>
    let done ← Prog.loop (fun _ job => do
      match ← process h job with
      | .error stop => pure (.error stop)
      | .ok _ => pure (.ok ())) () jobs
    match done with
    | .error stop => pure (.error stop)
    | .ok () => do
      ask .sweep
      pure (.ok ())

-- ====== init

/-- Why init made no transaction. -/
inductive InitRefusal
  | notice (msg : Bytes)
  | unread (e : ReadErr)
  | stopped (s : Stop)

/-- The transaction init runs over the file it replaces. -/
def initTxn (h : Host) (r : Record) (file installed : Bytes)
    (was : Option Applied) : Txn where
  record :=
    { r with
      origin := .init
      signer := str "init"
      prev := installed
      prevSHA256 := h.digest installed
      newSHA256 := h.digest file
      secretsTree := (was.map Applied.secretsTree).getD r.secretsTree
      secretsInstalled := (was.map Applied.secrets).getD r.secretsInstalled }
  next := file
  nextEnv := fun _ => []
  entry := none
  recorded := false
  named := []

/-- What is asked of init's arguments before anything is touched. -/
def initArgs (r : Record) (file : Bytes) : Except Bytes Unit := do
  failIf (!isRequestID r.id || !isID r.commit)
    (str "init: the id must be 32 hex and the commit 40 hex")
  match splitPath r.path with
  | .error e => .error (str "init: " ++ e)
  | .ok _ => .ok ()
  failIf (!validUTF8 r.path) (str "init: the path is not UTF-8")
  failIf (decide (maxCaddyfile < file.length))
    (str "init: the Caddyfile is larger than 1048576 bytes")

/-- The install of init, once motel is up. -/
def initInstall (h : Host) (r : Record) (file : Bytes) :
    Act (Except InitRefusal (Option Result × Option Applied)) := do
  match ← ask .readCaddyfile with
  | .error e => pure (.error (.unread e))
  | .ok installed => do
    -- an applied.json that does not read is replaced like a missing one
    let was ← ask .readApplied
    match ← install h (initTxn h r file installed was.toOption) with
    | .error stop => pure (.error (.stopped stop))
    | .ok res => pure (.ok (res, was.toOption))

def runInit (h : Host) (r : Record) (file : Bytes) :
    Act (Except InitRefusal (Option Result × Option Applied)) :=
  match initArgs r file with
  | .error e => .ret (.error (.notice e))
  | .ok () => do
    match ← recoverAll h with
    | .error stop => pure (.error (.stopped stop))
    | .ok () =>
      match ← ask .running with
      | .error e => pure (.error (.notice e))
      | .ok s =>
        if up s then initInstall h r file
        else if s = str "activating" then
          pure (.error (.notice msgStillStarting))
        else pure (.error (.notice msgNotRunning))

end Hotserve.Box
