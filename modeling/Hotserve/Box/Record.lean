/-
What the install transaction keeps on disk (box/txn.go, box/results.go,
box/exchange.go): `record` is txn.json, `applied` the baseline
applied.json, `result` a push's out/<id>.json. The three are modelled
as the values their JSON decodes to; `When`, which no decision reads, is
left out of the baseline.

# The validator

`Record.valid` is the one check between memory and disk, in the order
of the source and with its texts: a record that fails it is never
written and, found on disk, never acted on. `Record.Sound` says what a
record that passed it is, and is all that later proofs use.
-/
import Hotserve.Check
import Hotserve.Box.Names

namespace Hotserve.Box

open Bytes

/-- What the model takes from outside the repository: SHA-256 in hex,
and `proof.Bound`'s cutting of quoted text. -/
structure Host where
  digest : Bytes → Bytes
  digest_isDigest : ∀ b, isDigest (digest b) = true
  bound : Bytes → Bytes

-- ====== what is on disk

/-- Who runs a transaction; recovery honours it. -/
inductive Origin
  | applier | init
  deriving DecidableEq, Repr

/-- A result's phase is `verified` or terminal; a record's is one of the
five it can be in. -/
inductive Phase
  | verified | refused | noChange | applied | failed | rolledBack | unknown
  | installing | swapped | rollingBack
  deriving DecidableEq, Repr

/-- Whether a result's phase ends the push. -/
def Phase.terminal : Phase → Bool
  | .refused | .noChange | .applied | .failed | .rolledBack | .unknown => true
  | _ => false

/-- One env file of the set: its bytes before the push (none, and an
empty digest, when no file stood there) and the rendered file's digest
(empty when the push removes it). -/
structure EnvEntry where
  app : Bytes
  prev : Bytes
  prevSHA256 : Bytes
  newSHA256 : Bytes
  deriving DecidableEq

/-- txn.json: the one durable marker of a transaction in flight. -/
structure Record where
  id : Bytes
  origin : Origin
  phase : Phase
  commit : Bytes
  path : Bytes
  signer : Bytes
  prev : Bytes
  prevSHA256 : Bytes
  newSHA256 : Bytes
  diff : Bytes
  apps : List Bytes
  boxWebhook : Bytes
  outOfBand : Bool
  error : Bytes
  secrets : List EnvEntry
  secretsTree : Bytes
  secretsInstalled : StrMap
  secretsAdded : List Bytes
  secretsChanged : List Bytes
  secretsRemoved : List Bytes
  secretsOutOfBand : List Bytes
  deriving DecidableEq

/-- applied.json: the baseline the next push is checked against. -/
structure Applied where
  sha : Bytes
  path : Bytes
  sha256 : Bytes
  signer : Bytes
  secretsTree : Bytes
  secrets : StrMap
  deriving DecidableEq

/-- out/<id>.json: what a push came to. -/
structure Result where
  id : Bytes
  phase : Phase
  commit : Bytes
  path : Bytes
  signer : Bytes
  boxWebhook : Bytes
  outOfBand : Bool
  apps : List Bytes
  diff : Bytes
  error : Bytes
  named : List Bytes
  secretsAdded : List Bytes
  secretsChanged : List Bytes
  secretsRemoved : List Bytes
  secretsOutOfBand : List Bytes
  deriving DecidableEq

-- ====== validators

/-- The tree `""` or 40 hex; at most 32 apps in the grammar, each at a
digest; and env files listed only beside a tree. -/
def validManaged (tree : Bytes) (m : StrMap) : Except Bytes Unit := do
  failIf (tree != [] && !isID tree) (str "secrets_tree is not 40 hex")
  failIf (decide (maxSecretApps < m.entries.length))
    (str "more env files listed than apps may have secrets")
  failIf (m.entries.any fun p => !appName p.1 || !isDigest p.2)
    (str "an env file listed is not an app and a digest")
  failIf (!m.entries.isEmpty && tree == [])
    (str "env files listed with no secrets_tree")

def Applied.valid (a : Applied) : Except Bytes Unit := do
  failIf (!isID a.sha) (str "sha is not a 40-hex commit id")
  validManaged a.secretsTree a.secrets

/-- Within the cap, each `<app>/<VAR>`. -/
def validSecretNames (names : List Bytes) : Bool :=
  decide (names.length ≤ maxSecretNames) && !names.any fun s => !secretName s

def validNameLists (added changed removed oob : List Bytes) : Bool :=
  [added, changed, removed].all validSecretNames &&
    decide (oob.length ≤ 2 * maxSecretApps) && !oob.any fun s => !appName s

/-- How many secrets' values a record says change. -/
def Record.changes (r : Record) : Nat :=
  r.secretsAdded.length + r.secretsChanged.length + r.secretsRemoved.length

/-- A record's phase; a no_change's set is empty (F1). -/
def Record.validPhase (r : Record) : Except Bytes Unit :=
  match r.phase with
  | .noChange => do
    failIf (r.newSHA256 != r.prevSHA256)
      (str "a no_change record whose digests differ")
    failIf (decide (0 < r.secrets.length) || decide (0 < r.changes))
      (str "a no_change record with env files in its set")
  | .installing | .swapped | .applied | .rollingBack => .ok ()
  | _ => .error (str "phase is not a record's")

/-- The set's env files, each after the last one's app (F3, F4). -/
def validEntries (h : Host) : Option Bytes → List EnvEntry → Except Bytes Unit
  | _, [] => .ok ()
  | last, e :: rest => do
    failIf (!appName e.app || last.any fun a => decide (e.app ≤ a))
      (str "an env file's app is not in the grammar, or out of order")
    failIf (e.prevSHA256 == [] &&
        (decide (0 < e.prev.length) || e.newSHA256 == []))
      (str ("an env file that was absent with bytes, " ++
        "or absent before and after"))
    failIf (e.prevSHA256 != [] && (decide (maxEnvRead < e.prev.length) ||
        h.digest e.prev != e.prevSHA256))
      (str "an env file's prev is not the bytes prev_sha256 names")
    failIf (e.newSHA256 != [] && !isDigest e.newSHA256)
      (str "an env file's digest is not 64 hex")
    validEntries h (some e.app) rest

/-- What applied.json will list agrees with one entry of the set (F7). -/
def Record.listedAs (r : Record) (e : EnvEntry) : Bool :=
  match r.secretsInstalled.get? e.app with
  | none => e.newSHA256 == []
  | some d => e.newSHA256 != [] && d == e.newSHA256

/-- A name is of an app whose env file the set changes and, for a new
value, of one the box will manage (F8). -/
def Record.namesInSet (r : Record) (new : Bool) (name : Bytes) : Bool :=
  let app := ((cut 47 name).map Prod.fst).getD name
  (r.secrets.any fun e => e.app == app) &&
    !(new && (r.secretsInstalled.get? app).getD [] == [])

/-- The one validator of txn.json. -/
def Record.valid (h : Host) (r : Record) : Except Bytes Unit := do
  failIf (!isRequestID r.id) (str "id is not 32 hex")
  failIf (!isID r.commit) (str "commit is not 40 hex")
  failIf (!isDigest r.prevSHA256 || !isDigest r.newSHA256)
    (str "a digest is not 64 hex")
  failIf (decide (maxCaddyfile < r.prev.length) ||
      h.digest r.prev != r.prevSHA256)
    (str "prev is not the bytes prev_sha256 names")
  failIf (splitPath r.path).isOk.not (str "path is not a repository path")
  r.validPhase
  failIf (r.origin == .init &&
      (decide (0 < r.secrets.length) || decide (0 < r.changes)))
    (str "an init record with env files in its set")
  failIf (decide (2 * maxSecretApps < r.secrets.length))
    (str "more env files than a set holds")
  validEntries h none r.secrets
  validManaged r.secretsTree r.secretsInstalled
  failIf (r.secrets.any fun e => !r.listedAs e)
    (str "secrets_installed disagrees with the set's env files")
  failIf (((r.secretsAdded ++ r.secretsChanged).any fun n =>
        !r.namesInSet true n) ||
      r.secretsRemoved.any fun n => !r.namesInSet false n)
    (str "a secret named for an app whose env file the set does not change")
  failIf (!validNameLists r.secretsAdded r.secretsChanged r.secretsRemoved
      r.secretsOutOfBand)
    (str ("the secrets' names are not <app>/<VAR>, " ++
      "or the apps out of band not app names"))

end Hotserve.Box
