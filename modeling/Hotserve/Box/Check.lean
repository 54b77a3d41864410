/-
Steps 10 to 15 of the trust chain (box/check.go), which root and the
handler both run, the handler's fast path beside them (`unchanged`), and
the transaction root makes of a push that passed (box/apply.go, the tail
of `process`).

`check` is cut where its signatures begin: `checkUnsigned` is every step
that needs none, in the source's order, and `checkSigned` the rest. The
reading of a Caddyfile, the verification of a chain and the diff are the
fields of a `Judge`, with nothing assumed of them.
-/
import Hotserve.Bundle.Chain
import Hotserve.Box.Plan

namespace Hotserve.Box

open Bytes
open Liveswap (Quote)
open Bundle (Bundle Commit Lib Secrets proveFile proveSecrets chain)

-- ====== verdicts

/-- A verdict on the push, or the box's own error. -/
inductive CheckErr
  | refusal (msg : Bytes) (ids : List Bytes)
  | box (err : Bytes)
  deriving DecidableEq

/-- A refusal that names no commit, if `bad`. -/
def refuseIf (bad : Bool) (msg : Bytes) : Except CheckErr Unit :=
  if bad then .error (.refusal msg []) else .ok ()

/-- `asRefusal`. -/
def asRefusal (r : Bundle.Refusal) : CheckErr := .refusal r.msg r.ids

structure Signer where
  principal : Bytes
  type : Bytes
  key : Bytes
  b64 : Bytes
  deriving DecidableEq

/-- `PrincipalFor`. -/
def principalFor (signers : List Signer) (key : Bytes) : Option Bytes :=
  (signers.find? fun a => a.key == key).map Signer.principal

/-- What the box reads of a Caddyfile. -/
structure Shape where
  host : Bytes
  signers : List Signer
  apps : List Bytes
  deriving DecidableEq

/-- What the checks lean on: `Walk`, whose error is a refusal's reason,
`VerifyChain` and `SignatureKey`, and the diff the record carries. -/
structure Judge where
  walk : Bytes → Except Bytes Shape
  verifyChain : List Commit → List Signer → List Signer → Bytes →
    Except CheckErr Bytes
  signatureKey : Bytes → Except Bytes Bytes
  caddyfileDiff : Bytes → Bytes → Bytes

def reasonNoSigner : Bytes := str "has no signer"

def msgNoSigner : Bytes :=
  str "the Caddyfile this box runs lists no signer; motel init is the way back"

/-- `runningRefused`. -/
def runningRefused (reason : Bytes) : CheckErr :=
  if reason = reasonNoSigner then .refusal msgNoSigner []
  else .box (str "the Caddyfile this box runs " ++ reason)

/-- `secretNames`. -/
def secretNames : Bundle.Names := ⟨appName, validEnvKey⟩

/-- `provedSecrets`. -/
def provedSecrets (lib : Lib) (b : Bundle) : Except CheckErr Secrets :=
  (proveSecrets lib b.commit b.trees b.blobs b.path secretNames).mapError
    asRefusal

-- ====== check

/-- What the steps without a signature establish. -/
structure Checked where
  cur : Shape
  next : Shape
  secrets : Secrets
  chain : List Commit

/-- A bundle at another path than the box's. -/
def wrongPath (h : Host) (b : Bundle) (base : Applied) (host : Bytes) : Bytes :=
  let fix := if base.path ≠ host ++ str "/Caddyfile" then
      str "motel init, run again from that directory, records it"
    else str "move it there"
  str "this box's file is " ++ h.bound base.path ++
    str "; the bundle is " ++ h.bound b.path ++ str " — a box's file is " ++
    host ++ str "/Caddyfile at the top of the repository: " ++ fix

/-- Steps 10, 11, 13 and the linkage of 14. -/
def checkUnsigned (h : Host) (lib : Lib) (j : Judge) (b : Bundle)
    (installed : Bytes) (base : Applied) : Except CheckErr Checked := do
  let cur ← (j.walk installed).mapError runningRefused
  let next ← (j.walk b.caddyfile).mapError fun reason =>
    .refusal (str "the new Caddyfile " ++ reason) []
  refuseIf (next.host != cur.host)
    (str "this file is for " ++ next.host ++ str "; this box is " ++ cur.host)
  refuseIf (b.path != base.path) (wrongPath h b base cur.host)
  (proveFile lib b.commit b.trees b.path b.caddyfile).mapError asRefusal
  let secrets ← provedSecrets lib b
  let chain ← (chain b.commit b.parents base.sha).mapError asRefusal
  return ⟨cur, next, secrets, chain⟩

/-- `verdict`. -/
structure Verdict where
  signer : Bytes
  host : Bytes
  apps : List Bytes
  prevSum : Bytes
  newSum : Bytes
  outOfBand : Bool
  secrets : Secrets
  deriving DecidableEq

/-- Every signature on the chain, then the guard that the key which
verified HEAD stays listed. -/
def checkSigned (h : Host) (j : Judge) (b : Bundle) (installed : Bytes)
    (base : Applied) (c : Checked) : Except CheckErr Verdict := do
  let signer ← j.verifyChain c.chain c.cur.signers c.next.signers base.sha
  let key ← (j.signatureKey b.commit.signature).mapError .box
  refuseIf (principalFor c.next.signers key).isNone
    (str "the new Caddyfile drops the key that signed this commit (" ++
      signer ++ str ("); add the new key in one push, let it apply, then " ++
        "remove the old one"))
  return {
    signer := signer
    host := c.cur.host
    apps := c.next.apps
    prevSum := h.digest installed
    newSum := h.digest b.caddyfile
    outOfBand := h.digest installed != base.sha256
    secrets := c.secrets }

/-- `check`. -/
def check (h : Host) (lib : Lib) (j : Judge) (b : Bundle) (installed : Bytes)
    (base : Applied) : Except CheckErr Verdict := do
  let c ← checkUnsigned h lib j b installed base
  checkSigned h j b installed base c

-- ====== the fast path

/-- The handler's `envDigest`: only of a file still as root wrote it. -/
def EnvAt.handlerDigest (h : Host) : EnvAt → Except Bytes Bytes
  | .file data true =>
    if maxEnvRead < data.length then .error (str "larger than 66560 bytes")
    else .ok (h.digest data)
  | .unreadable err => .error err
  | .absent => .error (str "file does not exist")
  | _ => .error (str "not as root writes it")

/-- `unchanged`. -/
def unchanged (h : Host) (lib : Lib) (b : Bundle) (installed : Bytes)
    (base : Applied) (env : Bytes → Except Bytes Bytes) : Bool :=
  b.commit.id == base.sha && b.path == base.path &&
    h.digest b.caddyfile == h.digest installed &&
    (proveFile lib b.commit b.trees b.path b.caddyfile).isOk &&
    match provedSecrets lib b with
    | .error _ => false
    | .ok s =>
      s.tree == base.secretsTree &&
        s.apps.length == base.secrets.entries.length &&
        (s.apps.all fun a => (base.secrets.get? a.name).isSome) &&
        (base.secrets.entries.all fun p => (env p.1).toOption == some p.2) &&
        (chain b.commit b.parents base.sha).isOk

-- ====== the transaction

/-- Why a push comes to no transaction. -/
inductive Unprepared
  | check (err : CheckErr)
  | plan (err : PlanErr)

/-- The transaction of a verdict and a plan. -/
def prepared (j : Judge) (id : Bytes) (b : Bundle) (installed : Bytes)
    (vd : Verdict) (plan : SecretsPlan) : Txn where
  record := {
    id := id
    origin := .applier
    phase := .installing
    commit := b.commit.id
    path := b.path
    signer := vd.signer
    prev := installed
    prevSHA256 := vd.prevSum
    newSHA256 := vd.newSum
    diff := j.caddyfileDiff installed b.caddyfile
    apps := vd.apps
    boxWebhook := vd.host
    outOfBand := vd.outOfBand
    error := []
    secrets := plan.entries
    secretsTree := plan.tree
    secretsInstalled := plan.installed
    secretsAdded := plan.added
    secretsChanged := plan.changed
    secretsRemoved := plan.removed
    secretsOutOfBand := plan.oob }
  next := b.caddyfile
  nextEnv := fun app => (plan.next.get? app).getD []
  entry := some id
  recorded := false
  named := []

/-- What root's transaction on a bundle is, once every check passed and
the plan is made (`process`, from step 10 to its `install`). -/
def prepare (h : Host) (lib : Lib) (quote : Quote) (j : Judge) (id : Bytes)
    (b : Bundle) (installed : Bytes) (base : Applied) (store : Store) :
    Except Unprepared Txn := do
  let vd ← (check h lib j b installed base).mapError .check
  let plan ← (planSecrets h quote store vd.secrets base b.path).mapError .plan
  return prepared j id b installed vd plan

end Hotserve.Box
