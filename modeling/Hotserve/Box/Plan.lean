/-
Step 15a (box/envfiles.go): what a push's secrets come to on this box.
`planSecrets` opens them with the box's key, holds each app's rendered
file against what stands in secretsDir and what applied.json lists, and
decides which env files root writes or removes.

What the decision reads of the box is a `Store`: the directory's check,
the key, and what stands at each app's name. It is read once, so it is
an argument here.
-/
import Hotserve.Box.Secrets
import Hotserve.Box.Txn
import Hotserve.StrMap

namespace Hotserve.Box

open Bytes
open Liveswap (Quote parseEnvLines)
open Bundle (Secrets)

-- ====== the store

/-- What stands at an app's env file; `ours` is whether a regular file is
0640 and owned as root writes it. -/
inductive EnvAt
  | absent
  | link
  | file (data : Bytes) (ours : Bool)
  /-- A directory, a FIFO or a socket. -/
  | special
  | unreadable (err : Bytes)
  deriving DecidableEq

/-- `envFile`, with whose it is. -/
structure OwnedEnvFile extends EnvFile where
  ours : Bool
  deriving DecidableEq

/-- `readEnv`. -/
def EnvAt.readEnv : EnvAt → Except EnvErr OwnedEnvFile
  | .absent => .ok ⟨⟨false, false, []⟩, false⟩
  | .link => .ok ⟨⟨true, false, []⟩, false⟩
  | .file data ours =>
    if maxEnvRead < data.length then .error .tooLarge
    else .ok ⟨⟨true, true, data⟩, ours⟩
  | .special => .error .notRegular
  | .unreadable err => .error (.other err)

/-- Why the box's key could not be read. -/
inductive IdentityErr
  | notExist
  | other (err : Bytes)
  deriving DecidableEq

/-- What stands in the way of a plan: a verdict on the push, the box's
error with a text of its own, or any other error. -/
inductive PlanErr
  | refusal (msg : Bytes)
  | failure (msg : Bytes)
  | other (err : Bytes)
  deriving DecidableEq

/-- What step 15a reads of the box. -/
structure Store where
  /-- `secretsOwner` and `checkSecretsDir`. -/
  dir : Except PlanErr Unit
  identity : Except IdentityErr Key
  env : Bytes → EnvAt

def msgNoKey : Bytes :=
  str ("this box has no key for secrets (/etc/motel/age/identity): motel " ++
    "box key, as root, makes one; then make rekey BOX_KEY=<the key it " ++
    "prints> in the repository, and push; nothing changed")

def msgSecretsDir : Bytes :=
  str ("/etc/motel/secrets is not the setgid root:motel directory " ++
    "tmpfiles.d makes: systemd-tmpfiles --create motel-box.conf, as root, " ++
    "puts it back; nothing changed")

def msgEnvTooLarge : Bytes :=
  str ("/etc/motel/secrets/<app>.env is larger than 66560 bytes, which no " ++
    "push writes: move it aside, as root, and push again; nothing changed")

def msgEnvNotRegular : Bytes :=
  str ("/etc/motel/secrets/<app>.env is not a regular file, which no push " ++
    "writes: move it aside, as root, and push again; nothing changed")

/-- `readEnvFor`. -/
def Store.readEnvFor (s : Store) (app : Bytes) : Except PlanErr OwnedEnvFile :=
  match (s.env app).readEnv with
  | .ok cur => .ok cur
  | .error .tooLarge => .error (.failure (fill msgEnvTooLarge app))
  | .error .notRegular => .error (.failure (fill msgEnvNotRegular app))
  | .error (.other err) => .error (.other err)

-- ====== the names

/-- `envVars`: the variables of a file as a launch reads them, those with
a secret's name. -/
def envVars (quote : Quote) (data : Bytes) : StrMap :=
  match parseEnvLines quote (str "env file") data with
  | .error _ => .empty
  | .ok vars =>
    .ofPairs ((vars.map fun kv => (cut 61 kv).getD (kv, [])).filter
      fun p => decide (p.1.length ≤ maxVarName))

/-- `<app>/<VAR>`. -/
def named (app key : Bytes) : Bytes := app ++ 47 :: key

/-- The variables `now` has and `was` has not. -/
def addedNames (app : Bytes) (was now : StrMap) : List Bytes :=
  (now.keys.filter fun k => (was.get? k).isNone).map (named app)

/-- The variables both have, at different values. -/
def changedNames (app : Bytes) (was now : StrMap) : List Bytes :=
  (now.keys.filter fun k =>
    (was.get? k).isSome && was.get? k != now.get? k).map (named app)

/-- `capNames`. -/
def capNames (names : List Bytes) : List Bytes :=
  (names.insertionSort (· ≤ ·)).take maxSecretNames

-- ====== the plan

/-- `secretsPlan`. -/
structure SecretsPlan where
  tree : Bytes
  entries : List EnvEntry
  next : StrMap
  installed : StrMap
  added : List Bytes
  changed : List Bytes
  removed : List Bytes
  oob : List Bytes
  deriving DecidableEq

namespace SecretsPlan

def blank (tree : Bytes) : SecretsPlan where
  tree := tree
  entries := []
  next := .empty
  installed := .empty
  added := []
  changed := []
  removed := []
  oob := []

/-- `names`: what the push adds to, changes in and removes from a file. -/
def names (p : SecretsPlan) (quote : Quote) (app was now : Bytes) :
    SecretsPlan :=
  let was := envVars quote was
  let now := envVars quote now
  { p with
    added := p.added ++ addedNames app was now
    changed := p.changed ++ changedNames app was now
    removed := p.removed ++ addedNames app now was }

def flagIf (p : SecretsPlan) (odd : Bool) (app : Bytes) : SecretsPlan :=
  if odd then { p with oob := p.oob ++ [app] } else p

/-- Whether an app's file is not the one applied.json lists. -/
def drifted (h : Host) (cur : OwnedEnvFile) (listed : Bytes) : Bool :=
  !cur.regular || !cur.ours || h.digest cur.data != listed

/-- One app HEAD has. -/
def write (h : Host) (quote : Quote) (base : Applied) (store : Store)
    (p : SecretsPlan) (o : OpenedApp) : Except PlanErr SecretsPlan := do
  let cur ← store.readEnvFor o.name
  let write := !cur.regular || !cur.ours || cur.data != o.file
  let odd := match base.secrets.get? o.name with
    | some listed => drifted h cur listed
    | none => cur.present && write
  let p := (p.flagIf odd o.name).names quote o.name cur.data o.file
  let p := { p with installed := p.installed.insert o.name (h.digest o.file) }
  let entry : EnvEntry :=
    if cur.regular then ⟨o.name, cur.data, h.digest cur.data, h.digest o.file⟩
    else ⟨o.name, [], [], h.digest o.file⟩
  return if !write then p
    else { p with
      entries := p.entries ++ [entry]
      next := p.next.insert o.name o.file }

/-- One app that is listed and HEAD no longer has. -/
def remove (h : Host) (quote : Quote) (store : Store) (p : SecretsPlan)
    (app listed : Bytes) : Except PlanErr SecretsPlan := do
  let cur ← store.readEnvFor app
  let p := p.flagIf (drifted h cur listed) app
  -- with no regular file at the name nothing of the box's stands there
  return if !cur.regular then p
    else
      let p := p.names quote app cur.data []
      { p with
        entries := p.entries ++ [⟨app, cur.data, h.digest cur.data, []⟩] }

/-- The plan with its lists in order and within their caps. -/
def finish (p : SecretsPlan) : SecretsPlan :=
  { p with
    entries := p.entries.insertionSort fun x y => x.app ≤ y.app
    added := capNames p.added
    changed := capNames p.changed
    removed := capNames p.removed
    oob := p.oob.insertionSort (· ≤ ·) }

end SecretsPlan

/-- The secrets opened; a HEAD with none reads no key. -/
def openAll (h : Host) (quote : Quote) (store : Store) (s : Secrets)
    (caddyfile : Bytes) : Except PlanErr (List OpenedApp) :=
  if s.apps.isEmpty then .ok []
  else
    match store.identity with
    | .error .notExist => .error (.failure msgNoKey)
    | .error (.other err) => .error (.other err)
    | .ok key =>
      match openSecrets h quote key s caddyfile with
      | .error msg => .error (.refusal msg)
      | .ok opened => .ok opened

/-- `planSecrets`. -/
def planSecrets (h : Host) (quote : Quote) (store : Store) (s : Secrets)
    (base : Applied) (caddyfile : Bytes) : Except PlanErr SecretsPlan :=
  if s.apps.isEmpty && base.secrets.entries.isEmpty then
    .ok (.blank s.tree)
  else do
    store.dir
    let opened ← openAll h quote store s caddyfile
    let p ← opened.foldlM (SecretsPlan.write h quote base store)
      (.blank s.tree)
    let gone := base.secrets.entries.filter fun q =>
      !opened.any fun o => o.name == q.1
    let p ← gone.foldlM (fun p q => p.remove h quote store q.1 q.2) p
    return p.finish

end Hotserve.Box
