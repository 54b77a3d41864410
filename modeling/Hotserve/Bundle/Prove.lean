/-
What a commit is proven to hold (box/proof/prove.go): the file at a path,
walked to through the bundled trees, and the secrets beside it. The
layout of a secrets directory and of an app's is one rule set fed an
entry at a time; past its cap an entry is only counted.
-/
import Hotserve.Bundle.Commit
import Hotserve.Bundle.Tree
import Hotserve.Path

namespace Hotserve.Bundle

open Bytes

def maxSecretVars : Nat := 256

def maxSecretFile : Nat := 131072

/-- `SplitPath`, with its refusal. -/
def splitPath (path : Bytes) : Except Refusal (List Bytes) :=
  match Box.splitPath path with
  | .error why => .error (refuse why [])
  | .ok parts => .ok parts

-- ====== the file

/-- The bundled trees by the id they are filed under. -/
abbrev Trees := List (Bytes × Tree)

/-- The bundled blobs by the id they are filed under. -/
abbrev Blobs := List (Bytes × Bytes)

variable (lib : Lib) (c : Commit)

/-- A tree that is needed and not bundled. -/
def noTree (id shown : Bytes) : Refusal :=
  refuse (str "bundle: tree " ++ id ++ str ", needed for " ++ shown ++
    str " in " ++ c.id ++ str ", is not in the bundle") [id, c.id]

/-- `bundledTree`. -/
def bundledTree (trees : Trees) (id shown : Bytes) : Except Refusal Tree :=
  match trees.lookup id with
  | none => .error (noTree c id shown)
  | some t => if t.id ≠ id then .error (noTree c id shown) else .ok t

/-- The loop of `walkTree`, from a tree down. -/
def walkFrom (c : Commit) (trees : Trees) (shown : Bytes) (absent : Refusal) :
    Tree → List Bytes → Except Refusal Tree
  | t, [] => .ok t
  | t, name :: dirs =>
    match t.entry name with
    | .error bad => .error bad
    | .ok none => .error absent
    | .ok (some e) =>
      if e.mode ≠ .dir then .error absent
      else
        match bundledTree c trees e.id shown with
        | .error bad => .error bad
        | .ok t => walkFrom c trees shown absent t dirs

/-- `walkTree`. -/
def walkTree (trees : Trees) (dirs : List Bytes) (shown : Bytes)
    (absent : Refusal) : Except Refusal Tree :=
  match bundledTree c trees c.tree shown with
  | .error bad => .error bad
  | .ok t => walkFrom c trees shown absent t dirs

def notInCommit (shown : Bytes) : Refusal :=
  refuse (str "the file sent is not " ++ shown ++ str " in " ++ c.id) [c.id]

/-- A blob of the tree that is a file. -/
def Mode.regular : Mode → Bool
  | .file => true
  | .executable => true
  | _ => false

/-- `ProveFile`. -/
def proveFile (trees : Trees) (path file : Bytes) : Except Refusal Unit :=
  match splitPath path with
  | .error bad => .error bad
  | .ok parts =>
    let shown := lib.bound path
    let notHere := notInCommit c shown
    match walkTree c trees parts.dropLast shown notHere with
    | .error bad => .error bad
    | .ok t =>
      match t.entry (parts.getLastD []) with
      | .error bad => .error bad
      | .ok none => .error notHere
      | .ok (some e) =>
        if !e.mode.regular then
          .error (refuse (shown ++ str " in " ++ c.id ++
            str " is not a regular file") [c.id])
        else if objectID lib (str "blob") file ≠ e.id then .error notHere
        else .ok ()

-- ====== the layout

structure SecretVar where
  name : Bytes
  blob : Bytes
  data : Bytes
  deriving DecidableEq

structure SecretApp where
  name : Bytes
  vars : List SecretVar
  deriving DecidableEq

/-- `Secrets`: `tree` is empty when the commit has none. -/
structure Secrets where
  tree : Bytes
  apps : List SecretApp
  deriving DecidableEq

/-- `Names`: the grammars of app and variable names, the box's to give. -/
structure Names where
  app : Bytes → Bool
  var : Bytes → Bool

structure LayoutRef where
  name : Bytes
  id : Bytes
  shown : Bytes

/-- What both layouts carry: the entries counted, and those admitted. -/
structure Layout where
  n : Nat
  refs : List LayoutRef

/-- Where a layout's entries are read, for its refusals. -/
structure Where where
  shown : Bytes
  commit : Bytes

/-- `inCommit.String`. -/
def Where.at_ (w : Where) : Bytes :=
  if w.commit = [] then [] else str " in " ++ w.commit

/-- `modeWhat`. -/
def modeWhat : Mode → Bytes
  | .file => str "it is a file"
  | .executable => str "it is a file"
  | .symlink => str "it is a symlink"
  | .submodule => str "it is a submodule"
  | .dir => str "it is a directory"

/-- `SecretsLayout.Dir`. -/
def secretsDir (w : Where) (mode : Mode) : Except Refusal Unit :=
  if mode ≠ .dir then
    .error (refuse (w.shown ++ w.at_ ++ str " is not a directory") [w.commit])
  else .ok ()

/-- `SecretsLayout.Entry`. -/
def secretsEntry (w : Where) (names : Names) (l : Layout)
    (e : Entry) : Except Refusal Layout :=
  let notApp := fun (name why : Bytes) => refuse (w.shown ++ str "/" ++ name ++
    w.at_ ++ str " is not an app's directory: " ++ why) [w.commit]
  if e.name = str "recipients" then
    if !e.mode.regular then
      .error (notApp (str "recipients") (str ("recipients is the name of " ++
        "the recipients file, which is a regular file")))
    else .ok l
  else if e.mode ≠ .dir then
    .error (notApp (lib.bound e.name) (modeWhat e.mode))
  else if Box.maxSecretApps < l.n + 1 then .ok { l with n := l.n + 1 }
  else if !names.app e.name then
    .error (notApp (lib.bound e.name)
      (lib.bound e.name ++ str " is not an app name"))
  else
    .ok ⟨l.n + 1, l.refs ++ [⟨e.name, e.id, w.shown ++ str "/" ++ e.name⟩]⟩

/-- `SecretsLayout.Done`. -/
def secretsDone (l : Layout) : Except Refusal Unit :=
  if Box.maxSecretApps < l.n then
    .error (refuse (str (toString l.n ++ " apps have secrets; the cap is " ++
      toString Box.maxSecretApps)) [])
  else .ok ()

/-- `strings.CutSuffix`. -/
def cutSuffix (suffix b : Bytes) : Option Bytes :=
  if suffix.isSuffixOf b then some (b.take (b.length - suffix.length)) else none

/-- `AppLayout.Entry`. -/
def appEntry (w : Where) (names : Names) (l : Layout) (e : Entry) :
    Except Refusal Layout :=
  let shown := w.shown ++ str "/" ++ lib.bound e.name
  let notSecret := fun (why : Bytes) =>
    refuse (shown ++ w.at_ ++ str " is not a secret: " ++ why) [w.commit]
  if !e.mode.regular then .error (notSecret (modeWhat e.mode))
  else if maxSecretVars < l.n + 1 then .ok { l with n := l.n + 1 }
  else
    match cutSuffix (str ".age") e.name with
    | none => .error (notSecret (str "only <VAR>.age files are"))
    | some v =>
      if Box.maxVarName < v.length then
        .error (notSecret (str ("its name is over " ++
          toString Box.maxVarName ++ " bytes")))
      else if !names.var v then
        .error (notSecret (lib.bound v ++
          str " is not a variable name an env file can carry"))
      else .ok ⟨l.n + 1, l.refs ++ [⟨v, e.id, shown⟩]⟩

/-- `AppLayout.Done`. -/
def appDone (w : Where) (app : Bytes) (l : Layout) : Except Refusal Unit :=
  if maxSecretVars < l.n then
    .error (refuse (str "app " ++ app ++ str (" has " ++ toString l.n ++
      " secrets; the cap is " ++ toString maxSecretVars)) [])
  else if l.n = 0 then
    .error (refuse (w.shown ++ w.at_ ++
      str " is not an app's directory: it holds no secret") [w.commit])
  else .ok ()

/-- A scan through a layout, which stops at its first refusal. -/
def scanLayout (entry : Layout → Entry → Except Refusal Layout) (t : Tree) :
    Except Refusal Layout :=
  let visit := fun (s : Layout × Option Refusal) (e : Entry) =>
    match entry s.1 e with
    | .error bad => ((s.1, some bad), false)
    | .ok l => ((l, none), true)
  match scan t.id visit t.raw (⟨0, []⟩, none) with
  | (_, some bad) => .error bad
  | ((_, some bad), none) => .error bad
  | ((l, none), none) => .ok l

-- ====== the secrets

/-- `SecretFileTooLarge`. -/
def secretFileTooLarge (shown : Bytes) (size : Nat) : Bytes :=
  shown ++ str (" is " ++ toString size ++ " bytes; the cap is " ++
    toString maxSecretFile)

/-- One variable of an app: its blob, which must be bundled. -/
def secretVar (blobs : Blobs) (v : LayoutRef) : Except Refusal SecretVar :=
  let missing := refuse (str "bundle: blob " ++ v.id ++ str ", needed for " ++
    v.shown ++ str " in " ++ c.id ++ str ", is not in the bundle") [v.id, c.id]
  match blobs.lookup v.id with
  | none => .error missing
  | some data =>
    if objectID lib (str "blob") data ≠ v.id then .error missing
    else if maxSecretFile < data.length then
      .error (refuse (secretFileTooLarge v.shown data.length) [])
    else .ok ⟨v.name, v.id, data⟩

/-- `proveSecretApp`. -/
def proveSecretApp (trees : Trees) (blobs : Blobs)
    (name id shown : Bytes) (names : Names) : Except Refusal SecretApp := do
  let t ← bundledTree c trees id shown
  let w : Where := ⟨shown, c.id⟩
  let layout ← scanLayout (appEntry lib w names) t
  appDone w name layout
  let vars ← layout.refs.mapM (secretVar lib c blobs)
  return ⟨name, vars⟩

/-- The `secrets` directory's entry, once the commit has it. -/
def proveSecretsAt (trees : Trees) (blobs : Blobs)
    (shownDir : Bytes) (e : Entry) (names : Names) :
    Except Refusal Secrets := do
  let w : Where := ⟨shownDir, c.id⟩
  secretsDir w e.mode
  let st ← bundledTree c trees e.id shownDir
  let layout ← scanLayout (secretsEntry lib w names) st
  secretsDone layout
  let apps ← layout.refs.mapM fun a => proveSecretApp lib c trees blobs a.name
    a.id (shownDir ++ str "/" ++ a.name) names
  return ⟨st.id, apps⟩

/-- `ProveSecrets`. -/
def proveSecrets (trees : Trees) (blobs : Blobs)
    (path : Bytes) (names : Names) : Except Refusal Secrets := do
  let parts ← splitPath path
  let dir := parts.dropLast
  let shownDir := lib.bound (Path.glue (dir ++ [str "secrets"]))
  let dt ← walkTree c trees dir (lib.bound path)
    (notInCommit c (lib.bound path))
  match ← dt.entry (str "secrets") with
  | none => return ⟨[], []⟩
  | some e => proveSecretsAt lib c trees blobs shownDir e names

end Hotserve.Bundle
