/-
The checks of a restore (backups/restore/restore.go, dump.Inspect): each
database's copy and each declared files path as the snapshot holds them,
and what is in place where they would go. Nothing here changes anything.

`Env` is what the checks and the install ask of others: Go's formatting,
the declaration's JSON, sqlite3, whose `restoreOver` says what a live
database holds once a copy is restored over it, and the kernel, which by
a directory's mode lets a call do what needs some of its bits or does
not. A restore owns both trees: `ownerLets` is what their modes let it
do. A mode can always be set. No file's own mode is asked for.
-/
import Hotserve.Restore.Tree

namespace Hotserve.Restore

open Bytes Fs
open Backup (OpenErr Config sidecars)

structure Env where
  quote : Bytes → Bytes
  errText : OpenErr → Bytes
  typeText : Fs.Kind → Bytes
  decode : Bytes → Except Bytes Config
  checkCopy : Bytes → Bool × Bytes
  restoreOver : Bytes → Bytes → Except Bytes Bytes
  /-- Of the bits a call needs, and a directory's mode. -/
  lets : Nat → Nat → Bool

/-- What a directory's mode lets its owner do. -/
def ownerLets (bits mode : Nat) : Bool := mode &&& bits == bits

-- ====== permission

def denied : OpenErr := .other (str "permission denied")

namespace Env

variable (env : Env) (t : Tree)

/-- The directory at `q`, if one is there, lets a call do what needs these
bits of it. -/
def letsAt (bits : Nat) (q : Rel) : Bool :=
  (t.stat q).all fun st => st.kind != .dir || env.lets bits st.perm

/-- Every directory above `rel` is passed through. -/
def passes (rel : Rel) : Bool := rel.inits.dropLast.all (env.letsAt t 0o100)

/-- `nofollow.Open`. -/
def openAt (rel : Rel) (dirOnly : Bool) : Except OpenErr Unit :=
  if env.passes t rel then Restore.openAt t rel dirOnly else .error denied

/-- `nofollow.Open` of a directory, for reading. -/
def openDir (rel : Rel) : Except OpenErr Unit :=
  if env.letsAt t 0o400 rel then env.openAt t rel true else .error denied

/-- What stands at `rel` itself, looked up in its directory. -/
def statAt (rel : Rel) : Option Stat :=
  if rel.dropLast.inits.all (env.letsAt t 0o100) then Restore.statAt t rel
  else none

end Env

inductive Class
  | ok
  | missing
  | damaged
  | notADatabase
  | refused
  | failed
  | heldBack
  deriving DecidableEq

structure Item where
  kind : Backup.Kind
  path : Rel
  cls : Class
  detail : Bytes
  deriving DecidableEq

/-- Why an item is not sound. -/
structure Fault where
  cls : Class
  detail : Bytes
  bad : cls ≠ .ok

def fault {α : Type} (cls : Class) (detail : Bytes)
    (bad : cls ≠ .ok := by decide) : Except Fault α :=
  .error ⟨cls, detail, bad⟩

inductive Mode
  | checkOnly
  | allOrNothing
  | whatIsSound
  deriving DecidableEq

def kindWord : Fs.Kind → Bytes
  | .dir => str "a directory"
  | .file => str "a file"
  | .link => str "a symbolic link"
  | .fifo => str "a fifo"
  | .socket => str "a socket"
  | .device => str "a device"
  | .special => str "a special file"

-- ====== inspecting

/-- What `dump.Inspect` answers. -/
inductive Inspected
  | ok
  | missing
  | notADatabase (detail : Bytes)
  | failed (detail : Bytes)
  deriving DecidableEq

/-- How a SQLite database begins. -/
def header : Bytes := str "SQLite format 3" ++ [0]

/-- `%d` of a count. -/
def decimal (n : Nat) : Bytes :=
  if n < 10 then [UInt8.ofNat (48 + n)]
  else decimal (n / 10) ++ [UInt8.ofNat (48 + n % 10)]
termination_by n

def noHeader (size : Nat) : Bytes :=
  str "no SQLite header (" ++ decimal size ++ str " bytes)"

variable (env : Env) (snap : Snapshot)

/-- `dump.Inspect`. -/
def inspect (t : Tree) (rel : Rel) : Inspected :=
  match env.openAt t rel false with
  | .error .notExist => .missing
  | .error .link =>
    .notADatabase (str "a symbolic link is in the way; declare the real path")
  | .error e => .failed (env.errText e)
  | .ok () =>
    match t.stat rel with
    | none => .missing
    | some st =>
      if st.kind ≠ .file then
        .notADatabase (str "not a regular file: " ++ env.typeText st.kind)
      else if !header.isPrefixOf (t.data st.ino) then
        .notADatabase (noHeader (t.data st.ino).length)
      else .ok

-- ====== the target

/-- `checkTarget`: no link on the way to `rel`, and at it nothing, or
what the snapshot has there. -/
def checkTarget (env : Env) (t : Tree) (rel : Rel) (dir : Bool) :
    Except Bytes Unit :=
  match env.openAt t rel false with
  | .error .notExist =>
    -- whatever exists of the way there is looked at all the same
    if _h : 1 < rel.length then checkTarget env t rel.dropLast true else .ok ()
  | .error .link => .error (str "a symbolic link is in the way of " ++
      env.quote (shown rel) ++ str ", and a restore does not write through one")
  | .error .notDir => .error (str "something that is not a directory is in " ++
      str "the way of " ++ env.quote (shown rel))
  | .error e => .error (env.errText e)
  | .ok () =>
    match t.stat rel with
    | none => .ok ()
    | some st =>
      if dir && st.kind != .dir then
        .error (env.quote (shown rel) ++
          str " is a directory in the snapshot and " ++ kindWord st.kind ++
          str " in place")
      else if !dir && st.kind != .file then
        .error (env.quote (shown rel) ++
          str " is a file in the snapshot and " ++ kindWord st.kind ++
          str " in place")
      else .ok ()
termination_by rel.length
decreasing_by
  rw [List.length_dropLast]
  omega

/-- `kindAt`. -/
def kindAt (t : Tree) (rel : Rel) : Option Fs.Kind :=
  (env.statAt t rel).map (·.kind)

def exists_ (t : Tree) (rel : Rel) : Bool := (kindAt env t rel).isSome

def isLinkAt (t : Tree) (rel : Rel) : Bool := kindAt env t rel == some .link

/-- What a rename replaces and an unlink removes. -/
def replaceable : Option Fs.Kind → Bool
  | none => true
  | some .file => true
  | some .link => true
  | _ => false

/-- `checkLinkTarget`. -/
def checkLinkTarget (t : Tree) (rel : Rel) : Except Bytes Unit :=
  match checkTarget env t rel.dropLast true with
  | .error e => .error e
  | .ok () =>
    if !replaceable (kindAt env t rel) then
      .error (env.quote (shown rel) ++ str " is " ++
        kindWord ((kindAt env t rel).getD .special) ++
        str " in place and a symbolic link in the snapshot")
    else if exists_ env t (beside rel (str "-wal")) then
      .error (env.quote (shown rel) ++ str (" is a live SQLite database in " ++
        "place (a -wal is beside it) that this snapshot holds as a symbolic " ++
        "link: nothing here can stop the app; restore before it is first " ++
        "deployed, or restore --to a directory"))
    else .ok ()

-- ====== the databases

/-- `chmodStaged`, which gives the owner of what was fetched what it
needs: the look at the entry, in a directory it has passed through. -/
def chmodStaged (t : Tree) (rel : Rel) : Except OpenErr Unit :=
  match openAt t rel.dropLast true with
  | .error e => .error e
  | .ok () =>
    match t.stat rel with
    | none => .error .notExist
    | some st =>
      if st.kind = .link then
        .error (.other (str "chmod " ++ shown rel ++
          str ": too many levels of symbolic links"))
      else .ok ()

def inTheCopy : Bytes := str "the copy in the snapshot: "

/-- What the snapshot's copy of a database holds. -/
def copyContent (rel : Rel) : Bytes :=
  (snap.tree.stat (str "sqlite" :: rel)).elim [] (snap.data ·.ino)

/-- The copy of a database in the snapshot. -/
def checkCopyOf (rel : Rel) : Except Fault Unit :=
  let copyOf := str "sqlite" :: rel
  let look : Except Fault Unit :=
    match inspect env snap.tree copyOf with
    | .missing => fault .missing (str "the snapshot holds no copy of it")
    | .notADatabase detail => fault .notADatabase (inTheCopy ++ detail)
    | .failed detail => fault .failed (inTheCopy ++ detail)
    | .ok =>
      let said := env.checkCopy (copyContent snap rel)
      if !said.1 then
        fault .damaged (str "the copy in the snapshot is damaged " ++
          str "(integrity_check: " ++ said.2 ++ str ")")
      else .ok ()
  if !env.passes snap.tree copyOf then
    fault .failed (inTheCopy ++ env.errText denied)
  else
    match chmodStaged snap.tree copyOf with
    | .error .notExist => look
    | .error e => fault .failed (inTheCopy ++ env.errText e)
    | .ok () => look

/-- The sidecar, beside a database that is not there, that a restore
cannot remove. -/
def stuckSidecar (t : Tree) (rel : Rel) : Option Rel :=
  if exists_ env t rel then none
  else (sidecars.map (beside rel)).find? fun s => !replaceable (kindAt env t s)

/-- What is in place where a database goes. -/
def checkDatabaseTarget (t : Tree) (rel : Rel) : Except Fault Unit :=
  match checkTarget env t rel false with
  | .error e => fault .refused e
  | .ok () =>
    let after : Except Fault Unit :=
      match stuckSidecar env t rel with
      | none => .ok ()
      | some s => fault .refused (env.quote (shown rel) ++
          str " is not there, and " ++ env.quote (shown s) ++
          str " beside it is " ++ kindWord ((kindAt env t s).getD .special) ++
          str ", which a restore does not remove")
    match inspect env t rel with
    | .notADatabase detail =>
      -- an empty file is opened as an empty database
      if (noHeader 0).isPrefixOf detail then after
      else fault .refused (env.quote (shown rel) ++
        str " in place is not a database sqlite3 can open (" ++ detail ++
        str ("); move it aside, and a restore puts the copy in its " ++
          "place"))
    | _ => after

/-- An item that passed, or what it failed of. -/
def itemOf (kind : Backup.Kind) (rel : Rel) :
    Except Fault Unit → Item
  | .ok () => ⟨kind, rel, .ok, []⟩
  | .error bad => ⟨kind, rel, bad.cls, bad.detail⟩

/-- `checkDatabase`; there is no target when only checking. -/
def checkDatabase (target : Option Tree) (rel : Rel) : Item :=
  itemOf .sqlite rel (do
    checkCopyOf env snap rel
    match target with
    | none => .ok ()
    | some t => checkDatabaseTarget env t rel)

-- ====== the files

/-- An entry of the snapshot: `ino` is its inode if it has several names,
or 0. -/
structure Entry where
  rel : Rel
  perm : Nat
  ino : Nat
  deriving DecidableEq

/-- A symbolic link of the snapshot, and its text. -/
structure Link where
  rel : Rel
  target : Bytes
  deriving DecidableEq

/-- `tree`: what the snapshot holds under one declared files path. -/
structure Found where
  single : Bool
  dirs : List Entry
  files : List Entry
  links : List Link
  deriving DecidableEq

def permOf (st : Stat) : Nat := st.perm &&& 0o777

def entryOf (rel : Rel) (st : Stat) : Entry :=
  ⟨rel, permOf st, if 1 < st.nlink then st.ino else 0⟩

/-- Where the snapshot has what goes to `rel`. -/
def staged (rel : Rel) : Rel := str "files" :: rel

/-- One name of a directory, in `walk`; `deeper` walks a directory. A
drill does not `keep` the lists: it has nothing to install. -/
def walkName (keep : Bool) (excluded : Rel → Bool)
    (deeper : Rel → Found → Except Bytes Found) (rel : Rel) (t : Found)
    (name : Bytes) : Except Bytes Found :=
  let child := rel ++ [name]
  -- a declared database is restored from its copy
  if excluded child then .ok t
  else
    match snap.tree.stat (staged child) with
    | none => .error (env.errText .notExist)
    | some st =>
      match st.kind with
      | .file => .ok (if keep then
          { t with files := t.files ++ [entryOf child st] } else t)
      | .dir => deeper child (if keep then
          { t with dirs := t.dirs ++ [⟨child, permOf st, 0⟩] } else t)
      | .link => .ok (if keep then
          { t with links := t.links ++ [⟨child, snap.data st.ino⟩] } else t)
      -- left out, and only listed
      | _ => .ok t

/-- `readableStagedDir`. -/
def readableStagedDir (t : Tree) (rel : Rel) : Except OpenErr Unit :=
  match chmodStaged t rel with
  | .error e => .error e
  | .ok () => openAt t rel true

/-- `walk`, as deep as `fuel`. What is above the declared path was passed
through, and each directory is given what it lacks of 0700 before it is
read, so nothing here is denied. -/
def walk (env : Env) (snap : Snapshot) (keep : Bool) (excluded : Rel → Bool) :
    Nat → Rel → Found → Except Bytes Found
  | 0, _, t => .ok t
  | fuel + 1, rel, t =>
    match readableStagedDir snap.tree (staged rel) with
    | .error e => .error (env.errText e)
    | .ok () => (snap.names (staged rel)).foldlM
        (walkName env snap keep excluded (walk env snap keep excluded fuel)
          rel) t

/-- What the snapshot holds at a declared files path. -/
def findFiles (keep : Bool)
    (excluded : Rel → Bool) (rel : Rel) : Except Fault Found :=
  let inSnapshot := fun e => fault .failed (str "in the snapshot: " ++ e)
  match env.openAt snap.tree (staged rel) false with
  | .error .notExist => fault .missing (str "the snapshot does not hold it")
  | .error .link =>
    -- the declared path itself, unless a link is on the way to it
    match openAt snap.tree (staged rel).dropLast true with
    | .error e => inSnapshot (env.errText e)
    | .ok () =>
      match snap.tree.stat (staged rel) with
      | none => inSnapshot (env.errText .notExist)
      | some st => .ok ⟨true, [], [], [⟨rel, snap.data st.ino⟩]⟩
  | .error e => inSnapshot (env.errText e)
  | .ok () =>
    match snap.tree.stat (staged rel) with
    | none => inSnapshot (env.errText .notExist)
    | some st =>
      match st.kind with
      | .file => .ok ⟨true, [], [entryOf rel st], []⟩
      | .dir =>
        match walk env snap keep excluded (snap.depth + 1) rel
            ⟨false, [⟨rel, permOf st, 0⟩], [], []⟩ with
        | .error e => inSnapshot e
        | .ok t => .ok t
      | kind => fault .refused (str "in the snapshot it is " ++
          kindWord kind ++ str (" — the declared path itself — which a " ++
            "restore does not install"))

/-- A file's place: a link at it is replaced, and it is no live
database. -/
def checkFileTarget (t : Tree) (rel : Rel) : Except Bytes Unit :=
  let after :=
    if exists_ env t (beside rel (str "-wal")) then
      .error (env.quote (shown rel) ++ str (" is a live SQLite database in " ++
        "place (a -wal is beside it) that this snapshot holds only as a " ++
        "file: put back while the app has it open, it would be read with a " ++
        "log that is not its own. Nothing here can stop the app: restore " ++
        "before it is first deployed, or restore --to a directory and move " ++
        "the file into place with the app stopped"))
    else .ok ()
  match checkTarget env t rel false with
  | .error e => if isLinkAt env t rel then after else .error e
  | .ok () => after

/-- What is in place where a files tree goes. -/
def checkFound (t : Tree) (f : Found) : Except Bytes Unit := do
  -- a single link's own check is the only one made of it
  f.dirs.forM fun d => checkTarget env t d.rel true
  f.links.forM fun l => checkLinkTarget env t l.rel
  f.files.forM fun e => checkFileTarget env t e.rel

/-- `inTheWayOfADatabase`: a file or link of the tree where a database
needs a directory, with the last database that does. -/
def inTheWay (dbs : List Rel) (f : Found) : Option (Rel × Rel) :=
  let clash := fun rel =>
    (dbs.filter fun db =>
        rel != [] && rel != db && rel.isPrefixOf db).getLast?.map
      fun db => (rel, db)
  ((f.files.map (·.rel)) ++ f.links.map (·.rel)).findSome? clash

/-- `checkFiles`, and the look at the databases' directories that follows
it. -/
def checkFiles (target : Option Tree)
    (excluded : Rel → Bool) (dbs : List Rel) (rel : Rel) :
    Item × Option Found :=
  match findFiles env snap target.isSome excluded rel with
  | .error bad => (itemOf .files rel (.error bad), none)
  | .ok f =>
    let inPlace : Except Bytes Unit :=
      match target with
      | none => .ok ()
      | some t => checkFound env t f
    match inPlace with
    | .error e => (⟨.files, rel, .refused, e⟩, some f)
    | .ok () =>
      match inTheWay dbs f with
      | some (at_, db) =>
        (⟨.files, rel, .refused, env.quote (shown at_) ++
          str " is a file in the snapshot where the database " ++
          env.quote (shown db) ++ str " needs a directory"⟩, some f)
      | none => (⟨.files, rel, .ok, []⟩, some f)

end Hotserve.Restore
