/-
The install of a restore (backups/restore/restore.go): databases, then
the files trees in the order declared, each over a target the ones
before have changed. A file or a link lands beside its name and is
renamed onto it, which replaces a file or a link and fails on a
directory; the name beside is the restore's own and gone either way.

What the target's files count of names and owners is not kept: nothing
here reads it. The work is an `EStateM`, since an item that fails leaves
what it had done and the next is tried.
-/
import Hotserve.Restore.Check

namespace Hotserve.Restore

open Bytes Fs
open Backup (OpenErr Config sidecars)

/-- What is restored into: the tree, and an inode number past all of
its. -/
structure Place where
  tree : Tree
  next : Nat

structure Job where
  place : Place
  /-- Where the first name of a staged inode went. -/
  placed : List (Nat × Rel)
  /-- The directories whose mode is set last. -/
  made : List (Rel × Nat)
  seen : List Rel

abbrev M := EStateM Bytes Job

/-- The tree with `st` at `rel`. -/
def put (t : Tree) (rel : Rel) (st : Option Stat) : Tree :=
  { t with stat := Function.update t.stat rel st }

/-- The tree with an inode's bytes changed. -/
def write (t : Tree) (ino : Nat) (bytes : Bytes) : Tree :=
  { t with data := Function.update t.data ino bytes }

def newStat (kind : Fs.Kind) (ino perm : Nat) : Stat :=
  ⟨kind, ino, 1, 0, 0, perm⟩

variable (env : Env) (snap : Snapshot)

/-- `nofollow.Open` in the target. -/
def openTarget (rel : Rel) (dirOnly : Bool) : M Unit := fun j =>
  match env.openAt j.place.tree rel dirOnly with
  | .error e => .error (env.errText e) j
  | .ok () => .ok () j

/-- A call in the directory `dir`, that needs these bits of it. -/
def needs (bits : Nat) (dir : Rel) : M Unit := fun j =>
  if env.letsAt j.place.tree bits dir then .ok () j
  else .error (env.errText denied) j

def setTree (t : Tree) : M Unit := modify fun j =>
  { j with place := { j.place with tree := t } }

-- ====== directories

/-- `Fchmod`. -/
def chmod (rel : Rel) (perm : Nat) : M Unit := do
  let j ← get
  match j.place.tree.stat rel with
  | none => pure ()
  | some st => setTree (put j.place.tree rel (some { st with perm := perm }))

/-- `record`: a directory whose mode is to be set last. -/
def record (rel : Rel) (perm : Nat) : M Unit := modify fun j =>
  if rel ∈ j.made.map Prod.fst then
    { j with made := j.made.map fun d => if d.1 = rel then (rel, perm) else d }
  else { j with made := j.made ++ [(rel, perm)] }

def see (rel : Rel) : M Unit := modify fun j => { j with seen := rel :: j.seen }

/-- `inPlace`: a directory already there; `perm` is the snapshot's, where
it says one. What cannot be opened is left alone. -/
def inPlace (rel : Rel) (perm : Option Nat) : M Unit := do
  let j ← get
  match env.openDir j.place.tree rel, j.place.tree.stat rel with
  | .ok (), some st =>
    let own := st.perm &&& 0o777
    let final := if st.perm &&& 0o7000 = 0 then perm.getD own else own
    -- closed to its owner, who is the restore
    let closed := st.perm &&& 0o300 ≠ 0o300
    let opened : M Unit :=
      if closed then chmod rel (st.perm ||| 0o700) else pure ()
    opened
    if final ≠ own ∨ closed then record rel final else pure ()
  | _, _ => pure ()

/-- `Mkdirat`, and what is made of its answer. -/
def mkdirat (rel : Rel) (perm : Option Nat) : M Unit := do
  needs env 0o100 rel.dropLast
  let j ← get
  if (j.place.tree.stat rel.dropLast).map (·.kind) ≠ some .dir then
    throw (env.errText .notDir)
  else
    match j.place.tree.stat rel with
    | none =>
      needs env 0o300 rel.dropLast
      set { j with place := ⟨put j.place.tree rel
        (some (newStat .dir j.place.next 0o700)), j.place.next + 1⟩ }
      record rel (perm.getD 0o700)
    | some _ =>
      if rel ∈ j.made.map Prod.fst then
        -- made for an earlier item: the mode this one knows is the one
        -- it gets
        match perm with
        | none => pure ()
        | some perm => record rel perm
      else inPlace env rel perm

/-- The last component of `mkdir`, once the way there is. -/
def mkdirLast (rel : Rel) (perm : Option Nat) : M Unit := do
  openTarget env rel.dropLast false
  see rel
  mkdirat env rel perm
  -- whatever is there now is a directory, reached through no link
  openTarget env rel true

/-- `mkdir`: the directory, and whatever of the way there is missing. -/
def mkdir (env : Env) (rel : Rel) (perm : Option Nat) : M Unit := do
  let j ← get
  if rel ∈ j.seen ∧ perm = none then pure ()
  else if rel = [] then
    see rel
    inPlace env rel perm
  else if _h : 1 < rel.length then
    mkdir env rel.dropLast none
    mkdirLast env rel perm
  else mkdirLast env rel perm
termination_by rel.length
decreasing_by
  rw [List.length_dropLast]
  omega

-- ====== names

/-- The rename onto `rel` of what was made beside it: an inode already
there, or a new one with its bytes. -/
def renameOnto (rel : Rel) (st : Stat) : M Unit := do
  let j ← get
  if (j.place.tree.stat rel).map (·.kind) = some .dir then
    throw (env.errText (.other (str "is a directory")))
  else setTree (put j.place.tree rel (some st))

/-- A new inode, with its bytes. -/
def newInode (bytes : Bytes) : M Nat := do
  let j ← get
  let ino := j.place.next
  set { j with place := ⟨write j.place.tree ino bytes, ino + 1⟩ }
  return ino

/-- `copyFile`, of what the checks passed through to. -/
def copyFile (src rel : Rel) (perm : Nat) :
    M Unit := do
  match openAt snap.tree src false with
  | .error e => throw (env.errText e)
  | .ok () =>
    match snap.tree.stat src with
    | none => throw (env.errText .notExist)
    | some st =>
      if st.kind ≠ .file then
        throw (str "it is no longer a regular file in what was fetched")
      else
        openTarget env rel.dropLast true
        needs env 0o300 rel.dropLast
        let ino ← newInode (snap.data st.ino)
        renameOnto env rel (newStat .file ino perm)

/-- `hardlink`: the file placed at `first` under another name, which a
directory does not get. -/
def hardlink (first rel : Rel) : M Unit := do
  mkdir env rel.dropLast none
  openTarget env first.dropLast true
  openTarget env rel.dropLast true
  needs env 0o100 first.dropLast
  needs env 0o300 rel.dropLast
  let j ← get
  match j.place.tree.stat first with
  | none => throw (env.errText .notExist)
  | some st =>
    if st.kind = .dir then
      throw (env.errText (.other (str "operation not permitted")))
    else renameOnto env rel st

/-- `symlink`. -/
def symlink (rel : Rel) (text : Bytes) : M Unit := do
  mkdir env rel.dropLast none
  openTarget env rel.dropLast true
  needs env 0o300 rel.dropLast
  let ino ← newInode text
  renameOnto env rel (newStat .link ino 0o777)

-- ====== items

/-- `Unlinkat`, of what need not be there. -/
def unlink (rel : Rel) : M Unit := do
  needs env 0o100 rel.dropLast
  let j ← get
  match j.place.tree.stat rel with
  | none => pure ()
  | some st =>
    needs env 0o300 rel.dropLast
    if st.kind = .dir then
      throw (str "remove " ++ shown rel ++
        env.errText (.other (str ": is a directory")))
    else setTree (put j.place.tree rel none)

/-- `installDatabase`. -/
def installDatabase (rel : Rel) : M Unit := do
  mkdir env rel.dropLast none
  let j ← get
  match env.openAt j.place.tree rel false with
  | .error .notExist =>
    -- sidecars of a database that is gone would be read as this one's
    openTarget env rel.dropLast true
    sidecars.forM fun suffix => unlink env (beside rel suffix)
    copyFile env snap (str "sqlite" :: rel) rel 0o600
  | .error .link => throw (str "a symbolic link is in the way of " ++
      env.quote (shown rel) ++ str ", and a restore does not write through one")
  | .error e => throw (env.errText e)
  | .ok () =>
    match j.place.tree.stat rel with
    | none => throw (env.errText .notExist)
    | some st =>
      if st.kind ≠ .file then
        throw (env.quote (shown rel) ++ str " is " ++ kindWord st.kind ++
          str " in place, not a database")
      else
        match env.restoreOver (j.place.tree.data st.ino)
            (copyContent snap rel) with
        | .error e => throw (str ("sqlite3 could not restore over the " ++
            "live database; move it aside, and a restore puts the copy " ++
            "in its place: ") ++ e)
        | .ok bytes => setTree (write j.place.tree st.ino bytes)

/-- One file of a tree: its own, or another name of one already
placed. -/
def installFile (f : Entry) : M Unit := do
  let j ← get
  match if f.ino = 0 then none else j.placed.lookup f.ino with
  | some first => hardlink env first f.rel
  | none =>
    copyFile env snap (staged f.rel) f.rel f.perm
    if f.ino ≠ 0 then
      modify fun j => { j with placed := (f.ino, f.rel) :: j.placed }
    else pure ()

/-- `installFiles`. -/
def installFiles (rel : Rel) (t : Found) :
    M Unit := do
  -- a declared file's directory may not be there yet
  let above : M Unit :=
    if t.single then mkdir env rel.dropLast none else pure ()
  above
  t.dirs.forM fun d => mkdir env d.rel (some d.perm)
  t.files.forM (installFile env snap)
  t.links.forM fun l => symlink env l.rel l.target

/-- The order of `closeDirs`: by how many slashes the path has, of which
`.` has as many as a name in it. -/
def closeOrder (made : List (Rel × Nat)) : List (Rel × Nat) :=
  made.insertionSort fun a b => b.1.length - 1 ≤ a.1.length - 1

/-- One step of `closeDirs`. -/
def closeDir (d : Rel × Nat) : M (List Bytes) := do
  let j ← get
  match env.openDir j.place.tree d.1 with
  | .error e => return [env.quote (shown d.1) ++ str ": " ++ env.errText e]
  | .ok () =>
    chmod d.1 d.2
    return []

/-- `closeDirs`: the modes, deepest first; the errors are all of
those met. -/
def closeDirs : M (List Bytes) := do
  let j ← get
  let errs ← (closeOrder j.made).mapM (closeDir env)
  modify fun j => { j with made := [] }
  return errs.flatten

-- ====== run

structure Answer where
  error : Bytes
  plan : Option Config
  items : List Item
  changed : Bool

/-- `readPlan`, of at most a mebibyte. -/
def readPlan : Except Bytes Config :=
  match env.openAt snap.tree [str "plan.json"] false with
  | .error .notExist => .error (str ("the snapshot holds none, so it does " ++
      "not say what it is a snapshot of"))
  | .error e => .error (env.errText e)
  | .ok () =>
    match snap.tree.stat [str "plan.json"] with
    | none => .error (env.errText .notExist)
    | some st =>
      let raw := snap.data st.ino
      if st.kind ≠ .file ∨ 1048576 < raw.length then
        .error (str "it is not a file a declaration would be (" ++
          env.typeText st.kind ++
          str (", " ++ toString raw.length ++ " bytes)"))
      else do
        let decl ← env.decode raw
        decl.validate env.quote
        return decl

/-- The declared databases. -/
def databases (decl : Config) : List Rel := decl.sqlite.map Path.comps

/-- The declared databases and their sidecars. -/
def excluded (decl : Config) (rel : Rel) : Bool :=
  (databases decl).any fun db =>
    rel == db || (sidecars.map (beside db)).contains rel

/-- Every check: each item, with the tree of a files path. -/
def checks (target : Option Tree) (decl : Config) :
    List (Item × Option Found) :=
  ((databases decl).map fun rel => (checkDatabase env snap target rel, none)) ++
    (decl.files.map Path.comps).map fun rel =>
      checkFiles env snap target (excluded decl) (databases decl) rel

/-- The install of one item that is sound. -/
def installItem (it : Item × Option Found) : M Unit :=
  match it.1.kind, it.2 with
  | .sqlite, _ => installDatabase env snap it.1.path
  | .files, some t => installFiles env snap it.1.path t
  | .files, none => pure ()

/-- Every change: what became of each item. -/
def installAll (env : Env) (snap : Snapshot) :
    List (Item × Option Found) → Job → List Item × Job
  | [], j => ([], j)
  | it :: rest, j =>
    if it.1.cls ≠ .ok then
      let (items, j) := installAll env snap rest j
      (it.1 :: items, j)
    else
      match installItem env snap it j with
      | .ok () j =>
        let (items, j) := installAll env snap rest j
        (it.1 :: items, j)
      | .error e j =>
        let (items, j) := installAll env snap rest j
        ({ it.1 with cls := .failed, detail := e } :: items, j)

/-- Items that were in place get another class. -/
def Item.become (it : Item) (cls : Class) (detail : Bytes) : Item :=
  if it.cls = .ok then { it with cls := cls, detail := detail } else it

/-- The directories' modes, after the install. -/
def close (items : List Item) (j : Job) : List Item × Job :=
  match closeDirs env j with
  | .ok [] j => (items, j)
  | .ok (e :: errs) j =>
    (items.map (·.become .failed (str ("in place, and a directory's mode " ++
      "could not be set back: ") ++ e ++
      errs.flatMap (fun e => str "\n" ++ e))), j)
  | .error e j => (items.map (·.become .failed e), j)

/-- `flush`, which opens the target to sync it. -/
def flush (t : Tree) (items : List Item) : List Item :=
  match env.openDir t [] with
  | .error e => items.map (·.become .failed (str ("in place, and not known " ++
      "to be on the disk: ") ++ env.errText e))
  | .ok () => items

/-- `Run`, and the target as it leaves it. -/
def run (target : Place) (mode : Mode) : Answer × Place :=
  match readPlan env snap with
  | .error e =>
    (⟨str "the snapshot's plan.json: " ++ e, none, [], false⟩, target)
  | .ok decl =>
    let checked := checks env snap
      (if mode = .checkOnly then none else some target.tree) decl
    let items := checked.map Prod.fst
    if mode = .checkOnly then (⟨[], some decl, items, false⟩, target)
    else if !items.all (·.cls == .ok) ∧ mode = .allOrNothing then
      let held := items.map (·.become .heldBack (str ("sound, and not " ++
        "installed: every item is checked before any is installed")))
      (⟨[], some decl, held, false⟩, target)
    else
      let (items, j) := installAll env snap checked ⟨target, [], [], []⟩
      let (items, j) := close env items j
      (⟨[], some decl, flush env j.place.tree items, true⟩, j.place)

end Hotserve.Restore
