/-
One app's backup run (backups/engine, `run.app`): staging is emptied,
the data is pinned, the databases are dumped, restic uploads what it is
shown, and what is in the snapshot is held to what was given to it.

# What is answered from outside

The units are other processes, and `Env` is what each comes back with: a
start error, or an outcome and the bytes it wrote to its stdout file.
The upload and the listing are functions of what they were given. The
app may rearrange its shared dir while the run goes on, so every look at
a declared path has a tree of its own. What `encoding/json` makes of a
text is `Json`: which bytes a unit printed is left open, and so is how
they decode. Error texts that Go's formatting makes are `Fmt`.

The units' command lines and the run's temporary files are not modelled:
nothing is decided from them.
-/
import Hotserve.Backup.Decl
import Hotserve.Backup.Nofollow
import Mathlib.Data.List.Sort

namespace Hotserve.Backup

open Bytes Fs

-- ====== the answers

/-- `unit.Outcome`: how a unit's command ended. -/
structure Outcome where
  exitStatus : Int
  result : Bytes
  deriving DecidableEq

def Outcome.ok (o : Outcome) : Bool :=
  o.result == str "success" && o.exitStatus == 0

/-- `dump.Result`, as the dump unit printed it. -/
structure DumpResult where
  path : Bytes
  class_ : Bytes
  detail : Bytes
  bytes : Int
  deriving DecidableEq

/-- `dump.OK`. -/
def dumpOK : Bytes := str "ok"

/-- `dump.Known`. -/
def known (c : Bytes) : Bool :=
  [dumpOK, str "missing", str "not a database", str "never opened",
    str "disk full", str "busy", str "copy is damaged", str "failed"].contains c

/-- `lsNode`: what a listing says of one entry of a snapshot. -/
structure LsNode where
  type_ : Bytes
  size : Int
  inode : Option Nat
  uid : Nat
  gid : Nat
  deriving DecidableEq

/-- One line of a listing; a zero time is none. -/
structure LsLine where
  structType : Bytes
  path : Bytes
  time : Nat
  node : LsNode
  deriving DecidableEq

/-- What `encoding/json` makes of a text. -/
structure Json where
  /-- The first value of a stream, as the dump unit's results. -/
  results : Bytes → Option (List DumpResult)
  messageType : Bytes → Option Bytes
  /-- `snapshot_id` decoded over what the variable held, and whether the
  decoding went through: one that fails part way may leave its mark. -/
  snapshotID : Bytes → Bytes → Bytes × Bool
  line : Bytes → Option LsLine

/-- Texts that Go's formatting makes. -/
structure Fmt where
  quote : Bytes → Bytes
  text : Bytes → Bytes
  short : Bytes → Bytes
  trimSpace : Bytes → Bytes
  when_ : Nat → Bytes
  openErr : OpenErr → Bytes

/-- A unit that was started: how it ended, and its stdout file as read
back. -/
abbrev Ran := Outcome × Except Bytes Bytes

/-- `unit.Bind`. -/
structure Bind where
  source : Bytes
  dest : Bytes
  deriving DecidableEq

/-- `record.Snapshot`. -/
structure Snapshot where
  id : Bytes
  time : Nat
  seen : Option Nat
  deriving DecidableEq

/-- What a run of one app meets. -/
structure Env where
  json : Json
  fmt : Fmt
  /-- The run's own directory, and the nonce its units are named by. -/
  dir : Bytes
  nonce : Bytes
  /-- `x.prev.Apps[name].LastSnapshot`. -/
  prev : Option Snapshot
  staging : Except Bytes Bytes
  cleanBefore : Except Bytes Outcome
  cleanAfter : Except Bytes Outcome
  /-- `pinRoot`, and what is beneath it. -/
  root : Except OpenErr Tree
  /-- `lastInRepository`; an error says whether every app shares it. -/
  lastInRepository : Except (Bytes × Bool) (Option Snapshot)
  dataOwner : Except Bytes Nat
  writePlan : Option Bytes
  writeExclude : Option Bytes
  mountShared : Except Bytes Bytes
  dump : Except Bytes Ran
  /-- The context was cancelled by the time the dump unit was over. -/
  interrupted : Bool
  /-- `x.upgraded`, as an earlier app of the run left it. -/
  upgraded : Option Bytes
  /-- The shared dir as it is when a declared path is looked at. -/
  shared : Bytes → Tree
  mount : Bytes → Except Bytes Bytes
  upload : List Bind → List Bytes → Except Bytes Ran
  now : Nat
  verify : Bytes → List Bytes → Except Bytes Ran

-- ====== the record

/-- `record.Class`. -/
inductive Class
  | ok
  | incomplete
  | pending
  | dataMissing
  | failed
  | notAttempted
  | notRun
  deriving DecidableEq

/-- `record.Item`: one declared path. -/
structure Item where
  kind : Kind
  path : Bytes
  ok : Bool
  detail : Bytes
  deriving DecidableEq

/-- `record.App`, as far as a run of one app writes it. -/
structure App where
  class_ : Class
  detail : Bytes
  looked : Bytes
  snapshot : Option Snapshot
  items : List Item
  lastSnapshot : Option Snapshot
  deriving DecidableEq

/-- `&record.App{Looked: shared}`; its class is set before any
return. -/
def blankApp (looked : Bytes) : App where
  class_ := .notRun
  detail := []
  looked := looked
  snapshot := none
  items := []
  lastSnapshot := none

def App.fail (app : App) (class_ : Class) (detail : Bytes) : App × Bool :=
  ({ app with class_ := class_, detail := detail }, false)

-- ====== staging and the dump

/-- `clean`: the unit that empties staging. -/
def clean (ran : Except Bytes Outcome) : Except Bytes Unit :=
  match ran with
  | .error e => .error e
  | .ok o =>
    if o.ok then .ok () else .error (str "exit " ++ str (toString o.exitStatus))

def otherVersionStatus : Int := 75

/-- `otherVersion`: a helper of another version, which did nothing. -/
def otherVersion (o : Outcome) (role : Bytes) : Option Bytes :=
  if o.result ≠ str "exit-code" ∨ o.exitStatus ≠ otherVersionStatus then none
  else some (str ("the package was upgraded while this command was under " ++
    "way: its ") ++ role ++ str (" helper is another version's, and did " ++
    "nothing; the same command, run again, is of one version"))

/-- What `dump` leaves: the items, how many copies are in staging, and
`x.upgraded`. -/
structure Dumped where
  items : List Item
  copies : Nat
  upgraded : Option Bytes

/-- `failAll`: every database failed, for one reason. -/
def failAll (decl : Config) (detail : Bytes) : List Item :=
  decl.sqlite.map fun p => ⟨.sqlite, p, false, detail⟩

/-- The answers against what was asked, before any is believed. -/
def answered (fmt : Fmt) : List Bytes → List DumpResult → Except Bytes Unit
  | p :: ps, r :: rs => do
    failIf (r.path != p) (str "the dump unit answered about " ++
      fmt.quote (fmt.text r.path) ++ str " where " ++ fmt.quote p ++
      str " was asked")
    failIf (!known r.class_) (str "the dump unit answered " ++
      fmt.quote (fmt.text r.class_) ++ str ", which is not an answer")
    answered fmt ps rs
  | _, _ => .ok ()

/-- One database's item, from its answer. -/
def dumpedItem (fmt : Fmt) (p : Bytes) (r : DumpResult) : Item :=
  if r.class_ = dumpOK then ⟨.sqlite, p, true, []⟩
  else ⟨.sqlite, p, false, fmt.text (r.class_ ++ str ": " ++ r.detail)⟩

variable (env : Env)

/-- The dump unit's results, if its answer is one. -/
def dumpResults (decl : Config) (o : Outcome)
    (out : Except Bytes Bytes) : Except Bytes (List DumpResult) :=
  let unusable := str "the dump unit said nothing usable (exit " ++
    str (toString o.exitStatus) ++ str ")"
  match out with
  | .error _ => .error unusable
  | .ok raw =>
    match env.json.results raw with
    | none => .error unusable
    | some rs =>
      if rs.length ≠ decl.sqlite.length then .error unusable
      else
        match answered env.fmt decl.sqlite rs with
        | .error e => .error e
        | .ok () => .ok rs

/-- `dump`: the dump unit, and an item for each database. -/
def dump (env : Env) (decl : Config) : Dumped :=
  if decl.sqlite = [] then ⟨[], 0, env.upgraded⟩
  else
    match env.dump with
    | .error e =>
      ⟨failAll decl (str "the dump unit: " ++ e), 0, env.upgraded⟩
    | .ok (o, out) =>
      match otherVersion o (str "dump") with
      | some why => ⟨failAll decl why, 0, some why⟩
      | none =>
        match dumpResults env decl o out with
        | .error why => ⟨failAll decl why, 0, none⟩
        | .ok rs =>
          let items := List.zipWith (dumpedItem env.fmt) decl.sqlite rs
          ⟨items, items.countP Item.ok, none⟩

-- ====== the view

/-- `identity`: which file is pinned. -/
structure Identity where
  inode : Nat
  uid : Nat
  gid : Nat
  deriving DecidableEq

def identity (st : Stat) : Identity := ⟨st.ino, st.uid, st.gid⟩

/-- `pin.kind`: what is pinned, when it is neither a file nor a
directory. -/
def kindWord : Fs.Kind → Option Bytes
  | .file | .dir => none
  | .fifo => some (str "a fifo")
  | .socket => some (str "a socket")
  | .device => some (str "a device")
  | .link | .special => some (str "a special file")

/-- `beneath`: a declared path opened, and what was found there. -/
def beneath (t : Tree) (p : Bytes) : Except OpenErr Stat :=
  match nofollowOpen t p false with
  | .error e => .error e
  | .ok at_ =>
    match t.stat at_ with
    | none => .error .notExist
    | some st => .ok st

/-- `"/backup/" + app`. -/
def backupBase (app : Bytes) : Bytes := str "/backup/" ++ app

/-- `itemPath`: where a declared item sits in the snapshot. -/
def itemPath (base : Bytes) (kind : Kind) (p : Bytes) : Bytes :=
  Path.join [base, kind.word, p]

/-- What `view` leaves. -/
structure View where
  items : List Item
  /-- `x.given`, the newest first. -/
  given : List (Bytes × Identity)
  binds : List Bind
  masked : List Bytes
  present : Nat

/-- The live databases that a files path would show, and their
sidecars. -/
def maskedIn (base : Bytes) (decl : Config) (p : Bytes) : List Bytes :=
  (decl.sqlite.filter fun db =>
      p == str "." || db == p || (p ++ str "/").isPrefixOf db).flatMap fun db =>
    ([] :: sidecars).map fun suffix => itemPath base .files db ++ suffix

/-- Why a declared path is not given to the backup, or the file that was
pinned and where it is mounted. -/
def pinned (p : Bytes) : Except Bytes (Identity × Bytes) :=
  match beneath (env.shared p) p with
  | .error .notExist =>
    .error (str "missing: no such file or directory under the shared dir")
  | .error .link =>
    .error (str ("a symbolic link is in the way, and a backup does not " ++
      "follow one: declare the real path"))
  | .error e => .error (env.fmt.openErr e)
  | .ok st =>
    match kindWord st.kind with
    | some kind => .error (str "it is " ++ kind ++
        str (", not a file or a directory, and a backup keeps only those"))
    | none =>
      match env.mount p with
      | .error e => .error e
      | .ok source => .ok (identity st, source)

/-- One declared files path, added to the view. -/
def viewOne (base : Bytes) (decl : Config) (v : View) (p : Bytes) : View :=
  match pinned env p with
  | .error detail => { v with items := v.items ++ [⟨.files, p, false, detail⟩] }
  | .ok (given, source) =>
    { items := v.items ++ [⟨.files, p, true, []⟩]
      given := (itemPath base .files p, given) :: v.given
      binds := v.binds ++ [⟨source, itemPath base .files p⟩]
      masked := v.masked ++ maskedIn base decl p
      present := v.present + 1 }

/-- `view`: what the upload unit sees. -/
def view (app staging declFile : Bytes) (decl : Config) : View :=
  let base := backupBase app
  decl.files.foldl (viewOne env base decl)
    { items := []
      given := []
      binds := [⟨staging, base ++ str "/sqlite"⟩,
        ⟨declFile, base ++ str "/plan.json"⟩]
      masked := []
      present := 0 }

-- ====== the upload

/-- `snapshotRe.MatchString`. -/
def isSnapshotID (s : Bytes) : Bool := s.length == 64 && isLowerHex s

/-- `jsonLine` for a summary: the first line that says it is one and
decodes, with what the lines before it left in the variable. -/
def summaryLine (json : Json) : Bytes → List Bytes → Option Bytes
  | _, [] => none
  | held, line :: rest =>
    if json.messageType line = some (str "summary") then
      let (id, went) := json.snapshotID line held
      if went then some id else summaryLine json id rest
    else summaryLine json held rest

/-- `summaryID`: the snapshot a summary names, or `""`. -/
def summaryID (json : Json) (out : Except Bytes Bytes) : Bytes :=
  match out with
  | .error _ => []
  | .ok raw =>
    match summaryLine json [] (split 10 raw) with
    | some id => if isSnapshotID id then id else []
    | none => []

def retryLock : Bytes := str "2h"

/-- `resticFailure`: restic's exit statuses in words, and whether every
app would meet the same. -/
def resticFailure (o : Outcome) : Bytes × Bool :=
  if o.result ≠ str "exit-code" then
    (str "restic was ended by " ++ o.result, false)
  else if 200 ≤ o.exitStatus ∧ o.exitStatus ≤ 243 then
    (str "systemd could not set the unit up (status " ++
      str (toString o.exitStatus) ++ str "), so restic never ran", false)
  else if o.exitStatus = 10 then
    (str "there is no repository at the configured location (exit 10)", true)
  else if o.exitStatus = 11 then
    (str "the repository stayed locked by something else for " ++ retryLock ++
      str " (exit 11)", true)
  else if o.exitStatus = 12 then
    (str "the repository password is wrong (exit 12)", true)
  else if o.exitStatus = 1 then
    (str ("restic failed (exit 1): the storage could not be reached, or " ++
      "refused the key, or something else went wrong"), true)
  else (str "restic failed (exit " ++ str (toString o.exitStatus) ++ str ")",
    false)

/-- What `upload` returns. -/
structure Uploaded where
  id : Bytes
  class_ : Class
  detail : Bytes
  repositoryWide : Bool

/-- `upload`: the snapshot this run made, by this run's own summary. -/
def upload (env : Env) (app : Bytes) (binds : List Bind)
    (masked : List Bytes) : Uploaded :=
  match env.upload binds masked with
  | .error e => ⟨[], .failed, str "the upload unit: " ++ e, false⟩
  | .ok (o, out) =>
    let id := summaryID env.json out
    if o.ok ∧ id ≠ [] then ⟨id, .ok, [], false⟩
    else if o.ok then
      ⟨[], .failed, str "restic exited 0 but its summary names no snapshot",
        false⟩
    else if o.exitStatus = 3 ∧ id ≠ [] then
      ⟨id, .incomplete, str ("restic could not read everything it was " ++
        "given (exit 3); snapshot ") ++ env.fmt.short id ++
        str " holds the rest", false⟩
    else
      let (detail, wide) := resticFailure o
      ⟨[], .failed, detail ++ str "; `journalctl -u motel_backup_upload_" ++
        app ++ str "_" ++ env.nonce ++
        str ".service` has restic's own words", wide⟩

-- ====== the verify

/-- `bufio.Scanner`'s lines: split at newlines, one carriage return at a
line's end dropped, no line after the last newline. -/
def scanLines (raw : Bytes) : List Bytes :=
  let lines := split 10 raw
  if lines.getLast? = some [] then lines.dropLast else lines

def dropCR (line : Bytes) : Bytes :=
  if line.getLast? = some 13 then line.dropLast else line

/-- The scanner's buffer, which a line has to fit. -/
def maxLine : Nat := 1048576

/-- What a listing said: the nodes at the wanted paths, the newest
first, and when the snapshot was made. -/
structure Listing where
  nodes : List (Bytes × LsNode)
  made : Nat

/-- One line of a listing. -/
def lsLine (json : Json) (wanted : List Bytes) (l : Listing) (line : Bytes) :
    Listing :=
  match json.line (dropCR line) with
  | none => l
  | some n =>
    if n.structType = str "snapshot" ∧ l.made = 0 then { l with made := n.time }
    else if n.structType = str "node" ∧ wanted.contains n.path then
      { l with nodes := (n.path, n.node) :: l.nodes }
    else l

/-- `lsNodes`: a listing a line at a time. -/
def lsNodes (json : Json) (out : Except Bytes Bytes) (wanted : List Bytes) :
    Except Bytes Listing :=
  match out with
  | .error e => .error e
  | .ok raw =>
    (scanLines raw).foldlM (fun l line =>
      if maxLine ≤ line.length then .error (str "bufio.Scanner: token too long")
      else .ok (lsLine json wanted l line)) ⟨[], 0⟩

/-- `want`: the items expected in each directory, by their place in the
record. -/
def addWant (want : List (Bytes × List Nat)) (parent : Bytes) (i : Nat) :
    List (Bytes × List Nat) :=
  match want with
  | [] => [(parent, [i])]
  | (q, is) :: rest =>
    if q = parent then (q, is ++ [i]) :: rest
    else (q, is) :: addWant rest parent i

def Item.place (base : Bytes) (it : Item) : Bytes :=
  itemPath base it.kind it.path

def want (base : Bytes) (items : List Item) : List (Bytes × List Nat) :=
  items.zipIdx.foldl (fun want (it, i) =>
    if it.ok then addWant want (Path.dir (it.place base)) i else want) []

/-- `sort.Strings` of the keys. -/
def parents (want : List (Bytes × List Nat)) : List Bytes :=
  (want.map Prod.fst).insertionSort (· ≤ ·)

/-- `want[parent]`. -/
def wantAt (want : List (Bytes × List Nat)) (parent : Bytes) : List Nat :=
  (want.lookup parent).getD []

/-- An item that the snapshot does not bear out, and why. -/
def Item.lacking (it : Item) (detail : Bytes) : Item :=
  { it with ok := false, detail := detail }

/-- A files node of the right kind, against the file that was given. -/
def heldTo (given : Option Identity) (node : LsNode) (it : Item) : Item :=
  match given, node.inode with
  | none, _ => it.lacking (str ("which file was given to the backup is not " ++
      "known, so the snapshot cannot be held to it"))
  | some _, none => it.lacking (str ("the listing does not say which file " ++
      "it is, so the snapshot cannot be held to what was given"))
  | some g, some inode =>
    if inode ≠ g.inode ∨ node.uid ≠ g.uid ∨ node.gid ≠ g.gid then
      it.lacking (str "in the snapshot it is not the " ++
        (if node.type_ = str "dir" then str "directory" else str "file") ++
        str " that was given to the backup: it is inode " ++
        str (toString inode) ++ str ", owner " ++ str (toString node.uid) ++
        str ":" ++ str (toString node.gid) ++
        str ", and what was given is inode " ++ str (toString g.inode) ++
        str ", owner " ++ str (toString g.uid) ++ str ":" ++
        str (toString g.gid) ++
        str " — the upload was shown something else in its place")
    else it

/-- One item against the listing. -/
def checkItem (fmt : Fmt) (given : List (Bytes × Identity)) (base : Bytes)
    (nodes : List (Bytes × LsNode)) (it : Item) : Item :=
  match nodes.lookup (it.place base), it.kind with
  | none, _ => it.lacking
      (str "it is not in the snapshot: it disappeared while the backup ran")
  | some node, .sqlite =>
    if node.type_ ≠ str "file" ∨ node.size = 0 then
      it.lacking (str "in the snapshot it is a " ++ fmt.text node.type_ ++
        str " of " ++ str (toString node.size) ++
        str " bytes, not a database copy")
    else it
  | some node, .files =>
    if node.type_ ≠ str "file" ∧ node.type_ ≠ str "dir" then
      it.lacking (str "in the snapshot it is a " ++ fmt.text node.type_ ++
        str ", not a file or a directory")
    else heldTo (given.lookup (it.place base)) node it

/-- `verify`: every item that was given to restic is looked for in the
snapshot. -/
def verify (app id : Bytes) (given : List (Bytes × Identity))
    (items : List Item) : Except Bytes (List Item × Nat) :=
  let base := backupBase app
  let want := want base items
  match env.verify id (parents want) with
  | .error e => .error e
  | .ok (o, out) =>
    if !o.ok then
      .error (str "restic ls exited " ++ str (toString o.exitStatus))
    else
      let wanted := (items.filter Item.ok).map (Item.place base)
      match lsNodes env.json out wanted with
      | .error e => .error e
      | .ok l =>
        .ok ((parents want).foldl (fun items parent =>
          (wantAt want parent).foldl (fun items i =>
            items.modify i (checkItem env.fmt given base l.nodes))
            items) items, l.made)

-- ====== the run

/-- The class an item that is not in the snapshot leaves. -/
def lacks (fmt : Fmt) (id : Bytes) (app : App) (it : Item) : App :=
  if !it.ok && app.class_ == .ok then
    { app with
      class_ := .incomplete
      detail := str "snapshot " ++ fmt.short id ++ str " lacks " ++
        it.kind.word ++ str " " ++ fmt.quote it.path ++ str ": " ++ it.detail }
  else app

/-- `firstDetail`. -/
def firstDetail (fmt : Fmt) (items : List Item) : Bytes :=
  match items.find? fun it => !it.ok with
  | some it => it.kind.word ++ str " " ++ fmt.quote it.path ++ str ": " ++
      it.detail
  | none => str "nothing is declared"

/-- The snapshot that was made, held to what was given. -/
def verified (name : Bytes) (up : Uploaded)
    (given : List (Bytes × Identity)) (app : App) : App × Bool :=
  let app := { app with
    class_ := up.class_
    detail := up.detail }
  if up.id = [] then (app, up.repositoryWide)
  else
    let app := { app with snapshot := some ⟨up.id, env.now, some env.now⟩ }
    match verify env name up.id given app.items with
    | .error e =>
      app.fail .incomplete (str "snapshot " ++ env.fmt.short up.id ++
        str " was made, but what is in it could not be checked: " ++ e)
    | .ok (items, _) =>
      (items.foldl (lacks env.fmt up.id) { app with items := items }, false)

/-- The run from the first file it writes to its end. -/
def backUp (name staging : Bytes) (decl : Config) (app : App) : App × Bool :=
  let declFile := env.dir ++ str "/" ++ name ++ str ".plan.json"
  let excludeFile := env.dir ++ str "/" ++ name ++ str ".exclude"
  match env.writePlan, env.mountShared, env.writeExclude with
  | some e, _, _ => app.fail .failed e
  | none, .error e, _ => app.fail .failed (app.looked ++ str ": " ++ e)
  | none, .ok _, some e => app.fail .failed e
  | none, .ok _, none =>
    let d := dump env decl
    let app := { app with items := d.items }
    if env.interrupted then
      app.fail .failed (str "interrupted before anything was uploaded")
    else
      match d.upgraded with
      | some why =>
        ({ app with class_ := .failed, detail := env.fmt.text why }, true)
      | none =>
        let v := view env name staging declFile decl
        let app := { app with items := d.items ++ v.items }
        if d.copies + v.present = 0 then
          app.fail .failed (str "nothing that is declared could be read: " ++
            firstDetail env.fmt app.items)
        else
          verified env name (upload env name (v.binds ++
            [⟨excludeFile, str "/backup-exclude"⟩]) v.masked) v.given app

/-- The deferred clean: what is ok with copies left in staging is
incomplete. -/
def cleaned (staging : Bytes) (r : App × Bool) : App × Bool :=
  match clean env.cleanAfter with
  | .ok () => r
  | .error e =>
    ({ r.1 with
        class_ := if r.1.class_ = .ok then .incomplete else r.1.class_
        detail := env.fmt.trimSpace (r.1.detail ++
          str " (plaintext copies are still in " ++ staging ++
          str ": they could not be removed: " ++ e ++ str ")") },
      r.2)

/-- An app whose shared dir is not there: never deployed, or gone. -/
def absent (app : App) : App × Bool :=
  let gone (app : App) (last : Snapshot) := app.fail .dataMissing (app.looked ++
    str " does not exist, and this app was last backed up on " ++
    env.fmt.when_ last.time ++ str " (snapshot " ++ env.fmt.short last.id ++
    str "): its data is gone, or the disk it lives on is not mounted")
  match env.prev with
  | some last => gone app last
  | none =>
    match env.lastInRepository with
    | .error (e, wide) =>
      ({ app with
          class_ := .failed
          detail := app.looked ++ str (" does not exist, and the " ++
            "repository could not be asked whether this app was ever " ++
            "backed up: ") ++ e }, wide)
    | .ok (some last) => gone { app with lastSnapshot := some last } last
    | .ok none => app.fail .pending (app.looked ++
        str " does not exist yet: the app has not been deployed")

/-- The shared dir, opened beneath the liveswap root. -/
inductive SharedPin
  | rootUnread (e : OpenErr)
  | unread (e : OpenErr)
  | pin (st : Stat)

def sharedPin (name : Bytes) : SharedPin :=
  match env.root with
  | .error .notExist => .unread .notExist
  | .error e => .rootUnread e
  | .ok t =>
    match beneath t (name ++ str "/shared") with
    | .error e => .unread e
    | .ok st => .pin st

/-- `run.app`: one app's backup, and whether what befell it every app
shares. -/
def app (env : Env) (root name : Bytes) (decl : Config) : App × Bool :=
  let app := blankApp (Path.join [root, name, str "shared"])
  match env.staging with
  | .error e => app.fail .failed e
  | .ok staging =>
    match clean env.cleanBefore with
    | .error e =>
      app.fail .failed (str "emptying staging before the run: " ++ e)
    | .ok () =>
      match sharedPin env name with
      | .rootUnread e => app.fail .failed
          (str "looking at the liveswap root: " ++ env.fmt.openErr e)
      | .unread .notExist => absent env app
      | .unread .link => app.fail .failed (app.looked ++
          str (" is reached through a symbolic link, which a backup does " ++
            "not follow; liveswap itself takes a bind mount there, not " ++
            "a link"))
      | .unread e => app.fail .failed (str "looking at " ++ app.looked ++
          str ": " ++ env.fmt.openErr e)
      | .pin st =>
        if st.kind ≠ .dir then
          app.fail .failed (app.looked ++ str " is not a directory")
        else if env.dataOwner.toOption ≠ some st.uid then
          app.fail .failed (app.looked ++
            str (" does not belong to the motel user, so it is not an " ++
              "app's data dir (owner uid ") ++ str (toString st.uid) ++
            str ")")
        else cleaned env staging (backUp env name staging decl app)

end Hotserve.Backup
