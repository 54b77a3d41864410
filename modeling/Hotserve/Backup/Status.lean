/-
What `motel-backup status` makes of the record (backups/status `Report`):
the lines it prints and whether all is well, which it is where no line is
said as bad.
-/
import Hotserve.Backup.Record

namespace Hotserve.Backup.Status

open Bytes

def second : Nat := 1000000000

def hours (n : Nat) : Nat := n * 3600 * second

def staleAfter : Nat := hours 3

def provenOldAfter : Nat := hours (8 * 24)

def checkOldAfter : Nat := provenOldAfter

/-- `Running`. -/
structure Running where
  role : Bytes
  app : Bytes
  state : Bytes
  since : Nat

/-- `record.Clean`, `record.Text` and the rest of how a line is made. -/
structure Say extends Fmt where
  clean : Bytes → Bytes

/-- `Input`. -/
structure Input where
  say : Say
  record : Status
  now : Nat
  setUp : Nat
  running : List Running
  unrecognised : List Bytes
  runningErr : Option Bytes

/-- A line, and whether it is one of `bad`'s. -/
structure Line where
  bad : Bool
  text : Bytes

def say (text : Bytes) : Line := ⟨false, text⟩

def bad (text : Bytes) : Line := ⟨true, text⟩

/-- `now.Sub(t) > d`. -/
def olderThan (now t d : Nat) : Bool := t + d < now

/-- `gone`: a listing was answered after the snapshot was last seen. -/
def gone (st : Status) (s : Snapshot) : Bool :=
  st.listed.any fun listed => s.seen.all fun seen => seen < listed

def lastSeen (f : Say) (s : Snapshot) : Bytes :=
  match s.seen with
  | none => str "no listing has held it"
  | some t => str "last seen there " ++ f.when_ t

/-- The class as the record spells it. -/
def Class.word : Class → Bytes
  | .ok => str "ok"
  | .incomplete => str "incomplete"
  | .pending => str "pending"
  | .dataMissing => str "data missing"
  | .failed => str "failed"
  | .notAttempted => str "not attempted"
  | .notRun => str "not run"

def CheckClass.word : CheckClass → Bytes
  | .clean => str "clean"
  | .damaged => str "damaged"
  | .unreachable => str "unreachable"
  | .noRepository => str "no repository"
  | .wrongPassword => str "wrong password"
  | .failed => str "failed"

-- ====== the run

variable (i : Input)

def runLines : List Line :=
  let st := i.record
  if st.started = 0 then
    if i.setUp ≠ 0 && olderThan i.now i.setUp staleAfter then
      [bad (str "no run yet, and backups were set up " ++ i.say.when_ i.setUp ++
        str ", more than 3 hours ago")]
    else [say (str "no run yet: pending first run")]
  else
    [say (str "last run " ++ i.say.when_ st.started)] ++
    (if st.apps.len = 0 && st.error = [] then
      [say (str "no app declares a backup; nothing is backed up")] else []) ++
    (if olderThan i.now st.finished staleAfter then
      [bad (str "no run has finished since " ++ i.say.when_ st.finished ++
        str ", more than 3 hours ago: what follows is as of then")] else [])

def drillLines : List Line :=
  match i.record.lastDrill with
  | none => []
  | some d =>
    if d.detail ≠ [] then
      [bad (str "the last drill, " ++ i.say.when_ d.time ++
        str ", could not begin: " ++ i.say.text d.detail)]
    else [say (str "last drill " ++ i.say.when_ d.time)]

def drillNow : Bytes := str "`motel-backup drill`, as root, checks it"

/-- Without a check that came to a verdict. -/
def uncheckedLines : List Line :=
  let st := i.record
  match st.checkSince with
  | some since =>
    if olderThan i.now since checkOldAfter then
      [bad (str ("no check of the repository has come to a verdict " ++
        "since ") ++ i.say.when_ since ++ str ", more than 8 days ago; " ++
        drillNow)]
    else if st.started ≠ 0 then
      [say (str ("the repository has not been checked yet: the weekly " ++
        "drill checks it"))]
    else []
  | none =>
    if i.setUp ≠ 0 && olderThan i.now i.setUp checkOldAfter &&
        st.lastDrill.all fun d => olderThan i.now d.time checkOldAfter then
      [bad (str ("the repository has not been checked since backups were " ++
        "set up, ") ++ i.say.when_ i.setUp ++ str ", more than 8 days ago; " ++
        drillNow)]
    else if st.started ≠ 0 then
      [say (str ("the repository has not been checked yet: the weekly " ++
        "drill checks it"))]
    else []

def checkLines : List Line :=
  match i.record.lastCheck with
  | none => uncheckedLines i
  | some c =>
    let group := i.say.text c.group
    if c.class_ = .clean then
      let line := str "repository last checked " ++ i.say.when_ c.time ++
        str ": its structure, and data group " ++ group ++ str ": clean"
      if olderThan i.now c.time checkOldAfter then
        [bad (line ++ str ": old, more than 8 days ago; " ++ drillNow)]
      else [say line]
    else
      [bad (str "the repository check of " ++ i.say.when_ c.time ++
        str " (data group " ++ group ++ str "): " ++
        i.say.text (CheckClass.word c.class_) ++ str ": " ++
        i.say.text c.detail)]

/-- A listing unanswered, how the run ended, and what it warns of. -/
def endLines : List Line :=
  let st := i.record
  (match st.unlisted with
    | none => []
    | some u =>
      if olderThan i.now u staleAfter then
        [bad (str "the repository has not been listed since " ++
          i.say.when_ u ++ str (", more than 3 hours ago: whether it " ++
            "still holds the snapshots below is not known"))]
      else
        [say (str "the repository has not been listed since " ++
          i.say.when_ u)]) ++
  (if st.error ≠ [] then
    [bad (str "the last run ended early: " ++ i.say.text st.error)] else []) ++
  (if st.warning ≠ [] then
    [say (str "warning: " ++ i.say.clean st.warning)] else [])

-- ====== an app

/-- How the last run left the app. -/
def classLine (f : Say) (n : Bytes) (e : Entry) : Line :=
  let at_ := str " (data at " ++ f.text e.looked ++ str ")"
  match e.class_, e.lastOK, e.snapshot with
  | .ok, some last, _ => say (n ++ str ": ok: last complete backup " ++
      f.when_ last.time ++ str ", snapshot " ++ f.short last.id ++ at_)
  | .ok, none, some snap => say (n ++ str ": ok: snapshot " ++
      f.short snap.id ++ str ", made by a restore of what it then restored " ++
      str "over" ++ at_)
  | .notRun, _, _ => say (n ++ str ": not run: " ++ f.text e.detail ++ at_)
  | .dataMissing, _, _ => bad (n ++ str ": data missing: " ++
      f.text e.detail ++ str "; `motel-backup restore " ++ n ++
      str "`, as root, puts its last snapshot back")
  | c, _, _ => bad (n ++ str ": " ++ f.text (Class.word c) ++ str ": " ++
      f.text e.detail ++ at_)

/-- The app's last complete backup. -/
def backupLines (n : Bytes) (e : Entry) : List Line :=
  let f := i.say
  match e.lastOK with
  | none => [bad (n ++ str ": no complete backup yet")]
  | some last =>
    if gone i.record last then
      [bad (n ++ str ": snapshot " ++ f.short last.id ++
        str " is no longer in the repository (" ++ lastSeen f last ++
        str "): it was the last complete backup, made " ++
        f.when_ last.time)]
    else if olderThan i.now last.time staleAfter then
      [bad (n ++ str ": stale: the last complete backup is from " ++
        f.when_ last.time ++ str ", more than 3 hours ago, snapshot " ++
        f.short last.id)]
    else if e.class_ ≠ .ok then
      [say (n ++ str ": last complete backup " ++ f.when_ last.time ++
        str ", snapshot " ++ f.short last.id)]
    else []

/-- The app's proven restore, and the last drill that proved nothing. -/
def restoreLines (n : Bytes) (e : Entry) : List Line :=
  let f := i.say
  if e.lastSnapshot.isNone then []
  else
    (match e.restoreProven with
      | none => []
      | some p =>
        let line := n ++ str ": restore last proven: " ++ f.when_ p.time ++
          str ", snapshot " ++ f.short p.snapshot.id
        [if olderThan i.now p.time provenOldAfter then
            bad (line ++ str (": old, more than 8 days ago; " ++
              "`motel-backup drill`, as root, proves one now"))
          else say line] ++
        (if gone i.record p.snapshot then
          [say (n ++ str ": snapshot " ++ f.short p.snapshot.id ++
            str " is no longer in the repository (" ++
            lastSeen f p.snapshot ++ str "); the restore proven was of it")]
        else [])) ++
    (match e.restoreDrill with
      | some d =>
        let of_ := if d.snapshot.id ≠ [] then
          str "snapshot " ++ f.short d.snapshot.id ++ str ", " else []
        [bad (n ++ str ": restore not proven: " ++ f.text d.detail ++
          str " (" ++ of_ ++ f.when_ d.time ++
          str "); `motel-backup drill`, as root, tries again")]
      | none =>
        if e.restoreProven.isNone then
          [bad (n ++ str (": restore not proven: no drill of it has run; " ++
            "`motel-backup drill`, as root, proves it"))]
        else [])

def appLines (name : Bytes) (e : Option Entry) : List Line :=
  let n := i.say.text name
  match e with
  | none => [bad (n ++ str (": no result on record, until the next run " ++
      "writes the record again"))]
  | some e =>
    if e.class_ = .pending then
      [say (n ++ str ": pending first run: no data at " ++
        i.say.text e.looked ++ str " yet")]
    else
      classLine i.say n e :: backupLines i n e ++ restoreLines i n e

-- ====== the report

def runningLines : List Line :=
  (match i.runningErr with
    | some e => [say (str "could not ask systemd what is running: " ++
        i.say.text e)]
    | none =>
      if i.running.isEmpty && i.unrecognised.isEmpty then
        [say (str "no backup unit running now")] else []) ++
  (i.running.map fun r =>
    let what := i.say.text r.role ++
      (if r.app ≠ [] then str " of " ++ i.say.text r.app else []) ++
      (if r.state ≠ str "activating" then
        str " (" ++ i.say.text r.state ++ str ")" else [])
    say (str "running: " ++ what ++
      (if r.since = 0 then [] else str ", since " ++ i.say.when_ r.since))) ++
  i.unrecognised.map fun name => say (str "running: " ++ i.say.text name)

/-- The apps in name order. -/
def sorted (apps : Table Bytes (Option Entry)) : List (Bytes × Option Entry) :=
  apps.entries.mergeSort fun a b => a.1 ≤ b.1

def report : List Line :=
  runLines i ++ drillLines i ++ checkLines i ++ endLines i ++
    (sorted i.record.apps).flatMap (fun (name, e) => appLines i name e) ++
    runningLines i

/-- `Report`'s second answer. -/
def healthy : Bool := (report i).all fun l => !l.bad

end Hotserve.Backup.Status
