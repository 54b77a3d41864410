/-
The record the backup commands leave (backups/record `Status`), and how a
run, a restore and a drill each write it (backups/engine `apps`, `list`,
`finish`, `carryLastOK`, `inPlace`, `drillApp`, `firstDrill`, `Drill`).

A command reads the record before it and writes one. What it meets on the
way (the units' ends, the repository's answers, an interrupt at each place
the source asks for one) is its input; how one app's backup ends is
`Backup.app`. Times are clock readings, and 0 is no time. A snapshot has
up to four names in an app's entry. The source's pointers share one
snapshot between names only where the values are equal, so a name here has
a value of its own.
-/
import Hotserve.Backup.Engine
import Hotserve.Table
import Mathlib.Algebra.Group.Nat.Defs
import Mathlib.Data.List.Sort

namespace Hotserve.Backup

open Bytes

-- ====== the record

/-- `record.Drill`. -/
structure Drill where
  snapshot : Snapshot
  time : Nat
  detail : Bytes
  deriving DecidableEq

/-- A drill that has no snapshot. -/
def Drill.bare (time : Nat) (detail : Bytes) : Drill :=
  ⟨⟨[], 0, none⟩, time, detail⟩

/-- `record.App`, whole. -/
structure Entry extends App where
  lastOK : Option Snapshot
  restoreProven : Option Drill
  restoreDrill : Option Drill
  deriving DecidableEq

/-- `record.CheckClass`. -/
inductive CheckClass
  | clean
  | damaged
  | unreachable
  | noRepository
  | wrongPassword
  | failed
  deriving DecidableEq

/-- `record.Check`. -/
structure Check where
  time : Nat
  group : Bytes
  class_ : CheckClass
  detail : Bytes
  deriving DecidableEq

/-- `record.Status`. An app's entry is none where the record's is null. -/
structure Status where
  started : Nat
  finished : Nat
  error : Bytes
  warning : Bytes
  root : Bytes
  apps : Table Bytes (Option Entry)
  lastDrill : Option Drill
  lastCheck : Option Check
  checkNext : Bytes
  checkSince : Option Nat
  listed : Option Nat
  unlisted : Option Nat

/-- `record.Read` where there is no record. -/
def Status.blank : Status where
  started := 0
  finished := 0
  error := []
  warning := []
  root := []
  apps := Table.empty
  lastDrill := none
  lastCheck := none
  checkNext := []
  checkSince := none
  listed := none
  unlisted := none

/-- `Apps[name]`, nil where there is none. -/
def Status.app (st : Status) (name : Bytes) : Option Entry :=
  (st.apps.get name).join

/-- `strings.TrimSpace(warning + " " + text)`. -/
def warned (fmt : Fmt) (warning text : Bytes) : Bytes :=
  fmt.trimSpace (warning ++ str " " ++ text)

/-- The snapshots an entry names: `Snapshot`, `LastOK`, `LastSnapshot` and
`RestoreProven`'s. -/
def Entry.named (e : Entry) : List Snapshot :=
  [e.snapshot, e.lastOK, e.lastSnapshot,
    e.restoreProven.map Drill.snapshot].filterMap id

/-- Every name's snapshot rewritten. -/
def Entry.mapNamed (f : Snapshot → Snapshot) (e : Entry) : Entry :=
  { e with
    snapshot := e.snapshot.map f
    lastOK := e.lastOK.map f
    lastSnapshot := e.lastSnapshot.map f
    restoreProven := e.restoreProven.map fun d =>
      { d with snapshot := f d.snapshot } }

-- ====== asking the repository

/-- One snapshot as restic's JSON has it. -/
structure Said where
  id : Bytes
  time : Nat
  tags : List Bytes

/-- What a `restic snapshots` came to. -/
structure Asked where
  unit : Except Bytes Outcome
  out : Except Bytes Bytes
  /-- `json.Unmarshal`. -/
  decode : Bytes → Except Bytes (List Said)
  /-- The clock when it was read. -/
  time : Nat
  /-- The unit's stderr file as it is read back. -/
  stderr : Except Bytes Bytes

/-- `listed`: a snapshot the repository holds. -/
structure Listed where
  snapshot : Snapshot
  apps : List Bytes
  preRestore : Bool

def preRestoreTag : Bytes := str "pre-restore"

/-- `strings.CutPrefix(tag, "app:")`. -/
def appTag (tag : Bytes) : Option Bytes :=
  if (str "app:").isPrefixOf tag then some (tag.drop 4) else none

def listedOf (time : Nat) (s : Said) : Listed where
  snapshot := ⟨s.id, s.time, some time⟩
  apps := s.tags.filterMap appTag
  preRestore := s.tags.contains preRestoreTag

/-- `ignoringRe`: the snapshot of the first line that says restic left one
out. -/
def ignoring (said : Bytes) : Option Bytes :=
  (split 10 said).findSome? fun line =>
    let id := (trimPrefix (str "Ignoring \"") line).take 64
    if (str "Ignoring \"" ++ id ++ str "\"").isPrefixOf line &&
      isSnapshotID id then some id
    else none

/-- `besides`: why a listing with something said beside it is not
believed. -/
def besides (fmt : Fmt) (stderr : Except Bytes Bytes) : Option Bytes :=
  match stderr with
  | .error e => some (str ("what restic said beside the listing could not " ++
      "be read, so the listing is not believed: ") ++ e)
  | .ok said =>
    if trimSpace said = [] then none
    else
      match ignoring said with
      | some id => some (str "restic could not load snapshot " ++
          fmt.short id ++ str (" and left it out of the listing, so the " ++
            "listing is not believed"))
      | none => some (str ("restic had something to say beside the " ++
          "listing, so the listing is not believed"))

/-- `snapshots`: of one app, or of `every` app; an error says whether
every app shares it. -/
def snapshots (fmt : Fmt) (every : Bool) (a : Asked) :
    Except (Bytes × Bool) (List Listed) :=
  match a.unit, a.out with
  | .error e, _ => .error (e, false)
  | .ok o, out =>
    if !o.ok then .error (resticFailure o)
    else
      match out with
      | .error e => .error (e, false)
      | .ok raw =>
        match a.decode raw with
        | .error e => .error (str ("what restic said of its snapshots " ++
            "could not be read: ") ++ e, false)
        | .ok said =>
          match said.find? fun s => !isSnapshotID s.id with
          | some s => .error (str "restic named a snapshot " ++
              fmt.quote (fmt.text s.id), false)
          | none =>
            match if every then besides fmt a.stderr else none with
            | some e => .error (e, false)
            | none => .ok ((said.map (listedOf a.time)).mergeSort
                fun s t => s.snapshot.time ≤ t.snapshot.time)

/-- `lastInRepository`. -/
def lastInRepository (fmt : Fmt) (a : Asked) :
    Except (Bytes × Bool) (Option Snapshot) :=
  match snapshots fmt false a with
  | .error e => .error e
  | .ok snaps => .ok (snaps.getLast?.map Listed.snapshot)

/-- `newest`: the newest snapshot a backup run made. -/
def newest (snaps : List Listed) : Option Snapshot :=
  (snaps.reverse.find? fun s => !s.preRestore).map Listed.snapshot

-- ====== the drill

/-- How `bring` and `unsound` end for a drill. -/
inductive Brought
  | interrupted
  /-- A helper of another version. -/
  | upgraded (why : Bytes)
  | failed (why : Bytes) (wide : Bool)
  | whole

def Brought.isUpgraded : Brought → Bool
  | .upgraded _ => true
  | _ => false

def Brought.isWhole : Brought → Bool
  | .whole => true
  | _ => false

/-- `drillApp`: what a drill of `snap` writes, and whether its failure is
every app's. -/
def drillApp (fmt : Fmt) (snap : Snapshot) (b : Brought) (time : Nat)
    (e : Entry) : Entry × Bool :=
  match b with
  | .interrupted => (e, false)
  | .upgraded _ => (e, true)
  | .failed why wide =>
    ({ e with restoreDrill := some ⟨snap, time, fmt.text why⟩ }, wide)
  | .whole =>
    let see (s : Snapshot) : Snapshot :=
      if s.id = snap.id then { s with seen := some time } else s
    ({ e with
        snapshot := e.snapshot.map see
        lastOK := e.lastOK.map see
        lastSnapshot := e.lastSnapshot.map see
        restoreProven := some ⟨{ snap with seen := some time }, time, []⟩
        restoreDrill := none }, false)

def firstDrillLimit : Nat := 2 ^ 30

def mib (n : Nat) : Bytes :=
  str (toString ((n + 2 ^ 20 - 1) / 2 ^ 20)) ++ str " MiB"

/-- What a run's drill of a first backup meets. -/
structure FirstDrill where
  /-- `snapshotSize`; an error says whether every app shares it. -/
  size : Except (Bytes × Bool) Nat
  /-- The context is cancelled when the size could not be asked. -/
  interrupted : Bool
  brought : Brought
  time : Nat

/-- `firstDrill` of the snapshot this run made. -/
def firstDrill (fmt : Fmt) (snap : Snapshot) (d : FirstDrill) (e : Entry) :
    Entry × Bool :=
  match d.size with
  | .error (why, wide) =>
    if d.interrupted then (e, false)
    else ({ e with restoreDrill := some ⟨snap, d.time, fmt.text why⟩ }, wide)
  | .ok size =>
    if firstDrillLimit < size then
      ({ e with restoreDrill := some ⟨snap, d.time,
          str "not drilled by the run: the snapshot is " ++ mib size ++
          str " restored, above the " ++ mib firstDrillLimit ++
          str (" a run fetches back on its own; `motel-backup drill` " ++
            "proves it")⟩ }, false)
    else drillApp fmt snap d.brought d.time e

-- ====== the run

/-- `carryLastOK`: what the app's entry before this one leaves in it. -/
def carryLastOK (old : Option Entry) (app : App) : Entry :=
  let carried : Entry :=
    match old with
    | none => ⟨app, none, none, none⟩
    | some old =>
      { toApp :=
          { app with lastSnapshot := app.lastSnapshot.or old.lastSnapshot }
        lastOK := old.lastOK
        restoreProven := old.restoreProven
        restoreDrill := old.restoreDrill }
  match app.snapshot with
  | none => carried
  | some snap =>
    { carried with
      lastSnapshot := some snap
      lastOK := if app.class_ = .ok then some snap else carried.lastOK }

/-- What one app of a run meets. -/
structure Turn where
  env : Env
  decl : Config
  /-- `history`, which is asked where the record has no snapshot. -/
  asked : Asked
  /-- The context is cancelled as the loop comes to the app, and as it
  comes to the first drill. -/
  interruptedBefore : Bool
  interruptedAfter : Bool
  /-- What `vouch` warns of. -/
  vouched : Option Bytes
  /-- `x.upgraded` after the backup and after the drill. -/
  upgraded : Option Bytes
  drillUpgraded : Option Bytes
  /-- `x.unanswered` at the first drill, and at the end. -/
  unanswered : Option Bytes
  unansweredAfter : Option Bytes
  drill : FirstDrill

/-- `run.app`, as a run with this record asks it. -/
def Turn.app (t : Turn) (prev : Option Entry) (root name : Bytes) :
    App × Bool :=
  Backup.app
    { t.env with
      prev := prev.bind fun e => e.lastSnapshot
      lastInRepository := lastInRepository t.env.fmt t.asked }
    root name t.decl

/-- `stopAfter`. -/
def stopAfter (fmt : Fmt) (upgraded unanswered : Option Bytes)
    (name detail : Bytes) : Bytes :=
  match upgraded, unanswered with
  | some why, _ => fmt.text why
  | none, some why => fmt.text (str "the repository did not answer (" ++ why ++
      str "), so nothing more was asked of it")
  | none, none => fmt.text (str "the repository refused " ++ name ++
      str "'s backup for a reason every app shares: " ++ detail)

/-- What the loop over the apps carries. -/
structure Loop where
  apps : Table Bytes (Option Entry)
  warning : Bytes
  /-- Why no app after is tried. -/
  stop : Option Bytes
  /-- The loop was left: the context was cancelled. -/
  left : Bool
  /-- Not the source's: the app and id of each snapshot the command saw
  for itself, uploaded, or recorded from the repository's answer. -/
  seen : List (Bytes × Bytes)

/-- The ids one app's backup saw. -/
def App.saw (app : App) : List Bytes :=
  (app.snapshot.toList ++ app.lastSnapshot.toList).map Snapshot.id

/-- Whether a first drill is made: `RestoreProven` and `RestoreDrill` are
both nil, on an app that ended ok, with nothing in the way. -/
def Turn.drills (t : Turn) (e : Entry) : Bool :=
  e.class_ == .ok && e.restoreProven.isNone && e.restoreDrill.isNone &&
    !t.interruptedAfter && t.unanswered.isNone

/-- The app's backup, or its place where an earlier app has stopped the
run, and why no app after is tried. -/
def Turn.backup (t : Turn) (prev : Option Entry) (root name : Bytes)
    (stop : Option Bytes) : App × Option Bytes :=
  match stop with
  | some detail =>
    ({ blankApp (Path.join [root, name, str "shared"]) with
        class_ := .notAttempted
        detail := detail }, some detail)
  | none =>
    let (app, wide) := t.app prev root name
    (app,
      if wide then
        some (stopAfter t.env.fmt t.upgraded t.unanswered name app.detail)
      else none)

/-- One app's turn. -/
def Turn.take (t : Turn) (prev : Option Entry) (root name : Bytes)
    (l : Loop) : Loop :=
  let fmt := t.env.fmt
  let (app, stop) := t.backup prev root name l.stop
  let e := carryLastOK prev app
  let warning :=
    match t.vouched with
    | some what => if l.stop.isNone && e.class_ == .ok then
        warned fmt l.warning what else l.warning
    | none => l.warning
  let (e, stop, warning) :=
    match t.drills e, e.snapshot with
    | true, some snap =>
      let (e, wide) := firstDrill fmt snap t.drill e
      if wide then
        let detail := stopAfter fmt t.drillUpgraded t.unansweredAfter name
          ((e.restoreDrill.map Drill.detail).getD [])
        (e, some detail,
          if t.drillUpgraded.isSome then warned fmt warning detail
          else warning)
      else (e, stop, warning)
    | _, _ => (e, stop, warning)
  { apps := l.apps.set name (some e)
    warning := warning
    stop := stop.or (t.unansweredAfter.map fun why =>
      stopAfter fmt t.drillUpgraded (some why) name [])
    left := false
    seen := l.seen ++ app.saw.map fun id => (name, id) }

/-- The loop over the apps. -/
def turns (prev : Status) (root : Bytes) (turn : Bytes → Turn) :
    List Bytes → Loop → Loop
  | [], l => l
  | name :: names, l =>
    if (turn name).interruptedBefore then { l with left := true }
    else turns prev root turn names
      ((turn name).take (prev.app name) root name l)

variable (i : RunInput) (prev : Status)

/-- Name order, but what failed last run goes last. -/
def order (names : List Bytes) : List Bytes :=
  let failedLast (name : Bytes) : Bool :=
    (prev.app name).any fun e => e.class_ == .failed
  names.filter (fun n => !failedLast n) ++ names.filter failedLast

/-- What a run's listing meets. -/
structure RunListing where
  asked : Asked
  /-- The context is cancelled once the unit has ended. -/
  interrupted : Bool
  /-- What restic said is kept, for root to read, in this file. -/
  kept : Option Bytes
  /-- The clock where the listing failed, and where it did not. -/
  since : Nat
  now : Nat

/-- `held`'s key: an app's name, a slash and the snapshot's id. -/
def heldKey (name id : Bytes) : Bytes := name ++ str "/" ++ id

def held (snaps : List Listed) : List Bytes :=
  snaps.flatMap fun s => s.apps.map fun name => heldKey name s.snapshot.id

/-- A name's snapshot after a listing: what it held, or the run saw
itself, is seen now. -/
def listedSnapshot (st : Status) (snaps : List Listed) (now : Nat)
    (name : Bytes) (s : Snapshot) : Snapshot :=
  let sawItself := s.seen.any fun seen => st.started ≤ seen
  if (held snaps).contains (heldKey name s.id) || sawItself then
    { s with seen := some now }
  else s

/-- Every app's names after a listing. -/
def listedApps (st : Status) (snaps : List Listed) (now : Nat) :
    Table Bytes (Option Entry) :=
  st.apps.mapValues fun name e =>
    e.map (Entry.mapNamed (listedSnapshot st snaps now name))

/-- No app's entry names a snapshot, so nothing is asked. -/
def Status.nothing (st : Status) : Bool :=
  st.apps.entries.all fun (_, e) => e.all fun e => e.named.isEmpty

/-- `list`. -/
def list (fmt : Fmt) (l : RunListing) (st : Status) : Status :=
  if st.nothing then { st with unlisted := none }
  else if l.interrupted then st
  else
    match snapshots fmt true l.asked with
    | .error (why, _) =>
      { st with
        unlisted := st.unlisted.or (some l.since)
        warning := warned fmt st.warning (fmt.text (str ("the repository " ++
          "could not be listed, so nothing is known of whether it still " ++
          "holds each snapshot named here: ") ++ why ++ str "." ++
          ((l.kept.map fun file => str " What restic said is in " ++ file ++
            str ", root's to read.").getD []))) }
    | .ok snaps =>
      { st with
        unlisted := none
        apps := listedApps st snaps l.now
        listed := some l.now }

/-- The plan: the liveswap root and the apps that declare a backup, in
name order. -/
structure Planned where
  root : Bytes
  names : List Bytes
  nodup : names.Nodup

/-- What a run meets. -/
structure RunInput where
  fmt : Fmt
  started : Nat
  /-- `begin`'s error. -/
  begun : Option Bytes
  plan : Except Bytes Planned
  /-- What `forget` and `sweepFetched` warn of. -/
  swept : List Bytes
  turn : Bytes → Turn
  /-- The context is cancelled after the loop, and at the end. -/
  interrupted : Bool
  interruptedEnd : Bool
  listing : RunListing
  finished : Nat

/-- The apps of the record that have left the plan, and what is said of
those with snapshots. -/
def leftApps (p : Planned) : List (Bytes × Option Entry) :=
  prev.apps.entries.filter fun (name, _) => !p.names.contains name

def leftWarnings (fmt : Fmt) (prev : Status) (p : Planned) : List Bytes :=
  ((leftApps prev p).filterMap fun (name, old) =>
    (old.bind fun e => e.lastSnapshot).map fun last =>
      name ++ str (" no longer declares a backup and is not backed up any " ++
        "more: its last snapshot is ") ++ fmt.short last.id ++ str ", of " ++
      fmt.when_ last.time ++ str ".").insertionSort (· ≤ ·)

/-- `x.status` as a command begins. -/
def opened (started : Nat) : Status :=
  { prev with
    started := started
    finished := 0
    error := []
    warning := []
    root := []
    apps := Table.empty }

def canceled : Bytes := str "context canceled"

/-- The loop of a run. -/
def RunInput.loop (p : Planned) : Loop :=
  let warning := ((leftWarnings i.fmt prev p).map i.fmt.text ++ i.swept).foldl
    (warned i.fmt) []
  turns prev p.root i.turn (order prev p.names)
    ⟨Table.empty, warning, none, false, []⟩

/-- The record before the listing. -/
def RunInput.reached (p : Planned) : Status :=
  let l := i.loop prev p
  { opened prev i.started with
    root := p.root
    apps := l.apps
    warning := l.warning }

/-- Whether the run comes to its listing. -/
def RunInput.lists (p : Planned) : Bool :=
  let l := i.loop prev p
  !l.left && l.stop.isNone && !i.interrupted

/-- `apps`: the record and the error the run ends with. -/
def RunInput.apps : Status × Option Bytes :=
  match i.plan with
  | .error e => (opened prev i.started, some e)
  | .ok p =>
    let st := i.reached prev p
    (if i.lists prev p then list i.fmt i.listing st else st,
      if (i.loop prev p).left || i.interruptedEnd then some canceled
      else none)

/-- `x.left`: where a plan was read, the apps that are not in it. -/
def RunInput.leftPlan (name : Bytes) : Bool :=
  match i.plan with
  | .error _ => false
  | .ok p => !p.names.contains name

/-- The entry of an app the run did not reach. -/
def notReached (old : Entry) : Entry where
  toApp :=
    { blankApp old.looked with
      class_ := .notRun
      detail := str "the run ended before it reached this app"
      lastSnapshot := old.lastSnapshot }
  lastOK := old.lastOK
  restoreProven := old.restoreProven
  restoreDrill := old.restoreDrill

/-- The apps of `prev` that are not in `apps`, as not reached. -/
def unreached (left : Bytes → Bool) (prev : Status)
    (apps : Table Bytes (Option Entry)) : Table Bytes (Option Entry) :=
  prev.apps.entries.foldl (fun apps (name, old) =>
    match old with
    | some old =>
      if (apps.get name).isNone && !left name then
        apps.set name (some (notReached old))
      else apps
    | none => apps) apps

/-- `finish`. -/
def RunInput.finish (prev st : Status) (err : Option Bytes) : Status :=
  match err with
  | none => { st with finished := i.finished }
  | some e =>
    { st with
      error := i.fmt.text e
      apps := unreached
        (fun name => i.begun.isNone && i.leftPlan name) prev st.apps
      finished := i.finished }

/-- `Run`: the record it writes. -/
def RunInput.run : Status :=
  match i.begun with
  | some e => i.finish prev (opened prev i.started) (some e)
  | none =>
    let (st, err) := i.apps prev
    i.finish prev st err

-- ====== the restore

/-- What the backup a restore makes first meets; a restore that makes none
writes no record. -/
structure RestoreInput where
  fmt : Fmt
  started : Nat
  /-- What `sweepFetched` warns of. -/
  swept : List Bytes
  root : Bytes
  app : Bytes
  turn : Turn
  finished : Nat

/-- The entry of the app that is restored over: its last complete backup
is still the one before. -/
def RestoreInput.entry (i : RestoreInput) (prev : Status) : Entry :=
  let old := prev.app i.app
  { carryLastOK old (i.turn.app old i.root i.app).1 with
    lastOK := old.bind Entry.lastOK }

/-- `inPlace`: the record it writes. -/
def RestoreInput.restore (i : RestoreInput) (prev : Status) : Status :=
  { opened prev i.started with
    warning := i.swept.foldl (warned i.fmt) []
    root := i.root
    finished := i.finished
    apps := prev.apps.set i.app (some (i.entry prev)) }

-- ====== the drills

/-- What one app of a drill meets. -/
structure DrillTurn where
  asked : Asked
  brought : Brought
  time : Nat
  /-- The context is cancelled, or a helper was another version's, as the
  loop comes to the app. -/
  left : Bool
  /-- `x.unanswered` once it is over. -/
  unanswered : Option Bytes

/-- How a drill begins. -/
inductive DrillStart
  /-- Interrupted before there is a plan: nothing is written. -/
  | interrupted
  /-- It could not begin; a helper of another version is no verdict. -/
  | couldNot (why : Bytes) (upgraded : Bool)
  | planned (p : Planned)

/-- What a drill meets. -/
structure DrillInput where
  fmt : Fmt
  started : Nat
  start : DrillStart
  /-- `x.status.Warning`. -/
  warning : Bytes
  turn : Bytes → DrillTurn
  /-- `x.upgraded`: a helper of another version ended it. -/
  upgraded : Bool
  /-- What `checkInto` finds, where it is made and comes to a verdict: the
  check, and the group the next reads. -/
  checked : Option (Check × Bytes)

/-- What the loop of a drill carries; `seen` is not the source's. -/
structure DrillLoop where
  apps : Table Bytes (Option Entry)
  /-- The repository has refused for a reason every app shares. -/
  refused : Option Bytes
  seen : List (Bytes × Bytes)

/-- The entry a drill begins with. -/
def drilled (root name : Bytes) (old : Option Entry) : Entry :=
  old.getD
    { toApp :=
        { blankApp (Path.join [root, name, str "shared"]) with
          detail := str ("no backup run has reached this app since this " ++
            "record was begun") }
      lastOK := none
      restoreProven := none
      restoreDrill := none }

/-- One app of a drill: the loop after it. -/
def DrillTurn.take (fmt : Fmt) (t : DrillTurn) (root name : Bytes)
    (l : DrillLoop) : DrillLoop :=
  let old := (l.apps.get name).join
  let e := drilled root name old
  let set (e : Entry) (refused : Option Bytes) (seen : List Bytes) :
      DrillLoop :=
    { apps := l.apps.set name (some e)
      seen := l.seen ++ seen.map fun id => (name, id)
      refused := (refused.filter fun r => r ≠ []).or
        (t.unanswered.map fun why => fmt.text
          (str "the repository did not answer (" ++ why ++
            str "), so nothing more was asked of it")) }
  match l.refused with
  | some why =>
    { l with
      apps := l.apps.set name
        (some { e with restoreDrill := some (.bare t.time why) }) }
  | none =>
    match snapshots fmt false t.asked with
    | .error (why, wide) =>
      let detail := fmt.text (str ("the repository could not be asked " ++
        "for this app's snapshots: ") ++ why)
      set { e with restoreDrill := some (.bare t.time detail) }
        (if wide then some detail else none) []
    | .ok snaps =>
      match newest snaps with
      | none =>
        { l with
          apps :=
            if old.isSome then
              l.apps.set name (some { e with restoreDrill := none })
            else l.apps }
      | some snap =>
        let (e', wide) := drillApp fmt snap t.brought t.time e
        set e' (if wide && !t.brought.isUpgraded then
          e'.restoreDrill.map Drill.detail else none)
          (if t.brought.isWhole then [snap.id] else [])

/-- The loop over the apps of a drill. -/
def drillTurns (fmt : Fmt) (root : Bytes) (turn : Bytes → DrillTurn) :
    List Bytes → DrillLoop → DrillLoop
  | [], l => l
  | name :: names, l =>
    if (turn name).left then l
    else drillTurns fmt root turn names ((turn name).take fmt root name l)

/-- An app that has left the plan has nothing left to prove. -/
def undrilled (p : Planned) (apps : Table Bytes (Option Entry)) :
    Table Bytes (Option Entry) :=
  apps.mapValues fun name e =>
    if p.names.contains name then e
    else e.map fun e => { e with restoreDrill := none }

/-- What a check leaves in the record. -/
def Status.checked (st : Status) : Option (Check × Bytes) → Status
  | none => st
  | some (c, next) => { st with lastCheck := some c, checkNext := next }

/-- The loop of a drill. -/
def DrillInput.loop (i : DrillInput) (prev : Status) (p : Planned) :
    DrillLoop :=
  drillTurns i.fmt p.root i.turn p.names ⟨undrilled p prev.apps, none, []⟩

/-- `Drill`: the record it writes. -/
def DrillInput.drill (i : DrillInput) (prev : Status) : Status :=
  let st :=
    { prev with
      lastDrill := some (.bare i.started [])
      checkSince :=
        if prev.lastCheck.isNone && prev.checkSince.isNone then
          some i.started
        else prev.checkSince }
  let warning := warned i.fmt st.warning i.warning
  match i.start with
  | .interrupted => prev
  | .couldNot why upgraded =>
    { (if upgraded then st else st.checked i.checked) with
      lastDrill := if upgraded then prev.lastDrill
        else some (.bare i.started (i.fmt.text why))
      warning := warning }
  | .planned p =>
    { (if i.upgraded then st else st.checked i.checked) with
      apps := (i.loop prev p).apps
      lastDrill := if i.upgraded then prev.lastDrill else st.lastDrill
      warning := warning }

-- ====== histories

/-- A command that writes the record. -/
inductive Command
  | run (i : RunInput)
  | restore (i : RestoreInput)
  | drill (i : DrillInput)

namespace Command

def apply : Command → Status
  | run i => i.run prev
  | restore i => i.restore prev
  | drill i => i.drill prev

/-- The snapshots a command saw for itself, each with its app. -/
def seen : Command → List (Bytes × Bytes)
  | run i =>
    match i.begun, i.plan with
    | none, .ok p => (i.loop prev p).seen
    | _, _ => []
  | restore i => (i.turn.app (prev.app i.app) i.root i.app).1.saw.map
      fun id => (i.app, id)
  | drill i =>
    match i.start with
    | .planned p => (i.loop prev p).seen
    | _ => []

/-- What the listing of a run held, where it made one that is believed. -/
def trusted : Command → Option (List Listed)
  | run i =>
    match i.begun, i.plan with
    | none, .ok p =>
      if i.lists prev p && !(i.reached prev p).nothing &&
          !i.listing.interrupted then
        (snapshots i.fmt true i.listing.asked).toOption
      else none
    | _, _ => none
  | _ => none

end Command

/-- The record after a history. -/
def replay (st : Status) (cs : List Command) : Status :=
  cs.foldl Command.apply st

/-- Each command of a history with the record it began from. -/
def steps (st : Status) : List Command → List (Status × Command)
  | [] => []
  | c :: cs => (st, c) :: steps (c.apply st) cs

end Hotserve.Backup
