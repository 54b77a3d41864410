/-
The repository's own check (backups/engine/check.go, and `checkInto` of
restore.go): a probe, restic's check of one group of the data, and after
a check that failed a second probe, which tells damage from a storage
that went away.

What each unit comes back with, and what the check's summary decodes to,
is the input. So is the interrupt: the places at which the source asks
its context are numbered in the order it comes to them, and an interrupt
is seen at its own place and at every later one.
-/
import Hotserve.Backup.Record
import Mathlib.Algebra.Group.Int.Defs

namespace Hotserve.Backup

open Bytes

-- ====== the units

/-- An error of `start`: its words, and what `errors.Is` finds in it. -/
structure StartErr where
  text : Bytes
  endedFromOutside : Bool
  deadlineExceeded : Bool
  notConfirmedGone : Bool
  didNotAnswer : Bool

/-- `startWithin`, under a clock: what it makes of `start`'s answer. -/
def startWithin (within : Bytes) (cancelled : Bool)
    (r : Except StartErr Outcome) : Except StartErr Outcome :=
  match r with
  | .ok o => .ok o
  | .error e =>
    if !cancelled && e.deadlineExceeded && !e.notConfirmedGone then
      .error
        { text := str "the repository did not answer within " ++ within ++
            str "; the unit was stopped"
          endedFromOutside := false
          deadlineExceeded := false
          notConfirmedGone := false
          didNotAnswer := true }
    else .error e

/-- `checkClass`: how a probe or a check ended, as a verdict. -/
def checkClass (o : Outcome) : CheckClass × Bytes :=
  let (detail, _) := resticFailure o
  if o.result ≠ str "exit-code" then (.failed, detail)
  else if o.exitStatus = 1 then (.unreachable, detail)
  else if o.exitStatus = 10 then (.noRepository, detail)
  else if o.exitStatus = 11 then
    (.failed, str ("restic said the repository is locked (exit 11), which a " ++
      "check that takes no lock does not ask"))
  else if o.exitStatus = 12 then (.wrongPassword, detail)
  else (.failed, detail)

/-- `name`: a unit of no app. -/
def unitName (role nonce : Bytes) : Bytes :=
  str "motel_backup_" ++ role ++ str "_" ++ nonce ++ str ".service"

def probeClock : Bytes := str "30s"

/-- What the summary of a check says. -/
structure CheckSaid where
  numErrors : Option Int
  brokenPacks : Nat

/-- What a check meets. -/
structure CheckInput where
  fmt : Fmt
  nonce : Bytes
  /-- `checkClock`. -/
  time : Nat
  probe : Except StartErr Outcome
  check : Except StartErr Outcome
  /-- What `jsonLine` read of the check's summary. -/
  said : Option CheckSaid
  probeAfter : Except StartErr Outcome
  /-- The place the interrupt comes at. -/
  interrupt : Option Nat

namespace CheckInput

/-- `ctx.Err() != nil` at a place. -/
def cancelled (i : CheckInput) (place : Nat) : Bool :=
  i.interrupt.any fun p => p ≤ place

/-- The errors the summary counted. -/
def counted (i : CheckInput) : Option Int := i.said.bind CheckSaid.numErrors

end CheckInput

/-- What a probe comes to. -/
inductive Probed
  | answered
  /-- It was stopped, and found nothing out. -/
  | none
  | verdict (class_ : CheckClass) (detail : Bytes)

/-- `probe`, whose first look at the context is at `place`. -/
def CheckInput.probed (i : CheckInput) (place : Nat)
    (r : Except StartErr Outcome) : Probed :=
  match startWithin probeClock (i.cancelled place) r with
  | .error e =>
    if i.cancelled (place + 1) || e.endedFromOutside then .none
    else if e.didNotAnswer then
      .verdict .unreachable (e.text ++
        str ": the storage could not be reached, or refused the key")
    else if e.deadlineExceeded then
      .verdict .unreachable (str "the repository did not answer within " ++
        probeClock ++ str (", and its unit could not be confirmed stopped " ++
          "(`systemctl status ") ++ unitName (str "probe") i.nonce ++
        str ("` says whether it runs on): the storage could not be " ++
          "reached, or refused the key"))
    else .verdict .failed (str "the probe's unit: " ++ e.text)
  | .ok o =>
    if o.ok then .answered
    else .verdict (checkClass o).1 (checkClass o).2

-- ====== the check

def plural (n : Int) (what : String) : Bytes :=
  if n = 1 then str ("1 " ++ what)
  else str (toString n ++ " " ++ what ++ "s")

/-- `verdict`, at a place. -/
def CheckInput.verdict (i : CheckInput) (place : Nat) (group : Bytes)
    (class_ : CheckClass) (detail : Bytes) : Option Check :=
  if i.cancelled place then none
  else some ⟨i.time, group, class_, i.fmt.text detail⟩

def readsAgain : Bytes := str "the next check reads this group again; "

/-- Where restic's own words are. -/
def CheckInput.journal (i : CheckInput) : Bytes :=
  str "`journalctl -u " ++ unitName (str "repocheck") i.nonce ++ str "`"

/-- After an exit of 1: damage found, or the storage lost half way. -/
def CheckInput.afterExit1 (i : CheckInput) (group : Bytes) : Option Check :=
  match i.probed 4 i.probeAfter, i.counted with
  | .none, some n =>
    -- stopped before it could say, with what restic counted
    if 0 < n then
      some ⟨i.time, group, .failed, i.fmt.text (str "restic check counted " ++
        plural n "error" ++ str (", and was stopped before damage could be " ++
          "told from a storage that went away; ") ++ readsAgain ++
        str "restic's own words: " ++ i.journal)⟩
    else none
  | .none, none => none
  | .verdict class_ detail, _ =>
    i.verdict 6 group class_ (str "the check could not finish: " ++ detail)
  | .answered, counted =>
    if counted.getD 0 = 0 then
      i.verdict 6 group .failed (str ("restic check failed (exit 1) " ++
        "without counting any damage, the repository answering before and " ++
        "after; ") ++ i.journal ++ str " has restic's own words")
    else
      let broken := (i.said.map CheckSaid.brokenPacks).getD 0
      i.verdict 6 group .damaged (str "restic check found " ++
        plural (counted.getD 0) "error" ++
        (if 0 < broken then str ", in " ++ plural broken "damaged pack"
        else []) ++
        str ("; a prune run off the box, or the storage failing, during " ++
          "the check looks the same, and ") ++ readsAgain ++
        str "restic's own words: " ++ i.journal)

/-- `checkRepository`: what it found of one group, or nothing where it was
interrupted. -/
def checkRepository (i : CheckInput) (group : Bytes) : Option Check :=
  match i.probed 0 i.probe with
  | .none => none
  | .verdict class_ detail => i.verdict 2 group class_ detail
  | .answered =>
    match i.check with
    | .error e =>
      if e.endedFromOutside then none
      else i.verdict 3 group .failed (str "the check's unit: " ++ e.text)
    | .ok o =>
      if o.ok then
        if i.counted = some 0 then i.verdict 3 group .clean []
        else i.verdict 3 group .failed (str ("restic check exited 0, and " ++
          "its summary could not be read, or counted errors: not " ++
          "believed"))
      else if o.result ≠ str "exit-code" ∨ o.exitStatus ≠ 1 then
        i.verdict 3 group (checkClass o).1 (checkClass o).2
      else i.afterExit1 group

-- ====== the groups

def checkGroups : Int := 52

/-- `fmt.Sprintf("%d/%d", n, of)`. -/
def groupText (n of_ : Int) : Bytes :=
  str (toString n) ++ str "/" ++ str (toString of_)

/-- `%d` of `fmt.Sscanf`: white space but a newline, a sign, and the
digits of an int; and what follows them. -/
def scanInt (s : Bytes) : Option (Int × Bytes) :=
  let s := strip (spaces.filter (· != [0x0A])) s
  let negative := s.head? = some 45
  let rest := if negative ∨ s.head? = some 43 then s.tail else s
  let digits := rest.takeWhile fun c => 48 ≤ c && c ≤ 57
  let n : Int := digits.foldl (fun n c => 10 * n + (c.toNat - 48)) 0
  let n := if negative then -n else n
  if digits = [] ∨ n < -(2 ^ 63) ∨ 2 ^ 63 ≤ n then none
  else some (n, rest.drop digits.length)

/-- `fmt.Sscanf(s, "%d/%d", &n, &of)`, which does not look further. -/
def scanGroup (s : Bytes) : Option (Int × Int) :=
  match scanInt s with
  | some (n, 47 :: rest) => (scanInt rest).map fun p => (n, p.1)
  | _ => none

/-- The day of its year, from 0, of a day counted from the first of the
year 1: the last year of a century, or of four, may be one day longer. -/
def yearDay (d : Nat) : Nat :=
  let d := d % 146097
  let d := (d - 36524 * min (d / 36524) 3) % 1461
  d - 365 * min (d / 365) 3

/-- `ISOWeek`, in UTC, of nanoseconds since 1970: a week is of the year
its Thursday is in. -/
def isoWeek (t : Nat) : Int :=
  let day := t / (86400 * 1000000000) + 719162
  yearDay (day - day % 7 + 3) / 7 + 1

def groupNumber (s : Bytes) : Option Int :=
  match scanGroup s with
  | none => none
  | some (n, of_) =>
    if of_ ≠ checkGroups ∨ n < 1 ∨ checkGroups < n ∨ groupText n of_ ≠ s then
      none
    else some n

/-- The group a first check reads. -/
def checkGroup (t : Nat) : Bytes :=
  groupText ((isoWeek t - 1).tmod checkGroups + 1) checkGroups

def groupToRead (next : Bytes) (t : Nat) : Bytes :=
  match groupNumber next with
  | some _ => next
  | none => checkGroup t

def groupAfter (g : Bytes) : Bytes :=
  match groupNumber g with
  | none => g
  | some n => groupText (n.tmod checkGroups + 1) checkGroups

/-- `checkInto`: the verdict, and the group the next check reads. -/
def checkInto (i : CheckInput) (next : Bytes) : Option (Check × Bytes) :=
  let group := groupToRead next i.time
  (checkRepository i group).map fun c =>
    (c, if c.class_ = .clean then groupAfter group else group)

-- ====== histories

/-- A command on the record; a drill with the check it makes, if it comes
to one. -/
inductive Job
  | run (i : RunInput)
  | restore (i : RestoreInput)
  | drill (d : DrillInput) (check : Option CheckInput)

/-- The command, its check read from the record before. -/
def Job.command (prev : Status) : Job → Command
  | run i => .run i
  | restore i => .restore i
  | drill d check =>
    .drill { d with
      checked := check.bind fun i => checkInto i prev.checkNext }

def Job.apply (prev : Status) (j : Job) : Status :=
  (j.command prev).apply prev

/-- The check a command writes into the record. -/
def Command.check : Command → Option Check
  | run _ => none
  | restore _ => none
  | drill i =>
    match i.start with
    | .interrupted => none
    | .couldNot _ upgraded =>
      if upgraded then none else i.checked.map Prod.fst
    | .planned _ => if i.upgraded then none else i.checked.map Prod.fst

/-- The checks a history records, in order. -/
def checks (prev : Status) : List Job → List Check
  | [] => []
  | j :: js => (j.command prev).check.toList ++
      checks (j.apply prev) js

end Hotserve.Backup
