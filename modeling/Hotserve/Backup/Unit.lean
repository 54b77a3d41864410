/-
Running one command as a transient unit (backups/unit/unit.go: `Run`,
`reap`, `stop`, `stopCause`) and the manager that runs it.

# The runner

`run` starts the unit and waits on three things at once: the start
job's result, the end of its context, and a ticker at which it looks at
the unit itself. The loop has no bound of its own; `fuel` is how many
passes a run is followed for, and no verdict is the answer of a run
that is still waiting. Timers are the environment's choice.

# The manager

A unit is queued, then activating while its command runs, then gone
from memory after an exit of 0, or loaded as failed with its result and
status. A stop, by anyone, may take it from any of these to inactive,
failed or gone. Beside what the properties show, the world keeps what
happened: whether the command was started, its own exit, whether a stop
ended the unit, and the result and status that were recorded.
-/
import Hotserve.Bytes
import Hotserve.Effect.Safe

namespace Hotserve.Backup.Unit

open Effect (Prog Sem)
open Effect.Prog (op)

-- ====== what a unit shows

/-- The manager's word for how a unit ended; `none` is a property that
is not there. -/
inductive UnitResult
  | none | success | protocol | timeout | exitCode | signal | coreDump
  | watchdog | startLimitHit | resources | oomKill | execCondition
  deriving DecidableEq

/-- The result of a start job. -/
inductive JobResult
  | done | failed | canceled | dependency | timeout | skipped
  deriving DecidableEq

inductive ActiveState
  | inactive | activating | deactivating | failed
  deriving DecidableEq

/-- The properties read of a unit. -/
structure Props where
  found : Bool
  active : ActiveState
  result : UnitResult
  execMainStatus : Int
  deriving DecidableEq

/-- How a unit's command ended. -/
structure Outcome where
  exitStatus : Int
  result : UnitResult
  deriving DecidableEq

/-- An error of the manager's. -/
inductive CallError
  | noSuchUnit
  | other (err : Bytes)
  deriving DecidableEq

/-- Why a unit is stopped. -/
inductive Cause
  | starting (err : CallError)
  | ctx
  | unreadable (times : Nat) (err : CallError)
  | status (job : JobResult) (err : CallError)
  | still (job : JobResult) (active : ActiveState)
  deriving DecidableEq

/-- Why a stop is not confirmed. -/
inductive Doubt
  | stopping (err : CallError)
  | unfinished
  | reading (err : CallError)
  | state (active : ActiveState)
  deriving DecidableEq

/-- The errors of a run; `unconfirmed` is what wraps
`ErrNotConfirmedGone`. -/
inductive RunError
  | spec (err : Bytes)
  | stopped (cause : Cause)
  | unconfirmed (cause : Cause) (why : Doubt)
  | endedFromOutside (job : JobResult) (result : UnitResult)
  | noFailure
  deriving DecidableEq

/-- Whether the error wraps `ErrNotConfirmedGone`. -/
def RunError.notConfirmedGone : RunError → Bool
  | .unconfirmed .. => true
  | _ => false

abbrev Verdict := Except RunError Outcome

-- ====== the calls

/-- What `Run`'s select wakes to. -/
inductive Event
  | job (res : JobResult)
  | done
  | tick
  deriving DecidableEq

/-- What a run asks of the manager and of its own clock. A look is the
property read of `Run`'s loop; `props` is that of `reap` and
`stopCause`. -/
inductive Call
  | startTransientUnit
  | select
  | look
  | props
  | wait
  | stopUnit
  | stopJob
  | resetFailedUnit
  deriving DecidableEq

/-- What each is answered with; a wait answers whether its deadline has
not passed. -/
abbrev Call.Answer : Call → Type
  | .startTransientUnit => Except CallError Unit
  | .select => Event
  | .look => Except CallError Props
  | .props => Except CallError Props
  | .wait => Bool
  | .stopUnit => Except CallError Unit
  | .stopJob => Bool
  | .resetFailedUnit => Unit

abbrev Act := Prog Call.Answer

/-- One call. -/
abbrev ask (e : Call) : Act e.Answer := op e

-- ====== the runner

/-- Stop the unit by name: the cause once it is observed gone, or the
cause with why that is not known. -/
def stopCause (cause : Cause) : Act RunError := do
  match ← ask .stopUnit with
  | .error .noSuchUnit => return .stopped cause
  | .error err => return .unconfirmed cause (.stopping err)
  | .ok () =>
    if ← ask .stopJob then
      match ← ask .props with
      | .error .noSuchUnit => return .stopped cause
      | .error err => return .unconfirmed cause (.reading err)
      | .ok p =>
        match p.active with
        | .inactive | .failed => do
          ask .resetFailedUnit
          return .stopped cause
        | active => return .unconfirmed cause (.state active)
    else return .unconfirmed cause .unfinished

/-- `stop`, with a cause: an error in any case. -/
def stop (cause : Cause) : Act (Option Verdict) := do
  let err ← stopCause cause
  return some (.error err)

/-- What the properties of an ended unit say of its command. -/
def verdict (jobResult : JobResult) (p : Props) : Verdict :=
  if jobResult ≠ .failed then .error (.endedFromOutside jobResult p.result)
  else if p.result = .none ∨ p.result = .success then .error .noFailure
  else .ok ⟨p.execMainStatus, p.result⟩

/-- See a unit whose start job did not end "done" to its end, and read
how it finished. -/
def reap (jobResult : JobResult) : Nat → Act (Option Verdict)
  | 0 => return none
  | fuel + 1 => do
    match ← ask .props with
    | .error err => stop (.status jobResult err)
    | .ok p =>
      match p.active with
      | .inactive | .failed => do
        ask .resetFailedUnit
        return some (verdict jobResult p)
      | active =>
        if ← ask .wait then reap jobResult fuel
        else stop (.still jobResult active)

/-- The outcome of a job that ended "done", and of a look that takes a
unit as done. -/
def Outcome.success : Outcome := ⟨0, .success⟩

/-- What a look makes of the unit: a verdict, a unit to reap, or nothing
yet. -/
inductive Seen
  | success | failed | going
  deriving DecidableEq

def seen (p : Props) : Seen :=
  if !p.found then .success
  else match p.active with
    | .failed => .failed
    | .inactive => if p.result = .success then .success else .failed
    | _ => .going

/-- A look at the unit. `again` is the loop's next pass, with the count of
looks that could not be read running. -/
def look (again : Nat → Act (Option Verdict)) (fuel unreadable : Nat) :
    Act (Option Verdict) := do
  match ← ask .look with
  | .error err =>
    if unreadable + 1 ≥ 10 then stop (.unreadable (unreadable + 1) err)
    else again (unreadable + 1)
  | .ok p =>
    match seen p with
    | .success => return some (.ok .success)
    | .failed => reap .failed fuel
    | .going => again 0

/-- The loop of `Run`. -/
def watch : Nat → Nat → Act (Option Verdict)
  | 0, _ => return none
  | fuel + 1, unreadable => do
    match ← ask .select with
    | .job .done => return some (.ok .success)
    | .job res => reap res fuel
    | .done => stop .ctx
    | .tick => look (watch fuel) fuel unreadable

/-- `Run`. Whether the spec's properties can be made is its argument. -/
def run (properties : Except Bytes Unit) (fuel : Nat) :
    Act (Option Verdict) := do
  match properties with
  | .error err => return some (.error (.spec err))
  | .ok () =>
    match ← ask .startTransientUnit with
    | .error err => stop (.starting err)
    | .ok () => watch fuel 0

-- ====== the manager

/-- Where a unit is. -/
inductive UnitState
  /-- The manager knows no such unit: not yet, or no longer. -/
  | absent
  | queued
  | activating
  | deactivating
  /-- Loaded, with no process. -/
  | ended (failed : Bool) (result : UnitResult) (status : Int)
  deriving DecidableEq

/-- Whether a process of the unit's is there. -/
def UnitState.runs : UnitState → Bool
  | .activating => true
  | .deactivating => true
  | _ => false

/-- Whether the unit is over: gone, or loaded with no process. -/
def UnitState.over : UnitState → Bool
  | .absent => true
  | .ended .. => true
  | _ => false

/-- The properties the manager answers with. A unit it does not know is
inactive, with the properties a unit has before it was ever run. -/
def UnitState.props : UnitState → Props
  | .absent => ⟨false, .inactive, .success, 0⟩
  | .queued => ⟨true, .inactive, .success, 0⟩
  | .activating => ⟨true, .activating, .success, 0⟩
  | .deactivating => ⟨true, .deactivating, .success, 0⟩
  | .ended true result status => ⟨true, .failed, result, status⟩
  | .ended false result status => ⟨true, .inactive, result, status⟩

/-- What a stop may bring a unit to. -/
def UnitState.mayStop : UnitState → UnitState → Bool
  | .absent, next => next == .absent
  | .queued, next => next.over
  | .activating, next => next == .deactivating || next.over
  | .deactivating, next => next == .deactivating || next.over
  | .ended failed result status, next =>
    next == .ended failed result status || next == .absent

/-- The manager, and what has happened to the unit. -/
structure World where
  unit : UnitState
  /-- The command was started. -/
  started : Bool
  /-- The status the command itself exited with. -/
  exited : Option Int
  /-- The unit was stopped or unloaded by something other than its
  command's end. -/
  stopped : Bool
  /-- The start job's result, while its signal is under way. -/
  job : Option JobResult
  /-- The result and status the manager recorded. -/
  recorded : Option (UnitResult × Int)
  deriving DecidableEq

/-- Before the run. -/
def World.before : World := ⟨.absent, false, none, false, none, none⟩

/-- What the manager has on record once the unit is in a state. -/
def World.records (w : World) : UnitState → Option (UnitResult × Int)
  | .ended _ result status => some (result, status)
  | _ => w.recorded

/-- The unit stopped, its state now `next`. -/
def World.stop (w : World) (next : UnitState) : World :=
  { w with unit := next, stopped := true, recorded := w.records next }

/-- What the environment decides at a call: whether it fails, whether a
failed request was carried out all the same, what a select wakes to,
whether a wait ends in time, and the state a stop leads to. -/
structure Choice where
  err : Option CallError
  took : Bool
  event : Event
  inTime : Bool
  next : UnitState

/-- The answer to a property read: any failure, "no such unit" only of a
unit there is none of. -/
def World.read (w : World) (c : Choice) : Option (Except CallError Props) :=
  match c.err with
  | none => some (.ok w.unit.props)
  | some .noSuchUnit =>
    if w.unit = .absent then some (.error .noSuchUnit) else none
  | some err => some (.error err)

/-- The start request: on success, or on a failure it reached the manager
before, the unit is queued. -/
def World.startTransientUnit (w : World) (c : Choice) :
    Option (Except CallError Unit × World) :=
  if w.unit ≠ .absent then none
  else
    let made := { w with unit := .queued }
    match c.err with
    | none => some (.ok (), made)
    | some err => some (.error err, if c.took then made else w)

/-- The stop request, in mode "replace": it ends a start job that
waits. -/
def World.stopUnit (w : World) (c : Choice) :
    Option (Except CallError Unit × World) :=
  match c.err with
  | some .noSuchUnit =>
    if w.unit = .absent then some (.error .noSuchUnit, w) else none
  | err =>
    if w.unit.mayStop c.next then
      let stopped := w.stop c.next
      match err with
      | none => some (.ok (), stopped)
      | some err => some (.error err, if c.took then stopped else w)
    else none

/-- A reset unloads a unit that has ended. -/
def World.resetFailedUnit (w : World) (c : Choice) : World :=
  match w.unit with
  | .ended .. => if c.took then w.stop .absent else w
  | _ => w

/-- What each call does. -/
def apply : (e : Call) → Choice → World → Option (e.Answer × World)
  | .startTransientUnit, c, w => w.startTransientUnit c
  | .select, c, w =>
    match c.event with
    | .job res => if w.job = some res then some (.job res, w) else none
    | .done => some (.done, w)
    | .tick => some (.tick, w)
  | .look, c, w => (w.read c).map fun r => (r, w)
  | .props, c, w => (w.read c).map fun r => (r, w)
  | .wait, c, w => some (c.inTime, w)
  | .stopUnit, c, w => w.stopUnit c
  | .stopJob, c, w => some (c.inTime, w)
  | .resetFailedUnit, c, w => some ((), w.resetFailedUnit c)

/-- What the manager does on its own, and what others do to the unit. A
signal that is lost is one no select ever wakes to. -/
inductive Manager : World → World → Prop
  | starts {w : World} (h : w.unit = .queued) :
      Manager w { w with unit := .activating, started := true }
  /-- The command exits 0: inactive, then gone from memory. -/
  | exits {w : World} {next : UnitState} (h : w.unit = .activating)
      (hnext : next = .absent ∨ next = .ended false .success 0) :
      Manager w { w with
        unit := next, exited := some 0, job := some .done
        recorded := w.records next }
  /-- It ends any other way: failed, and loaded. -/
  | fails {w : World} {result : UnitResult} {status : Int}
      {exit : Option Int} (h : w.unit = .activating)
      (hresult : result ≠ .success ∧ result ≠ .none)
      (hexit : exit ≠ some 0) :
      Manager w { w with
        unit := .ended true result status, exited := exit
        job := some .failed, recorded := some (result, status) }
  /-- A unit that ended cleanly is dropped. -/
  | unloads {w : World} {status : Int}
      (h : w.unit = .ended false .success status) :
      Manager w { w with unit := .absent }
  /-- Someone, or what the unit is bound to, stops it or resets it; the
  start job, if it had not ended, ends otherwise than done. -/
  | stops {w : World} {next : UnitState} {job : Option JobResult}
      (hthere : w.unit ≠ .absent) (h : w.unit.mayStop next = true)
      (hjob : job = w.job ∨ w.unit.over = false ∧ job ≠ some .done) :
      Manager w { w.stop next with job := job }

/-- The system: any answer, and any move of the manager's between two
calls. -/
def manager : Sem Call.Answer World where
  Choice := Choice
  apply := apply
  may _ _ _ := True
  env := Manager

/-- Nothing is started twice. -/
def noBoot (_ : World) (_ : Act (Option Verdict)) (_ : World) : Prop :=
  False

-- ====== the verdict

/-- The verdict is the truth about the unit. -/
def Told (w : World) : Verdict → Prop
  | .ok out =>
    if out.result = .success then w.started = true ∧ w.exited = some 0
    else w.recorded = some (out.result, out.exitStatus)
  | .error err => err.notConfirmedGone = false → w.unit.runs = false

instance (w : World) : (v : Verdict) → Decidable (Told w v)
  | .ok out =>
    inferInstanceAs (Decidable (if out.result = .success
      then w.started = true ∧ w.exited = some 0
      else w.recorded = some (out.result, out.exitStatus)))
  | .error err =>
    inferInstanceAs (Decidable (err.notConfirmedGone = false →
      w.unit.runs = false))

/-- Whether the unit is as a clean exit leaves it: gone, or inactive with
the result "success". -/
def UnitState.clean : UnitState → Bool
  | .absent => true
  | .ended false .success _ => true
  | _ => false

/-- What a look can tell the end of a unit by: its start job is not
still queued, and it was not stopped into the state a clean exit
leaves. -/
def Telling (w : World) : Prop :=
  w.unit ≠ .queued ∧ (w.stopped = true → w.unit.clean = false)

/-- A run in which every look is made of a unit it can tell the end
of. -/
def Telling.looks (e : Call) (_ : Choice) (w : World) : Prop :=
  e = .look → Telling w

end Hotserve.Backup.Unit
