/-
The sweep of an app's units (liveswap/runner_systemd.go: `sweep`,
`stopUnobserved`, `unitStatusOf`, `resetFailed`) and the manager it
talks to.

# The threads

`sweep` lists the app's units, resets the leftovers itself and gives each
running stray to a goroutine; it waits for those and joins the errors
they recorded. The goroutines are threads of a pool here, begun by the
`go` the main thread makes and counted by the wait group.

# The manager

A map from names to states. A unit may end at any time, into any state or
none; nothing else changes it but a stop or a reset, which may fail
having done their work or not. A reset that succeeds unloads a unit with
no process.
-/
import Hotserve.Effect.Pool
import Hotserve.Liveswap.Units
import Mathlib.Data.List.AList

namespace Hotserve.Liveswap

open Bytes
open Effect (Prog Shared Pool)
open Effect.Prog (op)

/-- A unit as a read or a listing gives it. -/
structure UnitStatus where
  name : Bytes
  state : UnitState
  deriving DecidableEq

/-- How a stop job ended. -/
inductive JobResult
  | done | canceled | timeout | failed | dependency | skipped
  deriving DecidableEq

/-- Why a stop is not confirmed. -/
inductive Doubt
  | unanswered
  | job (result : JobResult)
  | unread
  | unreset (err : Bytes)
  deriving DecidableEq

/-- The errors of a sweep; `stray` is the cause a confirmed stop
returns. -/
inductive SweepError
  | listing (app err : Bytes)
  | resetting (unit err : Bytes)
  | migrationRunning (unit version : Bytes)
  | stray (unit : Bytes)
  | unconfirmed (unit : Bytes) (why : Doubt)
  deriving DecidableEq

/-- Whether an error says a unit may still be running. -/
def unitUnconfirmed : SweepError → Bool
  | .unconfirmed .. => true
  | _ => false

-- ====== the calls

/-- What a sweep asks of the manager and of its own process. -/
inductive Call
  | listUnits (pattern : Bytes)
  | unitStatus (unit : Bytes)
  | stopUnit (unit : Bytes) (within : Nat)
  | resetFailedUnit (unit : Bytes)
  | still
  | record (err : SweepError)
  | go (u : UnitStatus)
  | done (unit : Bytes)
  | wait

/-- What each is answered with; a failure has the manager's text. -/
abbrev Call.Answer : Call → Type
  | .listUnits _ => Except Bytes (List UnitStatus)
  | .unitStatus _ => Except Bytes UnitState
  | .stopUnit .. => Except Bytes JobResult
  | .resetFailedUnit _ => Except Bytes Unit
  | .still => Bool
  | .record _ | .go _ | .done _ => Unit
  | .wait => List SweepError

abbrev Runner := Prog Call.Answer

def listUnits (pattern : Bytes) : Runner (Except Bytes (List UnitStatus)) :=
  op (Call.listUnits pattern)

def unitStatus (unit : Bytes) : Runner (Except Bytes UnitState) :=
  op (Call.unitStatus unit)

def stopUnit (unit : Bytes) (within : Nat) : Runner (Except Bytes JobResult) :=
  op (Call.stopUnit unit within)

def resetFailedUnit (unit : Bytes) : Runner (Except Bytes Unit) :=
  op (Call.resetFailedUnit unit)

def askStill : Runner Bool := op Call.still

def record (err : SweepError) : Runner Unit := op (Call.record err)

def go (u : UnitStatus) : Runner Unit := op (Call.go u)

def wgDone (unit : Bytes) : Runner Unit := op (Call.done unit)

def wgWait : Runner (List SweepError) := op Call.wait

-- ====== the sweep

/-- Re-read a listed unit; what is already known of it stands in when
the manager cannot answer. -/
def unitStatusOf (listed : UnitStatus) : Runner UnitStatus := do
  match ← unitStatus listed.name with
  | .error _ => return listed
  | .ok st => return ⟨listed.name, st⟩

def resetFailed (name : Bytes) : Runner (Option SweepError) := do
  match ← resetFailedUnit name with
  | .error err => return some (.resetting name err)
  | .ok _ => return none

/-- Reset a unit, the error recorded. -/
def resetLeftover (name : Bytes) : Runner Unit := do
  match ← resetFailed name with
  | some err => record err
  | none => return ()

/-- `stopSlack`, in seconds. -/
def stopSlack : Nat := 30

/-- Stop a unit: `stray` once it is confirmed gone. -/
def stopUnobserved (unit : Bytes) (within : Nat) : Runner SweepError := do
  match ← stopUnit unit within with
  | .error _ => return .unconfirmed unit .unanswered
  | .ok res =>
    if res ≠ .done then return .unconfirmed unit (.job res)
    else match ← unitStatus unit with
      | .error _ => return .unconfirmed unit .unread
      | .ok st =>
        if st.running then return .unconfirmed unit .unread
        else if st.leftover then
          match ← resetFailedUnit unit with
          | .error err => return .unconfirmed unit (.unreset err)
          | .ok _ => return .stray unit
        else return .stray unit

/-- Stop a stray that is running, unless someone owns it by now. -/
def stopStray (still : Bool) (u : UnitStatus) : Runner Unit := do
  let ask : Runner Bool := if still then askStill else pure true
  if ← ask then
    let err ← stopUnobserved u.name (u.state.stopBudget 0 + stopSlack)
    if unitUnconfirmed err then record err else return ()
  else return ()

/-- What the goroutine of a running stray does with it. -/
def settleStray (still spare : Bool) (listed : UnitStatus) : Runner Unit := do
  let u ← unitStatusOf listed
  if u.state.running then
    match unitPreStart u.name, spare with
    | some version, true => record (.migrationRunning u.name version)
    | _, _ => stopStray still u
  else if u.state.leftover then resetLeftover u.name
  else return ()

/-- The goroutine: `defer wg.Done()`. -/
def stray (still spare : Bool) (u : UnitStatus) : Runner (List SweepError) := do
  settleStray still spare u
  wgDone u.name
  return []

/-- The loop over the listing. -/
def sweepUnits (app keepUnit : Bytes) : List UnitStatus → Runner Unit
  | [] => return ()
  | u :: units => do
    let one : Runner Unit :=
      if u.name == keepUnit || !unitBelongsTo u.name app then return ()
      else if u.state.running then go u
      else if u.state.leftover then do
        let u ← unitStatusOf u
        resetLeftover u.name
      else return ()
    one
    sweepUnits app keepUnit units

/-- The glob a sweep lists by. -/
def sweepPattern (app : Bytes) : Bytes :=
  unitPrefix ++ app ++ str ".*.service"

/-- `sweep`; no errors is its nil. `keep` is the unit of the handle to
keep, if the handle is a systemd one. -/
def sweep (app : Bytes) (keep : Option Bytes) : Runner (List SweepError) := do
  match ← listUnits (sweepPattern app) with
  | .error err => return [.listing app err]
  | .ok units =>
    sweepUnits app (keep.getD []) units
    wgWait

-- ====== the manager

/-- `fnmatch`, as far as `*`. -/
def glob : Bytes → Bytes → Bool
  | [], b => b.isEmpty
  | c :: p, b =>
    if c = 42 then b.tails.any (glob p ·)
    else match b with
      | [] => false
      | d :: b => c == d && glob p b

/-- A stop or a reset that was asked for. -/
inductive Issue
  | stop (unit : Bytes)
  | reset (unit : Bytes)
  deriving DecidableEq

def Issue.unit : Issue → Bytes
  | .stop unit | .reset unit => unit

/-- The manager's units, and the sweeping process: the errors recorded,
the goroutines asked for and not begun, the strays the wait group still
counts, and every stop and reset made. -/
structure Manager where
  units : AList fun _ : Bytes => UnitState
  errs : List SweepError
  forked : List UnitStatus
  wg : List Bytes
  issued : List Issue

namespace Manager

/-- A unit is in another state, or unloaded. -/
def become (w : Manager) (unit : Bytes) : Option UnitState → Manager
  | some st => { w with units := w.units.insert unit st }
  | none => { w with units := w.units.erase unit }

/-- What a unit may come to by ending, or by nothing having happened: a
running one to anything, another only to being unloaded. -/
def endsAs : Option UnitState → Option UnitState → Bool
  | some st, some st' => st.running || st == st'
  | none, some _ => false
  | _, none => true

/-- A reset unloads a unit that has no process. -/
def reset (w : Manager) (unit : Bytes) : Manager :=
  match w.units.lookup unit with
  | some st => if st.running then w else w.become unit none
  | none => w

/-- A unit nobody knows, as a read of it has it. -/
def notFound : UnitState := ⟨.notFound, .none, 0⟩

/-- The units whose names match, with the fields a listing carries. -/
def listing (w : Manager) (pattern : Bytes) : List UnitStatus :=
  (w.units.entries.filter fun e => glob pattern e.1).map fun e =>
    ⟨e.1, { e.2 with stopTimeout := 0 }⟩

end Manager

/-- What the manager decides at one call: whether it fails and with what
text, whether a failed reset took effect, what a stop makes of the unit
and how its job ends, and what the owner of the app answers. -/
structure Fate where
  err : Option Bytes
  took : Bool
  next : Option UnitState
  job : JobResult
  ours : Bool

/-- An answer that a call may not get. -/
def Fate.orElse {α : Type} (c : Fate) (a : α) : Except Bytes α :=
  match c.err with
  | some err => .error err
  | none => .ok a

/-- One call. -/
def Manager.apply (e : Call) (c : Fate) (w : Manager) :
    Option (e.Answer × Manager) :=
  match e with
  | .listUnits pattern => some (c.orElse (w.listing pattern), w)
  | .unitStatus unit =>
    some (c.orElse ((w.units.lookup unit).getD notFound), w)
  | .stopUnit unit _ =>
    if endsAs (w.units.lookup unit) c.next then
      some (c.orElse c.job,
        { w.become unit c.next with issued := w.issued ++ [.stop unit] })
    else none
  | .resetFailedUnit unit =>
    let w' := if c.err.isSome && !c.took then w else w.reset unit
    some (c.orElse (), { w' with issued := w.issued ++ [.reset unit] })
  | .still => some (c.ours, w)
  | .record err => some ((), { w with errs := w.errs ++ [err] })
  | .go u =>
    some ((), { w with forked := w.forked ++ [u], wg := w.wg ++ [u.name] })
  | .done unit => some ((), { w with wg := w.wg.erase unit })
  | .wait => if w.wg = [] then some (w.errs, w) else none

/-- The sweep's own thread, and one for each stray. -/
inductive Thread
  | main
  | stray (unit : Bytes)
  deriving DecidableEq

/-- The manager as the threads share it; between two calls a unit may
end. -/
def manager : Shared Thread Call.Answer Manager where
  Choice := Fate
  apply _ := Manager.apply
  lost _ _ _ := False
  env w w' := ∃ unit next, Manager.endsAs (w.units.lookup unit) next = true ∧
    w' = w.become unit next

/-- A goroutine begins once it was asked for. -/
def begins (still spare : Bool) (t : Thread) (w : Manager)
    (p : Runner (List SweepError)) (w' : Manager) : Prop :=
  ∃ u ∈ w.forked, t = .stray u.name ∧ p = stray still spare u ∧
    w' = { w with forked := w.forked.erase u }

/-- A sweep about to list: no goroutine, nothing recorded. -/
def sweepPool (app : Bytes) (keep : Option Bytes)
    (units : AList fun _ : Bytes => UnitState) :
    Pool Thread Call.Answer (List SweepError) Manager where
  run
    | .main => some (sweep app keep)
    | .stray _ => none
  world := ⟨units, [], [], [], []⟩

end Hotserve.Liveswap
