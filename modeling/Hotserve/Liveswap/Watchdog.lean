/-
The watchdog of one app (liveswap/watchdog.go): `watchdogLoop` with
`superviseInstance` and `handleFailure`, as a machine that takes one turn
at a time between the places where the loop blocks or asks.

# The world around it

Between two turns anything else may happen (`Event`): time passes, a
reload installs a spec, a deploy or a recovery takes the deploy lock and
lets go of it, the context is canceled. What the runner, the prober and
the select answer during a turn is the turn's `World`.

Sockets are the instance they route to. Log lines and the texts of
`lastFailure` are left out.
-/
import Hotserve.Bytes
import Mathlib.Data.Rat.Floor

namespace Hotserve.Liveswap.Watchdog

/-- A second in nanoseconds. -/
def second : Int := 1000000000

def wdBackoffFloor : Int := second

def wdBackoffCap : Int := 60 * second

def wdBackoffResetAfterMin : Int := 30 * second

/-- An instance, known by its handle. -/
abbrev Instance := Nat

inductive FailureKind
  | crash
  | health
  deriving DecidableEq, Repr

inductive WdState
  | disabled
  | idle
  | grace
  | watching
  | backoff
  | throttled
  deriving DecidableEq, Repr

/-- The fields of `appSpec` the watchdog reads. -/
structure Spec where
  watchdogOn : Bool
  wdRestarts : Nat
  wdWindow : Int
  wdGrace : Int
  wdFailures : Nat
  healthInterval : Int
  healthPath : Bytes
  deriving DecidableEq

def backoffResetAfter (spec : Spec) : Int :=
  if wdBackoffResetAfterMin < spec.wdGrace then spec.wdGrace
  else wdBackoffResetAfterMin

-- ====== the books

/-- `watchdogState`; a zero time is none. -/
structure State where
  state : Option WdState
  failures : Nat
  restarts : List Int
  backoffStep : Nat
  healthySince : Option Int
  lastRestartAt : Option Int
  lastRestartCause : Option FailureKind
  skipGraceFor : Option Instance
  deriving DecidableEq

namespace State

variable (w : State)

def setState (st : WdState) : State := { w with state := some st }

def arm : State :=
  { w with failures := 0, healthySince := none, state := some .grace }

def recordHealthy (now resetAfter : Int) : State :=
  let since := w.healthySince.getD now
  { w with
    failures := 0
    healthySince := some since
    backoffStep := if resetAfter ≤ now - since then 0 else w.backoffStep }

def recordFailure : State :=
  { w with failures := w.failures + 1, healthySince := none }

def noteFlap : State := { w with healthySince := none }

/-- The restarts a window still holds. -/
def kept (now window : Int) : List Int :=
  w.restarts.filter fun t => decide (now - t < window)

def consumeBudget (now : Int) (budget : Nat) (window : Int) : Bool × State :=
  let kept := w.kept now window
  if budget ≤ kept.length then (false, { w with restarts := kept })
  else (true, { w with restarts := kept ++ [now] })

def refundBudget : State :=
  { w with restarts := w.restarts.dropLast }

def untilBudgetFrees (now window : Int) : Int :=
  match w.restarts with
  | [] => wdBackoffFloor
  | oldest :: _ => max (oldest + window - now) wdBackoffFloor

/-- The delay before jitter: the floor doubled `step` times, capped. -/
def backoffBase : Nat → Int
  | 0 => wdBackoffFloor
  | step + 1 => min (2 * backoffBase step) wdBackoffCap

/-- `nextBackoff` at the jitter's draw, `r` of [0, 1). -/
def nextBackoff (r : Rat) : Int × State :=
  (⌊(backoffBase w.backoffStep : Rat) * (4 / 5 + 2 / 5 * r)⌋,
    { w with backoffStep := w.backoffStep + 1 })

def recordRestart (now : Int) (kind : FailureKind) : State :=
  { w with lastRestartAt := some now, lastRestartCause := some kind }

/-- What a successful deploy clears. -/
def reset : State :=
  { w with
    failures := 0
    restarts := []
    backoffStep := 0
    healthySince := none
    skipGraceFor := none }

end State

-- ====== the machine

/-- A failure found: `handleFailure`'s arguments and the count of deploys
it starts from. -/
structure Failure where
  inst : Instance
  kind : FailureKind
  deploys : Nat
  deriving DecidableEq

/-- A restart decided on, with the time its slot was claimed. -/
structure Restart extends Failure where
  claimed : Int
  deriving DecidableEq

/-- Where the loop is. -/
inductive Phase
  /-- The head of `watchdogLoop`. -/
  | loop
  | parked
  /-- The head of `superviseInstance`'s loop, and its select. -/
  | supervising (inst : Instance) (graceUntil tickAt : Int)
  | watching (spec : Spec) (inst : Instance) (graceUntil tickAt : Int)
  | probing (spec : Spec) (inst : Instance) (graceUntil tickAt : Int)
  /-- `handleFailure`, from its first line on. -/
  | failing (inst : Instance) (kind : FailureKind)
  | claiming (f : Failure)
  | throttled (f : Failure) (wakeAt : Int)
  /-- The head of the backoff's loop, and its select. -/
  | backoff (r : Restart) (deadline : Int)
  | pausing (r : Restart) (deadline : Int)
  /-- An attempt at the deploy lock, and the wait for it. -/
  | locking (r : Restart)
  | lockWait (r : Restart)
  /-- With the lock, up to the launch and its result. -/
  | locked (r : Restart)
  | rechecking (spec : Spec) (r : Restart)
  | reprobing (r : Restart)
  | sweeping (r : Restart)
  | stopping (r : Restart)
  | launching (r : Restart)
  | launched (r : Restart)
  | returned
  deriving DecidableEq

inductive Holder
  | watchdog
  | other
  deriving DecidableEq

/-- A relaunch: when its slot was claimed and when `launchVersion` was
called. -/
structure Launch where
  claimed : Int
  time : Int
  deriving DecidableEq

/-- One app's watchdog and what it reads, with the relaunches it has made,
newest first. -/
structure App where
  now : Int
  spec : Option Spec
  current : Option Instance
  active : Option Instance
  deploysEnded : Nat
  lock : Option Holder
  poked : Bool
  canceled : Bool
  wd : State
  phase : Phase
  launches : List Launch
  deriving DecidableEq

/-- The case of a select that is taken, if it is ready. -/
inductive Case
  | done
  | notified
  | exited
  | timer
  deriving DecidableEq

inductive LaunchResult
  | started (inst : Instance)
  | refused
  | failed
  deriving DecidableEq

/-- The answers a turn gets. -/
structure World where
  select : Case
  alive : Bool
  healthy : Bool
  migrating : Bool
  stopped : Bool
  launch : LaunchResult
  draw : Rat

namespace App

variable (s : App) (w : World)

/-- The spec the watchdog acts under, if it is on. -/
def spec? : Option Spec := s.spec.filter Spec.watchdogOn

def goto (p : Phase) : App := { s with phase := p }

def parkWatchdog : App :=
  let off := s.spec.any fun spec => !spec.watchdogOn
  { s with
    wd := s.wd.setState (if off then .disabled else .idle)
    phase := .parked }

/-- `superviseInstance` up to its loop. -/
def superviseInstance (spec : Spec) (inst : Instance) : App :=
  let skips := s.wd.skipGraceFor = some inst
  let grace := if skips then 0 else spec.wdGrace
  let wd := if skips then { s.wd with skipGraceFor := none } else s.wd
  { s with
    wd := wd.arm
    phase := .supervising inst (s.now + grace) (s.now + spec.healthInterval) }

def unrouteIf (inst : Instance) : App :=
  if s.current = some inst then { s with active := none } else s

def dropIf (inst : Instance) : App :=
  if s.current = some inst then { s with current := none, active := none }
  else s

/-- A claimed restart abandoned, the loop going on or not. -/
def refund (p : Phase) : App :=
  { s with wd := s.wd.refundBudget, phase := p }

/-- The deferred unlock. -/
def unlock : App := { s with lock := none }

/-- A select: the case taken where it is ready, else still waiting. -/
def selecting (wakeAt : Int) (done notified timer : App) : App :=
  match w.select with
  | .done => if s.canceled then done else s
  | .notified => if s.poked then notified else s
  | .timer => if wakeAt ≤ s.now then timer else s
  | .exited => s

/-- A poke taken. -/
def taken : App := { s with poked := false }

/-- A select with no timer. -/
def blocking (done notified : App) : App :=
  match w.select with
  | .done => if s.canceled then done else s
  | .notified => if s.poked then notified else s
  | _ => s

-- ------ supervision

/-- The head of `watchdogLoop`. -/
def loopTurn : App :=
  if s.canceled then s.goto .returned
  else match s.spec?, s.current with
    | some spec, some inst => s.superviseInstance spec inst
    | _, _ => s.parkWatchdog

/-- The head of `superviseInstance`'s loop. -/
def superviseTurn (inst : Instance) (graceUntil tickAt : Int) : App :=
  match s.spec? with
  | none => s.goto .loop
  | some spec =>
    { s with
      wd := s.wd.setState (if s.now < graceUntil then .grace else .watching)
      phase := .watching spec inst graceUntil tickAt }

/-- The tick of `superviseInstance`, up to its probe. -/
def tick (spec : Spec) (inst : Instance) (graceUntil : Int) : App :=
  let tickAt := s.now + spec.healthInterval
  if s.current ≠ some inst then s.goto .loop
  else if !w.alive then s.goto (.failing inst .crash)
  else if spec.healthPath = [] then
    { s with
      wd := s.wd.recordHealthy s.now (backoffResetAfter spec)
      phase := .supervising inst graceUntil tickAt }
  else s.goto (.probing spec inst graceUntil tickAt)

/-- The select of `superviseInstance`. -/
def watchTurn (spec : Spec) (inst : Instance) (graceUntil tickAt : Int) : App :=
  match w.select with
  | .done => if s.canceled then s.goto .returned else s
  | .notified =>
    if s.poked then
      if s.current ≠ some inst then s.taken.goto .loop
      else s.taken.goto (.supervising inst graceUntil tickAt)
    else s
  | .exited =>
    if s.current ≠ some inst then s.goto .loop
    else s.goto (.failing inst .crash)
  | .timer => if tickAt ≤ s.now then s.tick w spec inst graceUntil else s

/-- The probe's result. -/
def probeTurn (spec : Spec) (inst : Instance) (graceUntil tickAt : Int) : App :=
  let back := Phase.supervising inst graceUntil tickAt
  if s.current ≠ some inst then s.goto .loop
  else if w.healthy then
    { s with
      wd := s.wd.recordHealthy s.now (backoffResetAfter spec)
      phase := back }
  else if s.now < graceUntil then { s with wd := s.wd.noteFlap, phase := back }
  else
    let wd := s.wd.recordFailure
    { s with
      wd := wd
      phase := if spec.wdFailures ≤ wd.failures then .failing inst .health
        else back }

-- ------ handleFailure

/-- A dead instance is not routed to while the restart is paced. -/
def failTurn (inst : Instance) (kind : FailureKind) : App :=
  let s' := if w.alive then s else s.unrouteIf inst
  s'.goto (.claiming ⟨inst, kind, s.deploysEnded⟩)

/-- A slot is claimed, or the wait for one begins. -/
def claimTurn (f : Failure) : App :=
  match s.spec? with
  | none => s.goto .loop
  | some spec =>
    let c := s.wd.consumeBudget s.now spec.wdRestarts spec.wdWindow
    if c.1 then
      let b := c.2.nextBackoff w.draw
      { s with
        wd := b.2.setState .backoff
        phase := .backoff ⟨f, s.now⟩ (s.now + b.1) }
    else
      let wait := c.2.untilBudgetFrees s.now spec.wdWindow
      let s' := if w.alive then s else s.unrouteIf f.inst
      { s' with
        wd := c.2.setState .throttled
        phase := .throttled f (s.now + wait) }

def throttleTurn (f : Failure) (wakeAt : Int) : App :=
  s.selecting w wakeAt (s.goto .returned)
    (if s.current ≠ some f.inst then s.taken.goto .loop
      else s.taken.goto (.claiming f))
    (s.goto (.claiming f))

/-- The head of the backoff's loop: it ends with the step, or with a
deploy that has ended since. -/
def backoffTurn (r : Restart) (deadline : Int) : App :=
  if s.deploysEnded ≠ r.deploys ∨ deadline ≤ s.now then s.goto (.locking r)
  else s.goto (.pausing r deadline)

def pauseTurn (r : Restart) (deadline : Int) : App :=
  s.selecting w deadline (s.refund .returned)
    (if s.current ≠ some r.inst then s.taken.refund .loop
      else if s.spec? = none then s.taken.refund .loop
      else s.taken.goto (.backoff r deadline))
    (s.goto (.backoff r deadline))

/-- `deployMu.TryLock`. -/
def lockTurn (r : Restart) : App :=
  if s.lock = none then
    { s with lock := some .watchdog, phase := .locked r }
  else s.goto (.lockWait r)

def lockWaitTurn (r : Restart) : App :=
  s.blocking w (s.refund .returned)
    (if s.current ≠ some r.inst ∨ s.spec? = none then s.taken.refund .loop
      else s.taken.goto (.locking r))

/-- With the lock, all is read again. -/
def lockedTurn (r : Restart) : App :=
  if s.canceled then s.unlock.refund .returned
  else if s.current ≠ some r.inst then s.unlock.refund .loop
  else match s.spec? with
    | none => s.unlock.refund .loop
    | some spec =>
      -- a health verdict on an instance that is dead is a crash
      let kind := if r.kind = .health ∧ !w.alive then .crash else r.kind
      s.goto (.rechecking spec { r with kind := kind })

/-- Whether a health verdict is probed once more. -/
def recheckTurn (spec : Spec) (r : Restart) : App :=
  if r.kind = .health ∧ spec.healthPath ≠ [] ∧ w.alive then
    s.goto (.reprobing r)
  else s.goto (.sweeping r)

def reprobeTurn (r : Restart) : App :=
  if w.healthy then s.unlock.refund .loop else s.goto (.sweeping r)

/-- A pre_start still running holds the restart of a live instance. -/
def sweepTurn (r : Restart) : App :=
  if w.alive ∧ w.migrating then s.unlock.refund .loop
  else s.goto (.stopping r)

def stopTurn (r : Restart) : App :=
  if w.alive ∧ !w.stopped then
    let s' := s.unlock.refund .loop
    { s' with wd := { s'.wd with skipGraceFor := some r.inst } }
  else s.goto (.launching r)

/-- The call of `launchVersion`. -/
def launchTurn (r : Restart) : App :=
  { s with
    launches := ⟨r.claimed, s.now⟩ :: s.launches
    phase := .launched r }

def launchedTurn (r : Restart) : App :=
  match w.launch with
  | .refused => (s.unlock.dropIf r.inst).goto .loop
  | .failed => (s.unlock.unrouteIf r.inst).goto .loop
  | .started inst =>
    { s with
      lock := none
      wd := s.wd.recordRestart s.now r.kind
      current := some inst
      active := some inst
      phase := .loop }

/-- The loop's next turn. -/
def turn : App :=
  match s.phase with
  | .loop => s.loopTurn
  | .parked => s.blocking w (s.goto .loop) (s.taken.goto .loop)
  | .supervising inst graceUntil tickAt =>
    s.superviseTurn inst graceUntil tickAt
  | .watching spec inst graceUntil tickAt =>
    s.watchTurn w spec inst graceUntil tickAt
  | .probing spec inst graceUntil tickAt =>
    s.probeTurn w spec inst graceUntil tickAt
  | .failing inst kind => s.failTurn w inst kind
  | .claiming f => s.claimTurn w f
  | .throttled f wakeAt => s.throttleTurn w f wakeAt
  | .backoff r deadline => s.backoffTurn r deadline
  | .pausing r deadline => s.pauseTurn w r deadline
  | .locking r => s.lockTurn r
  | .lockWait r => s.lockWaitTurn w r
  | .locked r => s.lockedTurn w r
  | .rechecking spec r => s.recheckTurn w spec r
  | .reprobing r => s.reprobeTurn w r
  | .sweeping r => s.sweepTurn w r
  | .stopping r => s.stopTurn w r
  | .launching r => s.launchTurn r
  | .launched r => s.launchedTurn w r
  | .returned => s

end App

-- ====== the events

/-- What happens next. -/
inductive Event
  | turns (w : World)
  | passes (d : Nat)
  /-- `installSpec`. -/
  | reloads (spec : Option Spec)
  /-- A deploy or a recovery takes the deploy lock. -/
  | takesLock
  /-- A deploy promotes an instance, and ends, as every deploy does. -/
  | promotes (inst : Instance)
  | deployEnds
  /-- A recovery lets go of the lock, with an instance of its own or
  without. -/
  | recovers (installs : Option Instance)
  | cancels

def App.poke (s : App) : App := { s with poked := true }

def App.step (s : App) : Event → App
  | .turns w => s.turn w
  | .passes d => { s with now := s.now + d }
  | .reloads spec => App.poke { s with spec := spec }
  | .takesLock => if s.lock = none then { s with lock := some .other } else s
  | .promotes inst =>
    if s.lock = some .other then
      App.poke { s with
        current := some inst
        active := some inst
        wd := s.wd.reset }
    else s
  | .deployEnds =>
    if s.lock = some .other then
      App.poke { s with deploysEnded := s.deploysEnded + 1, lock := none }
    else s
  | .recovers installs =>
    if s.lock = some .other then
      App.poke (match installs with
        | none => { s with lock := none }
        | some inst =>
          { s with
            lock := none
            current := some inst
            active := some inst })
    else s
  | .cancels => { s with canceled := true }

def App.run (s : App) (events : List Event) : App := events.foldl App.step s

/-- A watchdog before its first turn. -/
def App.fresh (now : Int) (spec : Option Spec) (current : Option Instance) :
    App where
  now := now
  spec := spec
  current := current
  active := current
  deploysEnded := 0
  lock := none
  poked := false
  canceled := false
  wd := ⟨none, 0, [], 0, none, none, none, none⟩
  phase := .loop
  launches := []

end Hotserve.Liveswap.Watchdog
