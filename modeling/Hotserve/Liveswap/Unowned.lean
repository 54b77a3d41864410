/-
The start-time sweep of an app nobody owns (liveswap/sweep.go
`sweepUnknownApps`, `sweepUnowned`; liveswap/socket.go `ownerLock`,
`pruneSockets`) beside what an owner does with the app: a reload that
takes a pool reference and starts a recovery (liveswap/app.go
`ensureRunning`), and deploys (`deployLocked`).

One app, in atomic steps of the sweep, the recovery and the deploy that
may come in any order. A recovery takes the deploy lock and then the
app's owner lock; a deploy takes the deploy lock only; the sweep takes the
owner lock. An instance is its nonce, which names its unit, its run dir
and its pin. Units that fail and manager calls that fail are left out:
they make the sweep do less.
-/
import Mathlib.Data.List.Basic

namespace Hotserve.Liveswap.Unowned

abbrev Nonce := Nat

inductive Actor
  | recovery
  | deploy
  | sweep
  deriving DecidableEq

/-- `ensureRunning`. -/
inductive Recovery
  | absent
  /-- Started by a reload; it has not got the deploy lock. -/
  | waiting
  /-- With the deploy lock, at the owner lock. -/
  | blocked
  | inside
  | made (n : Nonce)
  | started (n : Nonce)
  deriving DecidableEq

/-- `deployLocked`, from the lock to the route. -/
inductive Deploy
  | absent
  | locked
  | made (n : Nonce)
  | started (n : Nonce)
  | pinned (n : Nonce)
  deriving DecidableEq

/-- `sweepUnowned`, after `sweepUnknownApps`'s own check. -/
inductive Sweep
  | absent
  /-- At the owner lock. -/
  | waiting
  | locked
  /-- `still` has said yes; at the listing. -/
  | checked
  /-- The units listed, those `still` was not asked about and those it
  has said yes to. -/
  | stopping (unchecked cleared : List Nonce)
  /-- The run dirs read, and then the pins, to be removed. -/
  | pruningRuns (left : List Nonce)
  | pruningPins (left : List Nonce)
  deriving DecidableEq

structure State where
  refs : Nat
  configured : Bool
  deployMu : Option Actor
  ownerMu : Option Actor
  units : List Nonce
  runs : List Nonce
  pins : List Nonce
  routed : Option Nonce
  recovery : Recovery
  deploy : Deploy
  sweep : Sweep
  vetoed : Bool
  next : Nonce
  /-- The instances a recovery or a deploy has launched or adopted. -/
  ours : List Nonce
  /-- Those of which the sweep has stopped or removed something. -/
  harmed : List Nonce
  deriving DecidableEq

variable (s : State)

/-- `appConfigured`. -/
def State.owned : Bool := s.refs != 0

inductive Event
  /-- A reload: `Provision`'s reference, `Start`'s install and its
  recovery. -/
  | takesRef
  | configures
  | startsRecovery
  | recoveryLocks
  | recoveryEnters
  | recoveryAdopts (n : Nonce)
  | recoveryMakes
  | recoveryStarts
  | recoveryRoutes
  | deployLocks
  | deployMakes
  | deployStarts
  | deployPins
  | deployRoutes
  | deployEnds
  | sweepLooks
  | sweepLocks
  | sweepChecks
  | sweepLists
  | sweepAsks (n : Nonce)
  | sweepStops (n : Nonce)
  | sweepVeto
  | sweepRemovesRun (n : Nonce)
  | sweepReadsPins
  | sweepRemovesPin (n : Nonce)
  | sweepUnlocks
  deriving DecidableEq

namespace State

/-- A step that is enabled, or none. -/
def when (enabled : Bool) (s : State) : Option State :=
  if enabled then some s else none

/-- A new instance: its run dir, under a fresh nonce. -/
def makes : State :=
  { s with
    runs := s.next :: s.runs
    ours := s.next :: s.ours
    next := s.next + 1 }

def starts (n : Nonce) : State := { s with units := n :: s.units }

def pinning (n : Nonce) : State := { s with pins := n :: s.pins }

/-- The sweep has taken something of `n`. -/
def takes (n : Nonce) : State :=
  { s with harmed := if n ∈ s.ours then n :: s.harmed else s.harmed }

/-- A recovery's end lets go of both locks. -/
def recovered : State :=
  { s with recovery := .absent, deployMu := none, ownerMu := none }

/-- `sweepUnowned` returns. -/
def swept : State := { s with sweep := .absent, ownerMu := none }

def reload : Event → Option State
  | .takesRef => some { s with refs := s.refs + 1 }
  | .configures => when s.owned { s with configured := true }
  | .startsRecovery =>
    when (s.configured && s.recovery == .absent)
      { s with recovery := .waiting }
  | _ => none

def recover : Event → Option State
  | .recoveryLocks =>
    when (s.recovery == .waiting && s.deployMu == none)
      { s with recovery := .blocked, deployMu := some .recovery }
  | .recoveryEnters =>
    when (s.recovery == .blocked && s.ownerMu == none)
      { s with recovery := .inside, ownerMu := some .recovery }
  | .recoveryAdopts n =>
    when (s.recovery == .inside && s.units.contains n) (recovered
      { s.pinning n with routed := some n, ours := n :: s.ours })
  | .recoveryMakes =>
    when (s.recovery == .inside) { s.makes with recovery := .made s.next }
  | .recoveryStarts =>
    match s.recovery with
    | .made n => some { s.starts n with recovery := .started n }
    | _ => none
  | .recoveryRoutes =>
    match s.recovery with
    | .started n => some (recovered { s.pinning n with routed := some n })
    | _ => none
  | _ => none

def deploying : Event → Option State
  | .deployLocks =>
    when (s.configured && s.deploy == .absent && s.deployMu == none)
      { s with deploy := .locked, deployMu := some .deploy }
  | .deployMakes =>
    when (s.deploy == .locked) { s.makes with deploy := .made s.next }
  | .deployStarts =>
    match s.deploy with
    | .made n => some { s.starts n with deploy := .started n }
    | _ => none
  | .deployPins =>
    match s.deploy with
    | .started n => some { s.pinning n with deploy := .pinned n }
    | _ => none
  | .deployRoutes =>
    match s.deploy with
    | .pinned n => some { s with routed := some n }
    | _ => none
  | .deployEnds =>
    when (s.deploy != .absent) { s with deploy := .absent, deployMu := none }
  | _ => none

def sweeping : Event → Option State
  | .sweepLooks =>
    when (s.sweep == .absent && !s.owned)
      { s with sweep := .waiting, vetoed := false }
  | .sweepLocks =>
    when (s.sweep == .waiting && s.ownerMu == none)
      { s with sweep := .locked, ownerMu := some .sweep }
  | .sweepChecks =>
    when (s.sweep == .locked)
      (if s.owned then s.swept else { s with sweep := .checked })
  | .sweepLists =>
    when (s.sweep == .checked) { s with sweep := .stopping s.units [] }
  | .sweepAsks n =>
    match s.sweep with
    | .stopping unchecked cleared =>
      when (unchecked.contains n)
        (if s.owned then
          { s with
            sweep := .stopping (unchecked.erase n) cleared
            vetoed := true }
        else
          { s with sweep := .stopping (unchecked.erase n) (n :: cleared) })
    | _ => none
  | .sweepStops n =>
    match s.sweep with
    | .stopping unchecked cleared =>
      when (cleared.contains n)
        { s.takes n with
          sweep := .stopping unchecked (cleared.erase n)
          units := s.units.erase n }
    | _ => none
  | .sweepVeto =>
    match s.sweep with
    | .stopping [] [] =>
      some (if s.vetoed then s.swept
        else { s with sweep := .pruningRuns s.runs })
    | _ => none
  | .sweepRemovesRun n =>
    match s.sweep with
    | .pruningRuns left =>
      when (left.contains n)
        { s.takes n with
          sweep := .pruningRuns (left.erase n)
          runs := s.runs.erase n }
    | _ => none
  | .sweepReadsPins =>
    match s.sweep with
    | .pruningRuns [] => some { s with sweep := .pruningPins s.pins }
    | _ => none
  | .sweepRemovesPin n =>
    match s.sweep with
    | .pruningPins left =>
      when (left.contains n)
        { s.takes n with
          sweep := .pruningPins (left.erase n)
          pins := s.pins.erase n }
    | _ => none
  | .sweepUnlocks =>
    match s.sweep with
    | .pruningPins [] => some s.swept
    | _ => none
  | _ => none

/-- The step an event is, where it is enabled. -/
def step (e : Event) : Option State :=
  ((s.reload e).or (s.recover e)).or ((s.deploying e).or (s.sweeping e))

/-- A run: every event enabled. -/
def run : State → List Event → Option State
  | s, [] => some s
  | s, e :: events => (s.step e).bind fun s' => s'.run events

/-- An app nobody owns, with what earlier instances have left. -/
def unowned (units runs pins : List Nonce) (next : Nonce) : State where
  refs := 0
  configured := false
  deployMu := none
  ownerMu := none
  units := units
  runs := runs
  pins := pins
  routed := none
  recovery := .absent
  deploy := .absent
  sweep := .absent
  vetoed := false
  next := next
  ours := []
  harmed := []

end State

end Hotserve.Liveswap.Unowned
