/-
A reload of liveswap's config (liveswap/liveswap.go `Provision`, `Start`,
`Cleanup`; liveswap/app.go `installSpec`, `rollbackConfig`, `Destruct`)
under Caddy's lifecycle: config changes come one at a time, a candidate is
provisioned and started or not, an accepted one becomes the serving config
and the old one is cleaned up, a rejected one is cleaned up itself.

# The pool

The pooled apps outlive a config. The pool has at most one app of a name
at a time; `gen` tells it from those of that name before it, so that a
config's `managed` holds the app it was given. What a name's app is, with
the pool's reference count and the apps destructed, is the name's `Cell`:
`Provision`, `Start` and `Cleanup` visit the cells of the names a config
has, in any order, since each visit is of one cell.

The parts of a definition are of any types (`Kinds`): a spec, the
verifiers, a logger and the state path a spec names.
-/
import Mathlib.Logic.Function.Basic
import Mathlib.Data.List.Nodup

namespace Hotserve.Liveswap.Reload

/-- What configs are made of, and the state path a spec names. -/
structure Kinds where
  Name : Type
  Spec : Type
  Verifiers : Type
  Logger : Type
  Path : Type
  state : Spec → Path

/-- `appConfigState`. -/
structure Definition (K : Kinds) where
  spec : K.Spec
  verifiers : K.Verifiers
  logger : K.Logger
  store : K.Path

section Model

variable {K : Kinds}

/-- What a config installs on a `managedApp`, and its runner's logger once
it has a runner. A config is known by its number. -/
structure Managed (K : Kinds) where
  current : Option (Definition K)
  runner : Option K.Logger
  configuredBy : Option Nat
  prev : Option (Definition K)

namespace Managed

/-- `newManagedApp`. -/
def fresh : Managed K := ⟨none, none, none, none⟩

def installSpec (m : Managed K) (owner : Nat) (d : Definition K) :
    Managed K where
  current := some d
  runner := some d.logger
  configuredBy := some owner
  prev := m.current.or m.prev

/-- `rollbackConfig`: the definition the owner replaced, if the owner's is
still the one installed. -/
def rollbackConfig (m : Managed K) (owner : Nat) : Managed K :=
  if m.configuredBy = some owner then
    match m.prev with
    | none => m
    | some p =>
      { current := some p
        runner := m.runner.map fun _ => p.logger
        configuredBy := none
        prev := none }
  else m

end Managed

/-- A name's place in the pool. -/
structure Slot where
  refs : Nat
  gen : Nat
  deriving DecidableEq

/-- A `Destruct`: of which app, and whether it stopped the app's units. -/
structure Destruction where
  gen : Nat
  stops : Bool
  deriving DecidableEq

/-- One name in the pool: its slot, its apps so far, and those that were
destructed. -/
structure Cell (K : Kinds) where
  slot : Option Slot
  apps : Nat → Managed K
  made : Nat
  destructed : List Destruction

namespace Cell

def fresh : Cell K := ⟨none, fun _ => .fresh, 0, []⟩

/-- `appPool.LoadOrStore`: the app that is the name's from now on. -/
def loadOrStore (c : Cell K) : Nat × Cell K :=
  match c.slot with
  | some slot => (slot.gen, { c with slot := some ⟨slot.refs + 1, slot.gen⟩ })
  | none =>
    (c.made, { c with
      slot := some ⟨1, c.made⟩
      apps := Function.update c.apps c.made .fresh
      made := c.made + 1 })

/-- A change to one of the name's apps. -/
def modify (c : Cell K) (gen : Nat) (f : Managed K → Managed K) : Cell K :=
  { c with apps := Function.update c.apps gen (f (c.apps gen)) }

/-- `appPool.References`, where the name is pooled. -/
def refs (c : Cell K) : Nat :=
  match c.slot with
  | none => 0
  | some slot => slot.refs

/-- `appPool.Delete`: the last reference gone, the app is destructed.
`live` says that a started config is left to serve. -/
def delete (c : Cell K) (live : Bool) : Cell K :=
  match c.slot with
  | none => c
  | some slot =>
    if slot.refs ≤ 1 then
      { c with
        slot := none
        destructed := ⟨slot.gen, live && (c.apps slot.gen).runner.isSome⟩ ::
          c.destructed }
    else { c with slot := some ⟨slot.refs - 1, slot.gen⟩ }

end Cell

/-- A config as it is loaded: the apps it names and what it says of
them. -/
structure Candidate (K : Kinds) where
  names : List K.Name
  nodup : names.Nodup
  spec : K.Name → K.Spec
  verifiers : K.Name → K.Verifiers
  logger : K.Name → K.Logger

/-- What the config installs on an app. -/
def Candidate.definition (cand : Candidate K) (name : K.Name) :
    Definition K where
  spec := cand.spec name
  verifiers := cand.verifiers name
  logger := cand.logger name
  store := K.state (cand.spec name)

/-- `App`: a provisioned config. -/
structure Config (K : Kinds) where
  number : Nat
  cand : Candidate K
  managed : K.Name → Nat
  started : Bool

/-- The process: the pool, `liveStartedApps`, the config that serves and
how many there have been. -/
structure World (K : Kinds) where
  cells : K.Name → Cell K
  live : Nat
  serving : Option (Config K)
  loaded : Nat

namespace World

variable [DecidableEq K.Name]

def fresh : World K :=
  ⟨fun _ => .fresh, 0, none, 0⟩

/-- A loop over the apps a config names. -/
def each (names : List K.Name) (f : K.Name → Cell K → Cell K)
    (cells : K.Name → Cell K) : K.Name → Cell K :=
  names.foldl (fun cs name => Function.update cs name (f name (cs name))) cells

/-- `Provision`'s pool references. -/
def provision (w : World K) (cand : Candidate K) : Config K × World K :=
  (⟨w.loaded, cand, fun name => (w.cells name).loadOrStore.1, false⟩,
    { w with
      cells := each cand.names (fun _ c => c.loadOrStore.2) w.cells
      loaded := w.loaded + 1 })

/-- `Start`. -/
def start (w : World K) (cfg : Config K) : Config K × World K :=
  ({ cfg with started := true },
    { w with
      cells := each cfg.cand.names (fun name c =>
        c.modify (cfg.managed name) fun m =>
          m.installSpec cfg.number (cfg.cand.definition name)) w.cells
      live := w.live + 1 })

/-- `Cleanup`'s rollback of a started config. -/
def rollback (w : World K) (cfg : Config K) : World K :=
  if cfg.started then
    { w with
      cells := each cfg.cand.names (fun name c =>
        if 1 < c.refs then
          c.modify (cfg.managed name) fun m => m.rollbackConfig cfg.number
        else c) w.cells
      live := w.live - 1 }
  else w

/-- `Cleanup`. -/
def cleanup (w : World K) (cfg : Config K) : World K :=
  let w := w.rollback cfg
  { w with
    cells := each cfg.cand.names (fun _ c => c.delete (w.live != 0)) w.cells }

end World

/-- What becomes of a candidate. -/
inductive Outcome
  | accepted
  | rejectedBeforeStart
  | rejectedAfterStart
  deriving DecidableEq

/-- One config change. -/
structure Change (K : Kinds) where
  cand : Candidate K
  outcome : Outcome

variable [DecidableEq K.Name]

def World.change (w : World K) (ch : Change K) : World K :=
  let p := w.provision ch.cand
  match ch.outcome with
  | .rejectedBeforeStart => p.2.cleanup p.1
  | .rejectedAfterStart =>
    let s := p.2.start p.1
    s.2.cleanup s.1
  | .accepted =>
    let s := p.2.start p.1
    let w' := { s.2 with serving := some s.1 }
    match w.serving with
    | none => w'
    | some old => w'.cleanup old

def World.run (changes : List (Change K)) : World K :=
  changes.foldl World.change .fresh

end Model

end Hotserve.Liveswap.Reload
