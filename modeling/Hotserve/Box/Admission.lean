/-
A push's admission (box/admission.go: `admit`, `known`, `pending`,
`drop`, `writeMarker`) and the applier's run over the exchange tree
(box/apply.go: `recoverAll`, `take`, `process`; box/txn.go: `finish`,
`recoverRecord`; box/retention.go: `sweep`, `stranded`).

Every write succeeds here. What the checks come to is the environment's
to decide, on both sides; what is modelled is which files are read and
written, in which order.
-/
import Hotserve.Box.Exchange
import Mathlib.Data.List.Sort

namespace Hotserve.Box.Exchange

-- ====== a handler

variable (wrote : Wrote) (id : Bytes)

/-- `known`: the marker, the bundle or the result of this id is there. -/
def known : Act Bool := do
  if ← ask (.hasMarker id) then return true
  else if ← ask (.hasBundle id) then return true
  else ask (.hasResult id)

/-- Whether a result is there and ends the push. -/
def answered : Act Bool := do
  let phase ← ask (.readResult id)
  return phase.any Phase.terminal

/-- A marker that blocks nothing: at least `pendingAge` old, or dated
further ahead of the clock than that. -/
def expired (now posted : Nat) : Bool :=
  decide (posted + pendingAge ≤ now) || decide (now + pendingAge < posted)

/-- Whether a marker, as it was read, blocks admission. -/
def blocks (now : Nat) (id : Bytes) : Option Nat → Act Bool
  | none => return false
  | some posted =>
    if expired now posted then return false
    else return !(← answered id)

/-- The markers of `pending`'s loop: the first that is younger than
`pendingAge` and has no terminal result. -/
def pendingMarker (now : Nat) : List Bytes → Act (Option Bytes)
  | [] => return none
  | id :: ids => do
    let posted ← ask (.readMarker id)
    if ← blocks now id posted then return some id
    else pendingMarker now ids

/-- `pending`: the push that blocks admission. -/
def pending : Act (Option Bytes) := do
  let now ← ask .now
  match ← ask .listIn with
  | id :: _ => return some id
  | [] =>
    let ids ← ask .listStage
    pendingMarker now ids

/-- `drop`: the bundle, then the marker. -/
def drop : Act Unit := do
  ask (.dropBundle id)
  let posted ← ask .now
  ask (.writeMarker id posted)

/-- `admit`, from the lock on. -/
def admitHeld : Act Unit := do
  if ← known id then return ()
  else
    match ← pending with
    | some _ => return ()
    | none =>
      if ← ask .judge then drop id
      else return ()

/-- `admit`. -/
def admitPush : Act Unit := do
  if ← ask .lockAdmission then return ()
  else
    admitHeld id
    ask .unlock

-- ====== the applier

/-- `a.wrote`: the ids this run wrote a result of, the last write first. -/
abbrev Wrote := List (Bytes × Phase)

/-- The phase is kept from the first terminal one on. -/
def Wrote.add (phase : Phase) : Wrote :=
  if (wrote.lookup id).any Phase.terminal then wrote else (id, phase) :: wrote

/-- `settled`. -/
def settled : Act Bool := do
  if (wrote.lookup id).any Phase.terminal then return true
  else answered id

/-- `finish`: the result, then the record, then the entry. -/
def finish (phase : Ending)
    (recorded entry : Bool) : Act Wrote := do
  ask (.writeResult id phase)
  let unrecord : Act Unit := if recorded then ask .removeRecord else pure ()
  unrecord
  let remove : Act Unit := if entry then ask (.removeEntry id) else pure ()
  remove
  return wrote.add id phase

/-- A phase this side writes itself. -/
def failed : Ending := ⟨.failed, rfl⟩

/-- `removeVerified`. -/
def removeVerified : Act Unit := do
  match ← ask (.readResult id) with
  | some .verified => ask (.removeResult id)
  | _ => return ()

/-- `recoverRecord`: none when it cannot be settled. -/
def recoverRecord : Act (Option Wrote) := do
  if ← settled wrote id then
    ask .removeRecord
    ask (.removeEntry id)
    return some wrote
  else
    match ← ask (.settle id) with
    | none => return none
    | some phase =>
      let wrote ← finish wrote id phase true true
      return some wrote

/-- The entries of work/ with no record behind them. -/
def recoverEntries (wrote : Wrote) : List Bytes → Act Wrote
  | [] => return wrote
  | id :: ids => do
    if ← settled wrote id then
      ask (.removeEntry id)
      recoverEntries wrote ids
    else
      let wrote ← finish wrote id failed false true
      removeVerified id
      recoverEntries wrote ids

/-- The record a crash left, if any. -/
def recoverTxn : Act (Option Wrote) := do
  match ← ask .readRecord with
  | none => return some []
  | some id => recoverRecord [] id

/-- `recoverAll`. -/
def recoverAll : Act (Option Wrote) := do
  match ← recoverTxn with
  | none => return none
  | some wrote =>
    let ids ← ask .listWork
    let wrote ← recoverEntries wrote ids
    return some wrote

/-- The renames of `take`, and the bundles it keeps. -/
def takeEach (wrote : Wrote) : List Bytes → Act (List Bytes)
  | [] => return []
  | id :: ids => do
    ask (.takeOne id)
    if ← settled wrote id then
      ask (.removeEntry id)
      takeEach wrote ids
    else
      let rest ← takeEach wrote ids
      return id :: rest

/-- Each id with its marker's time. -/
def readMarkers : List Bytes → Act (List (Bytes × Option Nat))
  | [] => return []
  | id :: ids => do
    let posted ← ask (.readMarker id)
    let rest ← readMarkers ids
    return (id, posted) :: rest

/-- By their markers' time, unmarked last. -/
def postedBefore (a b : Bytes × Option Nat) : Prop :=
  match a.2, b.2 with
  | some s, some t => s ≤ t
  | none, some _ => False
  | _, none => True

instance : DecidableRel postedBefore := fun a b => by
  unfold postedBefore
  split <;> infer_instance

/-- `take`: the ids of the bundles to process. -/
def take : Act (List Bytes) := do
  let ids ← ask .listIn
  let kept ← takeEach wrote ids
  let marked ← readMarkers kept
  return (marked.insertionSort postedBefore).map Prod.fst

/-- The `verified` result of a transaction that changes anything. -/
def verify (changes : Bool) : Act Wrote := do
  if changes then
    ask (.writeResult id .verified)
    return wrote.add id .verified
  else return wrote

/-- `install`: `verified`, or with nothing to change no result yet; the
record; and the end if it comes to one. -/
def install (changes recorded : Bool)
    (phase : Option Ending) : Act (Option Wrote) := do
  let wrote ← verify wrote id changes
  let note : Act Unit := if recorded then ask (.writeRecord id) else pure ()
  note
  match phase with
  | none => return none
  | some phase =>
    let wrote ← finish wrote id phase recorded true
    return some wrote

/-- `process`, as far as it touches the tree; none when the run must
stop. -/
def process : Act (Option Wrote) := do
  match ← ask (.plan id) with
  | .ends phase =>
    let wrote ← finish wrote id phase false true
    return some wrote
  | .installs changes recorded phase =>
    install wrote id changes recorded phase

/-- Each bundle in turn. -/
def processEach (wrote : Wrote) : List Bytes → Act (Option Wrote)
  | [] => return some wrote
  | id :: ids => do
    match ← process wrote id with
    | none => return none
    | some wrote => processEach wrote ids

-- ====== Retention

/-- What the sweep knows of one id. `key` is its age's start; none is
the zero time. -/
structure IdState where
  id : Bytes
  result : Bool
  marker : Bool
  key : Option Nat
  deriving DecidableEq

/-- Every id in out/ or with a marker. A result's age is its write's,
never past the clock; a marker dated further ahead than `pendingAge`
counts as the oldest. -/
def idStates (now : Nat) (out : List (Bytes × Nat))
    (markers : List (Bytes × Option Nat)) : List IdState :=
  (out.map fun r => ⟨r.1, true, decide (r.1 ∈ markers.map Prod.fst),
      some (min r.2 now)⟩) ++
    (markers.filter fun m => decide (m.1 ∉ out.map Prod.fst)).map fun m =>
      ⟨m.1, false, true, m.2.filter fun posted => posted ≤ now + pendingAge⟩

/-- At least `pendingAge` old. -/
def aged (now : Nat) : Option Nat → Bool
  | none => true
  | some posted => decide (posted + pendingAge ≤ now)

/-- `stranded`: nothing in in/ or work/ and no record. -/
def stranded (now : Nat) (held : Option Bytes) (s : IdState) : Act Bool := do
  if held = some s.id then return false
  else if ← ask (.hasBundle s.id) then return false
  else if ← ask (.hasWork s.id) then return false
  else return aged now s.key

/-- The ids a sweep may act on: those with a result, and the stranded. -/
def candidates (wrote : Wrote) (now : Nat) (held : Option Bytes) :
    List IdState → Act (List IdState)
  | [] => return []
  | s :: states => do
    let takes : Act Bool :=
      if s.result then pure true
      else if (wrote.lookup s.id).isSome then pure false
      else stranded now held s
    if ← takes then
      let rest ← candidates wrote now held states
      return s :: rest
    else candidates wrote now held states

/-- Newest first, ties broken by the id. -/
def newer (a b : IdState) : Prop :=
  match a.key, b.key with
  | some s, some t => t < s ∨ s = t ∧ a.id ≤ b.id
  | some _, none => True
  | none, some _ => False
  | none, none => a.id ≤ b.id

instance : DecidableRel newer := fun a b => by
  unfold newer
  split <;> infer_instance

/-- Among the `keepIDs` newest and younger than `keepAge`. -/
def keeps (now n : Nat) : Option Nat → Bool
  | none => false
  | some key => decide (n < keepIDs ∧ now < key + keepAge)

/-- The sweep's last loop, from the `n`th candidate on. -/
def sweepEach (wrote : Wrote) (now : Nat) : Nat → List IdState → Act Unit
  | _, [] => return ()
  | n, s :: states => do
    if (wrote.lookup s.id).isSome || keeps now n s.key then
      if s.result then sweepEach wrote now (n + 1) states
      else
        let wrote ← finish wrote s.id failed false false
        sweepEach wrote now (n + 1) states
    else
      let unmark : Act Unit :=
        if s.marker then ask (.removeMarker s.id) else pure ()
      unmark
      let unfile : Act Unit :=
        if s.result then ask (.removeResult s.id) else pure ()
      unfile
      sweepEach wrote now (n + 1) states

/-- `sweep`. -/
def sweep : Act Unit := do
  let now ← ask .now
  let out ← ask .listOut
  let ids ← ask .listStage
  let markers ← readMarkers ids
  let held ← ask .readRecord
  let states ← candidates wrote now held (idStates now out markers)
  sweepEach wrote now 0 (states.insertionSort newer)

/-- `run`, under root's lock. -/
def run : Act Unit := do
  match ← recoverAll with
  | none => return ()
  | some wrote =>
    let ids ← take wrote
    match ← processEach wrote ids with
    | none => return ()
    | some wrote => sweep wrote

-- ====== the system

/-- Any handler takes any request, and root is started whenever it is not
running. -/
def begins : Thread → Tree → Act Unit → Tree → Prop
  | .handler _, w, p, w' => (∃ id, p = admitPush id) ∧ w' = w
  | .applier, w, p, w' => p = run ∧ w' = w

/-- Nobody has come yet. -/
def idle (clock : Nat) : Effect.Pool Thread Call.Answer Unit Tree :=
  ⟨fun _ => none, Tree.fresh clock⟩

end Hotserve.Box.Exchange
