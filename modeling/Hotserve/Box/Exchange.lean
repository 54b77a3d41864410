/-
The exchange tree the webhook's handlers and root's applier share
(box/exchange.go): in/, work/, stage/ and out/, one atomic step at a time.

# The tree

in/ and work/ hold bundles by their request ids, stage/ the markers with
the time each was posted, out/ the results with their phase and the time
root wrote them; txn.json holds the id of a transaction under way. The
admission lock is a flock, so it knows its holder. One clock is read by
both sides and never steps back.

# The ledger

Beside what is on disk the world keeps every bundle that was dropped,
the newest first: what its marker says, once it is written, and whether
Retention has since swept a terminal result of its id. Nothing reads it
but the statements.
-/
import Hotserve.Box.Record
import Hotserve.Effect.Pool
import Mathlib.Data.List.AList

namespace Hotserve.Box.Exchange

open Effect (Prog Shared)

/-- A handler's request, or root's one applier: its own lock lets no two
run at once. -/
inductive Thread
  | handler (n : Nat)
  | applier
  deriving DecidableEq

/-- A terminal phase. -/
abbrev Ending := { p : Phase // p.terminal = true }

/-- A result: its phase, and its modification time. -/
structure Filed where
  phase : Phase
  written : Nat
  deriving DecidableEq

/-- A bundle that was dropped. -/
structure Push where
  id : Bytes
  posted : Option Nat
  swept : Bool
  deriving DecidableEq

structure Tree where
  inbox : List Bytes
  work : List Bytes
  stage : AList fun _ : Bytes => Nat
  out : AList fun _ : Bytes => Filed
  record : Option Bytes
  lock : Option Thread
  clock : Nat
  ledger : List Push

/-- An exchange tree as it is first made. -/
def Tree.fresh (clock : Nat) : Tree :=
  ⟨[], [], ∅, ∅, none, none, clock, []⟩

/-- `pendingAge`, in nanoseconds. -/
def pendingAge : Nat := 30 * 60 * 1000000000

/-- `keepAge`, in nanoseconds. -/
def keepAge : Nat := 24 * 60 * 60 * 1000000000

def keepIDs : Nat := 32

-- ====== the calls

/-- What root's checks and transaction make of a bundle: it ends without
a record, or it comes to a transaction. That one is `verified` first if
it changes anything, has its record or not, and then ends or is left
unsettled. -/
inductive Plan
  | ends (phase : Ending)
  | installs (changes recorded : Bool) (phase : Option Ending)

/-- One step of a handler or of root. -/
inductive Call
  | lockAdmission
  | unlock
  | now
  | hasMarker (id : Bytes)
  | hasBundle (id : Bytes)
  | hasWork (id : Bytes)
  | hasResult (id : Bytes)
  | listIn
  | listWork
  | listStage
  | listOut
  | readMarker (id : Bytes)
  | readResult (id : Bytes)
  | readRecord
  | judge
  | plan (id : Bytes)
  | settle (id : Bytes)
  | dropBundle (id : Bytes)
  | writeMarker (id : Bytes) (posted : Nat)
  | takeOne (id : Bytes)
  | writeResult (id : Bytes) (phase : Phase)
  | writeRecord (id : Bytes)
  | removeRecord
  | removeEntry (id : Bytes)
  | removeMarker (id : Bytes)
  | removeResult (id : Bytes)

/-- The lock answers whether another holds it; a file that is not there
reads as none. -/
abbrev Call.Answer : Call → Type
  | .lockAdmission | .hasMarker _ | .hasBundle _ | .hasWork _
  | .hasResult _ | .judge => Bool
  | .now => Nat
  | .listIn | .listWork | .listStage => List Bytes
  | .listOut => List (Bytes × Nat)
  | .readMarker _ => Option Nat
  | .readResult _ => Option Phase
  | .readRecord => Option Bytes
  | .plan _ => Plan
  | .settle _ => Option Ending
  | _ => Unit

abbrev Act := Prog Call.Answer

/-- One step, its answer the result. -/
abbrev ask (e : Call) : Act e.Answer := Prog.op e

/-- What is decided elsewhere: whether a push passes the handler's checks,
what root's come to, and how a record a crash left is settled. -/
structure Fate where
  accepted : Bool
  plan : Plan
  settled : Option Ending

variable (w : Tree) (id : Bytes)

/-- A push's marker is written. -/
def Push.mark (posted : Nat) (p : Push) : Push :=
  if p.id = id ∧ p.posted = none then { p with posted := some posted } else p

/-- A result of `id` is swept; if it was terminal, the push had one. -/
def Push.sweep (terminal : Bool) (p : Push) : Push :=
  if p.id = id ∧ terminal = true then { p with swept := true } else p

namespace Tree

/-- out/<id>.json is there and ends the push. -/
def terminal : Bool :=
  (w.out.lookup id).any (·.phase.terminal)

def drop : Tree :=
  { w with inbox := id :: w.inbox, ledger := ⟨id, none, false⟩ :: w.ledger }

def mark (posted : Nat) : Tree :=
  { w with
    stage := w.stage.insert id posted
    ledger := w.ledger.map (Push.mark id posted) }

def take : Tree :=
  { w with inbox := w.inbox.erase id, work := id :: w.work }

def file (phase : Phase) : Tree :=
  { w with out := w.out.insert id ⟨phase, w.clock⟩ }

def unfile : Tree :=
  { w with
    out := w.out.erase id
    ledger := w.ledger.map (Push.sweep id (w.terminal id)) }

end Tree

/-- What one step of a thread does. -/
def apply (t : Thread) (e : Call) (c : Fate) (w : Tree) :
    Option (e.Answer × Tree) :=
  match e with
  | .lockAdmission =>
    if w.lock = none then some (false, { w with lock := some t })
    else some (true, w)
  | .unlock => some ((), { w with lock := none })
  | .now => some (w.clock, w)
  | .hasMarker id => some ((w.stage.lookup id).isSome, w)
  | .hasBundle id => some (decide (id ∈ w.inbox), w)
  | .hasWork id => some (decide (id ∈ w.work), w)
  | .hasResult id => some ((w.out.lookup id).isSome, w)
  | .listIn => some (w.inbox, w)
  | .listWork => some (w.work, w)
  | .listStage => some (w.stage.keys, w)
  | .listOut => some (w.out.entries.map fun e => (e.1, e.2.written), w)
  | .readMarker id => some (w.stage.lookup id, w)
  | .readResult id => some ((w.out.lookup id).map Filed.phase, w)
  | .readRecord => some (w.record, w)
  | .judge => some (c.accepted, w)
  | .plan _ => some (c.plan, w)
  | .settle _ => some (c.settled, w)
  | .dropBundle id => some ((), w.drop id)
  | .writeMarker id posted => some ((), w.mark id posted)
  | .takeOne id => if id ∈ w.inbox then some ((), w.take id) else none
  | .writeResult id phase => some ((), w.file id phase)
  | .writeRecord id => some ((), { w with record := some id })
  | .removeRecord => some ((), { w with record := none })
  | .removeEntry id => some ((), { w with work := w.work.erase id })
  | .removeMarker id => some ((), { w with stage := w.stage.erase id })
  | .removeResult id => some ((), w.unfile id)

/-- The tree as the threads share it. Root's run may be cut at any point;
the clock only goes on. -/
def exchange : Shared Thread Call.Answer Tree where
  Choice := Fate
  apply := apply
  lost t w w' := t = .applier ∧ w' = w
  env w w' := ∃ n, w' = { w with clock := w.clock + n }

end Hotserve.Box.Exchange
