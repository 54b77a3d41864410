/-
Retention by itself (box/retention.go): one sweep over out/ and stage/
with whatever times their files carry, any of its removals and writes
failing, and a crash after any of them.

The exchange tree of `Exchange` reads one clock that never steps back.
Here a result's and a marker's times are what the files say, before or
after the clock, and each of them may fail to be read. A removal or a
write that fails may have been made all the same: the sync behind it is
what failed. (A crash that undoes one of those leaves what one that was
not made does.)
-/
import Hotserve.Box.Names
import Hotserve.Effect.Safe
import Hotserve.Table
import Mathlib.Algebra.Group.Int.Defs
import Mathlib.Data.List.Sort

namespace Hotserve.Box.Retention

open Effect (Prog Sem)

-- ====== times

/-- The zero `time.Time`, the first of January of year 1; times are in
nanoseconds since 1970. -/
def zeroTime : Int := -62135596800 * 1000000000

/-- `time.Time.Sub`, which saturates. -/
def sub (t u : Int) : Int := max (-(2 ^ 63)) (min (t - u) (2 ^ 63 - 1))

def keepIDs : Nat := 32
def keepAge : Int := 24 * 60 * 60 * 1000000000
def pendingAge : Int := 30 * 60 * 1000000000

/-- `minTime`. -/
def minTime (t u : Int) : Int := if t < u then t else u

-- ====== the files

/-- A marker's file: the posted time it reads as, and the file's own. -/
structure Marker where
  posted : Option Int
  modTime : Option Int

/-- out/'s results by id, with their modification times, and stage/'s
markers by id. -/
structure Shelves where
  out : Table Bytes (Option Int)
  stage : Table Bytes Marker

/-- What else a sweep reads: the clock, the bundles in in/ and work/, the
record's id, and the ids this run wrote. -/
structure Around where
  now : Int
  inbox : Bytes → Bool
  work : Bytes → Bool
  held : Option Bytes
  wrote : List Bytes
  /-- Whether out/ and stage/ can be listed. -/
  listsOut : Bool
  listsStage : Bool

-- ====== states

/-- `idState`: what the sweep knows of one id. -/
structure IdState where
  result : Bool := false
  marker : Bool := false
  key : Int := zeroTime
  written : Int := zeroTime
  stranded : Bool := false

/-- The ids of out/; a result whose time cannot be read counts as written
now. -/
def readOut (now : Int) (out : Table Bytes (Option Int)) :
    Table Bytes IdState :=
  out.mapValues fun _ t => { result := true, written := t.getD now }

/-- One marker. -/
def readMarker (ids : Table Bytes IdState) (id : Bytes) (m : Marker) :
    Table Bytes IdState :=
  let s := (ids.get id).getD {}
  ids.set id
    { s with marker := true, key := (m.posted <|> m.modTime).getD s.key }

/-- Every id in out/ or with a marker. -/
def readIds (now : Int) (w : Shelves) : Table Bytes IdState :=
  w.stage.entries.foldl (fun ids p => readMarker ids p.1 p.2)
    (readOut now w.out)

variable (r : Around)

/-- A result is aged by root's write, never past the clock; a marker
without one that is dated too far past it counts as the oldest. -/
def IdState.age (s : IdState) : IdState :=
  if s.result then { s with key := minTime s.written r.now }
  else if pendingAge < sub s.key r.now then { s with key := zeroTime }
  else s

/-- `stranded`. -/
def stranded (id : Bytes) (posted : Int) : Bool :=
  if some id = r.held ∨ r.inbox id = true ∨ r.work id = true then false
  else pendingAge ≤ sub r.now posted

/-- What the sweep may act on: a result, or a stranded marker. -/
def candidate (p : Bytes × IdState) : Option (Bytes × IdState) :=
  let s := p.2.age r
  if s.result then some (p.1, s)
  else if p.1 ∈ r.wrote ∨ stranded r p.1 s.key = false then none
  else some (p.1, { s with stranded := true })

/-- Newest first, ties broken by the id. -/
def newer (a b : Bytes × IdState) : Prop :=
  b.2.key < a.2.key ∨ a.2.key = b.2.key ∧ a.1 ≤ b.1

instance : DecidableRel newer := fun _ _ =>
  inferInstanceAs (Decidable (_ ∨ _))

/-- The candidates, in the order they are gone through. -/
def candidates (it : Iteration Bytes IdState) (w : Shelves) :
    List (Bytes × IdState) :=
  ((it.order (readIds r.now w).entries).filterMap (candidate r)).insertionSort
    newer

-- ====== the calls

inductive Call
  | removeMarker (id : Bytes)
  | removeResult (id : Bytes)
  | writeResult (id : Bytes)

/-- Whether it succeeded. -/
abbrev Act := Prog (fun _ : Call => Bool)

abbrev ask (e : Call) : Act Bool := Prog.op e

/-- How a call ends: done, made but not synced, or not made. -/
inductive Fate
  | done
  | unsynced
  | failed
  deriving DecidableEq

def Call.effect (now : Int) (w : Shelves) : Call → Shelves
  | .removeMarker id => { w with stage := w.stage.delete id }
  | .removeResult id => { w with out := w.out.delete id }
  | .writeResult id => { w with out := w.out.set id (some now) }

/-- The disk under a sweep: any call may fail, either way. -/
def disk : Sem (fun _ : Call => Bool) Shelves where
  Choice := Fate
  apply := fun e c w =>
    match c with
    | .done => some (true, e.effect r.now w)
    | .unsynced => some (false, e.effect r.now w)
    | .failed => some (false, w)
  may := fun _ _ _ => True
  env := fun _ _ => False

-- ====== the sweep

/-- The `n`th candidate stays. -/
def keep (n : Nat) (p : Bytes × IdState) : Bool :=
  decide (p.1 ∈ r.wrote) ||
    (decide (n < keepIDs) && decide (sub r.now p.2.key < keepAge))

/-- What is done with the `n`th candidate. -/
def sweepOne (n : Nat) (p : Bytes × IdState) : Act Unit :=
  if keep r n p then
    if p.2.stranded then do
      -- a failure is in the journal
      let _ ← ask (.writeResult p.1)
      return ()
    else return ()
  else do
    let unmark : Act Bool :=
      if p.2.marker then ask (.removeMarker p.1) else pure true
    -- a marker never outlives its result
    if (← unmark) && p.2.result then
      let _ ← ask (.removeResult p.1)
      return ()
    else return ()

def sweepEach : Nat → List (Bytes × IdState) → Act Unit
  | _, [] => return ()
  | n, p :: ps => do
    sweepOne r n p
    sweepEach (n + 1) ps

/-- `Applier.sweep`. -/
def sweep (it : Iteration Bytes IdState) (w : Shelves) : Act Unit :=
  if !r.listsOut || !r.listsStage then return ()
  else sweepEach r 0 (candidates r it w)

end Hotserve.Box.Retention
