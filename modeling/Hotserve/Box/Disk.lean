/-
The box as the applier sees it: the files it reads and writes, systemd,
and what each call of the transaction may do (box/durable.go,
box/envfiles.go, box/exchange.go, box/systemd.go).

# What a write may come to

`writeDurable` writes a temporary, renames it over the name and fsyncs
the directory. So a write has three ends (`Fate`): it succeeded; it
failed and nothing changed; or the rename landed and the fsync failed,
and the caller is told of a failure whose effect is on disk.
`unlinkDurable` and `removeDurable` have the same three. The temporaries
are not modelled: recovery never reads their bytes.

# What is remembered

Three fields are the model's own and no call answers from them: `log` is
what the run wrote, newest first, `reports` the results it reported, to
out/ or to the journal, and `reads` every read it made of the box's
files since txn.json was last written, those that failed included.
-/
import Hotserve.Effect.Safe
import Hotserve.Box.Record

namespace Hotserve.Box

open Bytes Effect

-- ====== the world

/-- What stands at a name. -/
inductive Slot
  | absent
  | file (data : Bytes)
  | link (target : Slot)
  | dir
  | special
  deriving DecidableEq

/-- What an open that follows links finds. -/
def Slot.resolve : Slot → Slot
  | .link target => target.resolve
  | s => s

/-- How a read of the Caddyfile or of applied.json fails. -/
inductive ReadErr
  | notExist
  | tooLarge
  | other (err : Bytes)
  deriving DecidableEq

/-- How a read of an env file fails. -/
inductive EnvErr
  | notRegular
  | tooLarge
  | other (err : Bytes)
  deriving DecidableEq

/-- `envFile`: an installed env file as read. -/
structure EnvFile where
  present : Bool
  regular : Bool
  data : Bytes
  deriving DecidableEq

/-- One read of a file of the box, with what it was answered. -/
inductive Sight
  | caddyfile (answer : Except ReadErr Bytes)
  | env (app : Bytes) (answer : Except EnvErr EnvFile)
  deriving DecidableEq

/-- What a run did. -/
inductive Event
  /-- A write or a removal of the Caddyfile or an env file, whatever its
  fate, by the transaction of this id. -/
  | fileWritten (id : Bytes)
  | recordWritten (r : Record)
  /-- A record that did not reach the disk, and what was there. -/
  | recordLost (r : Record) (old : Option Record)
  | recordRemoved
  /-- A write of applied.json, whatever its fate, by the transaction of
  this id, with the record on disk and the reads of this run since that
  was written. -/
  | baselineWritten (id : Bytes) (v : Applied) (record : Option Record)
      (reads : List Sight)
  deriving DecidableEq

structure World where
  caddyfile : Slot
  env : Bytes → Slot
  txn : Option Record
  applied : Option Applied
  out : Bytes → Option Result
  /-- The ids of the bundles in work/. -/
  work : List Bytes
  /-- `Applier.wrote`: the process's memory of the results it wrote. -/
  wrote : Bytes → Option Phase
  reads : List Sight
  log : List Event
  reports : List Result

-- ====== the calls

inductive Call
  /-- `readFile` of the Caddyfile, following a link. -/
  | readCaddyfile
  | readEnv (app : Bytes)
  /-- `writeDurable` of the Caddyfile by the transaction `id`. -/
  | writeCaddyfile (id data : Bytes)
  | writeEnvFile (id app data : Bytes)
  /-- `unlinkDurable` of an env file. -/
  | unlinkEnvFile (id app : Bytes)
  | readTxn
  | writeTxn (r : Record)
  | removeTxn
  | readApplied
  | writeAppliedFile (id : Bytes) (v : Applied)
  | readResult (id : Bytes)
  | writeResult (r : Result)
  | removeResult (id : Bytes)
  /-- `logOutcome`, for init, which writes no result. -/
  | logOutcome (r : Result)
  | wrote (id : Bytes)
  | listWork
  | removeEntry (id : Bytes)
  | reload
  /-- `running`: the last word is-active gave. -/
  | running
  /-- Retention's removals in out/. -/
  | sweep

/-- What each call is answered with; an `Option Bytes` is Go's error. -/
@[reducible] def Answer : Call → Type
  | .readCaddyfile => Except ReadErr Bytes
  | .readEnv _ => Except EnvErr EnvFile
  | .readTxn => Except Bytes (Option Record)
  | .readApplied => Except ReadErr Applied
  | .readResult _ => Except ReadErr Result
  | .wrote _ => Option Phase
  | .listWork => Except Bytes (List Bytes)
  | .running => Except Bytes Bytes
  | .logOutcome _ | .sweep => Unit
  | _ => Option Bytes

/-- A program of the applier. -/
abbrev Act := Prog Answer

/-- One call. -/
abbrev ask (e : Call) : Act (Answer e) := Prog.op e

-- ====== what calls do

/-- What the environment decides at one call. -/
inductive Fate
  | ok
  | fail (err : Bytes)
  | landed (err : Bytes)
  | word (state : Bytes)
  | drop (ids : List Bytes)

/-- The three ends of a write. -/
def Fate.write (c : Fate) (miss hit : World) : Option (Option Bytes × World) :=
  match c with
  | .ok => some (none, hit)
  | .fail e => some (some e, miss)
  | .landed e => some (some e, hit)
  | _ => none

/-- A read that works unless the environment says not. -/
def Fate.read {ε α : Type} (c : Fate) (err : Bytes → ε) (v : Except ε α)
    (w : World) : Option (Except ε α × World) :=
  match c with
  | .ok => some (v, w)
  | .fail e => some (.error (err e), w)
  | _ => none

namespace World

variable (w : World)

def note (e : Event) : World := { w with log := e :: w.log }

def see (s : Sight) : World := { w with reads := s :: w.reads }

def setCaddyfile (s : Slot) : World := { w with caddyfile := s }

def setEnv (app : Bytes) (s : Slot) : World :=
  { w with env := Function.update w.env app s }

/-- The result reaches its reader, whatever the file's fate: what cannot
be written is journaled. -/
def report (r : Result) : World :=
  { w with reports := r :: w.reports }

/-- A record on disk, in txn.json's place; the reads start over. -/
def setTxn (r : Record) : World :=
  { w with txn := some r, reads := [], log := .recordWritten r :: w.log }

def dropTxn : World :=
  { w with txn := none, reads := [], log := .recordRemoved :: w.log }

def setOut (id : Bytes) (r : Option Result) : World :=
  { w with out := Function.update w.out id r }

/-- The run's memory of a result it wrote; an ended push stays ended. -/
def remember (r : Result) : World :=
  { w with
    wrote :=
      if (w.wrote r.id).any Phase.terminal then w.wrote
      else Function.update w.wrote r.id (some r.phase) }

/-- `readFile` of the Caddyfile. -/
def caddyfileRead : Except ReadErr Bytes :=
  match w.caddyfile.resolve with
  | .absent => .error .notExist
  | .file d =>
    if d.length ≤ maxCaddyfile then .ok d else .error .tooLarge
  | _ => .error (.other (str "not a regular file"))

/-- `readEnv`: nothing, a link (never followed) or a regular file. -/
def envRead (app : Bytes) : Except EnvErr EnvFile :=
  match w.env app with
  | .absent => .ok ⟨false, false, []⟩
  | .link _ => .ok ⟨true, false, []⟩
  | .file d =>
    if d.length ≤ maxEnvRead then .ok ⟨true, true, d⟩ else .error .tooLarge
  | _ => .error .notRegular

end World

/-- Such a read of a file of the box, remembered with its answer. -/
def Fate.look {ε α : Type} (c : Fate) (err : Bytes → ε) (v : Except ε α)
    (sight : Except ε α → Sight) (w : World) : Option (Except ε α × World) :=
  (c.read err v w).map fun a => (a.1, a.2.see (sight a.1))

/-- A rename over a name, which a directory there refuses. -/
def renameOver (c : Fate) (old : Slot) (miss hit : World) :
    Option (Option Bytes × World) :=
  match old, c with
  | .dir, .fail e => some (some e, miss)
  | .dir, _ => none
  | _, c => c.write miss hit

/-- What one call does, by what the environment decides. -/
def apply : (e : Call) → Fate → World → Option (Answer e × World)
  | .readCaddyfile, c, w => c.look .other w.caddyfileRead .caddyfile w
  | .readEnv app, c, w => c.look .other (w.envRead app) (.env app) w
  | .writeCaddyfile id data, c, w =>
    let w := w.note (.fileWritten id)
    renameOver c w.caddyfile w (w.setCaddyfile (.file data))
  | .writeEnvFile id app data, c, w =>
    let w := w.note (.fileWritten id)
    renameOver c (w.env app) w (w.setEnv app (.file data))
  | .unlinkEnvFile id app, c, w =>
    let w := w.note (.fileWritten id)
    renameOver c (w.env app) w (w.setEnv app .absent)
  | .readTxn, c, w => c.read id (.ok w.txn) w
  | .writeTxn r, c, w => c.write (w.note (.recordLost r w.txn)) (w.setTxn r)
  | .removeTxn, c, w => c.write w w.dropTxn
  | .readApplied, c, w =>
    c.read .other
      (match w.applied with | some v => .ok v | none => .error .notExist) w
  | .writeAppliedFile id v, c, w =>
    let w := w.note (.baselineWritten id v w.txn w.reads)
    c.write w { w with applied := some v }
  | .readResult id, c, w =>
    c.read .other
      (match w.out id with | some r => .ok r | none => .error .notExist) w
  | .writeResult r, c, w =>
    let w := (w.report r).remember r
    c.write w (w.setOut r.id (some r))
  | .removeResult id, c, w => c.write w (w.setOut id none)
  | .logOutcome r, .ok, w => some ((), w.report r)
  | .logOutcome _, _, _ => none
  | .wrote id, .ok, w => some (w.wrote id, w)
  | .wrote _, _, _ => none
  | .listWork, c, w => c.read id (.ok w.work) w
  | .removeEntry id, c, w =>
    c.write w { w with work := w.work.filter (· != id) }
  | .reload, c, w => c.write w w
  | .running, .word s, w => some (.ok s, w)
  | .running, .fail e, w => some (.error e, w)
  | .running, _, _ => none
  | .sweep, .drop ids, w =>
    some ((), { w with out := fun i => if i ∈ ids then none else w.out i })
  | .sweep, _, _ => none

/-- The console's hand between two calls: the Caddyfile and the env
files, nothing else of the world. -/
def consoleEdit (w w' : World) : Prop :=
  ∃ c e, w' = { w with caddyfile := c, env := e }

/-- The box, with `env` what others do meanwhile. -/
def machine (env : World → World → Prop) : Sem Answer World where
  Choice := Fate
  apply := apply
  may := fun _ _ _ => True
  env := env

/-- The box with nobody at the console. -/
def quiet : Sem Answer World := machine fun _ _ => False

end Hotserve.Box
