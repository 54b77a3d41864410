/-
What the baseline is held to (I4 of the box's design), over runs of
either command with somebody at the console: every write of applied.json
is backed by the record on disk and by what was read since, and a
transaction whose baseline was written never writes a file again.
-/
import Hotserve.Box.Apply

namespace Hotserve.Box

open Bytes Effect

/-- A run of the applier or of init, with fresh memory; what is
remembered of reads starts over with it. -/
def command (h : Host) (w : World) (p : Act Unit) (w' : World) : Prop :=
  ((∃ jobs, p = Functor.discard (run h jobs)) ∨
      ∃ r file, p = Functor.discard (runInit h r file)) ∧
    w' = { w with wrote := fun _ => none, reads := [] }

/-- The box with somebody at the console, who may edit the Caddyfile and
the env files between any two calls. -/
def manned : Sem Answer World := machine consoleEdit

/-- Nothing written yet of a disk as it is found, a record that a crash
left included. -/
structure World.Fresh (w : World) : Prop where
  log : w.log = []

/-- One read found what a record's baseline says of that file: the
Caddyfile at its digest, and for the applier an env file that is listed
at the digest it is listed with. -/
def Sight.Bears (h : Host) (r : Record) : Sight → Prop
  | .caddyfile answer =>
    ∃ data, answer = .ok data ∧ h.digest data = r.baseline.sha256
  | .env app answer =>
    r.origin = .applier → ∀ d, (app, d) ∈ r.baseline.secrets.entries →
      ∃ e, answer = .ok e ∧ e.regular = true ∧ h.digest e.data = d

/-- A write of applied.json, by the transaction `id`, that the record on
disk and this run's reads since it was written bear out: each of them
found what is written, the Caddyfile was read, and for the applier every
env file that is listed. -/
def Backed (h : Host) (id : Bytes) (v : Applied) (record : Option Record)
    (reads : List Sight) : Prop :=
  ∃ r, record = some r ∧ r.id = id ∧
    (r.phase = .applied ∨ r.phase = .noChange) ∧ v = r.baseline ∧
    (∀ s ∈ reads, s.Bears h r) ∧ (∃ a, .caddyfile a ∈ reads) ∧
    (r.origin = .applier → ∀ p ∈ v.secrets.entries, ∃ a, .env p.1 a ∈ reads)

end Hotserve.Box
