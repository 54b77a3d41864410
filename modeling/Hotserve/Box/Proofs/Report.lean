/-
The ends of a transaction: what a record's write, a report and the
record's removal do to the invariant, and from that the programs every
end is made of (`finish`, `changed`) and the reads every decision is
made on (`state`, `states`).
-/
import Hotserve.Box.Proofs.Calls
import Hotserve.Box.Proofs.Moves

namespace Hotserve.Box

open Bytes Effect

variable {h : Host} {b : Record} {w : World}

-- ====== the record's steps

theorem World.Tainted.cons (ht : w.Tainted) {w' : World} {ev : Event}
    (hlog : w'.log = ev :: w.log) : w'.Tainted :=
  ht.of_log fun _ hmem => hlog ▸ .tail _ hmem

/-- A record of the transaction reaches the disk, at a phase the files
bear out. -/
theorem Inv.setTxn {r : Record} (hI : Inv h b w) (hv : r.valid h = .ok ())
    (hown : b.OwnedBy r) (hnc : r.phase = .noChange → AllPrev h b w)
    (hap : r.phase = .applied → AllNew h b w ∧ ¬w.Ended)
    (hop : r.phase.opened = true → w.Tainted ∨ (w.Ended → AllPrev h b w)) :
    Inv h b (w.setTxn r) where
  known := hI.known
  dangling := fun hset => ⟨(hI.dangling hset).prev, (hI.dangling hset).new⟩
  own := by
    rintro r' ⟨⟩
    exact ⟨hv, hown⟩
  listed := hI.listed
  ledger := by
    rcases hI.ledger with ht | hL
    · exact .inl (ht.cons rfl)
    by_cases ht : w.Tainted
    · exact .inl (ht.cons rfl)
    right
    refine ⟨hL.reverted, ?_, ?_, ?_, ?_⟩
    · intro hnone
      cases hnone
    · rintro r' ⟨⟩ hp
      exact hnc hp
    · rintro r' ⟨⟩ hp
      exact ⟨(hap hp).1, fun hend => absurd hend (hap hp).2⟩
    · rintro r' ⟨⟩ hp
      exact (hop hp).resolve_left ht

/-- What the files are when a result may be reported: all back, or all
new under an applied record with a result that says so. -/
def Settles (h : Host) (b : Record) (w : World) (res : Result) : Prop :=
  w.Tainted ∨ AllPrev h b w ∨
    AllNew h b w ∧ res.advanced b ∧ ∃ r, w.txn = some r ∧ r.phase = .applied

variable {res : Result}

theorem Result.advanced.not_reverted (ha : res.advanced b) : ¬res.reverted := by
  rintro (hr | hr) <;> rcases ha with ha | ⟨ha, -⟩ <;>
    rw [hr] at ha <;> cases ha

theorem World.Reported.cons {p : Result → Prop}
    (hr : w.Reported p) : (w.report res).Reported p := by
  obtain ⟨x, hmem, hx⟩ := hr
  exact ⟨x, .tail _ hmem, hx⟩

theorem World.reported_cons {p : Result → Prop}
    (hr : (w.report res).Reported p) : p res ∨ w.Reported p := by
  obtain ⟨x, hmem, hx⟩ := hr
  rcases List.mem_cons.mp hmem with rfl | hmem
  · exact .inl hx
  · exact .inr ⟨x, hmem, hx⟩

theorem Inv.report (hI : Inv h b w)
    (hs : res.phase.terminal = true → Settles h b w res) :
    Inv h b (w.report res) :=
  { hI with
    dangling := fun hset => ⟨(hI.dangling hset).prev, (hI.dangling hset).new⟩
    ledger := by
      rcases hI.ledger with ht | hL
      · exact .inl ht
      by_cases ht : w.Tainted
      · exact .inl ht
      right
      -- a terminal report is made over files that are all back, or all new
      have hside : res.phase.terminal = true → AllPrev h b w ∨
          res.advanced b ∧ ∃ r, w.txn = some r ∧ r.phase = .applied := by
        intro hterm
        exact ((hs hterm).resolve_left ht).imp_right And.right
      refine ⟨?_, ?_, hL.no_change, ?_, ?_⟩
      · intro hrev
        rcases World.reported_cons hrev with hres | hold
        · have hterm : res.phase.terminal = true := by
            rcases hres with hp | hp <;> rw [hp] <;> rfl
          rcases hside hterm with hprev | ⟨hadv, -⟩
          · exact hprev
          · exact absurd hres hadv.not_reverted
        · exact hL.reverted hold
      · intro hnone
        exact (hL.gone hnone).imp_right (And.imp_right World.Reported.cons)
      · intro r hr hp
        refine ⟨(hL.applied r hr hp).1, ?_⟩
        intro hend
        rcases World.reported_cons hend with hterm | hold
        · rcases hside hterm with hprev | ⟨hadv, -⟩
          · exact .inl hprev
          · exact .inr ⟨res, .head _, hadv⟩
        · exact ((hL.applied r hr hp).2 hold).imp_right World.Reported.cons
      · intro r hr hp hend
        rcases World.reported_cons hend with hterm | hold
        · rcases hside hterm with hprev | ⟨-, r', hr', hp'⟩
          · exact hprev
          · obtain rfl : r = r' := Option.some.inj (hr.symm.trans hr')
            rw [hp'] at hp
            cases hp
        · exact hL.opened r hr hp hold }

/-- The record goes once its result is reported. -/
theorem Inv.dropTxn (hI : Inv h b w) (hs : w.Tainted ∨ AllPrev h b w ∨
      AllNew h b w ∧ w.Reported (Result.advanced b)) : Inv h b w.dropTxn where
  known := hI.known
  dangling := fun hset => ⟨(hI.dangling hset).prev, (hI.dangling hset).new⟩
  own := by
    rintro r ⟨⟩
  listed := hI.listed
  ledger := by
    rcases hI.ledger with ht | hL
    · exact .inl (ht.cons rfl)
    rcases hs with ht | hs
    · exact .inl (ht.cons rfl)
    right
    refine ⟨hL.reverted, fun _ => hs, ?_, ?_, ?_⟩ <;> rintro r ⟨⟩

-- ====== ends

section Programs

variable {ok : Call → Fate → World → Prop} {α : Type} {t : Txn}

/-- With nobody at the console, the program keeps the invariant. -/
abbrev KeepsInv (ok : Call → Fate → World → Prop) (h : Host) (b : Record)
    (p : Act α) (w : World) : Prop :=
  Keeps (quiet.only ok) (Inv h b) p w

/-- The invariant does not read applied.json, out/, the memory of it,
work/ or the reads. -/
theorem Inv.aside {a o m rd k} (hI : Inv h b w) : Inv h b { w with
      applied := a, out := o, wrote := m, reads := rd, work := k } :=
  { hI with
    dangling := fun hset => ⟨(hI.dangling hset).prev, (hI.dangling hset).new⟩
    ledger := hI.ledger.imp id fun hL =>
      ⟨hL.reverted, hL.gone, hL.no_change, hL.applied, hL.opened⟩ }

theorem safe_removeEntry {entry : Option Bytes} (hI : Inv h b w) :
    KeepsInv ok h b (removeEntry entry) w := by
  cases entry with
  | none => exact hI
  | some id =>
    exact safe_write some (fun _ _ _ h => Fate.write_cases h)
      ⟨hI, fun _ => hI⟩ ⟨hI.aside, fun _ => hI.aside⟩

/-- The result, then the record, then the entry. -/
theorem safe_finish {phase : Phase} {msg : Bytes} (hI : Inv h b w)
    (hs : Settles h b w (t.result phase msg)) :
    KeepsInv ok h b (finish t phase msg) w := by
  have hrep : Inv h b (w.report (t.result phase msg)) := hI.report fun _ => hs
  have hdrop : w.Tainted ∨ AllPrev h b w ∨ AllNew h b w ∧
      (w.report (t.result phase msg)).Reported (Result.advanced b) := by
    refine hs.imp_right (Or.imp_right ?_)
    rintro ⟨hnew, hadv, -⟩
    exact ⟨hnew, _, .head _, hadv⟩
  -- whatever became of the result's file, the record and the entry go
  have hrest : ∀ o m, KeepsInv ok h b (do
        when t.recorded removeRecord
        removeEntry t.entry
        pure (.ok (some (t.result phase msg))) : Act Outcome)
      { w.report (t.result phase msg) with out := o, wrote := m } := by
    intro o m
    refine Safe.bind (Safe.post (Q := fun _ => Inv h b) ?_ fun _ w' hI' =>
      (safe_removeEntry hI').andThen fun _ _ h => h)
    unfold when
    split
    · exact safe_write some (fun _ _ _ h => Fate.write_cases h)
        ⟨hrep.aside, fun _ => hrep.aside⟩
        ⟨hrep.aside.dropTxn hdrop, fun _ => hrep.aside.dropTxn hdrop⟩
    · exact hrep.aside
  refine Safe.bind ?_
  unfold report
  cases t.record.origin with
  | applier =>
    exact safe_write some (fun _ _ _ h => Fate.write_cases h)
      ⟨hrep.aside, fun _ => hrest _ _⟩ ⟨hrep.aside, fun _ => hrest _ _⟩
  | init =>
    refine safe_ask (f := Prog.ret) fun c r w' _ happ => ?_
    cases c with
    | ok => cases happ; exact ⟨hrep, hrest _ _⟩
    | fail e => cases happ
    | landed e => cases happ
    | word s => cases happ
    | drop ids => cases happ

theorem safe_changed {app : Bytes} (hI : Inv h b w)
    (hs : w.Tainted ∨ AllPrev h b w) : KeepsInv ok h b (changed t app) w :=
  safe_finish hI (hs.imp_right Or.inl)

-- ====== reads

/-- A file of the set as a read finds it. -/
def look (h : Host) (b : Record) (w : World) (f : File) : FileAt :=
  ⟨f.app, decide (AtPrev h b w f), decide (AtNew h b w f)⟩

variable {I : World → Prop} {Q : α → World → Prop}

section

variable (hown : b.OwnedBy t.record)
include hown

/-- One file of the set read: an error, or the file as it stands. -/
theorem safe_state {f : File} {k : Except Bytes FileAt → Act α}
    (hb : b.SetSound h) (hf : f ∈ b.set)
    (hI : ∀ rd, I { w with reads := rd })
    (herr : ∀ rd e, Safe (quiet.only ok) I (k (.error e)) Q
      { w with reads := rd })
    (hok : ∀ rd, Safe (quiet.only ok) I (k (.ok (look h b w f))) Q
      { w with reads := rd }) :
    Safe (quiet.only ok) I (state h t f.app >>= k) Q w := by
  refine Safe.bind ?_
  unfold state
  rcases mem_set hf with rfl | ⟨e, he, rfl⟩
  · rw [if_pos (show File.caddyfile.app = [] from rfl)]
    refine safe_installedDigest hI herr fun rd d hd => ?_
    have hlook : look h b w .caddyfile =
        fileAt [] d t.record.prevSHA256 t.record.newSHA256 := by
      simp only [look, AtPrev, AtNew, World.digestOf, hd, fileAt, File.app,
        File.prevSHA256, File.newSHA256, Option.some.injEq,
        hown.prevSHA256, hown.newSHA256]
    have hk := hok rd
    rw [hlook] at hk
    exact hk
  · rw [if_neg (show (File.env e).app ≠ [] from hb.app_ne_nil he)]
    refine safe_envDigest hI herr fun rd => ?_
    have hlook : look h b w (.env e) = fileAt e.app (w.envDigest h e.app)
        (t.env e.app).prevSHA256 (t.env e.app).newSHA256 := by
      simp only [look, AtPrev, AtNew, World.digestOf, fileAt, File.app,
        File.prevSHA256, File.newSHA256, Option.some.injEq,
        Txn.env_eq hown.secrets hb he]
    have hk := hok rd
    rw [hlook] at hk
    exact hk

theorem Txn.envApps_eq : [] :: t.envApps = b.set.map File.app := by
  unfold Txn.envApps Record.set
  rw [hown.secrets, List.map_cons, List.map_map]
  rfl

/-- Every file of the set read, in the set's order. -/
theorem safe_states {k : Except Bytes (List FileAt) → Act α} (hb : b.SetSound h)
    (hI : ∀ rd, I { w with reads := rd })
    (herr : ∀ rd e, Safe (quiet.only ok) I (k (.error e)) Q
      { w with reads := rd })
    (hok : ∀ rd, Safe (quiet.only ok) I (k (.ok (b.set.map (look h b w)))) Q
      { w with reads := rd }) :
    Safe (quiet.only ok) I (states h t >>= k) Q w := by
  refine Safe.bind ?_
  unfold states
  rw [Txn.envApps_eq hown, Prog.loop_map]
  -- the files done are read, and only `reads` moved
  refine safe_loop (fun done fs w' => fs = done.map (look h b w) ∧
    ∃ rd, w' = { w with reads := rd }) ⟨rfl, w.reads, rfl⟩ ?_ ?_
  · rintro fs w' ⟨rfl, rd, rfl⟩
    exact hok rd
  · rintro done f hf fs w' ⟨rfl, rd, rfl⟩
    refine safe_state (w := { w with reads := rd }) hown hb hf hI herr
      fun rd' => ⟨?_, rd', rfl⟩
    rw [List.map_append]
    rfl

end

end Programs

end Hotserve.Box
