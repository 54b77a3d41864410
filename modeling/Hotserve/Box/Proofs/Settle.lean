/-
Every run of an install and of the recoveries after it keeps the
invariant: the install from the record's first write, recovery by the
phase it finds, and the system of both with crashes between them.
-/
import Hotserve.Box.Proofs.Install

namespace Hotserve.Box

open Bytes Effect

variable {h : Host} {b : Record} {w w₀ : World} {t : Txn}
  {ok : Call → Fate → World → Prop}

variable {p : Phase} {r : Record}

theorem Record.SetSound.of_stage {err : Bytes}
    (hs : (b.stage p err).SetSound h) : b.SetSound h :=
  ⟨hs.prev_isDigest, hs.new_isDigest, hs.prev_len, hs.prev_digest, hs.entries,
    hs.sorted, hs.managed, hs.listed, hs.init_alone⟩

theorem Record.OwnedBy.setSound (hown : b.OwnedBy r) (hv : r.valid h = .ok ()) :
    b.SetSound h := by
  obtain ⟨p, err, rfl⟩ := hown
  exact (Record.valid_sound hv).toSetSound.of_stage

theorem Renders.atPhase (ht : Renders h b t) : Renders h b (t.atPhase p) :=
  ⟨ht.next_digest, ht.next_len, ht.env_digest, ht.env_len⟩

-- ====== swapped → applied

section

variable (hI : Inv h b w)
include hI

/-- The record of a transaction on disk at a phase stays valid at the
next. -/
theorem Inv.valid_atPhase (hr : w.txn = some r) (hown : b.OwnedBy t.record)
    (hp : p = .installing ∨ p = .swapped ∨ p = .applied ∨ p = .rollingBack) :
    (t.atPhase p).record.valid h = .ok () := by
  obtain ⟨hv, hownr⟩ := hI.own r hr
  change (t.record.stage _ _).valid h = _
  rw [hown.stage, ← hownr.stage]
  exact Record.valid_stage hv hp

theorem safe_confirmSwapped (hb : b.SetSound h)
    (hown : b.OwnedBy t.record) (hr : w.txn = some r)
    (hp : r.phase = .swapped) (hend : ¬w.Ended) (hnew : AllNew h b w) :
    KeepsInv ok h b (confirmSwapped h t) w := by
  unfold confirmSwapped
  refine safe_states hown hb (fun _ => hI.aside) (fun _ _ => hI.aside)
    fun rd => ?_
  dsimp only
  rw [firstNot_next hnew]
  have hv := hI.valid_atPhase (p := .applied) hr hown (by simp)
  have hown' : b.OwnedBy (t.atPhase .applied).record :=
    Record.ownedBy_stage hown _ _
  refine safe_writeRecord (fun hnot => absurd hv hnot) (fun _ => ?_)
    (fun _ => ?_)
  · exact ⟨hI.aside.note _, fun _ => safe_rollback (hI.aside.note _) hb
      hown' hr (.inl (by rw [hp]; rfl)) (.inr fun he => absurd he hend)⟩
  · have hI' : Inv h b (({ w with reads := rd } : World).setTxn
        (t.atPhase .applied).record) :=
      hI.aside.setTxn hv hown' nofun (fun _ => ⟨hnew, hend⟩) nofun
    refine ⟨hI', fun a => ?_⟩
    cases a with
    | none => exact safe_advance hI' hb hown' rfl rfl (.inl rfl)
    | some _ =>
      -- the record may say applied while the files go back
      exact safe_rollback hI' hb hown' rfl (.inr rfl)
        (.inr fun he => absurd he hend)

theorem safe_reloadSwapped (hb : b.SetSound h)
    (hown : b.OwnedBy t.record) (hr : w.txn = some r)
    (hp : r.phase = .swapped) (hend : ¬w.Ended) (hnew : AllNew h b w) :
    KeepsInv ok h b (reloadSwapped h t) w := by
  have hconfirm : KeepsInv ok h b (confirmSwapped h t) w :=
    safe_confirmSwapped hI hb hown hr hp hend hnew
  have hback : KeepsInv ok h b (rollback h t msgReloadFailed false) w :=
    safe_rollback hI hb hown hr (.inl (by rw [hp]; rfl))
      (.inr fun he => absurd he hend)
  unfold reloadSwapped
  split
  · refine safe_write some (fun _ _ _ h => Fate.write_cases h)
      ⟨hI, fun _ => hback⟩ ⟨hI, fun a => ?_⟩
    cases a with
    | none => exact hconfirm
    | some _ => exact hback
  · exact hconfirm

-- ====== install

/-- installing → swapped → applied, from a set at its prev with nothing
reported. -/
theorem safe_swap (hown : b.OwnedBy t.record)
    (ht : Renders h b t) (hp : AllPrev h b w) (hend : ¬w.Ended) :
    KeepsInv ok h b (swap h t) w := by
  have hown' : ∀ p, b.OwnedBy (t.atPhase p).record := fun p =>
    Record.ownedBy_stage hown _ _
  unfold swap
  refine safe_writeRecord (fun _ _ => safe_finish hI (.inr (.inl hp)))
    (fun _ => ⟨hI.note _, fun _ => safe_finish (hI.note _) (.inr (.inl hp))⟩)
    (fun hv => ?_)
  have hb : b.SetSound h := (hown' .installing).setSound hv
  have hI₁ : Inv h b (w.setTxn (t.atPhase .installing).record) :=
    hI.setTxn hv (hown' _) nofun nofun fun _ => .inr fun he => absurd he hend
  refine ⟨hI₁, fun a => ?_⟩
  cases a with
  | some err => exact safe_finish hI₁ (.inr (.inl hp))
  | none =>
    refine safe_states (hown' _) hb (fun _ => hI₁.aside)
      (fun _ _ => safe_finish hI₁.aside (.inr (.inl hp))) fun rd => ?_
    dsimp only
    split
    · exact safe_changed hI₁.aside (.inr hp)
    have hS : Swapping h b { w.setTxn (t.atPhase .installing).record with
        reads := rd } { w.setTxn (t.atPhase .installing).record with
        reads := rd } :=
      ⟨hI₁.aside, ⟨_, rfl, rfl⟩, hend, fun _ _ hat => hat⟩
    refine (safe_swapFiles hS hb (hown' _) ht.atPhase hp).through ?_ ?_
    · exact fun _ _ hI => hI
    rintro _ w₂ ⟨hS₂, hnew⟩
    obtain ⟨r, hr, hphase⟩ := hS₂.record
    have hv₂ : ((t.atPhase .installing).atPhase .swapped).record.valid h =
        .ok () := hS₂.inv.valid_atPhase hr (hown' _) (by simp)
    have hown₂ : b.OwnedBy ((t.atPhase .installing).atPhase .swapped).record :=
      Record.ownedBy_stage (hown' _) _ _
    refine safe_writeRecord (fun hnot => absurd hv₂ hnot)
      (fun _ => ?_) (fun _ => ?_)
    · exact ⟨hS₂.inv.note _, fun _ => safe_rollback (hS₂.inv.note _) hb hown₂
        hr (.inl (by rw [hphase]; rfl)) (.inr fun he => absurd he hS₂.unended)⟩
    · have hI₃ : Inv h b (w₂.setTxn
          ((t.atPhase .installing).atPhase .swapped).record) :=
        hS₂.inv.setTxn hv₂ hown₂ nofun nofun
          fun _ => .inr fun he => absurd he hS₂.unended
      refine ⟨hI₃, fun a => ?_⟩
      cases a with
      | none => exact safe_reloadSwapped hI₃ hb hown₂ rfl rfl hS₂.unended hnew
      | some _ =>
        exact safe_rollback hI₃ hb hown₂ rfl (.inl rfl)
          (.inr fun he => absurd he hS₂.unended)

theorem safe_removeVerified {id : Bytes} :
    KeepsInv ok h b (removeVerified id) w := by
  refine safe_ask fun c r w' _ happ => ?_
  obtain ⟨rfl, -⟩ := Fate.read_cases happ
  refine ⟨hI, ?_⟩
  cases r with
  | error _ => exact hI
  | ok v =>
    change Safe _ _ (if v.phase = .verified then _ else _) _ _
    split
    · exact safe_write some (fun _ _ _ h => Fate.write_cases h)
        ⟨hI, fun _ => hI⟩ ⟨hI.aside, fun _ => hI.aside⟩
    · exact hI

/-- The install, from the buffer comparison on. -/
theorem safe_install (hown : b.OwnedBy t.record)
    (ht : Renders h b t) (hp : AllPrev h b w) (hend : ¬w.Ended) :
    KeepsInv ok h b (install h t) w := by
  unfold install
  split
  · have hown' : b.OwnedBy (t.atPhase .noChange).record :=
      Record.ownedBy_stage hown _ _
    refine safe_writeRecord (fun _ _ => safe_finish hI (.inr (.inl hp)))
      (fun _ => ⟨hI.note _, fun _ => safe_finish (hI.note _) (.inr (.inl hp))⟩)
      (fun hv => ?_)
    have hI' : Inv h b (w.setTxn (t.atPhase .noChange).record) :=
      hI.setTxn hv hown' (fun _ => hp) nofun nofun
    refine ⟨hI', fun a => ?_⟩
    cases a with
    | some err => exact safe_finish hI' (.inr (.inl hp))
    | none =>
      exact safe_advance hI' (hown'.setSound hv) hown' rfl rfl (.inr rfl)
  · cases t.record.origin with
    | init => exact safe_swap hI hown ht hp hend
    | applier =>
      have hend' : ¬(w.report (t.result .verified [])).Ended := by
        intro he
        rcases World.reported_cons he with hterm | hold
        · cases hterm
        · exact hend hold
      have hI' : Inv h b (w.report (t.result .verified [])) :=
        hI.report nofun
      -- the verified result could not be written: the push ends failed
      have hfail : ∀ o m err, KeepsInv ok h b (do
          let again ← ask
            (.writeResult (t.result .failed (t.installFailed h err)))
          when again.isSome (removeVerified t.record.id)
          removeEntry t.entry
          pure (.ok none) : Act Outcome)
          { w.report (t.result .verified []) with out := o, wrote := m } := by
        intro o m err
        have hI'' : Inv h b ((w.report (t.result .verified [])).report
            (t.result .failed (t.installFailed h err))) :=
          hI'.report fun _ => .inr (.inl hp)
        have hrest : ∀ (a : Option Bytes) w', Inv h b w' →
            KeepsInv ok h b (do
              when a.isSome (removeVerified t.record.id)
              removeEntry t.entry
              pure (.ok none) : Act Outcome) w' := by
          intro a w' hw'
          refine Safe.bind (Safe.post (Q := fun _ => Inv h b) ?_
            fun _ _ hI => (safe_removeEntry hI).andThen fun _ _ hI => hI)
          unfold when
          split
          · exact safe_removeVerified hw'
          · exact hw'
        exact safe_write some (fun _ _ _ h => Fate.write_cases h)
          ⟨hI''.aside, fun _ => hrest _ _ hI''.aside⟩
          ⟨hI''.aside, fun _ => hrest _ _ hI''.aside⟩
      refine safe_write some (fun _ _ _ h => Fate.write_cases h)
        ⟨hI'.aside, fun _ => hfail _ _ _⟩ ⟨hI'.aside, fun a => ?_⟩
      cases a with
      | some err => exact hfail _ _ _
      | none => exact safe_swap hI'.aside hown ht hp hend'

end

-- ====== recovery

/-- A terminal result in out/, or in the run's memory of what it wrote,
was reported. -/
structure Filed (b : Record) (w : World) : Prop where
  out : b.origin = .applier → ∀ res, w.out b.id = some res →
    res.phase.terminal = true → w.Ended
  wrote : b.origin = .applier → ∀ p, w.wrote b.id = some p →
    p.terminal = true → w.Ended

/-- A result is reported and remembered in one step, so an ended push
stays one that was reported. -/
theorem Filed.writeResult {res : Result} (hF : Filed b w) :
    Filed b ((w.report res).remember res) where
  out := fun ho r hr hterm => World.Reported.cons (hF.out ho r hr hterm)
  wrote := by
    intro ho p hp hterm
    have hp' : (if (w.wrote res.id).any Phase.terminal then w.wrote
        else Function.update w.wrote res.id (some res.phase)) b.id =
          some p := hp
    split at hp'
    · exact World.Reported.cons (hF.wrote ho p hp' hterm)
    · by_cases hid : b.id = res.id
      · rw [hid, Function.update_self] at hp'
        cases hp'
        exact ⟨res, .head _, hterm⟩
      · rw [Function.update_of_ne hid] at hp'
        exact World.Reported.cons (hF.wrote ho p hp' hterm)

/-- Every call keeps it. -/
theorem Filed.apply {e : Call} {c : Fate} {r : Answer e} {w' : World}
    (hF : Filed b w) (happ : apply e c w = some (r, w')) : Filed b w' := by
  cases change_of_apply happ with
  | still => exact hF
  | seen | file | lost | written | removed | baseline | cleaned =>
    exact ⟨hF.out, hF.wrote⟩
  | remembered => exact hF.writeResult
  | @filed res =>
    refine ⟨fun ho r hr hterm => ?_, hF.writeResult.wrote⟩
    by_cases hid : b.id = res.id
    · obtain rfl : res = r := by
        simpa [World.setOut, hid] using hr
      exact ⟨res, .head _, hterm⟩
    · exact hF.writeResult.out ho r (by simpa [World.setOut, hid] using hr)
        hterm
  | reported =>
    exact ⟨fun ho r hr hterm => World.Reported.cons (hF.out ho r hr hterm),
      fun ho p hp hterm => World.Reported.cons (hF.wrote ho p hp hterm)⟩
  | dropped hout =>
    exact ⟨fun ho r hr hterm => hF.out ho r (hout _ _ hr) hterm, hF.wrote⟩

/-- A box whose every call may assume that what is filed was reported. -/
def filed (b : Record) : Call → Fate → World → Prop := fun _ _ w => Filed b w

/-- `settled` says so only of a push that was reported. -/
theorem safe_settled {α : Type} {Q : α → World → Prop} {k : Bool → Act α}
    (happlier : b.origin = .applier) (hI : Inv h b w)
    (hk : ∀ a, (a = true → w.Ended) →
      Safe (quiet.only (filed b)) (Inv h b) (k a) Q w) :
    Safe (quiet.only (filed b)) (Inv h b) (settled b.id >>= k) Q w := by
  refine Safe.bind ?_
  unfold settled
  refine safe_ask fun c r w₁ hF happ => ?_
  obtain ⟨hw₁, hr⟩ : w₁ = w ∧ r = w.wrote b.id := by
    cases c with
    | ok => cases happ; exact ⟨rfl, rfl⟩
    | fail _ | landed _ | word _ | drop _ => cases happ
  rw [hw₁]
  refine ⟨hI, ?_⟩
  split
  next hany =>
    refine hk true fun _ => ?_
    cases hwrote : w.wrote b.id with
    | none =>
      rw [hr, hwrote] at hany
      cases hany
    | some p =>
      rw [hr, hwrote] at hany
      exact hF.wrote happlier p hwrote hany
  next =>
    refine safe_ask fun c r w₂ hF happ => ?_
    obtain ⟨hw₂, hr⟩ := Fate.read_cases happ
    rw [hw₂]
    refine ⟨hI, ?_⟩
    cases r with
    | error _ => exact hk false nofun
    | ok res =>
      refine hk res.phase.terminal fun hterm => ?_
      cases hout : w.out b.id with
      | none =>
        rw [hout] at hr
        rcases hr with hr | ⟨_, hr⟩ <;> cases hr
      | some res' =>
        rw [hout] at hr
        rcases hr with hr | ⟨_, hr⟩
        · cases hr
          exact hF.out happlier res hout hterm
        · cases hr

/-- The files of an ended push are settled, whatever its record says. -/
theorem Inv.settled_of_ended (hI : Inv h b w) (hr : w.txn = some r)
    (hend : w.Ended) : w.Tainted ∨ AllPrev h b w ∨
      AllNew h b w ∧ w.Reported (Result.advanced b) := by
  rcases hI.ledger with ht | hL
  · exact .inl ht
  right
  rcases (Record.valid_sound (hI.own r hr).1).phase with hp | hp | hp | hp | hp
  · exact .inl (hL.no_change r hr hp)
  · exact .inl (hL.opened r hr (by rw [hp]; rfl) hend)
  · exact .inl (hL.opened r hr (by rw [hp]; rfl) hend)
  · obtain ⟨hnew, hrep⟩ := hL.applied r hr hp
    exact (hrep hend).imp_right fun hadv => ⟨hnew, hadv⟩
  · exact .inl (hL.opened r hr (by rw [hp]; rfl) hend)

/-- A rollback set at its prev is the whole set at its prev. -/
theorem allPrev_of_rollbackSet (hI : Inv h b w) (hown : b.OwnedBy t.record)
    (hnone : firstNot (t.rollbackSet (b.set.map (look h b w)))
      FileAt.prev = none) : AllPrev h b w := by
  have hall := firstNot_eq_none.mp hnone
  intro f hf
  rcases mem_set hf with rfl | ⟨e, he, rfl⟩
  · by_cases hset : b.prevSHA256 = b.newSHA256
    · rcases hI.known _ hf with hp | hn
      · exact hp
      · exact hn.trans (congrArg some hset.symm)
    · refine of_decide_eq_true (hall (look h b w .caddyfile) ?_)
      unfold Txn.rollbackSet
      rw [if_pos ((caddyfileInSet_iff hown).mpr hset)]
      exact .head _
  · exact of_decide_eq_true (hall _ (mem_rollbackSet he))

/-- The States table, over the set as just read. -/
theorem safe_settleByPhase (hI : Inv h b w) (hb : b.SetSound h)
    (hown : b.OwnedBy t.record) (hr : w.txn = some t.record) :
    KeepsInv ok h b (settleByPhase h t (b.set.map (look h b w))) w := by
  have hback : t.record.phase.opened = true →
      KeepsInv ok h b (rollbackInterrupted h t) w := by
    intro hopen
    refine safe_rollback hI hb hown hr (.inl hopen) ?_
    exact hI.ledger.imp id fun hL => hL.opened _ hr hopen
  unfold settleByPhase
  split
  next hp =>
    split
    · exact safe_advance hI hb hown hr hp (.inr rfl)
    · exact safe_changed hI (hI.ledger.imp id fun hL => hL.no_change _ hr hp)
  next hp =>
    split
    · exact safe_advance hI hb hown hr hp (.inl rfl)
    next odd hodd =>
      refine safe_changed hI (hI.ledger.imp id fun hL => ?_)
      exact absurd (hL.applied _ hr hp).1 (not_allNew_of_firstNot hodd)
  next hp =>
    split
    next hnone =>
      exact safe_finish hI (.inr (.inl (allPrev_of_rollbackSet hI hown hnone)))
    next =>
      rw [firstNot_known hI]
      exact hback (by rw [hp]; rfl)
  next hp =>
    rw [firstNot_known hI]
    exact hback (by rw [hp]; rfl)
  next hp =>
    rw [firstNot_known hI]
    exact safe_rollingBack hI (.inr ⟨_, hr, by rw [hp]; rfl⟩) hb hown
  next hno₁ hno₂ hno₃ hno₄ hno₅ =>
    -- a record that was read back is at one of the five
    rcases (Record.valid_sound (hI.own _ hr).1).phase with
      hp | hp | hp | hp | hp
    · exact absurd hp hno₁
    · exact absurd hp hno₃
    · exact absurd hp hno₄
    · exact absurd hp hno₂
    · exact absurd hp hno₅

/-- One recovery: the record on disk, if any, settled. -/
theorem safe_recoverTxn (hI : Inv h b w) :
    KeepsInv (filed b) h b (recoverTxn h) w := by
  unfold recoverTxn readRecord
  refine Safe.bind (safe_ask fun c a w' _ happ => ?_)
  obtain ⟨hw', ha⟩ := Fate.read_cases happ
  rw [hw']
  refine ⟨hI, ?_⟩
  cases a with
  | error _ => exact hI
  | ok found =>
    obtain rfl : found = w.txn := by
      rcases ha with ha | ⟨_, ha⟩
      · exact Except.ok.inj ha
      · cases ha
    cases htxn : w.txn with
    | none => exact hI
    | some r =>
      obtain ⟨hv, hown⟩ := hI.own r htxn
      have hb := hown.setSound hv
      -- every read of the set, then the States table
      have hphase : KeepsInv (filed b) h b
          (recoverPhase h (recovered r)) w := by
        refine safe_states hown hb (fun _ => hI.aside) (fun _ _ => hI.aside)
          fun rd => ?_
        exact safe_settleByPhase (w := { w with reads := rd }) hI.aside hb
          hown htxn
      have horigin : r.origin = b.origin :=
        hown.field Record.origin fun _ _ => rfl
      have hid : r.id = b.id := hown.field Record.id fun _ _ => rfl
      dsimp only
      rw [hv]
      change Safe _ _ (recoverRecord h r) _ _
      unfold recoverRecord
      rw [hid]
      split
      · exact hphase
      next happlier =>
        refine safe_settled (horigin ▸ happlier) hI fun a hend => ?_
        cases a with
        | false => exact hphase
        | true =>
          have hdrop := hI.dropTxn (hI.settled_of_ended htxn (hend rfl))
          refine Safe.bind (Safe.post (Q := fun _ => Inv h b) ?_
            fun _ _ hI' => (safe_removeEntry hI').andThen fun _ _ hI => hI)
          exact safe_write some (fun _ _ _ h => Fate.write_cases h)
            ⟨hI, fun _ => hI⟩ ⟨hdrop, fun _ => hdrop⟩

end Hotserve.Box
