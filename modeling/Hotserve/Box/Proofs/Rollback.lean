/-
The rollback keeps the invariant and, if it gets to its end, has every
file of the set at its prev.

`Rolling w₀ w` is the assertion each part of it keeps between the world
it starts in and any it reaches: the invariant, a record recovery rolls
back from, and every file that was at its prev still there. Parts
compose by `Rolling.trans`.
-/
import Hotserve.Box.Proofs.Report

namespace Hotserve.Box

open Bytes Effect

variable {h : Host} {b : Record} {w w₀ : World} {t : Txn} {e : EnvEntry}
  {ok : Call → Fate → World → Prop}

/-- A rollback that has come from `w₀` to `w`. -/
structure Rolling (h : Host) (b : Record) (w₀ w : World) : Prop where
  inv : Inv h b w
  opened : Opened w
  back : ∀ f ∈ b.set, AtPrev h b w₀ f → AtPrev h b w f

variable {w' : World} {f : File} {recovering : Bool}

theorem Rolling.refl (hI : Inv h b w) (ho : Opened w) : Rolling h b w w :=
  ⟨hI, ho, fun _ _ hat => hat⟩

theorem Rolling.trans (hR : Rolling h b w₀ w) (hR' : Rolling h b w w') :
    Rolling h b w₀ w' :=
  ⟨hR'.inv, hR'.opened, fun f hf hat => hR'.back f hf (hR.back f hf hat)⟩

theorem Rolling.reads {rd : List Sight} (hR : Rolling h b w₀ w) :
    Rolling h b w₀ { w with reads := rd } :=
  ⟨hR.inv.aside, hR.opened, hR.back⟩

/-- A write that failed without landing. -/
theorem Rolling.miss (hI : Inv h b w) (ho : Opened w) (ev : Event) :
    Rolling h b w (w.note ev) :=
  ⟨hI.note ev, ho.note ev, fun _ _ hat => hat⟩

/-- A file of the set put at its prev. -/
theorem Rolling.hit (ho : Opened w) (ht : Touches h b f w w')
    (hI : Inv h b w') (hf : AtPrev h b w' f) : Rolling h b w w' where
  inv := hI
  opened := ho.touch ht
  back := by
    intro g hg hat
    by_cases hgf : g = f
    · exact hgf ▸ hf
    · exact (ht.files g hg hgf).trans hat

-- ====== one file

section

variable (hI : Inv h b w) (ho : Opened w) (hb : b.SetSound h)
include hI ho hb

/-- One attempt at an env file's previous state; one the push added goes
only once the Caddyfile is back. -/
theorem safe_putBack (he : e ∈ b.secrets)
    (hc : e.prevSHA256 = [] → b.prevSHA256 ≠ b.newSHA256 →
      AtPrev h b w .caddyfile) : Safe (quiet.only ok) (Inv h b) (putBack t e)
      (fun a w' => Rolling h b w w' ∧ (a = none → AtPrev h b w' (.env e)))
      w := by
  unfold putBack
  have hmiss := Rolling.miss hI ho (.fileWritten t.record.id)
  by_cases hnil : e.prevSHA256 = []
  · rw [if_pos hnil]
    obtain ⟨hI', hat⟩ := hI.unlinkBack (.fileWritten t.record.id) hb ho he
      hnil (hc hnil)
    have hhit := Rolling.hit ho (touches_env hb he _) hI' hat
    exact safe_write (f := Prog.ret) some (fun _ _ _ h => renameOver_cases h)
      ⟨hmiss.inv, fun _ => ⟨hmiss, nofun⟩⟩
      ⟨hI', fun _ => ⟨hhit, fun _ => hat⟩⟩
  · rw [if_neg hnil]
    obtain ⟨hI', hat⟩ := hI.putBack (.fileWritten t.record.id) hb ho he hnil
    have hhit := Rolling.hit ho (touches_env hb he _) hI' hat
    exact safe_write (f := Prog.ret) some (fun _ _ _ h => renameOver_cases h)
      ⟨hmiss.inv, fun _ => ⟨hmiss, nofun⟩⟩
      ⟨hI', fun _ => ⟨hhit, fun _ => hat⟩⟩

/-- Two attempts, and a look at what the second left. -/
theorem safe_restoreEnv (he : e ∈ b.secrets)
    (hc : e.prevSHA256 = [] → b.prevSHA256 ≠ b.newSHA256 →
      AtPrev h b w .caddyfile) :
    Safe (quiet.only ok) (Inv h b) (restoreEnv h t e)
      (fun a w' => Rolling h b w w' ∧ (a = none → AtPrev h b w' (.env e)))
      w := by
  unfold restoreEnv
  refine (safe_putBack hI ho hb he hc).andThen ?_
  rintro a w₁ ⟨hR₁, hat₁⟩
  cases a with
  | none => exact ⟨hR₁, hat₁⟩
  | some _ =>
    have hc₁ : e.prevSHA256 = [] → b.prevSHA256 ≠ b.newSHA256 →
        AtPrev h b w₁ .caddyfile := fun hnil hset =>
      hR₁.back _ mem_set_caddyfile (hc hnil hset)
    refine (safe_putBack hR₁.inv hR₁.opened hb he hc₁).andThen ?_
    rintro a w₂ ⟨hR₂, hat₂⟩
    have hR := hR₁.trans hR₂
    cases a with
    | none => exact ⟨hR, hat₂⟩
    | some err =>
      refine safe_envDigest (fun _ => hR.reads.inv)
        (fun _ _ => ⟨hR.reads, nofun⟩) fun rd => ⟨hR.reads, fun hnone => ?_⟩
      by_cases hd : w₂.envDigest h e.app = e.prevSHA256
      · exact congrArg some hd
      · rw [if_neg hd] at hnone
        cases hnone

/-- One attempt at the previous Caddyfile. -/
theorem safe_writePrev {α : Type} {Q : α → World → Prop}
    {f : Option Bytes → Act α} (hown : b.OwnedBy t.record)
    (hfiles : ∀ e ∈ b.secrets, e.prevSHA256 ≠ [] → AtPrev h b w (.env e))
    (hk : ∀ a w', Rolling h b w w' → (a = none → AtPrev h b w' .caddyfile) →
      Safe (quiet.only ok) (Inv h b) (f a) Q w') :
    Safe (quiet.only ok) (Inv h b)
      (ask (.writeCaddyfile t.record.id t.record.prev) >>= f) Q w := by
  rw [show t.record.prev = b.prev from hown.field Record.prev fun _ _ => rfl]
  obtain ⟨hI', hat⟩ := hI.restoreCaddyfile (.fileWritten t.record.id) hb ho
    hfiles
  have hmiss := Rolling.miss hI ho (.fileWritten t.record.id)
  have hhit := Rolling.hit ho (touches_caddyfile _) hI' hat
  exact safe_write some (fun _ _ _ h => renameOver_cases h)
    ⟨hmiss.inv, fun err => hk _ _ hmiss nofun⟩
    ⟨hI', fun a => hk a _ hhit fun _ => hat⟩

/-- The previous Caddyfile back, over every env file it named. -/
theorem safe_restore (hown : b.OwnedBy t.record)
    (hfiles : ∀ e ∈ b.secrets, e.prevSHA256 ≠ [] → AtPrev h b w (.env e)) :
    Safe (quiet.only ok) (Inv h b) (restore h t)
      (fun a w' => Rolling h b w w' ∧ (a = none → AtPrev h b w' .caddyfile))
      w := by
  unfold restore
  refine safe_writePrev hI ho hb hown hfiles fun a w₁ hR₁ hat₁ => ?_
  cases a with
  | none => exact ⟨hR₁, hat₁⟩
  | some _ =>
    have hfiles₁ : ∀ e ∈ b.secrets, e.prevSHA256 ≠ [] →
        AtPrev h b w₁ (.env e) := fun e he hne =>
      hR₁.back _ (mem_set_env he) (hfiles e he hne)
    refine safe_writePrev hR₁.inv hR₁.opened hb hown hfiles₁
      fun a w₂ hR₂ hat₂ => ?_
    have hR := hR₁.trans hR₂
    cases a with
    | none => exact ⟨hR, hat₂⟩
    | some err =>
      refine safe_installedDigest (fun _ => hR.reads.inv)
        (fun _ _ => ⟨hR.reads, nofun⟩)
        fun rd d hdig => ⟨hR.reads, fun hnone => ?_⟩
      by_cases hd : d = t.record.prevSHA256
      · rw [hd, hown.prevSHA256] at hdig
        exact hdig
      · rw [if_neg hd] at hnone
        cases hnone

end

theorem look_known (hI : Inv h b w) (hf : f ∈ b.set) :
    (look h b w f).known = true := by
  rcases hI.known f hf with hp | hn
  · simp [look, FileAt.known, hp]
  · simp [look, FileAt.known, hn]

/-- With nobody at the console a write-back fails on a full disk
only. -/
theorem safe_restoreFailed (hI : Inv h b w) (hb : b.SetSound h)
    (hown : b.OwnedBy t.record) (he : e ∈ b.secrets) :
    KeepsInv ok h b (restoreFailed h t e.app) w := by
  unfold restoreFailed
  refine safe_state (f := .env e) hown hb (mem_set_env he)
    (fun _ => hI.aside) (fun _ _ => hI.aside) fun rd => ?_
  change Safe _ _ (if (look h b w (.env e)).known = true then _ else _) _ _
  rw [if_pos (look_known hI (mem_set_env he))]
  exact hI.aside

-- ====== the groups

/-- What `restoreGroup` is given: files of the set as read in `w₀`. -/
def ReadIn (h : Host) (b : Record) (w₀ : World) (fs : List FileAt) : Prop :=
  ∀ x ∈ fs, ∃ f ∈ b.set, x = look h b w₀ f

/-- The env files of a group behind the loop's place are back. -/
def GroupBack (h : Host) (b : Record) (had : Bool) (w₀ : World)
    (done : List FileAt) (w : World) : Prop :=
  ∀ e ∈ b.secrets, look h b w₀ (.env e) ∈ done →
    (e.prevSHA256 != []) = had → AtPrev h b w (.env e)

/-- One more file behind the loop's place. -/
theorem GroupBack.snoc {had : Bool} {done : List FileAt}
    (hG : GroupBack h b had w₀ done w) (hR : Rolling h b w w')
    (hf : ∀ e ∈ b.secrets, look h b w₀ (.env e) = look h b w₀ f →
      (e.prevSHA256 != []) = had → AtPrev h b w' (.env e)) :
    GroupBack h b had w₀ (done ++ [look h b w₀ f]) w' := by
  intro e he hmem hgroup
  rcases List.mem_append.mp hmem with hmem | hmem
  · exact hR.back _ (mem_set_env he) (hG e he hmem hgroup)
  · exact hf e he (List.mem_singleton.mp hmem) hgroup

/-- One group of the rollback: at its end every env file of the group
that was read is at its prev. -/
theorem safe_restoreGroup {had : Bool} {fs : List FileAt}
    (hR : Rolling h b w₀ w) (hb : b.SetSound h) (hown : b.OwnedBy t.record)
    (hfs : ReadIn h b w₀ fs)
    (hc : had = false → b.prevSHA256 ≠ b.newSHA256 → AtPrev h b w .caddyfile) :
    Safe (quiet.only ok) (Inv h b) (restoreGroup h t had fs)
      (Through (Inv h b) fun _ w' =>
        Rolling h b w w' ∧ GroupBack h b had w₀ fs w') w := by
  unfold restoreGroup
  refine safe_loop (fun done _ w' => Rolling h b w w' ∧
    GroupBack h b had w₀ done w') ⟨.refl hR.inv hR.opened, nofun⟩
    (fun _ _ hw => hw) ?_
  · rintro done x hx _ w' ⟨hR', hdone⟩
    obtain ⟨f, hf, rfl⟩ := hfs x hx
    have hrefl' := Rolling.refl hR'.inv hR'.opened
    rcases mem_set hf with rfl | ⟨e', he', rfl⟩
    · -- the Caddyfile is in no group
      rw [if_neg (fun hcond => hcond.1 rfl)]
      refine ⟨hR', hdone.snoc hrefl' ?_⟩
      intro e he hlook
      exact absurd (congrArg FileAt.app hlook) (hb.app_ne_nil he)
    · have henv : t.env (look h b w₀ (.env e')).app = e' :=
        Txn.env_eq hown.secrets hb he'
      rw [henv]
      split
      next hcond =>
        obtain ⟨-, -, hhad⟩ := hcond
        have hc' : e'.prevSHA256 = [] → b.prevSHA256 ≠ b.newSHA256 →
            AtPrev h b w' .caddyfile := by
          intro hnil hset
          rw [hnil] at hhad
          exact hR'.back _ mem_set_caddyfile (hc hhad.symm hset)
        refine Safe.bind ((safe_restoreEnv hR'.inv hR'.opened hb he' hc').post
          ?_)
        rintro a w'' ⟨hR'', hat⟩
        cases a with
        | none =>
          refine ⟨hR'.trans hR'', hdone.snoc hR'' ?_⟩
          intro e he hlook _
          obtain rfl := hb.entry_eq he he' (congrArg FileAt.app hlook)
          exact hat rfl
        | some err =>
          exact (safe_restoreFailed hR''.inv hb hown he').andThen
            fun _ _ hI => hI
      next hcond =>
        refine ⟨hR', hdone.snoc hrefl' ?_⟩
        intro e he hlook hgroup
        obtain rfl := hb.entry_eq he he' (congrArg FileAt.app hlook)
        -- not written back: it was at its prev when the set was read
        have hprev : (look h b w₀ (.env e)).prev = true := by
          by_contra hnot
          exact hcond ⟨hb.app_ne_nil he, by simpa using hnot, hgroup⟩
        exact hR'.back _ (mem_set_env he)
          (hR.back _ (mem_set_env he) (of_decide_eq_true hprev))

-- ====== the whole

theorem caddyfileInSet_iff (hown : b.OwnedBy t.record) :
    t.caddyfileInSet = true ↔ b.prevSHA256 ≠ b.newSHA256 := by
  unfold Txn.caddyfileInSet
  rw [hown.prevSHA256, hown.newSHA256, bne_iff_ne]

theorem readIn_rollbackSet :
    ReadIn h b w (t.rollbackSet (b.set.map (look h b w))) := by
  intro x hx
  have hmem : x ∈ b.set.map (look h b w) := by
    unfold Txn.rollbackSet at hx
    split at hx
    · exact hx
    · exact List.mem_of_mem_drop hx
  obtain ⟨f, hf, rfl⟩ := List.mem_map.mp hmem
  exact ⟨f, hf, rfl⟩

theorem mem_rollbackSet (he : e ∈ b.secrets) :
    look h b w (.env e) ∈ t.rollbackSet (b.set.map (look h b w)) := by
  have hmem : look h b w (.env e) ∈ (b.secrets.map File.env).map (look h b w) :=
    List.mem_map_of_mem (List.mem_map_of_mem he)
  unfold Txn.rollbackSet
  split
  · exact .tail _ hmem
  · exact hmem

/-- Every file of a list was read as `want` says. -/
theorem firstNot_eq_none {fs : List FileAt} {want : FileAt → Bool} :
    firstNot fs want = none ↔ ∀ x ∈ fs, want x = true := by
  unfold firstNot
  rw [Option.map_eq_none_iff, List.find?_eq_none]
  simp

/-- With nobody at the console every file is at its prev or its new. -/
theorem firstNot_known (hI : Inv h b w) :
    firstNot (t.rollbackSet (b.set.map (look h b w))) FileAt.known = none := by
  refine firstNot_eq_none.mpr fun x hx => ?_
  obtain ⟨f, hf, rfl⟩ := readIn_rollbackSet x hx
  exact look_known hI hf

/-- Both groups and the Caddyfile back is everything back. -/
theorem allPrev_of_groups {w₁ w₂ : World} (hI : Inv h b w₂)
    (h₁ : GroupBack h b true w (t.rollbackSet (b.set.map (look h b w))) w₁)
    (hR : Rolling h b w₁ w₂)
    (h₂ : GroupBack h b false w (t.rollbackSet (b.set.map (look h b w))) w₂)
    (hc : b.prevSHA256 ≠ b.newSHA256 → AtPrev h b w₂ .caddyfile) :
    AllPrev h b w₂ := by
  intro f hf
  rcases mem_set hf with rfl | ⟨e, he, rfl⟩
  · by_cases hset : b.prevSHA256 = b.newSHA256
    · -- a Caddyfile the push keeps is at its prev when it is at its new
      rcases hI.known _ hf with hp | hn
      · exact hp
      · exact hn.trans (congrArg some hset.symm)
    · exact hc hset
  · cases hgroup : e.prevSHA256 != [] with
    | true => exact hR.back _ hf (h₁ e he (mem_rollbackSet he) hgroup)
    | false => exact h₂ e he (mem_rollbackSet he) hgroup

section

variable (hI : Inv h b w)
include hI

/-- The swap's order reversed, from any mix of prev and new. -/
theorem safe_writeBack (ho : Opened w) (hb : b.SetSound h)
    (hown : b.OwnedBy t.record) :
    Safe (quiet.only ok) (Inv h b) (writeBack h t (b.set.map (look h b w)))
      (Through (Inv h b) fun _ w' => Inv h b w' ∧ AllPrev h b w') w := by
  unfold writeBack
  refine (safe_restoreGroup (.refl hI ho) hb hown readIn_rollbackSet
    (fun hfalse => absurd hfalse Bool.noConfusion)).through ?_ ?_
  · exact fun _ _ hI => hI
  rintro _ w₁ ⟨hR₁, hG₁⟩
  have hfiles : ∀ e ∈ b.secrets, e.prevSHA256 ≠ [] →
      AtPrev h b w₁ (.env e) := fun e he hne =>
    hG₁ e he (mem_rollbackSet he) (by simpa using hne)
  have hhead : ((b.set.map (look h b w)).head?.any fun f => !f.prev) =
      !decide (AtPrev h b w .caddyfile) := rfl
  change Safe _ _ (if _ ∧ _ then _ else _) _ _
  rw [hhead]
  -- the last group, once the Caddyfile is back
  have hlast : ∀ w₂, Rolling h b w₁ w₂ →
      (b.prevSHA256 ≠ b.newSHA256 → AtPrev h b w₂ .caddyfile) →
      Safe (quiet.only ok) (Inv h b)
        (restoreGroup h t false (t.rollbackSet (b.set.map (look h b w))))
        (Through (Inv h b) fun _ w' => Inv h b w' ∧ AllPrev h b w') w₂ := by
    intro w₂ hR₂ hc
    refine (safe_restoreGroup (hR₁.trans hR₂) hb hown readIn_rollbackSet
      fun _ => hc).post ?_
    intro r w₃ hr
    cases r with
    | error o => exact hr
    | ok _ =>
      obtain ⟨hR₃, hG₃⟩ := hr
      exact ⟨hR₃.inv, allPrev_of_groups hR₃.inv hG₁ (hR₂.trans hR₃) hG₃
        fun hset => hR₃.back _ mem_set_caddyfile (hc hset)⟩
  split
  next hcond =>
    refine (safe_restore hR₁.inv hR₁.opened hb hown hfiles).andThen ?_
    rintro a w₂ ⟨hR₂, hat⟩
    cases a with
    | some _ => exact hR₂.inv
    | none => exact hlast w₂ hR₂ fun _ => hat rfl
  next hcond =>
    refine hlast w₁ (.refl hR₁.inv hR₁.opened) ?_
    intro hset
    by_contra hnot
    refine hcond ⟨(caddyfileInSet_iff hown).mpr hset, ?_⟩
    have hnot₀ : ¬AtPrev h b w .caddyfile := fun hat =>
      hnot (hR₁.back _ mem_set_caddyfile hat)
    simpa using hnot₀

/-- The reload of the previous Caddyfile ends the push either way. -/
theorem safe_reloadPrev (hp : AllPrev h b w) :
    KeepsInv ok h b (reloadPrev t) w := by
  refine safe_write some (fun _ _ _ h => Fate.write_cases h)
    ⟨hI, fun _ => safe_finish hI (.inr (.inl hp))⟩ ⟨hI, fun a => ?_⟩
  cases a with
  | none => exact safe_finish hI (.inr (.inl hp))
  | some _ => exact safe_finish hI (.inr (.inl hp))

/-- The end of a rollback whose files are back. -/
theorem safe_rolledBack (hp : AllPrev h b w) :
    KeepsInv ok h b (rolledBack t recovering) w := by
  unfold rolledBack
  split
  · exact safe_finish hI (.inr (.inl hp))
  split
  · refine safe_running fun a => ⟨hI, ?_⟩
    cases a with
    | error _ => exact hI
    | ok s =>
      change Safe _ _ (if up s = true then _ else _) _ _
      split
      · exact safe_reloadPrev hI hp
      · exact safe_finish hI (.inr (.inl hp))
  · exact safe_reloadPrev hI hp

/-- The rolling_back row, live or in recovery. -/
theorem safe_rollingBack (ho : Opened w) (hb : b.SetSound h)
    (hown : b.OwnedBy t.record) :
    KeepsInv ok h b (rollingBack h t recovering) w := by
  unfold rollingBack
  refine safe_states hown hb (fun _ => hI.aside) (fun _ _ => hI.aside)
    fun rd => ?_
  dsimp only
  rw [firstNot_known hI]
  exact (safe_writeBack (w := { w with reads := rd }) hI.aside ho hb
    hown).through (fun _ _ hI => hI) fun _ _ hr => safe_rolledBack hr.1 hr.2

/-- → rolling_back: a record that says applied may only be rolled back
from if it is replaced. -/
theorem safe_rollback {why : Bytes} {r : Record}
    (hb : b.SetSound h) (hown : b.OwnedBy t.record) (hr : w.txn = some r)
    (hphase : r.phase.opened = true ∨ r.phase = .applied)
    (hend : w.Tainted ∨ (w.Ended → AllPrev h b w)) :
    KeepsInv ok h b (rollback h t why recovering) w := by
  obtain ⟨hvalid, hownr⟩ := hI.own r hr
  have hown' : b.OwnedBy (t.rolling why).record := Record.ownedBy_stage hown _ _
  have hv : (t.rolling why).record.valid h = .ok () := by
    change (t.record.stage _ _).valid h = _
    rw [hown.stage, ← hownr.stage]
    exact Record.valid_stage hvalid (by simp)
  unfold rollback
  refine safe_writeRecord (fun hnot => absurd hv hnot) (fun _ => ?_)
    (fun _ => ?_)
  · have ho : Opened (w.note (.recordLost (t.rolling why).record w.txn)) := by
      rcases hphase with hopen | happ
      · exact .inr ⟨r, hr, hopen⟩
      · refine .inl ⟨(t.rolling why).record, r, ?_, rfl, happ⟩
        rw [hr]
        exact .head _
    exact ⟨hI.note _, fun _ => safe_rollingBack (hI.note _) ho hb hown'⟩
  · have hI' : Inv h b (w.setTxn (t.rolling why).record) :=
      hI.setTxn hv hown' nofun nofun fun _ => hend
    exact ⟨hI', fun _ => safe_rollingBack hI' (.inr ⟨_, rfl, rfl⟩) hb hown'⟩

end

end Hotserve.Box
