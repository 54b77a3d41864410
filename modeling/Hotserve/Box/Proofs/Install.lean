/-
The install keeps the invariant: the swap from a set at its prev, the
record's phases, and the baseline at the end.

`Swapping w₀ w` is the assertion of the swap, the mirror of `Rolling`:
the record on disk says installing, nothing terminal is reported, and
every file that was at its new still is. What is not yet written is at
its prev for as long as no bytes have changed, which is what `swapFailed`
relies on when it reports that nothing changed.
-/
import Hotserve.Box.Proofs.Rollback

namespace Hotserve.Box

open Bytes Effect

variable {h : Host} {b : Record} {w w₀ : World} {t : Txn} {e : EnvEntry}
  {ok : Call → Fate → World → Prop}

/-- A set all at its new is read so. -/
theorem firstNot_next (hall : AllNew h b w) :
    firstNot (b.set.map (look h b w)) FileAt.next = none := by
  refine firstNot_eq_none.mpr fun x hx => ?_
  obtain ⟨f, hf, rfl⟩ := List.mem_map.mp hx
  exact decide_eq_true (hall f hf)

/-- A read that finds a file not at its new tells of a taint, where the
ledger has them all there. -/
theorem not_allNew_of_firstNot {odd : Bytes}
    (hsome : firstNot (b.set.map (look h b w)) FileAt.next = some odd) :
    ¬AllNew h b w := by
  intro hall
  rw [firstNot_next hall] at hsome
  cases hsome

-- ====== the baseline

/-- The record says applied over new files, or no_change over files that
are both. -/
def Advanceable (h : Host) (b : Record) (phase : Phase) (w : World) : Prop :=
  w.Tainted ∨ AllPrev h b w ∨
    phase = .applied ∧ AllNew h b w ∧ ∃ r, w.txn = some r ∧ r.phase = .applied

variable {phase : Phase} {w' : World}

theorem Advanceable.settles {res : Result} (ha : Advanceable h b phase w)
    (hres : phase = .applied → res.advanced b) : Settles h b w res := by
  refine ha.imp_right (Or.imp_right ?_)
  rintro ⟨hp, hnew, hr⟩
  exact ⟨hnew, hres hp, hr⟩

/-- applied.json is written or it is not; the files stand either way. -/
theorem safe_recordBaseline (hI : Inv h b w)
    (hown : b.OwnedBy t.record) (ha : Advanceable h b phase w) :
    KeepsInv ok h b (recordBaseline t phase) w := by
  have horigin : t.record.origin = b.origin :=
    hown.field Record.origin fun _ _ => rfl
  have hcommit : t.record.commit = b.commit :=
    hown.field Record.commit fun _ _ => rfl
  -- whatever became of the write, the two ends settle
  have hfail : ∀ w', Inv h b w' → Advanceable h b phase w' →
      KeepsInv ok h b (finish t .unknown
        (baselineUnrecorded t.record.origin phase t.record.commit)) w' := by
    intro w' hI' ha'
    refine safe_finish hI' (ha'.settles fun _ => .inr ⟨rfl, phase, ?_⟩)
    rw [← horigin, ← hcommit]
    rfl
  have hdone : ∀ w', Inv h b w' → Advanceable h b phase w' →
      KeepsInv ok h b (finish t phase []) w' := by
    intro w' hI' ha'
    exact safe_finish hI' (ha'.settles fun hp => .inl hp)
  unfold recordBaseline writeApplied putApplied
  split
  · exact hfail w hI ha
  · have hnote := hI.note (.baselineWritten t.record.id
      t.record.baseline w.txn w.reads)
    have ha' : Advanceable h b phase (w.note (.baselineWritten t.record.id
      t.record.baseline w.txn w.reads)) :=
      ha.imp (fun ht => ht.cons rfl) id
    refine safe_write some (fun _ _ _ h => Fate.write_cases h)
      ⟨hnote, fun _ => hfail _ hnote ha'⟩ ⟨hnote.aside, fun a => ?_⟩
    cases a with
    | none => exact hdone _ hnote.aside ha'
    | some _ => exact hfail _ hnote.aside ha'

/-- The env files outside the set are still the listed ones. -/
theorem safe_checkListed (hI : Inv h b w) (hown : b.OwnedBy t.record)
    (happlier : t.record.origin = .applier) :
    Safe (quiet.only ok) (Inv h b) (checkListed h t)
      (Through (Inv h b) fun _ w' => ∃ rd, w' = { w with reads := rd }) w := by
  have horigin : b.origin = .applier :=
    (hown.field Record.origin fun _ _ => rfl).symm.trans happlier
  have hentries : t.record.secretsInstalled = b.secretsInstalled :=
    hown.field Record.secretsInstalled fun _ _ => rfl
  unfold checkListed
  rw [hentries]
  refine safe_loop (fun _ _ w' => ∃ rd, w' = { w with reads := rd })
    ⟨w.reads, rfl⟩ (fun _ _ hw => hw) ?_
  · rintro _ p hp _ w' ⟨rd, rfl⟩
    split
    next => exact ⟨rd, rfl⟩
    next hnot =>
      refine safe_envDigest (fun _ => hI.aside) (fun _ _ => hI.aside)
        fun rd' => ?_
      have hd : w.envDigest h p.1 = p.2 := by
        refine hI.listed horigin p hp ?_
        rw [← hown.secrets]
        exact hnot
      change Safe _ _ (if w.envDigest h p.1 = p.2 then _ else _) _ _
      rw [if_pos hd]
      exact ⟨rd', rfl⟩

/-- The baseline is advanced from a record that says so, over files read
again. -/
theorem safe_advance {r : Record} (hI : Inv h b w)
    (hb : b.SetSound h) (hown : b.OwnedBy t.record) (hr : w.txn = some r)
    (hrp : r.phase = phase) (hphase : phase = .applied ∨ phase = .noChange) :
    KeepsInv ok h b (advance h t phase) w := by
  have ha : Advanceable h b phase w := by
    rcases hI.ledger with ht | hL
    · exact .inl ht
    rcases hphase with rfl | rfl
    · exact .inr (.inr ⟨rfl, (hL.applied r hr hrp).1, r, hr, hrp⟩)
    · exact .inr (.inl (hL.no_change r hr hrp))
  unfold advance
  refine safe_states hown hb (fun _ => hI.aside) (fun _ _ => hI.aside)
    fun rd => ?_
  dsimp only
  split
  next odd hfirst =>
    refine safe_changed hI.aside (ha.imp_right ?_)
    rintro (hp | ⟨-, hnew, -⟩)
    · exact hp
    · exact absurd hnew (not_allNew_of_firstNot hfirst)
  next =>
    cases horigin : t.record.origin with
    | init => exact safe_recordBaseline hI.aside hown ha
    | applier =>
      refine (safe_checkListed (w := { w with reads := rd }) hI.aside hown
        horigin).through (fun _ _ hI => hI) ?_
      rintro _ _ ⟨rd', rfl⟩
      exact safe_recordBaseline hI.aside hown ha

-- ====== the swap

/-- The bytes the swap writes are the ones the record's digests name. -/
structure Renders (h : Host) (b : Record) (t : Txn) : Prop where
  next_digest : h.digest t.next = b.newSHA256
  next_len : t.next.length ≤ maxCaddyfile
  env_digest : ∀ e ∈ b.secrets, e.newSHA256 ≠ [] →
    h.digest (t.nextEnv e.app) = e.newSHA256
  env_len : ∀ e ∈ b.secrets, e.newSHA256 ≠ [] →
    (t.nextEnv e.app).length ≤ maxEnvRead

/-- A swap that has come from `w₀` to `w`. -/
structure Swapping (h : Host) (b : Record) (w₀ w : World) : Prop where
  inv : Inv h b w
  record : ∃ r, w.txn = some r ∧ r.phase = .installing
  unended : ¬w.Ended
  keeps : ∀ f ∈ b.set, AtNew h b w₀ f → AtNew h b w f

theorem Swapping.refl (hS : Swapping h b w w') : Swapping h b w' w' :=
  ⟨hS.inv, hS.record, hS.unended, fun _ _ hat => hat⟩

theorem Swapping.trans (hS : Swapping h b w₀ w)
    (hS' : Swapping h b w w') : Swapping h b w₀ w' :=
  ⟨hS'.inv, hS'.record, hS'.unended,
    fun f hf hat => hS'.keeps f hf (hS.keeps f hf hat)⟩

theorem Swapping.opened (hS : Swapping h b w₀ w) : Opened w := by
  obtain ⟨r, hr, hp⟩ := hS.record
  exact .inr ⟨r, hr, by rw [hp]; rfl⟩

theorem Swapping.miss (hS : Swapping h b w w) (ev : Event) :
    Swapping h b w (w.note ev) :=
  ⟨hS.inv.note ev, hS.record, hS.unended, fun _ _ hat => hat⟩

/-- A file of the set put at its new. -/
theorem Swapping.hit {f : File} (hS : Swapping h b w w)
    (ht : Touches h b f w w') (hI : Inv h b w') (hf : AtNew h b w' f) :
    Swapping h b w w' where
  inv := hI
  record := by
    obtain ⟨r, hr, hp⟩ := hS.record
    exact ⟨r, ht.txn.trans hr, hp⟩
  unended := by
    rintro ⟨res, hmem, hterm⟩
    exact hS.unended ⟨res, ht.reports ▸ hmem, hterm⟩
  keeps := by
    intro g hg hat
    by_cases hgf : g = f
    · exact hgf ▸ hf
    · exact (ht.files g hg hgf).trans hat

/-- A swap under way is rolled back. -/
theorem Swapping.rollback {why : Bytes} (hS : Swapping h b w₀ w)
    (hb : b.SetSound h) (hown : b.OwnedBy t.record) :
    KeepsInv ok h b (rollback h t why false) w := by
  obtain ⟨r, hr, hp⟩ := hS.record
  exact safe_rollback hS.inv hb hown hr (.inl (by rw [hp]; rfl))
    (.inr fun hend => absurd hend hS.unended)

/-- A write of the swap that failed: rolled back once bytes have
changed, and before that decided by what is on disk. -/
theorem safe_swapFailed {f : File} {dirty : Bool} {err : Bytes}
    (hS : Swapping h b w₀ w) (hb : b.SetSound h) (hown : b.OwnedBy t.record)
    (hf : f ∈ b.set)
    (hclean : dirty = false → ∀ g ∈ b.set, g ≠ f → AtPrev h b w g) :
    KeepsInv ok h b (swapFailed h t f.app dirty err) w := by
  unfold swapFailed
  split
  · exact hS.rollback hb hown
  next hdirty =>
    refine safe_state hown hb hf (fun _ => hS.inv.aside)
      (fun _ _ => hS.inv.aside) fun rd => ?_
    have hSr : Swapping h b w₀ { w with reads := rd } :=
      ⟨hS.inv.aside, hS.record, hS.unended, hS.keeps⟩
    change Safe _ _ (if (look h b w f).prev = true then _ else
      if (look h b w f).next = true then _ else _) _ _
    split
    next hp =>
      refine safe_finish hS.inv.aside (.inr (.inl ?_))
      intro g hg
      by_cases hgf : g = f
      · subst hgf
        exact of_decide_eq_true hp
      · exact hclean (by simpa using hdirty) g hg hgf
    next hp =>
      split
      · exact hSr.rollback hb hown
      next hn =>
        -- with nobody at the console the file is at one of the two
        rcases hS.inv.known f hf with hat | hat
        · exact absurd (decide_eq_true hat) hp
        · exact absurd (decide_eq_true hat) hn

/-- One env file of the set at its new state, or left alone. -/
theorem safe_writeEnv (hS : Swapping h b w w) (hb : b.SetSound h)
    (ht : Renders h b t) (he : e ∈ b.secrets)
    (hc : e.newSHA256 = [] → b.prevSHA256 ≠ b.newSHA256 →
      AtNew h b w .caddyfile) : Safe (quiet.only ok) (Inv h b) (writeEnv t e)
      (fun a w' => Swapping h b w w' ∧
        (∀ g ∈ b.set, g ≠ .env e → AtPrev h b w g → AtPrev h b w' g) ∧
        (a = none → AtNew h b w' (.env e))) w := by
  have hmiss := hS.miss (.fileWritten t.record.id)
  have hothers : ∀ s, ∀ g ∈ b.set, g ≠ .env e → AtPrev h b w g →
      AtPrev h b ((w.note (.fileWritten t.record.id)).setEnv e.app s) g :=
    fun s g hg hne hat => ((touches_env hb he s).files g hg hne).trans hat
  unfold writeEnv
  by_cases hnil : e.newSHA256 = []
  · rw [if_pos hnil]
    obtain ⟨hI, hat⟩ := hS.inv.swapUnlink (.fileWritten t.record.id) hb
      hS.opened hS.unended he hnil (hc hnil)
    have hhit := hS.hit (touches_env hb he _) hI hat
    exact safe_write (f := Prog.ret) some (fun _ _ _ h => renameOver_cases h)
      ⟨hmiss.inv, fun _ => ⟨hmiss, fun _ _ _ hp => hp, nofun⟩⟩
      ⟨hI, fun _ => ⟨hhit, hothers _, fun _ => hat⟩⟩
  · rw [if_neg hnil]
    obtain ⟨hI, hat⟩ := hS.inv.swapEnv (.fileWritten t.record.id) hb
      hS.opened hS.unended he (ht.env_digest e he hnil) (ht.env_len e he hnil)
    have hhit := hS.hit (touches_env hb he _) hI hat
    exact safe_write (f := Prog.ret) some (fun _ _ _ h => renameOver_cases h)
      ⟨hmiss.inv, fun _ => ⟨hmiss, fun _ _ _ hp => hp, nofun⟩⟩
      ⟨hI, fun _ => ⟨hhit, hothers _, fun _ => hat⟩⟩

/-- One group of the swap: at its end every env file of the group is at
its new, and as long as nothing is dirty the set is still at its prev. -/
theorem safe_swapGroup {has dirty : Bool} (hS : Swapping h b w w)
    (hb : b.SetSound h) (hown : b.OwnedBy t.record) (ht : Renders h b t)
    (hclean : dirty = false → AllPrev h b w)
    (hc : has = false → b.prevSHA256 ≠ b.newSHA256 → AtNew h b w .caddyfile) :
    Safe (quiet.only ok) (Inv h b) (swapGroup h t has dirty)
      (Through (Inv h b) fun dirty' w' => Swapping h b w w' ∧
        (dirty' = false → AllPrev h b w') ∧ ∀ e ∈ b.secrets,
          (e.newSHA256 != []) = has → AtNew h b w' (.env e)) w := by
  unfold swapGroup
  rw [hown.secrets]
  refine safe_loop (fun done dirty' w' => Swapping h b w w' ∧
    (dirty' = false → AllPrev h b w') ∧ ∀ e ∈ b.secrets, e ∈ done →
      (e.newSHA256 != []) = has → AtNew h b w' (.env e))
    ⟨hS, hclean, nofun⟩ ?_ ?_
  · rintro dirty' w' ⟨hS', hclean', hnew⟩
    exact ⟨hS', hclean', fun e he => hnew e he he⟩
  · rintro done e he dirty' w' ⟨hS', hclean', hnew⟩
    split
    next hgroup =>
      have hc' : e.newSHA256 = [] → b.prevSHA256 ≠ b.newSHA256 →
          AtNew h b w' .caddyfile := by
        intro hnil hset
        rw [hnil] at hgroup
        exact hS'.keeps _ mem_set_caddyfile (hc hgroup.symm hset)
      refine (safe_writeEnv hS'.refl hb ht he hc').andThen ?_
      rintro a w'' ⟨hS'', hothers, hat⟩
      cases a with
      | some err =>
        exact (safe_swapFailed (f := .env e) hS'' hb hown
          (mem_set_env he) fun hd g hg hne =>
            hothers g hg hne (hclean' hd g hg)).andThen fun _ _ hI => hI
      | none =>
        refine ⟨hS'.trans hS'', ?_, ?_⟩
        · -- nothing dirty: the file was rewritten with the bytes it had
          intro hd g hg
          simp only [Bool.or_eq_false_iff, bne_eq_false_iff_eq] at hd
          by_cases hge : g = .env e
          · subst hge
            exact (hat rfl).trans (congrArg some hd.2.symm)
          · exact hothers g hg hge (hclean' hd.1.1 g hg)
        · intro e' he' hmem hgroup'
          rcases List.mem_append.mp hmem with hmem | hmem
          · exact hS''.keeps _ (mem_set_env he') (hnew e' he' hmem hgroup')
          · obtain rfl := List.mem_singleton.mp hmem
            exact hat rfl
    next hgroup =>
      refine ⟨hS', hclean', ?_⟩
      intro e' he' hmem hgroup'
      rcases List.mem_append.mp hmem with hmem | hmem
      · exact hnew e' he' hmem hgroup'
      · obtain rfl := List.mem_singleton.mp hmem
        exact absurd hgroup' hgroup

/-- The swap: at its end every file of the set is at its new. -/
theorem safe_swapFiles (hS : Swapping h b w w) (hb : b.SetSound h)
    (hown : b.OwnedBy t.record) (ht : Renders h b t) (hp : AllPrev h b w) :
    Safe (quiet.only ok) (Inv h b) (swapFiles h t)
      (Through (Inv h b) fun _ w' => Swapping h b w w' ∧ AllNew h b w') w := by
  unfold swapFiles
  refine (safe_swapGroup hS hb hown ht (fun _ => hp)
    fun hfalse => absurd hfalse Bool.noConfusion).through ?_ ?_
  · exact fun _ _ hI => hI
  rintro dirty w₁ ⟨hS₁, hclean, hnew₁⟩
  have hfiles : ∀ e ∈ b.secrets, e.newSHA256 ≠ [] →
      AtNew h b w₁ (.env e) := fun e he hne =>
    hnew₁ e he (by simpa using hne)
  -- the last group, once the Caddyfile is at its new
  have hlast : ∀ w₂ dirty', Swapping h b w₁ w₂ →
      (dirty' = false → AllPrev h b w₂) → AtNew h b w₂ .caddyfile →
      Safe (quiet.only ok) (Inv h b) (swapGroup h t false dirty')
        (Through (Inv h b) fun _ w' => Swapping h b w w' ∧ AllNew h b w')
        w₂ := by
    intro w₂ dirty' hS₂ hclean₂ hc
    refine (safe_swapGroup hS₂.refl hb hown ht hclean₂ fun _ _ => hc).post ?_
    intro r w₃ hr
    cases r with
    | error o => exact hr
    | ok _ =>
      obtain ⟨hS₃, -, hnew₃⟩ := hr
      refine ⟨hS₁.trans (hS₂.trans hS₃), ?_⟩
      intro f hf
      rcases mem_set hf with rfl | ⟨e, he, rfl⟩
      · exact hS₃.keeps _ hf hc
      · cases hgroup : e.newSHA256 != [] with
        | true => exact (hS₂.trans hS₃).keeps _ hf (hnew₁ e he hgroup)
        | false => exact hnew₃ e he hgroup
  change Safe _ _ (if t.caddyfileInSet = true then _ else _) _ _
  split
  next hset =>
    obtain ⟨hI, hat⟩ := hS₁.inv.swapCaddyfile (.fileWritten t.record.id) hb
      hS₁.opened hS₁.unended ht.next_digest ht.next_len hfiles
    have hmiss := hS₁.refl.miss (.fileWritten t.record.id)
    have hhit := hS₁.refl.hit (touches_caddyfile _) hI hat
    refine safe_write some (fun _ _ _ h => renameOver_cases h)
      ⟨hmiss.inv, fun err => ?_⟩ ⟨hI, fun a => ?_⟩
    · exact (safe_swapFailed (f := .caddyfile) hmiss hb hown
        mem_set_caddyfile fun hd g hg _ => hclean hd g hg).andThen
        fun _ _ hI => hI
    · cases a with
      | none => exact hlast _ true hhit nofun hat
      | some err =>
        refine (safe_swapFailed (f := .caddyfile) hhit hb hown
          mem_set_caddyfile fun hd g hg hne => ?_).andThen fun _ _ hI => hI
        exact ((touches_caddyfile _).files g hg hne).trans (hclean hd g hg)
  next hset =>
    refine hlast w₁ dirty hS₁.refl hclean ?_
    -- a Caddyfile the push keeps is at its new when it is at its prev
    have heq : b.prevSHA256 = b.newSHA256 := by
      by_contra hne
      exact hset ((caddyfileInSet_iff hown).mpr hne)
    rcases hS₁.inv.known _ mem_set_caddyfile with hat | hat
    · exact hat.trans (congrArg some heq)
    · exact hat

end Hotserve.Box
