/-
Root's side of the exchange tree, and what holds in every run.

Root alone removes anything, and nobody else touches work/, out/ or the
record, so most of what it has read stays so (`Beside`). A run comes to
Retention only with work/ empty: every result is then terminal, and a
marker without a result whose bundle is not in in/ either is that of a
push already accounted for.
-/
import Hotserve.Box.Proofs.Handlers

namespace Hotserve.Box.Exchange

open Effect (Prog Pool Obeys)

-- ====== what handlers do

/-- What may have happened to the tree between two steps of root: ids
that had no marker came, and markers were written. -/
structure Beside (w w' : Tree) : Prop where
  work : w'.work = w.work
  out : w'.out = w.out
  record : w'.record = w.record
  stage : ∀ id, (w.stage.lookup id).isSome = true →
    (w'.stage.lookup id).isSome = true
  inbox : ∀ id ∈ w'.inbox, id ∈ w.inbox ∨ w.stage.lookup id = none
  ledger : ∀ p' ∈ w'.ledger, w.stage.lookup p'.id = none ∨
    ∃ p ∈ w.ledger, p'.id = p.id ∧ (Excused w p → Excused w' p')

section Beside

variable {w w' w'' : Tree} {n : Nat} {id : Bytes}

theorem Beside.refl (w : Tree) : Beside w w where
  work := rfl
  out := rfl
  record := rfl
  stage _ h := h
  inbox _ h := .inl h
  ledger p hp := .inr ⟨p, hp, rfl, fun h => h⟩

theorem Beside.stage_none (h : Beside w w')
    (hid : w'.stage.lookup id = none) : w.stage.lookup id = none := by
  cases hstage : w.stage.lookup id with
  | none => rfl
  | some t =>
    have := h.stage id (by rw [hstage]; rfl)
    rw [hid] at this
    cases this

theorem Beside.trans (h : Beside w w') (h' : Beside w' w'') : Beside w w'' where
  work := h'.work.trans h.work
  out := h'.out.trans h.out
  record := h'.record.trans h.record
  stage id hid := h'.stage id (h.stage id hid)
  inbox id hid := by
    rcases h'.inbox id hid with hin | hnew
    · exact h.inbox id hin
    · exact .inr (h.stage_none hnew)
  ledger p'' hp'' := by
    rcases h'.ledger p'' hp'' with hnew | ⟨p', hp', hid', hexc'⟩
    · exact .inl (h.stage_none hnew)
    · rw [hid']
      rcases h.ledger p' hp' with hnew | ⟨p, hp, hid, hexc⟩
      · exact .inl hnew
      · exact .inr ⟨p, hp, hid, fun hp => hexc' (hexc hp)⟩

theorem Beside.tick (w : Tree) (n : Nat) :
    Beside w { w with clock := w.clock + n } :=
  { Beside.refl w with
    ledger := fun p hp => .inr ⟨p, hp, rfl, fun h => h.tick n⟩ }

theorem HandlerMove.beside (hm : HandlerMove n w w') : Beside w w' := by
  cases hm with
  | stay => exact Beside.refl w
  | lock => exact { Beside.refl w with work := rfl }
  | drop id hlock hin hwork hstage hout hposted hexc =>
    exact { Beside.refl w with
      inbox := fun other hother => by
        rcases List.mem_cons.mp hother with rfl | hother
        · exact .inr hstage
        · exact .inl hother
      ledger := fun p hp => by
        rcases List.mem_cons.mp hp with rfl | hp
        · exact .inl hstage
        · exact .inr ⟨p, hp, rfl, fun h => h⟩ }
  | mark id posted hlock htime hpushes =>
    exact { Beside.refl w with
      stage := fun other hother => by
        change ((w.stage.insert id posted).lookup other).isSome = true
        by_cases hne : other = id
        · subst hne
          simp
        · rwa [AList.lookup_insert_ne hne]
      ledger := fun p' hp' => by
        obtain ⟨p, hp, rfl⟩ := List.mem_map.mp hp'
        exact .inr ⟨p, hp, Push.mark_id _, Excused.mark⟩ }
  | unlock => exact { Beside.refl w with work := rfl }

/-- The tree as root sees it. -/
abbrev rootView := exchange.view Tidy Moves .applier

theorem beside_drift (hd : rootView.Drift w w') : Beside w w' := by
  refine hd.keeps (F := Beside w) ?_ (Beside.refl w)
  rintro v v' hv ⟨-, ⟨m, rfl⟩ | ⟨t, hne, hm⟩⟩
  · exact hv.trans (Beside.tick v m)
  · cases t with
    | applier => exact absurd rfl hne
    | handler m => exact hv.trans (HandlerMove.beside hm)

theorem terminal_congr (hout : w'.out = w.out) (id : Bytes) :
    w'.terminal id = w.terminal id := by
  rw [Tree.terminal, Tree.terminal, hout]

theorem Beside.terminal (h : Beside w w') (id : Bytes) :
    w'.terminal id = w.terminal id :=
  terminal_congr h.out id

/-- Root's program, run among the handlers. -/
abbrev RootRuns {α : Type} (p : Act α) (Q : α → Tree → Prop) (w : Tree) :
    Prop :=
  Obeys rootView RootMove p Q w

/-- One step of root: its move, and what is left to do after it. -/
theorem root_call {α : Type} {e : Call} {k : e.Answer → Act α}
    {Q : α → Tree → Prop}
    (h : ∀ c r w', Tidy w → apply .applier e c w = some (r, w') →
      RootMove w w' ∧ ∀ w'', Beside w' w'' → RootRuns (k r) Q w'') :
    RootRuns (.call e k) Q w := by
  intro c r w' htidy happ
  obtain ⟨hm, hk⟩ := h c r w' htidy happ
  exact ⟨hm, fun w'' hd => hk w'' (beside_drift hd)⟩

/-- A step that only reads. -/
theorem root_reads {α : Type} {e : Call} {k : e.Answer → Act α}
    {Q : α → Tree → Prop} {ans : Fate → e.Answer}
    (h : ∀ c w', Tidy w → Beside w w' → RootRuns (k (ans c)) Q w')
    (happ : ∀ c, apply .applier e c w = some (ans c, w) := by intro; rfl) :
    RootRuns (.call e k) Q w := by
  refine root_call fun c r w' htidy hr => ?_
  obtain ⟨rfl, rfl⟩ : ans c = r ∧ w = w' := by
    simpa using (happ c).symm.trans hr
  exact ⟨.stay, fun w'' hb => h c w'' htidy hb⟩

/-- A step that leaves one tree, whatever is in its way. -/
theorem root_writes {α : Type} {e : Call} {k : e.Answer → Act α}
    {Q : α → Tree → Prop} {r : e.Answer} {w' : Tree} (hm : RootMove w w')
    (h : ∀ w'', Beside w' w'' → RootRuns (k r) Q w'')
    (happ : ∀ c, apply .applier e c w = some (r, w') := by intro; rfl) :
    RootRuns (.call e k) Q w := by
  refine root_call fun c _ _ _ hr => ?_
  cases (happ c).symm.trans hr
  exact ⟨hm, h⟩

end Beside

-- ====== the record and the work

/-- What a run remembers having ended has its terminal result. -/
def Remembers (wrote : Wrote) (w : Tree) : Prop :=
  ∀ id phase, wrote.lookup id = some phase → phase.terminal = true →
    w.terminal id = true

theorem Remembers.nil (w : Tree) : Remembers [] w := by
  intro id phase h
  cases h

/-- Where a run stands before Retention: what is in work/, no record, and
what it remembers. -/
structure Stands (wrote : Wrote) (ids : List Bytes) (w : Tree) : Prop where
  work : w.work.Perm ids
  record : w.record = none
  wrote : Remembers wrote w

section Work

variable {w w' : Tree} {wrote : Wrote} {ids : List Bytes} {id : Bytes}

theorem Stands.mono (h : Stands wrote ids w) (hb : Beside w w') :
    Stands wrote ids w' where
  work := hb.work ▸ h.work
  record := hb.record.trans h.record
  wrote id phase hlook hterm := by
    rw [hb.terminal]
    exact h.wrote id phase hlook hterm

theorem lookup_add {phase : Phase} {other : Bytes} {p : Phase}
    (h : (wrote.add id phase).lookup other = some p) :
    other = id ∧ p = phase ∨ wrote.lookup other = some p := by
  rw [Wrote.add] at h
  split at h
  · exact .inr h
  · rw [List.lookup_cons] at h
    split at h
    next heq =>
      cases h
      exact .inl ⟨beq_iff_eq.mp heq, rfl⟩
    next => exact .inr h

/-- What `finish` leaves of an entry. -/
structure Finished (w : Tree) (id : Bytes) (wrote : Wrote) (w' : Tree) :
    Prop where
  work : w'.work = w.work.erase id
  record : w'.record = none
  terminal : w'.terminal id = true
  others : ∀ other, other ≠ id → w'.terminal other = w.terminal other
  wrote : Remembers wrote w'

theorem finish_runs {phase : Ending} {recorded : Bool} (hid : id ∈ w.work)
    (hrec : recorded = true ∨ w.record = none) (hwrote : Remembers wrote w) :
    RootRuns (finish wrote id phase recorded true) (Finished w id) w := by
  refine root_writes (.file id phase (.inl hid) (.inl phase.2)) fun w₁ hb₁ => ?_
  have hterm₁ : w₁.terminal id = true := by
    rw [hb₁.terminal, terminal_file_self]
    exact phase.2
  -- the record goes, if there is one
  have hrecord : RootRuns (if recorded then ask .removeRecord else pure ())
      (fun _ w₂ => w₂.work = w.work ∧ w₂.record = none ∧ w₂.out = w₁.out)
      w₁ := by
    cases recorded with
    | true =>
      exact root_writes .unrecord fun w₂ hb₂ =>
        ⟨hb₂.work.trans hb₁.work, hb₂.record, hb₂.out⟩
    | false =>
      exact ⟨hb₁.work,
        hb₁.record.trans (hrec.resolve_left Bool.false_ne_true), rfl⟩
  refine hrecord.andThen ?_
  rintro _ w₂ ⟨hwork₂, hrec₂, hout₂⟩
  have hterminal₂ := terminal_congr hout₂
  refine root_writes (.removeEntry id ((hterminal₂ id).trans hterm₁)
    (by simp [hrec₂])) fun w₃ hb₃ => ?_
  have hterminal : ∀ other, w₃.terminal other = w₁.terminal other :=
    fun other => (hb₃.terminal other).trans (hterminal₂ other)
  have hothers : ∀ other, other ≠ id →
      w₃.terminal other = w.terminal other := by
    intro other hne
    rw [hterminal, hb₁.terminal, terminal_file_ne hne]
  refine ⟨hb₃.work.trans (congrArg (List.erase · id) hwork₂),
    hb₃.record.trans hrec₂, (hterminal id).trans hterm₁, hothers, ?_⟩
  intro other p hlook hp
  by_cases hne : other = id
  · rw [hne]
    exact (hterminal id).trans hterm₁
  · rw [hothers other hne]
    exact hwrote other p
      ((lookup_add hlook).resolve_left fun heq => hne heq.1) hp

/-- An entry that is finished is done with. -/
theorem Finished.stands (h : Finished w id wrote w')
    (hperm : w.work.Perm (id :: ids)) : Stands wrote ids w' where
  work := by
    rw [h.work]
    exact (hperm.erase id).trans (by simp)
  record := h.record
  wrote := h.wrote

theorem settled_runs (hwrote : Remembers wrote w) : RootRuns (settled wrote id)
      (fun found w' => Beside w w' ∧ found = w.terminal id) w := by
  rw [settled]
  cases hmine : (wrote.lookup id).any Phase.terminal with
  | true =>
    obtain ⟨phase, hlook, hterm⟩ := (Option.any_eq_true _ _).mp hmine
    exact ⟨Beside.refl w, (hwrote id phase hlook hterm).symm⟩
  | false =>
    refine root_writes .stay fun w' hb => ⟨hb, ?_⟩
    simp [Tree.terminal, Option.any_map]

/-- The entry of a settled push goes. -/
theorem removeEntry_runs (hterm : w.terminal id = true)
    (hrec : w.record = none) : RootRuns (ask (.removeEntry id)) (fun _ w' =>
      w'.work = w.work.erase id ∧ w'.out = w.out ∧ w'.record = none) w := by
  exact root_writes (.removeEntry id hterm (by rw [hrec]; exact nofun))
    fun w' hb => ⟨hb.work, hb.out, hb.record.trans hrec⟩

/-- Removing an entry leaves every result. -/
theorem Stands.removed (h : Stands wrote ids w) {rest : List Bytes}
    (hrest : w'.work.Perm rest) (hout : w'.out = w.out)
    (hrec : w'.record = none) : Stands wrote rest w' where
  work := hrest
  record := hrec
  wrote other phase hlook hterm := by
    rw [Tree.terminal, hout]
    exact h.wrote other phase hlook hterm

theorem removeVerified_runs (hterm : w.terminal id = true) :
    RootRuns (removeVerified id) (fun _ w' => Beside w w') w := by
  refine root_reads fun c w' _ hb => ?_
  obtain ⟨⟨phase, written⟩, hres, hphase⟩ :=
    (Option.any_eq_true _ _).mp hterm
  rw [hres]
  cases phase with
  | verified => cases hphase
  | _ => exact hb

theorem recoverRecord_runs (hid : id ∈ w.work) :
    RootRuns (recoverRecord [] id) (fun r w' => ∀ wrote, r = some wrote →
      Stands wrote w'.work w') w := by
  refine (settled_runs (.nil w)).andThen ?_
  rintro found w₁ ⟨hb₁, rfl⟩
  cases hterm : w.terminal id with
  | true =>
    refine root_writes .unrecord fun w₂ hb₂ => ?_
    have hterm₂ : w₂.terminal id = true := by
      rw [hb₂.terminal]
      exact (hb₁.terminal id).trans hterm
    refine (removeEntry_runs hterm₂ hb₂.record).andThen ?_
    rintro _ w₃ ⟨-, -, hrec₃⟩ wrote hsome
    cases hsome
    exact ⟨List.Perm.refl _, hrec₃, .nil w₃⟩
  | false =>
    refine root_reads fun c w₂ _ hb₂ => ?_
    cases c.settled with
    | none => exact nofun
    | some phase =>
      have hid₂ : id ∈ w₂.work := by
        rw [hb₂.work, hb₁.work]
        exact hid
      refine (finish_runs hid₂ (.inl rfl) (.nil w₂)).andThen ?_
      intro wrote w₃ hdone wrote' hsome
      cases hsome
      exact ⟨List.Perm.refl _, hdone.record, hdone.wrote⟩

theorem recoverEntries_runs : ∀ {wrote : Wrote} {w : Tree}, Stands wrote ids w →
      RootRuns (recoverEntries wrote ids)
        (fun wrote' w' => Stands wrote' [] w') w := by
  induction ids with
  | nil => exact fun h => h
  | cons id ids ih =>
    intro wrote w h
    have hid : id ∈ w.work := h.work.mem_iff.mpr (.head _)
    refine (settled_runs h.wrote).andThen ?_
    rintro found w₁ ⟨hb₁, rfl⟩
    have h₁ := h.mono hb₁
    cases hterm : w.terminal id with
    | true =>
      refine (removeEntry_runs
        ((hb₁.terminal id).trans hterm) h₁.record).andThen ?_
      rintro _ w₂ ⟨hwork, hout, hrec⟩
      refine ih (h₁.removed ?_ hout hrec)
      rw [hwork]
      exact (h₁.work.erase id).trans (by simp)
    | false =>
      refine (finish_runs (hb₁.work ▸ hid) (.inr h₁.record) h₁.wrote).andThen ?_
      intro wrote' w₂ hdone
      refine (removeVerified_runs hdone.terminal).andThen ?_
      intro _ w₃ hb₃
      exact ih ((hdone.stands h₁.work).mono hb₃)

/-- Once the record is settled there is none. -/
theorem recoverTxn_runs :
    RootRuns recoverTxn (fun r w' => ∀ wrote, r = some wrote →
      Stands wrote w'.work w') w := by
  refine root_reads fun c w₁ htidy hb₁ => ?_
  cases hrec : w.record with
  | none =>
    intro wrote hsome
    cases hsome
    exact ⟨List.Perm.refl _, hb₁.record.trans hrec, .nil w₁⟩
  | some id => exact recoverRecord_runs (hb₁.work ▸ htidy.record id hrec)

theorem recoverAll_runs : RootRuns recoverAll
      (fun r w' => ∀ wrote, r = some wrote → Stands wrote [] w') w := by
  refine recoverTxn_runs.andThen ?_
  intro r w₁ h₁
  cases r with
  | none => exact nofun
  | some wrote =>
    refine root_reads fun c w₂ _ hb₂ => ?_
    refine (recoverEntries_runs ((h₁ wrote rfl).mono hb₂)).andThen ?_
    intro wrote' w₃ h₃ wrote'' hsome
    cases hsome
    exact h₃

-- ------ the bundles

/-- Where a run stands with the bundles it took: none of them has ended
before. -/
structure Ready (wrote : Wrote) (ids : List Bytes) (w : Tree) : Prop where
  stands : Stands wrote ids w
  nodup : ids.Nodup
  open_ : ∀ id ∈ ids, w.terminal id = false

theorem Ready.mono (h : Ready wrote ids w) (hb : Beside w w') :
    Ready wrote ids w' where
  stands := h.stands.mono hb
  nodup := h.nodup
  open_ id hid := (hb.terminal id).trans (h.open_ id hid)

theorem Ready.perm (h : Ready wrote ids w) {ids' : List Bytes}
    (hp : ids'.Perm ids) : Ready wrote ids' w where
  stands := { h.stands with work := h.stands.work.trans hp.symm }
  nodup := hp.nodup_iff.mpr h.nodup
  open_ id hid := h.open_ id (hp.mem_iff.mp hid)

theorem takeEach_runs : ∀ {kept : List Bytes} {w : Tree}, Ready wrote kept w →
      RootRuns (takeEach wrote ids)
        (fun rest w' => Ready wrote (rest ++ kept) w') w := by
  induction ids with
  | nil => exact fun h => h
  | cons id ids ih =>
    intro kept w h
    refine root_call fun c r w' htidy happ => ?_
    simp only [apply] at happ
    split at happ
    next hin =>
      cases happ
      refine ⟨.take id hin, fun w₁ hb₁ => ?_⟩
      have hwork : (w.take id).work.Perm (id :: kept) :=
        h.stands.work.cons id
      have hstands₁ : Stands wrote (id :: kept) w₁ :=
        Stands.mono (w := w.take id)
          ⟨hwork, h.stands.record, h.stands.wrote⟩ hb₁
      refine (settled_runs hstands₁.wrote).andThen ?_
      rintro found w₂ ⟨hb₂, rfl⟩
      have hstands₂ := hstands₁.mono hb₂
      have hterms : ∀ other, w₂.terminal other = w.terminal other :=
        fun other => (hb₂.terminal other).trans (hb₁.terminal other)
      cases hterm : w₁.terminal id with
      | true =>
        refine (removeEntry_runs ((hb₂.terminal id).trans hterm)
            hstands₂.record).andThen ?_
        rintro _ w₃ ⟨hwork₃, hout₃, hrec₃⟩
        refine ih ⟨hstands₂.removed ?_ hout₃ hrec₃, h.nodup, ?_⟩
        · rw [hwork₃]
          exact (hstands₂.work.erase id).trans (by simp)
        · intro other hother
          rw [Tree.terminal, hout₃]
          exact (hterms other).trans (h.open_ other hother)
      | false =>
        have hnew : id ∉ kept := by
          intro hmem
          exact htidy.apart id hin (h.stands.work.mem_iff.mpr hmem)
        have hready : Ready wrote (id :: kept) w₂ := by
          refine ⟨hstands₂, List.nodup_cons.mpr ⟨hnew, h.nodup⟩, ?_⟩
          intro other hother
          rcases List.mem_cons.mp hother with rfl | hother
          · exact (hb₂.terminal other).trans hterm
          · exact (hterms other).trans (h.open_ other hother)
        refine (ih hready).andThen ?_
        intro rest w₃ h₃
        exact h₃.perm List.perm_middle.symm
    next => cases happ

theorem readMarkers_runs : ∀ {w : Tree}, RootRuns (readMarkers ids)
      (fun r w' => Beside w w' ∧ r.map Prod.fst = ids) w := by
  induction ids with
  | nil => exact fun {w} => ⟨Beside.refl w, rfl⟩
  | cons id ids ih =>
    intro w
    refine root_reads fun c w₁ _ hb₁ => ?_
    refine ih.andThen ?_
    rintro rest w₂ ⟨hb₂, hrest⟩
    exact ⟨hb₁.trans hb₂, congrArg (id :: ·) hrest⟩

theorem take_runs (h : Stands wrote [] w) :
    RootRuns (take wrote) (fun ids w' => Ready wrote ids w') w := by
  refine root_reads fun c w₁ _ hb₁ => ?_
  have hready : Ready wrote [] w₁ := ⟨h.mono hb₁, List.nodup_nil, nofun⟩
  refine (takeEach_runs hready).andThen ?_
  intro kept w₂ h₂
  rw [List.append_nil] at h₂
  refine readMarkers_runs.andThen ?_
  rintro marked w₃ ⟨hb₃, hmarked⟩
  refine (h₂.mono hb₃).perm ?_
  rw [← hmarked]
  exact (List.perm_insertionSort postedBefore marked).map Prod.fst

section

variable (h : Ready wrote (id :: ids) w)
include h

/-- The others are as they were once one is finished. -/
theorem Ready.finished {wrote' : Wrote}
    (hdone : Finished w id wrote' w') : Ready wrote' ids w' where
  stands := hdone.stands h.stands.work
  nodup := (List.nodup_cons.mp h.nodup).2
  open_ other hother := by
    have hne : other ≠ id := by
      rintro rfl
      exact (List.nodup_cons.mp h.nodup).1 hother
    rw [hdone.others other hne]
    exact h.open_ other (.tail _ hother)

theorem Ready.mem_work : id ∈ w.work :=
  h.stands.work.mem_iff.mpr (.head _)

/-- A bundle is `verified`: none of what is ready has ended by it. -/
theorem Ready.file_verified :
    Ready (wrote.add id .verified) (id :: ids) (w.file id .verified) where
  stands :=
    { h.stands with
      wrote := fun other phase hlook hterm => by
        rcases lookup_add hlook with ⟨-, rfl⟩ | hold
        · cases hterm
        · have hold := h.stands.wrote other phase hold hterm
          have hne : other ≠ id := by
            rintro rfl
            rw [h.open_ other List.mem_cons_self] at hold
            cases hold
          rwa [terminal_file_ne hne] }
  nodup := h.nodup
  open_ other hother := by
    by_cases hne : other = id
    · rw [hne, terminal_file_self]
      rfl
    · rw [terminal_file_ne hne]
      exact h.open_ other hother

/-- With its `verified` result or without, a bundle is still to end. -/
theorem verify_runs {changes : Bool} : RootRuns (verify wrote id changes)
    (fun wrote' w' => Ready wrote' (id :: ids) w') w := by
  cases changes with
  | false => exact h
  | true =>
    exact root_writes (.file id .verified (.inl h.mem_work)
      (.inr ⟨h.mem_work, h.open_ id (.head _)⟩))
      fun w₁ hb₁ => h.file_verified.mono hb₁

theorem install_runs {changes recorded : Bool} {phase : Option Ending} :
    RootRuns (install wrote id changes recorded phase)
      (fun r w' => ∀ wrote', r = some wrote' → Ready wrote' ids w') w := by
  refine (verify_runs h).andThen fun wrote₁ w₁ h₁ => ?_
  -- with its record or without
  have hnote : RootRuns (if recorded then ask (.writeRecord id) else pure ())
      (fun _ w₂ => w₂.work = w₁.work ∧ w₂.out = w₁.out ∧
        (recorded = true ∨ w₂.record = none)) w₁ := by
    cases recorded with
    | true =>
      exact root_writes (.record id h₁.mem_work) fun w₂ hb₂ =>
        ⟨hb₂.work, hb₂.out, .inl rfl⟩
    | false => exact ⟨rfl, rfl, .inr h₁.stands.record⟩
  refine hnote.andThen ?_
  rintro _ w₂ ⟨hwork₂, hout₂, hrec₂⟩
  have hterms := terminal_congr hout₂
  cases phase with
  | none =>
    intro wrote' hsome
    cases hsome
  | some phase =>
    have hwrote₂ : Remembers wrote₁ w₂ := by
      intro other p hlook hterm
      rw [hterms]
      exact h₁.stands.wrote other p hlook hterm
    refine (finish_runs (hwork₂ ▸ h₁.mem_work) hrec₂ hwrote₂).andThen ?_
    intro wrote' w₃ hdone wrote'' hsome
    cases hsome
    have hothers : ∀ other, other ≠ id →
        w₃.terminal other = w₁.terminal other := by
      intro other hne
      rw [hdone.others other hne, hterms]
    have hdone₁ : Finished w₁ id wrote' w₃ :=
      ⟨hwork₂ ▸ hdone.work, hdone.record, hdone.terminal, hothers, hdone.wrote⟩
    exact h₁.finished hdone₁

theorem process_runs :
    RootRuns (process wrote id) (fun r w' => ∀ wrote', r = some wrote' →
      Ready wrote' ids w') w := by
  refine root_reads fun c w₁ _ hb₁ => ?_
  have h₁ := h.mono hb₁
  cases c.plan with
  | ends phase =>
    refine (finish_runs h₁.mem_work (.inr h₁.stands.record)
        h₁.stands.wrote).andThen ?_
    intro wrote' w₂ hdone wrote'' hsome
    cases hsome
    exact h₁.finished hdone
  | installs changes recorded phase => exact install_runs h₁

end

/-- When every bundle has ended, work/ is empty. -/
theorem processEach_runs : ∀ {wrote : Wrote} {w : Tree}, Ready wrote ids w →
      RootRuns (processEach wrote ids)
        (fun r w' => ∀ wrote', r = some wrote' → w'.work = []) w := by
  induction ids with
  | nil => exact fun h _ _ => h.stands.work.eq_nil
  | cons id ids ih =>
    intro wrote w h
    refine (process_runs h).andThen ?_
    intro r w₁ h₁
    cases r with
    | none => exact nofun
    | some wrote' => exact ih (h₁ wrote' rfl)

end Work

-- ====== Retention

/-- What the listings say of an id. -/
structure Listed (s : IdState) (w : Tree) : Prop where
  result : s.result = true → w.terminal s.id = true
  marker : s.marker = true → (w.stage.lookup s.id).isSome = true
  either : s.result = false → s.marker = true

/-- What lets the sweep act on an id: a terminal result, or a marker
whose pushes are all accounted for. -/
structure Candidate (s : IdState) (w : Tree) : Prop where
  listed : Listed s w
  inbox : s.result = false → s.id ∉ w.inbox
  pushes : s.result = false → ∀ p ∈ w.ledger, p.id = s.id → Excused w p

section Retention

variable {w w' : Tree} {wrote : Wrote} {s : IdState} {now : Nat}

theorem Listed.mono (h : Listed s w) (hb : Beside w w') : Listed s w' where
  result hres := (hb.terminal s.id).trans (h.result hres)
  marker hmark := hb.stage s.id (h.marker hmark)
  either := h.either

theorem Candidate.mono (h : Candidate s w) (hb : Beside w w') :
    Candidate s w' := by
  -- an id with a marker is not dropped again
  have hmarked : s.result = false → w.stage.lookup s.id ≠ none := by
    intro hres hnone
    have := h.listed.marker (h.listed.either hres)
    rw [hnone] at this
    cases this
  refine ⟨h.listed.mono hb, fun hres hin => ?_, fun hres p' hp' hid' => ?_⟩
  · rcases hb.inbox s.id hin with hin | hnew
    · exact h.inbox hres hin
    · exact hmarked hres hnew
  · rcases hb.ledger p' hp' with hnew | ⟨p, hp, hid, hexc⟩
    · exact absurd (hid' ▸ hnew) (hmarked hres)
    · exact hexc (h.pushes hres p hp (hid.symm.trans hid'))

theorem Candidate.ends (h : Candidate s w) :
    ∀ p ∈ w.ledger, p.id = s.id → Excused w p := by
  intro p hp hid
  cases hres : s.result with
  | true => exact .inl (hid ▸ h.listed.result hres)
  | false => exact h.pushes hres p hp hid

theorem Candidate.not_inbox (h : Candidate s w) (htidy : Tidy w) :
    s.id ∉ w.inbox := by
  cases hres : s.result with
  | false => exact h.inbox hres
  | true =>
    intro hin
    have hterm := h.listed.result hres
    rw [Tree.terminal, htidy.unfiled s.id hin] at hterm
    cases hterm

variable {id : Bytes} {states : List IdState}

/-- A result is filed for another id. -/
theorem Candidate.file (h : Candidate s w) {phase : Phase}
    (hne : s.id ≠ id) (hphase : phase.terminal = true) :
    Candidate s (w.file id phase) := by
  refine ⟨⟨fun hres => ?_, h.listed.marker, h.listed.either⟩, h.inbox, ?_⟩
  · rw [terminal_file_ne hne]
    exact h.listed.result hres
  · exact fun hres p hp hid => (h.pushes hres p hp hid).file (.inl hphase)

/-- Another id's marker goes. -/
theorem Candidate.unmark (h : Candidate s w) (hne : s.id ≠ id) :
    Candidate s { w with stage := w.stage.erase id } := by
  refine ⟨⟨h.listed.result, fun hmark => ?_, h.listed.either⟩, h.inbox,
    h.pushes⟩
  change ((w.stage.erase id).lookup s.id).isSome = true
  rw [AList.lookup_erase_ne hne]
  exact h.listed.marker hmark

/-- Another id's result goes. -/
theorem Candidate.unfile (h : Candidate s w) (hne : s.id ≠ id) :
    Candidate s (w.unfile id) := by
  refine ⟨⟨fun hres => ?_, h.listed.marker, h.listed.either⟩, h.inbox, ?_⟩
  · rw [terminal_unfile_ne hne]
    exact h.listed.result hres
  · intro hres p' hp' hid'
    obtain ⟨p, hp, rfl⟩ := List.mem_map.mp hp'
    rw [Push.sweep_id] at hid'
    exact (h.pushes hres p hp hid').unfile

/-- Where the sweep stands with the candidates to come. -/
structure Sweeps (states : List IdState) (w : Tree) : Prop where
  work : w.work = []
  nodup : (states.map IdState.id).Nodup
  each : ∀ s ∈ states, Candidate s w

theorem Sweeps.mono (h : Sweeps states w)
    (hb : Beside w w') : Sweeps states w' where
  work := hb.work.trans h.work
  nodup := h.nodup
  each s hs := (h.each s hs).mono hb

/-- The rest is left as it was by what is done to the first. -/
theorem Sweeps.tail (h : Sweeps (s :: states) w) (hwork : w'.work = w.work)
    (hkeep : ∀ s' ∈ states, s'.id ≠ s.id → Candidate s' w →
      Candidate s' w') : Sweeps states w' where
  work := hwork.trans h.work
  nodup := (List.nodup_cons.mp h.nodup).2
  each s' hs' := by
    refine hkeep s' hs' ?_ (h.each s' (.tail _ hs'))
    intro heq
    exact (List.nodup_cons.mp h.nodup).1 (heq ▸ List.mem_map_of_mem hs')

/-- The first candidate's marker goes, then its result. -/
theorem unmark_runs (h : Sweeps (s :: states) w) :
    RootRuns (if s.marker then ask (.removeMarker s.id) else pure ())
      (fun _ w' => Sweeps states w' ∧
        (s.result = true → w'.terminal s.id = true)) w := by
  have hcand := h.each s (.head _)
  cases s.marker with
  | false => exact ⟨h.tail rfl fun _ _ _ hc => hc, hcand.listed.result⟩
  | true =>
    refine root_call fun c r w' htidy happ => ?_
    cases happ
    refine ⟨.unmark s.id h.work (hcand.not_inbox htidy) hcand.ends,
      fun w' hb => ?_⟩
    have hrest : Sweeps states { w with stage := w.stage.erase s.id } :=
      h.tail rfl fun s' _ hne hc => hc.unmark hne
    refine ⟨hrest.mono hb, fun hres => ?_⟩
    exact (hb.terminal s.id).trans (hcand.listed.result hres)

theorem unfile_runs (h : Sweeps states w) (hne : ∀ s' ∈ states, s'.id ≠ s.id)
    (hres : s.result = true → w.terminal s.id = true) :
    RootRuns (if s.result then ask (.removeResult s.id) else pure ())
      (fun _ w' => Sweeps states w') w := by
  cases hresult : s.result with
  | false => exact h
  | true =>
    refine root_writes (.unfile s.id (hres hresult)) fun w' hb => ?_
    have hrest : Sweeps states (w.unfile s.id) :=
      ⟨h.work, h.nodup, fun s' hs' =>
        (h.each s' hs').unfile (hne s' hs')⟩
    exact hrest.mono hb

theorem sweepEach_runs :
    ∀ {wrote : Wrote} {n : Nat} {w : Tree}, Sweeps states w →
      RootRuns (sweepEach wrote now n states) (fun _ _ => True) w := by
  induction states with
  | nil => exact fun _ => trivial
  | cons s states ih =>
    intro wrote n w h
    have hcand := h.each s (.head _)
    rw [sweepEach]
    cases hkeep : (wrote.lookup s.id).isSome || keeps now n s.key with
    | true =>
      cases hres : s.result with
      | true => exact ih (h.tail rfl fun _ _ _ hc => hc)
      | false =>
        -- the push was lost before root saw it: it is filed as failed
        refine root_writes (.file s.id failed (.inr ⟨?_, hcand.inbox hres⟩)
          (.inl rfl)) fun w₁ hb₁ => ?_
        · exact hcand.listed.marker (hcand.listed.either hres)
        · have hrest : Sweeps states (w.file s.id failed) :=
            h.tail rfl fun s' _ hne hc => hc.file hne rfl
          exact ih (hrest.mono hb₁)
    | false =>
      have hne : ∀ s' ∈ states, s'.id ≠ s.id := by
        intro s' hs' heq
        exact (List.nodup_cons.mp h.nodup).1 (heq ▸ List.mem_map_of_mem hs')
      refine (unmark_runs h).andThen ?_
      rintro _ w₁ ⟨h₁, hres₁⟩
      refine (unfile_runs h₁ hne hres₁).andThen ?_
      exact fun _ w₂ h₂ => ih h₂

-- ------ the candidates

/-- A marker without a result, its bundle neither in in/ nor in work/,
is of a push accounted for. -/
theorem stranded_runs {held : Option Bytes} (h : Listed s w)
    (hwork : w.work = []) : RootRuns (stranded now held s)
      (fun found w' => Beside w w' ∧ (found = true → Candidate s w')) w := by
  rw [stranded]
  by_cases hheld : held = some s.id
  · rw [if_pos hheld]
    exact ⟨Beside.refl w, nofun⟩
  · rw [if_neg hheld]
    refine root_reads fun c w₁ htidy hb₁ => ?_
    by_cases hin : s.id ∈ w.inbox
    · simp only [hin, decide_true]
      exact ⟨hb₁, nofun⟩
    · simp only [hin, decide_false]
      have hcand : Candidate s w := by
        refine ⟨h, fun _ => hin, fun _ p hp hid => ?_⟩
        refine (htidy.tracked p hp).resolve_right ?_
        rw [hid, hwork]
        exact fun hwhere => hwhere.elim hin nofun
      refine root_reads fun c w₂ _ hb₂ => ?_
      have hb := hb₁.trans hb₂
      cases decide (s.id ∈ w₁.work) with
      | true => exact ⟨hb, nofun⟩
      | false => exact ⟨hb, fun _ => hcand.mono hb⟩

theorem candidates_runs {held : Option Bytes} :
    ∀ {w : Tree}, w.work = [] → (states.map IdState.id).Nodup →
      (∀ s ∈ states, Listed s w) → RootRuns (candidates wrote now held states)
        (fun cs w' => Beside w w' ∧ cs.Sublist states ∧
          ∀ s ∈ cs, Candidate s w') w := by
  induction states with
  | nil => exact fun {w} _ _ _ => ⟨Beside.refl w, .slnil, nofun⟩
  | cons s states ih =>
    intro w hwork hnodup hlisted
    have hs := hlisted s (.head _)
    have hnodup' : (states.map IdState.id).Nodup :=
      (List.nodup_cons.mp hnodup).2
    have htakes : RootRuns
        (if s.result then pure true
          else if (wrote.lookup s.id).isSome then pure false
          else stranded now held s)
        (fun found w' => Beside w w' ∧ (found = true → Candidate s w'))
        w := by
      cases hres : s.result with
      | true =>
        exact ⟨Beside.refl w, fun _ => ⟨hs, fun hno => absurd
          (hres.symm.trans hno) nofun, fun hno => absurd
          (hres.symm.trans hno) nofun⟩⟩
      | false =>
        cases (wrote.lookup s.id).isSome with
        | true => exact ⟨Beside.refl w, nofun⟩
        | false => exact stranded_runs hs hwork
    refine htakes.andThen ?_
    rintro found w₁ ⟨hb₁, hcand⟩
    have hrest := ih (hb₁.work.trans hwork) hnodup' fun s' hs' =>
      (hlisted s' (.tail _ hs')).mono hb₁
    cases found with
    | false =>
      refine hrest.post ?_
      rintro cs w₂ ⟨hb₂, hsub, hcs⟩
      exact ⟨hb₁.trans hb₂, hsub.cons s, hcs⟩
    | true =>
      refine hrest.andThen ?_
      rintro cs w₂ ⟨hb₂, hsub, hcs⟩
      refine ⟨hb₁.trans hb₂, hsub.cons_cons s, fun s' hs' => ?_⟩
      rcases List.mem_cons.mp hs' with rfl | hs'
      · exact (hcand rfl).mono hb₂
      · exact hcs s' hs'

/-- The ids of a sweep are distinct. -/
theorem idStates_nodup {out : List (Bytes × Nat)}
    {markers : List (Bytes × Option Nat)} (hout : (out.map Prod.fst).Nodup)
    (hmarkers : (markers.map Prod.fst).Nodup) :
    ((idStates now out markers).map IdState.id).Nodup := by
  have hids : (idStates now out markers).map IdState.id = out.map Prod.fst ++
        (markers.filter fun m => decide (m.1 ∉ out.map Prod.fst)).map
          Prod.fst := by
    simp [idStates, Function.comp_def]
  rw [hids, List.nodup_append]
  refine ⟨hout, hmarkers.sublist (List.filter_sublist.map _), ?_⟩
  rintro a ha b hb rfl
  obtain ⟨m, hm, rfl⟩ := List.mem_map.mp hb
  exact of_decide_eq_true (List.mem_filter.mp hm).2 ha

/-- What the listings say holds, when all results are terminal. -/
theorem idStates_listed {out : List (Bytes × Nat)}
    {markers : List (Bytes × Option Nat)}
    (hout : ∀ r ∈ out, w.terminal r.1 = true)
    (hmarkers : ∀ m ∈ markers, (w.stage.lookup m.1).isSome = true) :
    ∀ s ∈ idStates now out markers, Listed s w := by
  intro s hs
  rcases List.mem_append.mp hs with hs | hs
  · obtain ⟨r, hr, rfl⟩ := List.mem_map.mp hs
    refine ⟨fun _ => hout r hr, fun hmark => ?_, nofun⟩
    obtain ⟨m, hm, hid⟩ := List.mem_map.mp (of_decide_eq_true hmark)
    exact hid ▸ hmarkers m hm
  · obtain ⟨m, hm, rfl⟩ := List.mem_map.mp hs
    exact ⟨nofun, fun _ => hmarkers m (List.mem_filter.mp hm).1, fun _ => rfl⟩

/-- With work/ empty every result is terminal. -/
theorem Tidy.terminal (h : Tidy w) (hwork : w.work = [])
    {res : Filed} (hres : w.out.lookup id = some res) :
    w.terminal id = true := by
  rw [Tree.terminal, hres]
  cases hterm : res.phase.terminal with
  | true => exact hterm
  | false =>
    have := h.verified id res hres hterm
    rw [hwork] at this
    cases this

theorem sweep_runs (hwork : w.work = []) :
    RootRuns (sweep wrote) (fun _ _ => True) w := by
  refine root_reads fun c w₁ _ hb₁ => ?_
  refine root_reads fun c w₂ htidy₁ hb₂ => ?_
  refine root_reads fun c w₃ _ hb₃ => ?_
  refine readMarkers_runs.andThen ?_
  rintro markers w₄ ⟨hb₄, hmarkers⟩
  refine root_reads fun c w₅ _ hb₅ => ?_
  have hb₂₅ := (hb₃.trans hb₄).trans hb₅
  have hb₁₅ := hb₂.trans hb₂₅
  have hwork₁ : w₁.work = [] := hb₁.work.trans hwork
  have hwork₅ : w₅.work = [] := hb₁₅.work.trans hwork₁
  have hids : ((w₁.out.entries.map fun e => (e.1, e.2.written)).map
      Prod.fst).Nodup := by
    rw [List.map_map]
    exact w₁.out.keys_nodup
  have hout : ∀ r ∈ w₁.out.entries.map fun e => (e.1, e.2.written),
      w₅.terminal r.1 = true := by
    intro r hr
    obtain ⟨e, he, rfl⟩ := List.mem_map.mp hr
    rw [hb₁₅.terminal]
    exact htidy₁.terminal hwork₁ (AList.mem_lookup_iff.mpr he)
  have hmarked : ∀ m ∈ markers, (w₅.stage.lookup m.1).isSome = true := by
    intro m hm
    refine hb₂₅.stage m.1 ?_
    rw [AList.lookup_isSome, AList.mem_keys, ← hmarkers]
    exact List.mem_map_of_mem hm
  have hnodup : ((idStates w.clock _ markers).map IdState.id).Nodup :=
    idStates_nodup hids (hmarkers ▸ w₂.stage.keys_nodup)
  refine (candidates_runs hwork₅ hnodup
    (idStates_listed hout hmarked)).andThen ?_
  rintro cs w₆ ⟨hb₆, hsub, hcs⟩
  have hperm := List.perm_insertionSort newer cs
  refine sweepEach_runs ⟨hb₆.work.trans hwork₅, ?_, ?_⟩
  · exact (hperm.map IdState.id).nodup_iff.mpr (hnodup.sublist (hsub.map _))
  · exact fun s hs => hcs s (hperm.mem_iff.mp hs)

/-- Root's whole run. -/
theorem run_runs : RootRuns run (fun _ _ => True) w := by
  refine recoverAll_runs.andThen ?_
  intro r w₁ h₁
  cases r with
  | none => trivial
  | some wrote =>
    refine (take_runs (h₁ wrote rfl)).andThen ?_
    intro ids w₂ h₂
    refine (processEach_runs h₂).andThen ?_
    intro r w₃ h₃
    cases r with
    | none => trivial
    | some wrote' => exact sweep_runs (h₃ wrote' rfl)

end Retention

-- ====== every run

theorem exchange_sound :
    Pool.Sound exchange begins Tidy Moves (fun _ _ _ => True) where
  keeps _ _ _ htidy hm := hm.tidy htidy
  env := by
    rintro w w' htidy ⟨n, rfl⟩
    exact htidy.tick n
  lost := by
    rintro t w w' - ⟨rfl, rfl⟩
    exact RootMove.stay
  boot := by
    intro t w p w' _ hboot
    cases t with
    | handler n =>
      obtain ⟨⟨id, rfl⟩, rfl⟩ := hboot
      exact ⟨HandlerMove.stay, fun w'' _ => admit_runs id w''⟩
    | applier =>
      obtain ⟨rfl, rfl⟩ := hboot
      exact ⟨RootMove.stay, fun w'' _ => run_runs⟩

theorem idle_fair (clock : Nat) :
    Pool.Fair exchange Tidy Moves (fun _ _ _ => True) (idle clock) :=
  ⟨tidy_fresh clock, nofun⟩

/-- A move that adds to the ledger is a drop, with all that goes before
one. -/
theorem Moves.drop_inv {t : Thread} {w : Tree} {id : Bytes}
    (hm : Moves t w (w.drop id)) :
    w.stage.lookup id = none ∧ w.out.lookup id = none ∧
      ∀ p ∈ w.ledger, Excused w p := by
  have hlen : (w.drop id).ledger.length = w.ledger.length + 1 := rfl
  generalize hw' : w.drop id = w' at hm hlen
  cases t with
  | handler n =>
    cases hm with
    | drop id' _ _ _ hstage hout _ hexc =>
      have hid : id = id' := by
        have := congrArg (fun v => v.ledger.map Push.id) hw'
        simpa [Tree.drop] using this
      subst hid
      exact ⟨hstage, hout, hexc⟩
    | mark => simp [Tree.mark] at hlen
    | _ => simp at hlen
  | applier =>
    cases hm with
    | unfile => simp [Tree.unfile] at hlen
    | take => simp [Tree.take] at hlen
    | file => simp [Tree.file] at hlen
    | _ => simp at hlen

/-- One push at a time. In every run of any number of handlers' requests
and of root's applier, cut anywhere, a thread about to drop a bundle finds
every bundle dropped before with a terminal result in out/, with one that
Retention has swept, or with a marker at least `pendingAge` old; and the
id it drops has neither a marker nor a result. -/
theorem one_push_at_a_time {clock : Nat} {q : Pool Thread Call.Answer Unit Tree}
    (hreach : Pool.Reach exchange begins (idle clock) q) {t : Thread}
    {id : Bytes} {k : (Call.dropBundle id).Answer → Act Unit}
    (hdrop : q.run t = some (.call (.dropBundle id) k)) :
    (∀ p ∈ q.world.ledger, (∃ res, q.world.out.lookup p.id = some res ∧
        res.phase.terminal = true) ∨ p.swept = true ∨
      ∃ posted, p.posted = some posted ∧ posted + pendingAge ≤ q.world.clock) ∧
    q.world.stage.lookup id = none ∧ q.world.out.lookup id = none := by
  have hfair := exchange_sound.reach hreach (idle_fair clock)
  have hobeys := hfair.threads t _ hdrop _ .refl
  obtain ⟨hm, -⟩ := hobeys ⟨true, .installs true true none, none⟩ () _
    hfair.inv rfl
  obtain ⟨hstage, hout, hexc⟩ := Moves.drop_inv hm
  refine ⟨fun p hp => ?_, hstage, hout⟩
  exact (hexc p hp).imp_left (Option.any_eq_true _ _).mp

/-- Two requests and a run of root, all begun. -/
def begun (first second : Bytes) : Pool Thread Call.Answer Unit Tree :=
  (((idle 0).move (.handler 0) (some (admitPush first)) (Tree.fresh 0)).move
    (.handler 1) (some (admitPush second)) (Tree.fresh 0)).move
    .applier (some run) (Tree.fresh 0)

theorem begun_reach (first second : Bytes) :
    Pool.Reach exchange begins (idle 0) (begun first second) := by
  have hrequest : ∀ (n : Nat) (id : Bytes) (w : Tree),
      begins (.handler n) w (admitPush id) w := fun n id w => ⟨⟨id, rfl⟩, rfl⟩
  have hroot : ∀ w, begins .applier w run w := fun w => ⟨rfl, rfl⟩
  have hfirst := Pool.Step.start (M := exchange) (q := idle 0) rfl
    (hrequest 0 first _)
  have hsecond := Pool.Step.start (M := exchange)
    (q := (idle 0).move (.handler 0) (some (admitPush first)) (Tree.fresh 0))
    rfl
    (hrequest 1 second _)
  exact ((Relation.ReflTransGen.single hfirst).tail hsecond).tail
    (.start rfl (hroot _))

/-- The first bundle dropped, taken and refused, the second handler comes
to its own drop. -/
def droppingSecond (q : Pool Thread Call.Answer Unit Tree) : Bool :=
  match q.run (.handler 1) with
  | some (.call (.dropBundle id) _) =>
    id == [2] && q.world.ledger.map Push.id == [[1]]
  | _ => false

theorem one_push_at_a_time_second : ∃ q, Pool.Reach exchange begins (idle 0) q ∧
      (∃ k, q.run (.handler 1) = some (.call (.dropBundle [2]) k)) ∧
      q.world.ledger.map Push.id = [[1]] ∧
      ∀ p ∈ q.world.ledger, (∃ res, q.world.out.lookup p.id = some res ∧
          res.phase.terminal = true) ∨ p.swept = true ∨
        ∃ posted, p.posted = some posted ∧
          posted + pendingAge ≤ q.world.clock := by
  let fate : Fate := ⟨true, .ends ⟨.refused, rfl⟩, none⟩
  let turns (t : Thread) (n : Nat) := List.replicate n (t, fate)
  obtain ⟨q, hreach, hend⟩ := Pool.exec_reach_any (M := exchange)
    (q := begun [1] [2]) (f := droppingSecond) begins
    (turns (.handler 0) 12 ++ turns .applier 14 ++ turns (.handler 1) 10)
    (by decide +kernel)
  have hreach := (begun_reach [1] [2]).trans hreach
  unfold droppingSecond at hend
  split at hend
  next id k hrun =>
    rw [Bool.and_eq_true, beq_iff_eq, beq_iff_eq] at hend
    obtain ⟨rfl, hledger⟩ := hend
    exact ⟨q, hreach, ⟨k, hrun⟩, hledger, (one_push_at_a_time hreach hrun).1⟩
  next => cases hend

/-- No push is lost. In every run, cut anywhere, in/ holds one bundle at
most, with no result and not in work/; a push not accounted for has its
bundle in in/ or work/ and, once the lock is free, its marker in stage/;
and txn.json and any unfinished result are of a bundle in work/. -/
theorem no_push_is_lost {clock : Nat}
    {q : Pool Thread Call.Answer Unit Tree}
    (hreach : Pool.Reach exchange begins (idle clock) q) :
    let w := q.world
    w.inbox.length ≤ 1 ∧
    (∀ id ∈ w.inbox, id ∉ w.work ∧ w.out.lookup id = none) ∧
    (∀ p ∈ w.ledger, Excused w p ∨ (p.id ∈ w.inbox ∨ p.id ∈ w.work) ∧
      (w.lock = none → w.stage.lookup p.id = p.posted ∧ p.posted ≠ none)) ∧
    (∀ id r, w.out.lookup id = some r → r.phase.terminal = false →
      id ∈ w.work) ∧
    ∀ id, w.record = some id → id ∈ w.work := by
  intro w
  have h : Tidy w := (exchange_sound.reach hreach (idle_fair clock)).inv
  refine ⟨h.one, fun id hid => ⟨h.apart id hid, h.unfiled id hid⟩,
    fun p hp => ?_, h.verified, h.record⟩
  rcases h.tracked p hp with hexc | hin
  · exact .inl hexc
  refine (h.marked p hp).imp_right fun hmark => ⟨hin, fun hfree => ?_⟩
  have hposted := h.free hfree p hp
  exact ⟨hmark.resolve_left hposted, hposted⟩

/-- A push that changes nothing, at the point where root has written its
record and no result of it. -/
def heldByRecord (w : Tree) : Bool :=
  w.ledger == [⟨[1], some 0, false⟩] && w.record == some [1] &&
    w.out.lookup [1] == none && w.clock == 0 && w.lock == none

theorem no_push_is_lost_dropped : ∃ q, Pool.Reach exchange begins (idle 0) q ∧
      heldByRecord q.world = true ∧ [1] ∈ q.world.work ∧
      q.world.stage.lookup [1] = some 0 := by
  let fate : Fate := ⟨true, .installs false true none, none⟩
  let turns (t : Thread) (n : Nat) := List.replicate n (t, fate)
  obtain ⟨q, hreach, hend⟩ := Pool.exec_reach_any (M := exchange)
    (q := begun [1] [2]) (f := fun q => heldByRecord q.world)
    begins (turns (.handler 0) 12 ++ turns .applier 8) (by decide +kernel)
  have hreach := (begun_reach [1] [2]).trans hreach
  obtain ⟨-, -, hpushes, -, hrecord⟩ := no_push_is_lost hreach
  simp only [heldByRecord, Bool.and_eq_true, beq_iff_eq] at hend
  obtain ⟨⟨⟨⟨hledger, hrec⟩, hout⟩, hclock⟩, hlock⟩ := hend
  refine ⟨q, hreach, by simp [heldByRecord, *], hrecord [1] hrec, ?_⟩
  rcases hpushes ⟨[1], some 0, false⟩ (by simp [hledger]) with hexc | hheld
  · rcases hexc with hterm | hswept | ⟨posted, hposted, hold⟩
    · rw [Tree.terminal, hout] at hterm
      cases hterm
    · cases hswept
    · cases hposted
      rw [hclock] at hold
      exact absurd hold (by decide)
  · exact (hheld.2 hlock).1

end Hotserve.Box.Exchange
