/-
The baseline is sound in every run.

Most of each program is ordinary and keeps the log in order. What is
left is `advance`, which writes applied.json: its reads are followed one
by one, since they are what backs the baseline, and the record it is
written under has to be the one on disk from the first read on.
-/
import Hotserve.Box.Proofs.Atomic
import Hotserve.Box.Proofs.Log

namespace Hotserve.Box

open Bytes Effect

variable {h : Host} {w w' : World} {id : Bytes} {t : Txn} {α : Type}

-- ====== the reads

/-- Nothing but reads and a hand at the console since `w`. -/
structure Still (w w' : World) : Prop where
  txn : w'.txn = w.txn
  log : w'.log = w.log

theorem Still.refl (w : World) : Still w w := ⟨rfl, rfl⟩

theorem Still.trans {w'' : World} (h₁ : Still w w') (h₂ : Still w' w'') :
    Still w w'' :=
  ⟨h₂.txn.trans h₁.txn, h₂.log.trans h₁.log⟩

theorem Still.logInv (hs : Still w w') (hI : LogInv h w) : LogInv h w' := by
  refine ⟨hs.log ▸ hI.good, fun r hr hp => ?_⟩
  rw [hs.log]
  exact hI.cleared r (hs.txn ▸ hr) hp

/-- A hand at the console changes neither the record, nor the log, nor
what was read. -/
theorem manned_drift (hd : manned.Drift w w') :
    Still w w' ∧ w'.reads = w.reads := by
  induction hd with
  | refl => exact ⟨.refl w, rfl⟩
  | tail _ hstep ih =>
    obtain ⟨c, e, rfl⟩ := hstep
    exact ⟨⟨ih.1.txn, ih.1.log⟩, ih.2⟩

theorem Still.drift (hd : manned.Drift w w') : Still w w' :=
  (manned_drift hd).1

/-- The read is one of this file; the Caddyfile is the one of no app. -/
def Sight.Of (app : Bytes) : Sight → Prop
  | .caddyfile _ => app = []
  | .env app' _ => app' = app ∧ app ≠ []

/-- Every read so far bears the record out, and these files were read. -/
structure Borne (h : Host) (r : Record) (apps : List Bytes) (w : World) :
    Prop where
  bears : ∀ s ∈ w.reads, s.Bears h r
  seen : ∀ app ∈ apps, ∃ s ∈ w.reads, s.Of app

variable {app : Bytes} {p : Act α} {r : Record} {apps : List Bytes}

theorem Borne.nil (hw : w.reads = []) : Borne h r [] w :=
  ⟨by simp [hw], by simp⟩

theorem Borne.sub {apps' : List Bytes} (hb : Borne h r apps w)
    (hsub : ∀ x ∈ apps', x ∈ apps) : Borne h r apps' w :=
  ⟨hb.bears, fun x hx => hb.seen x (hsub x hx)⟩

/-- One more read, of one more file. -/
theorem Borne.cons {s : Sight} (hb : Borne h r apps w)
    (hw : w'.reads = s :: w.reads) (hs : s.Bears h r) (hof : s.Of app) :
    Borne h r (app :: apps) w' := by
  constructor
  · rw [hw]
    exact List.forall_mem_cons.mpr ⟨hs, hb.bears⟩
  · rw [hw]
    refine List.forall_mem_cons.mpr ⟨⟨s, .head _, hof⟩, ?_⟩
    intro x hx
    obtain ⟨s', hmem, hof'⟩ := hb.seen x hx
    exact ⟨s', .tail _ hmem, hof'⟩

/-- The Caddyfile's digest comes of one read of it. -/
theorem reads_installedDigest : Safe manned (Still w) (installedDigest h)
    (Through (Still w) fun d w' => Still w w' ∧ ∃ answer,
      w'.reads = .caddyfile answer :: w.reads ∧
        (d ≠ [] → ∃ data, answer = .ok data ∧ h.digest data = d)) w := by
  intro c answer w' w'' _ happ hd
  obtain ⟨rfl, -⟩ := Fate.look_cases happ
  obtain ⟨hs, hreads⟩ := manned_drift hd
  have hstill : Still w w'' := ⟨hs.txn, hs.log⟩
  refine ⟨⟨rfl, rfl⟩, ?_⟩
  rcases answer with (_ | _ | e) | b
  case error.notExist | error.tooLarge =>
    exact ⟨hstill, _, hreads, fun hne => absurd rfl hne⟩
  case error.other => exact hstill
  case ok => exact ⟨hstill, _, hreads, fun _ => ⟨b, rfl, rfl⟩⟩

/-- An env file's digest comes of one read of it; one that a record can
list is a regular file's. -/
theorem reads_envDigest : Safe manned (Still w) (envDigest h app)
    (Through (Still w) fun d w' => Still w w' ∧ ∃ answer,
      w'.reads = .env app answer :: w.reads ∧ (isDigest d = true →
        ∃ e, answer = .ok e ∧ e.regular = true ∧ h.digest e.data = d)) w := by
  intro c answer w' w'' _ happ hd
  obtain ⟨rfl, -⟩ := Fate.look_cases happ
  obtain ⟨hs, hreads⟩ := manned_drift hd
  have hstill : Still w w'' := ⟨hs.txn, hs.log⟩
  have hneither : isDigest envNeither = false := by decide
  refine ⟨⟨rfl, rfl⟩, ?_⟩
  rcases answer with (_ | _ | e) | b
  case error.notRegular | error.tooLarge =>
    exact ⟨hstill, _, hreads, fun hdig => by simp [hneither] at hdig⟩
  case error.other => exact hstill
  case ok =>
    refine ⟨hstill, _, hreads, fun hdig => ?_⟩
    cases hreg : b.regular with
    | false => simp [hreg, isDigest] at hdig
    | true => exact ⟨b, rfl, hreg, by simp⟩

/-- What the set says of an env file that is listed. -/
theorem Txn.listed_digest {d : Bytes} (hsound : t.record.Sound h)
    (happ : app ∈ t.envApps)
    (hd : (app, d) ∈ t.record.secretsInstalled.entries) :
    (t.env app).newSHA256 = d := by
  obtain ⟨e, he, rfl⟩ := List.mem_map.mp happ
  have hlist := hsound.listed e he
  rw [Record.listedAs, StrMap.get?_eq_some_iff.mpr hd] at hlist
  simp only [Bool.and_eq_true, beq_iff_eq] at hlist
  rw [Txn.env_eq rfl hsound.toSetSound he]
  exact hlist.2.symm

/-- One file of the set read: found as the push leaves it, the read bears
the record out. With nothing to install, as it was is as it will be. -/
theorem reads_state (hsound : t.record.Sound h) (happ : app ∈ [] :: t.envApps) :
    Safe manned (Still w) (state h t app) (Through (Still w) fun f w' =>
      Still w w' ∧ (t.record.phase = .noChange → f.prev = f.next) ∧
        (f.next = true → ∀ {apps}, Borne h t.record apps w →
          Borne h t.record (app :: apps) w')) w := by
  unfold state
  split
  next hnil =>
    refine reads_installedDigest.through (fun _ _ hs => hs) ?_
    rintro d w' ⟨hstill, answer, hreads, hdig⟩
    refine ⟨hstill, fun hph => ?_, fun hnext apps hb => ?_⟩
    · dsimp only [fileAt]
      rw [(hsound.no_change hph).1]
    · have hd : d = t.record.newSHA256 := of_decide_eq_true hnext
      have hne : d ≠ [] := hd ▸ isDigest_ne_nil hsound.new_isDigest
      obtain ⟨data, hanswer, hdata⟩ := hdig hne
      exact hb.cons hreads ⟨data, hanswer, hdata.trans hd⟩ hnil
  next hne =>
    have henv : app ∈ t.envApps := List.mem_of_ne_of_mem hne happ
    refine reads_envDigest.through (fun _ _ hs => hs) ?_
    rintro d w' ⟨hstill, answer, hreads, hdig⟩
    refine ⟨hstill, fun hph => ?_, fun hnext apps hb => ?_⟩
    · rw [Txn.envApps, (hsound.no_change hph).2] at henv
      cases henv
    · refine hb.cons hreads (fun _ d' hlisted => ?_) ⟨rfl, hne⟩
      have hd : d = d' := (of_decide_eq_true hnext : d = _).trans
        (Txn.listed_digest hsound henv hlisted)
      exact hd ▸ hdig (hd ▸ (hsound.managed _ hlisted).2)

/-- The set read: all of it found as the push leaves it, the reads bear
the record out. -/
theorem reads_states (hsound : t.record.Sound h) :
    Safe manned (Still w) (states h t) (Through (Still w) fun fs w' =>
      Still w w' ∧ (t.record.phase = .noChange → ∀ f ∈ fs, f.prev = f.next) ∧
        (firstNot fs FileAt.next = none → Borne h t.record [] w →
          Borne h t.record ([] :: t.envApps) w')) w := by
  -- the same of the files read so far
  refine safe_loop (fun done fs w' => Still w w' ∧
      (t.record.phase = .noChange → ∀ f ∈ fs, f.prev = f.next) ∧
      ((∀ f ∈ fs, f.next = true) → Borne h t.record [] w →
        Borne h t.record done w')) ⟨.refl w, by simp, fun _ hb => hb⟩ ?_ ?_
  · rintro fs w' ⟨hstill, hsame, hborne⟩
    refine ⟨hstill, hsame, fun hnone hb => ?_⟩
    exact hborne (firstNot_eq_none.mp hnone) hb
  · rintro done app happ fs w₁ ⟨hstill, hsame, hborne⟩
    refine ((reads_state hsound happ).mono (fun _ hs => hstill.trans hs)
      fun _ _ ha => ha).through (fun _ _ hs => hstill.trans hs) ?_
    rintro f w₂ ⟨hstill', hprev, hnext⟩
    refine ⟨hstill.trans hstill', ?_, ?_⟩
    · intro hph
      rw [List.forall_mem_append, List.forall_mem_singleton]
      exact ⟨hsame hph, hprev hph⟩
    · rw [List.forall_mem_append, List.forall_mem_singleton]
      rintro ⟨hfs, hfnext⟩ hb
      exact (hnext hfnext (hborne hfs hb)).sub (by simp [or_comm])

/-- Reads keep the log in order. -/
theorem safe_reads {Q : α → World → Prop} (hp : Safe manned (Still w) p Q w)
    (hI : LogInv h w) : Safe manned (LogInv h) p Q w :=
  hp.mono (fun _ hs => hs.logInv hI) fun _ _ ha => ha

/-- The program keeps the log in order. -/
abbrev KeepsLog (h : Host) (p : Act α) (w : World) : Prop :=
  Keeps manned (LogInv h) p w

/-- A program of a transaction that has no file to write. -/
theorem safe_aside (hp : p.All (Ordinary none)) (hI : LogInv h w) :
    KeepsLog h p w :=
  (safe_ordinary hp ⟨hI, by simp⟩).post fun _ _ hI => hI.1

/-- A program of a transaction that may write its files. -/
theorem safe_cleared (hp : p.All (Ordinary (some id))) (hI : LogInv h w)
    (hid : Cleared id w.log) : KeepsLog h p w :=
  (safe_ordinary hp ⟨hI, by rintro i ⟨⟩; exact hid⟩).post fun _ _ hI => hI.1

/-- The listed files outside the set, each read at its digest. -/
theorem reads_checkListed (hI : LogInv h w) (hsound : t.record.Sound h)
    (hb : Borne h t.record ([] :: t.envApps) w) :
    Safe manned (LogInv h) (checkListed h t) (Through (LogInv h) fun _ w' =>
      Still w w' ∧ ∃ apps, Borne h t.record apps w' ∧ [] ∈ apps ∧
        ∀ p ∈ t.record.secretsInstalled.entries, p.1 ∈ apps) w := by
  refine safe_loop (fun done _ w' => Still w w' ∧ ∃ apps,
      Borne h t.record apps w' ∧ [] :: t.envApps ⊆ apps ∧
      ∀ p ∈ done, p.1 ∈ apps)
    ⟨.refl w, _, hb, List.Subset.refl _, nofun⟩ ?_ ?_
  · rintro _ w' ⟨hstill, apps, hborne, hset, hdone⟩
    exact ⟨hstill, apps, hborne, hset (.head _), hdone⟩
  · rintro done p hp _ w₁ ⟨hstill, apps, hborne, hset, hdone⟩
    split
    next hin =>
      exact ⟨hstill, apps, hborne, hset, List.forall_mem_append.mpr
        ⟨hdone, List.forall_mem_singleton.mpr (hset (.tail _ hin))⟩⟩
    next hin =>
      have hI₁ := hstill.logInv hI
      refine (safe_reads reads_envDigest hI₁).through
        (fun _ _ hs => hs.logInv hI₁) ?_
      rintro d w₂ ⟨hs, answer, hreads, hdig⟩
      change Safe _ _ (if d = p.2 then _ else _) _ _
      split
      next hd =>
        refine ⟨hstill.trans hs, p.1 :: apps, hborne.cons hreads ?_
          ⟨rfl, appName_ne_nil (hsound.managed p hp).1⟩,
          fun _ hmem => .tail _ (hset hmem),
          List.forall_mem_append.mpr ⟨fun q hq => .tail _ (hdone q hq),
            List.forall_mem_singleton.mpr (.head _)⟩⟩
        intro _ d' hlisted
        have hsame : d' = d := Option.some.inj <|
          (StrMap.get?_eq_some_iff.mpr hlisted).symm.trans
            (hd ▸ StrMap.get?_eq_some_iff.mpr hp)
        exact hsame ▸ hdig (hd ▸ (hsound.managed p hp).2)
      next => exact Safe.bind (safe_aside all_changed (hs.logInv hI₁))

-- ====== the records

/-- A record's write, for a transaction that is cleared or starts: what
was cleared stays so, and once it is on disk the transaction is too and
the reads start over. -/
theorem safe_recording (hI : LogInv h w)
    (hr : r.phase.opened = true → r.phase = .installing ∨ Cleared r.id w.log) :
    Safe manned (LogInv h) (writeRecord h r) (fun a w' => LogInv h w' ∧
      (∀ i, Cleared i w.log → Cleared i w'.log) ∧
      (a = none → r.valid h = .ok () ∧ w'.txn = some r ∧ w'.reads = [] ∧
        (r.phase = .installing → Cleared r.id w'.log))) w := by
  unfold writeRecord
  split
  next e he => exact ⟨hI, fun _ hi => hi, by rintro ⟨⟩⟩
  next hv =>
    intro c a w' w'' _ happ hd
    obtain ⟨hs, hreads⟩ := manned_drift hd
    rcases Fate.write_cases happ with ⟨e, rfl, rfl⟩ | rfl
    · have hI' : LogInv h (w.note (.recordLost r w.txn)) :=
        ⟨hI.good, hI.cleared⟩
      refine ⟨hI', hs.logInv hI', fun i hi => ?_, by rintro ⟨⟩⟩
      rw [hs.log]
      exact hi
    · have hI' : LogInv h (w.setTxn r) := by
        refine ⟨hI.good, ?_⟩
        rintro x ⟨⟩ hp
        exact (hr hp).imp_left fun hp => ⟨rfl, hp⟩
      refine ⟨hI', hs.logInv hI', fun i hi => ?_,
        fun _ => ⟨hv, hs.txn, hreads, ?_⟩⟩
      · rw [hs.log]
        exact .inr hi
      · intro hp
        rw [hs.log]
        exact .inl ⟨rfl, hp⟩

-- ====== advance

/-- Reads that bear a record out back its baseline. -/
theorem Borne.backed (hb : Borne h r apps w) (hsound : r.Sound h)
    (hphase : r.phase = .applied ∨ r.phase = .noChange) (hnil : [] ∈ apps)
    (hlisted : r.origin = .applier →
      ∀ p ∈ r.secretsInstalled.entries, p.1 ∈ apps) :
    Backed h r.id r.baseline (some r) w.reads := by
  refine ⟨r, rfl, rfl, hphase, rfl, hb.bears, ?_, fun horigin p hp => ?_⟩
  · obtain ⟨s, hs, hof⟩ := hb.seen [] hnil
    cases s with
    | caddyfile a => exact ⟨a, hs⟩
    | env app a => exact absurd rfl hof.2
  · obtain ⟨s, hs, hof⟩ := hb.seen p.1 (hlisted horigin p hp)
    cases s with
    | caddyfile a => exact absurd hof (appName_ne_nil (hsound.managed p hp).1)
    | env app a => exact ⟨a, hof.1 ▸ hs⟩

/-- The write of applied.json, once it is backed, and the end. -/
theorem baseline_recordBaseline {phase : Phase} (hI : LogInv h w)
    (htxn : w.txn = some t.record)
    (hphase : t.record.phase = .applied ∨ t.record.phase = .noChange)
    (hback : Backed h t.record.id t.record.baseline (some t.record) w.reads) :
    KeepsLog h (recordBaseline t phase) w := by
  refine Safe.bind ?_
  have hend : ∀ p msg (w : World), LogInv h w → KeepsLog h (finish t p msg) w :=
    fun _ _ _ => safe_aside all_finish
  unfold writeApplied putApplied
  split
  · exact hend _ _ w hI
  · intro c a w' w'' _ happ hd
    have hI' : LogInv h
        (w.note (.baselineWritten t.record.id t.record.baseline w.txn
          w.reads)) := by
      refine ⟨⟨htxn ▸ hback, hI.good⟩, fun r hr hp => ?_⟩
      obtain rfl : t.record = r := Option.some.inj (htxn.symm.trans hr)
      rcases hphase with hph | hph <;> simp [hph, Phase.opened] at hp
    have hw' : LogInv h w' := by
      rcases Fate.write_cases happ with ⟨e, rfl, rfl⟩ | rfl
      · exact hI'
      · exact ⟨hI'.good, hI'.cleared⟩
    have hI'' : LogInv h w'' := (Still.drift hd).logInv hw'
    refine ⟨hw', ?_⟩
    cases a with
    | some _ => exact hend _ _ w'' hI''
    | none => exact hend _ _ w'' hI''

theorem baseline_advance {phase : Phase} (hI : LogInv h w)
    (htxn : w.txn = some t.record) (hv : t.record.valid h = .ok ())
    (hphase : t.record.phase = .applied ∨ t.record.phase = .noChange)
    (hb : Borne h t.record [] w) : KeepsLog h (advance h t phase) w := by
  have hsound := Record.valid_sound hv
  refine (safe_reads (reads_states hsound) hI).through
    (fun _ _ hs => hs.logInv hI) ?_
  rintro fs w₁ ⟨hs, -, hread⟩
  have hI₁ : LogInv h w₁ := hs.logInv hI
  dsimp only
  split
  next => exact safe_aside all_changed hI₁
  next hnone =>
    have hset := hread hnone hb
    split
    next horigin =>
      refine baseline_recordBaseline hI₁ (hs.txn.trans htxn) hphase
        (hset.backed hsound hphase (.head _) ?_)
      intro hap
      rw [horigin] at hap
      cases hap
    next horigin =>
      refine (reads_checkListed hI₁ hsound hset).through (fun _ _ hI => hI) ?_
      rintro _ w₂ ⟨hs₂, apps, hb₂, hnil, hlisted⟩
      exact baseline_recordBaseline (hs₂.logInv hI₁)
        ((hs.trans hs₂).txn.trans htxn) hphase
        (hb₂.backed hsound hphase hnil fun _ => hlisted)

-- ====== the transaction

/-- A transaction's program that may write its files, and what it hands
on when it goes on. -/
theorem safe_clearedStep (hp : p.All (Ordinary (some id))) (hI : LogInv h w)
    (hid : Cleared id w.log) : Safe manned (LogInv h) p
      (fun _ w' => LogInv h w' ∧ Cleared id w'.log) w :=
  (safe_ordinary hp ⟨hI, by rintro i ⟨⟩; exact hid⟩).post
    fun _ _ hI => ⟨hI.1, hI.2 id rfl⟩

section

variable (hI : LogInv h w)
include hI

theorem baseline_confirmSwapped
    (hid : Cleared t.record.id w.log) : KeepsLog h (confirmSwapped h t) w := by
  refine (safe_clearedStep all_states hI hid).andThen ?_
  rintro (_ | fs) w₁ ⟨hI₁, hid₁⟩
  · exact hI₁
  dsimp only
  split
  · exact safe_aside all_changed hI₁
  refine (safe_recording (r := (t.atPhase .applied).record) hI₁
    fun _ => .inr hid₁).andThen ?_
  rintro a w₂ ⟨hI₂, hkeep, hdone⟩
  cases a with
  | some err => exact safe_cleared all_rollback hI₂ (hkeep _ hid₁)
  | none =>
    obtain ⟨hv, htxn, hreads, -⟩ := hdone rfl
    exact baseline_advance hI₂ htxn hv (.inl rfl) (.nil hreads)

theorem baseline_reloadSwapped
    (hid : Cleared t.record.id w.log) : KeepsLog h (reloadSwapped h t) w := by
  unfold reloadSwapped
  split
  · refine (safe_clearedStep (p := ask .reload)
      ⟨trivial, fun _ => trivial⟩ hI hid).andThen fun a w₁ ha => ?_
    cases a with
    | some err => exact safe_cleared all_rollback ha.1 ha.2
    | none => exact baseline_confirmSwapped ha.1 ha.2
  · exact baseline_confirmSwapped hI hid

theorem baseline_swap : KeepsLog h (swap h t) w := by
  refine (safe_recording (r := (t.atPhase .installing).record) hI
    fun _ => .inl rfl).andThen ?_
  rintro a w₁ ⟨hI₁, -, hdone⟩
  cases a with
  | some err => exact safe_aside all_finish hI₁
  | none =>
    obtain ⟨-, -, -, hinst⟩ := hdone rfl
    have hid₁ : Cleared t.record.id w₁.log := hinst rfl
    refine (safe_clearedStep all_states hI₁ hid₁).andThen ?_
    rintro (_ | fs) w₂ ⟨hI₂, hid₂⟩
    · exact safe_aside all_finish hI₂
    dsimp only
    split
    · exact safe_aside all_changed hI₂
    refine (safe_clearedStep (all_swapFiles (t := t.atPhase .installing))
      hI₂ hid₂).andThen ?_
    rintro (_ | dirty) w₃ ⟨hI₃, hid₃⟩
    · exact hI₃
    refine (safe_recording
      (r := ((t.atPhase .installing).atPhase .swapped).record)
      hI₃ fun _ => .inr hid₃).andThen ?_
    rintro a w₄ ⟨hI₄, hkeep, -⟩
    cases a with
    | some err => exact safe_cleared all_rollback hI₄ (hkeep _ hid₃)
    | none => exact baseline_reloadSwapped hI₄ (hkeep _ hid₃)

theorem baseline_install : KeepsLog h (install h t) w := by
  unfold install
  split
  · refine (safe_recording (r := (t.atPhase .noChange).record) hI
      (by simp [Txn.atPhase, Record.stage, Phase.opened])).andThen
      ?_
    rintro a w₁ ⟨hI₁, -, hdone⟩
    cases a with
    | some err => exact safe_aside all_finish hI₁
    | none =>
      obtain ⟨hv, htxn, hreads, -⟩ := hdone rfl
      exact baseline_advance hI₁ htxn hv (.inr rfl) (.nil hreads)
  · split
    · exact baseline_swap hI
    · refine (safe_aside (p := ask (.writeResult _))
        ⟨trivial, fun _ => trivial⟩ hI).andThen fun a w₁ hI₁ => ?_
      cases a with
      | none => exact baseline_swap hI₁
      | some err =>
        refine safe_aside ⟨trivial, fun _ => ?_⟩ hI₁
        exact (all_when all_removeVerified).bind fun _ =>
          all_removeEntry.bind fun _ => trivial

-- ====== recovery

/-- A record settled by its phase, once its set was read: the phases that
advance do so where every read bears it out. -/
theorem baseline_settleByPhase {fs : List FileAt}
    (htxn : w.txn = some t.record) (hv : t.record.valid h = .ok ())
    (hsame : t.record.phase = .noChange → ∀ f ∈ fs, f.prev = f.next)
    (hb : firstNot fs FileAt.next = none → Borne h t.record [] w) :
    KeepsLog h (settleByPhase h t fs) w := by
  have hid : t.record.phase.opened = true → Cleared t.record.id w.log :=
    hI.cleared t.record htxn
  unfold settleByPhase
  split
  next hph =>
    split
    next hprev =>
      refine baseline_advance hI htxn hv (.inr hph) (hb ?_)
      refine firstNot_eq_none.mpr fun f hf => ?_
      rw [← hsame hph f hf]
      exact firstNot_eq_none.mp hprev f hf
    · exact safe_aside all_changed hI
  next hph =>
    split
    next hnext => exact baseline_advance hI htxn hv (.inl hph) (hb hnext)
    · exact safe_aside all_changed hI
  next hph =>
    split
    · exact safe_aside all_finish hI
    · split
      · exact safe_cleared all_rollback hI (hid (by rw [hph]; rfl))
      · exact safe_aside all_changed hI
  next hph =>
    split
    · exact safe_cleared all_rollback hI (hid (by rw [hph]; rfl))
    · exact safe_aside all_changed hI
  next hph =>
    split
    · exact safe_cleared all_rollingBack hI (hid (by rw [hph]; rfl))
    · exact safe_aside all_changed hI
  next => exact safe_aside all_changed hI

theorem safe_recoverPhase (htxn : w.txn = some r)
    (hv : r.valid h = .ok ()) (hreads : w.reads = []) :
    KeepsLog h (recoverPhase h (recovered r)) w := by
  refine (safe_reads (reads_states (t := recovered r) (Record.valid_sound hv))
    hI).through (fun _ _ hs => hs.logInv hI) ?_
  rintro fs w₁ ⟨hs, hsame, hb⟩
  refine baseline_settleByPhase (t := recovered r) (hs.logInv hI)
    (hs.txn.trans htxn) hv hsame fun hnone => ?_
  exact (hb hnone (.nil hreads)).sub (by simp)

end

/-- Whether a push has its result is told without a read of the box's
files. -/
theorem reads_settled {i : Bytes} : Safe manned (Still w) (settled i)
    (fun _ w' => Still w w' ∧ w'.reads = w.reads) w := by
  intro c a w' w'' _ happ hd
  have hw' : w' = w := by
    cases c with
    | ok => cases happ; rfl
    | fail _ | landed _ | word _ | drop _ => cases happ
  rw [hw'] at hd ⊢
  obtain ⟨hs, hreads⟩ := manned_drift hd
  refine ⟨.refl w, ?_⟩
  change Safe _ _ (if a.any Phase.terminal = true then _ else _) _ _
  split
  · exact ⟨hs, hreads⟩
  · intro c a w₁ w₂ _ happ hd₂
    obtain ⟨hw₁, -⟩ := Fate.read_cases happ
    rw [hw₁] at hd₂ ⊢
    obtain ⟨hs₂, hreads₂⟩ := manned_drift hd₂
    refine ⟨hs, ?_⟩
    cases a <;> exact ⟨hs.trans hs₂, hreads₂.trans hreads⟩

section

variable (hI : LogInv h w)
include hI

theorem baseline_recoverTxn (hnil : w.reads = []) :
    KeepsLog h (recoverTxn h) w := by
  refine Safe.bind (Safe.bind ?_)
  intro c a w' w'' _ happ hd
  obtain ⟨rfl, ha⟩ := Fate.read_cases happ
  obtain ⟨hs, hreads⟩ := manned_drift hd
  refine ⟨hI, ?_⟩
  rcases ha with rfl | ⟨e, rfl⟩
  · cases htxn : w'.txn with
    | none => exact hs.logInv hI
    | some r =>
      have htxn'' : w''.txn = some r := hs.txn.trans htxn
      have hnil'' : w''.reads = [] := hreads.trans hnil
      dsimp only [Safe]
      split
      · exact hs.logInv hI
      next hv =>
        change Safe _ _ (recoverRecord h r) _ _
        unfold recoverRecord
        split
        · exact safe_recoverPhase (hs.logInv hI) htxn'' hv hnil''
        · refine (safe_reads reads_settled (hs.logInv hI)).andThen
            fun b w₁ ⟨hs₁, hreads₁⟩ => ?_
          have hI₁ : LogInv h w₁ := hs₁.logInv (hs.logInv hI)
          split
          · exact safe_aside (all_removeRecord.bind fun _ =>
              all_removeEntry.bind fun _ => trivial) hI₁
          · exact safe_recoverPhase hI₁ (hs₁.txn.trans htxn'') hv
              (hreads₁.trans hnil'')
  · exact hs.logInv hI

theorem baseline_recoverAll (hnil : w.reads = []) :
    KeepsLog h (recoverAll h) w := by
  refine (baseline_recoverTxn hI hnil).andThen ?_
  rintro (_ | _) w₁ hI₁
  · exact hI₁
  refine safe_aside ⟨trivial, fun a => ?_⟩ hI₁
  cases a with
  | error e => trivial
  | ok ids =>
    refine Prog.all_loop (fun _ i => ?_) _ _
    exact all_recoverEntry.bind fun _ => trivial

-- ====== the commands

theorem baseline_process {job : Job} : KeepsLog h (process h job) w := by
  cases job with
  | ended id commit path named entry phase msg => exact safe_aside all_finish hI
  | ready r next nextEnv => exact baseline_install hI

theorem baseline_run {jobs : List Job}
    (hnil : w.reads = []) : KeepsLog h (run h jobs) w := by
  refine (baseline_recoverAll hI hnil).andThen ?_
  rintro (_ | _) w₁ hI₁
  · exact hI₁
  refine Safe.bind (safe_loop (fun _ _ => LogInv h)
    (Q := fun a w => Safe _ _ _ _ w) hI₁ ?_ ?_)
  · exact fun _ _ => safe_aside ⟨trivial, fun _ => trivial⟩
  · intro _ job _ _ w₂ hI₂
    refine (baseline_process hI₂).andThen ?_
    rintro (_ | _) w₃ hI₃ <;> exact hI₃

theorem baseline_runInit {file : Bytes}
    (hnil : w.reads = []) : KeepsLog h (runInit h r file) w := by
  unfold runInit
  split
  · exact hI
  refine (baseline_recoverAll hI hnil).andThen ?_
  rintro (_ | _) w₁ hI₁
  · exact hI₁
  refine (safe_aside (p := ask .running) ⟨trivial, fun _ => trivial⟩
    hI₁).andThen ?_
  rintro (_ | s) w₂ hI₂
  · exact hI₂
  change Safe _ _ (if up s = true then _ else
    if s = str "activating" then _ else _) _ _
  split
  · refine (safe_aside (p := ask .readCaddyfile) ⟨trivial, fun _ => trivial⟩
      hI₂).andThen ?_
    rintro (_ | installed) w₃ hI₃
    · exact hI₃
    refine (safe_aside (p := ask .readApplied) ⟨trivial, fun _ => trivial⟩
      hI₃).andThen fun was w₄ hI₄ => ?_
    refine (baseline_install hI₄).andThen ?_
    rintro (_ | _) w₅ hI₅ <;> exact hI₅
  · split <;> exact hI₂

end

/-- Either command keeps the invariant from any world that has it, with
nothing read yet. -/
theorem command_safe {p : Act Unit} {w₁ : World} (hp : command h w p w')
    (hI : LogInv h w₁) (hnil : w₁.reads = []) : KeepsLog h p w₁ := by
  rcases hp.1 with ⟨jobs, rfl⟩ | ⟨r, file, rfl⟩
  · exact Safe.bind (f := fun _ => .ret ()) (baseline_run hI hnil)
  · exact Safe.bind (f := fun _ => .ret ()) (baseline_runInit hI hnil)

/-- In every run of the applier and init, whatever the disk they find,
whatever fails, with crashes and a hand at the console anywhere: every
write of applied.json is backed by its transaction's own record and by
every read its run has made since that was written; and a file is never
written again for a transaction whose baseline was, but by one that starts
anew under its id, with an installing record of its own. -/
theorem baseline_sound {q : Config Answer Unit World} {w₀ : World}
    (hfresh : w₀.Fresh) (hreach : Reach manned (command h) ⟨none, w₀⟩ q) :
    (∀ id v record reads, .baselineWritten id v record reads ∈ q.world.log →
      Backed h id v record reads) ∧ (∀ id v record reads later between before,
      q.world.log = later ++ .fileWritten id :: between ++
        .baselineWritten id v record reads :: before →
      ∃ r, .recordWritten r ∈ between ∧ r.id = id ∧ r.phase = .installing) := by
  have hI₀ : LogInv h w₀ := by
    refine ⟨?_, fun r _ _ => ?_⟩ <;> rw [hfresh.log] <;> trivial
  have hI : LogInv h q.world := by
    refine reach_inv ?_ ?_ hreach (.idle hI₀)
    · rintro w w' hI ⟨c, e, rfl⟩
      exact ⟨hI.good, hI.cleared⟩
    · intro w p w' w'' hI hp hd
      have hI' : LogInv h w' := by
        rw [hp.2]
        exact ⟨hI.good, hI.cleared⟩
      obtain ⟨hs, hreads⟩ := manned_drift hd
      have hnil : w''.reads = [] := by rw [hreads, hp.2]
      exact ⟨hI', command_safe hp (hs.logInv hI') hnil⟩
  refine ⟨fun id v record reads hmem => hI.good.backed hmem, ?_⟩
  intro id v record reads later between before hlog
  have hgood := hI.good
  rw [hlog, List.append_assoc, List.cons_append] at hgood
  exact hgood.cleared.between

/-- A run of the applier over that push, with every call a success: its
baseline is written. -/
theorem baseline_sound_push : ∃ (w : World) (v : Applied)
    (record : Option Record) (reads : List Sight),
    w.log.head? = some (.baselineWritten pushTxn.record.id v record reads) ∧
      Backed pushHost pushTxn.record.id v record reads := by
  obtain ⟨p, w, hreach, hw⟩ := exec_reach_world (S := manned)
    (w := { pushWorld with work := [] })
    (p := Functor.discard (run pushHost [.ready pushTxn.record pushTxn.next
      pushTxn.nextEnv]))
    (f := fun w => w.log.head?.any fun ev => match ev with
      | .baselineWritten id _ _ _ => id == pushTxn.record.id
      | _ => false)
    (command pushHost) (List.replicate 16 .ok)
    (fun _ _ _ _ => trivial) (by decide +kernel)
  have hreach := hreach.head (.start (w := { pushWorld with work := [] })
    ⟨.inl ⟨_, rfl⟩, rfl⟩)
  obtain ⟨ev, hev, hbase⟩ := (Option.any_eq_true _ _).mp hw
  cases ev with
  | baselineWritten id v record reads =>
    obtain rfl := eq_of_beq hbase
    exact ⟨w, v, record, reads, hev,
      (baseline_sound ⟨rfl⟩ hreach).1 _ v record reads
        (List.mem_of_mem_head? hev)⟩
  | fileWritten _ | recordWritten _ | recordLost _ _ | recordRemoved =>
    cases hbase

end Hotserve.Box
