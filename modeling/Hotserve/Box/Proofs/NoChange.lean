/-
A transaction with nothing to install.

With the file the box runs and no env file in its set, `install` comes to
no call that writes the Caddyfile or an env file, whatever is answered
and whoever edits meanwhile. Where every call works it ends no_change,
with the box's files as they stood.
-/
import Hotserve.Box.Proofs.Log
import Hotserve.Box.Proofs.Record

namespace Hotserve.Box

open Bytes Effect

variable {h : Host} {t : Txn} {α β σ γ : Type}

-- ====== what is written

/-- The call writes no file of the set. -/
def Call.leavesFiles (e : Call) : Prop := e.writesFor = none

/-- With no transaction in hand, an ordinary call writes no file. -/
theorem Ordinary.leavesFiles {e : Call} (he : Ordinary none e) :
    e.leavesFiles :=
  Option.eq_none_iff_forall_ne_some.mpr fun _ hfile => nomatch he.file hfile

theorem leavesFiles_writeRecord {r : Record} :
    (writeRecord h r).All Call.leavesFiles := by
  unfold writeRecord
  split
  · trivial
  · exact ⟨rfl, fun _ => trivial⟩

variable {phase : Phase} {w : World}

theorem leavesFiles_finish {msg : Bytes} :
    (finish t phase msg).All Call.leavesFiles :=
  all_finish.mono fun _ => Ordinary.leavesFiles

theorem leavesFiles_changed {app : Bytes} :
    (changed t app).All Call.leavesFiles :=
  leavesFiles_finish

theorem leavesFiles_recordBaseline :
    (recordBaseline t phase).All Call.leavesFiles := by
  have happlied : (writeApplied t.record).All Call.leavesFiles := by
    unfold writeApplied putApplied
    split
    · trivial
    · exact ⟨rfl, fun _ => trivial⟩
  refine happlied.bind fun err => ?_
  cases err with
  | none => exact leavesFiles_finish
  | some e => exact leavesFiles_finish

theorem leavesFiles_checkListed : (checkListed h t).All Call.leavesFiles := by
  refine Prog.all_loop (fun _ p => ?_) _ _
  split
  · trivial
  · have hdigest : (envDigest h p.1).All Call.leavesFiles :=
      all_envDigest.mono fun _ => Ordinary.leavesFiles
    refine hdigest.bind fun d => ?_
    cases d with
    | error e => trivial
    | ok d =>
      dsimp only
      split
      · trivial
      · exact leavesFiles_changed.bind fun _ => trivial

theorem leavesFiles_advance : (advance h t phase).All Call.leavesFiles := by
  have hstates : (states h t).All Call.leavesFiles :=
    all_states.mono fun _ => Ordinary.leavesFiles
  refine hstates.bind fun fs => ?_
  cases fs with
  | error e => trivial
  | ok fs =>
    dsimp only
    split
    · exact leavesFiles_changed
    · split
      · exact leavesFiles_recordBaseline
      · refine leavesFiles_checkListed.bind fun r => ?_
        cases r with
        | error o => trivial
        | ok u => exact leavesFiles_recordBaseline

/-- Nothing to install writes no file. -/
theorem leavesFiles_install (hprev : t.record.prev = t.next)
    (hfiles : t.files = false) : (install h t).All Call.leavesFiles := by
  rw [install, if_pos ⟨hprev, hfiles⟩]
  refine leavesFiles_writeRecord.bind fun err => ?_
  cases err with
  | none => exact leavesFiles_advance
  | some e => exact leavesFiles_finish

-- ====== its record

/-- What makes a no_change record with an empty set valid. -/
structure Record.Settled (h : Host) (r : Record) : Prop where
  phase : r.phase = .noChange
  id : isRequestID r.id = true
  commit : isID r.commit = true
  path : ∃ parts, splitPath r.path = .ok parts
  fits : r.prev.length ≤ maxCaddyfile
  prev : r.prevSHA256 = h.digest r.prev
  new : r.newSHA256 = h.digest r.prev
  managed : validManaged r.secretsTree r.secretsInstalled = .ok ()
  set : r.secrets = []
  added : r.secretsAdded = []
  changed : r.secretsChanged = []
  removed : r.secretsRemoved = []
  outOfBand : r.secretsOutOfBand = []

theorem Record.Settled.valid {r : Record} (hr : r.Settled h) :
    r.valid h = .ok () := by
  obtain ⟨parts, hparts⟩ := hr.path
  have hphase : r.validPhase = .ok () := by
    simp [Record.validPhase, hr.phase, hr.prev, hr.new, hr.set, hr.added,
      hr.changed, hr.removed, Record.changes, Except.check_eq_ok]
  simp only [Record.valid, Except.check_eq_ok, failIf_eq_ok]
  refine ⟨by simp [hr.id], by simp [hr.commit],
    by simp [hr.prev, hr.new, h.digest_isDigest],
    by simp [hr.prev, hr.fits], by simp [hparts, Except.isOk, Except.toBool],
    hphase, by simp [hr.set, hr.added, hr.changed, hr.removed,
      Record.changes], by simp [hr.set], by rw [hr.set]; rfl, hr.managed,
    by simp [hr.set], by simp [hr.added, hr.changed, hr.removed], ?_⟩
  simp [validNameLists, validSecretNames, hr.added, hr.changed, hr.removed,
    hr.outOfBand]

-- ====== how it ends

/-- Where every call works the program comes to `a`, and the box's files
stand as they stood. -/
def Ends (p : Act α) (w : World) (a : α) : Prop :=
  ∃ w', p.always quiet .ok w = some (a, w') ∧
    w'.caddyfile = w.caddyfile ∧ w'.env = w.env

/-- A program that is finished ends as it is. -/
theorem ends_ret (a : α) : Ends (.ret a) w a :=
  ⟨w, rfl, rfl, rfl⟩

/-- Two programs in sequence, the second wherever the files are the same.
-/
theorem Ends.bind {p : Act α} {f : α → Act β} {a : α} {b : β}
    (hp : Ends p w a) (hf : ∀ w', w'.caddyfile = w.caddyfile →
      w'.env = w.env → Ends (f a) w' b) : Ends (p >>= f) w b := by
  obtain ⟨w₁, hrun, hcaddy, henv⟩ := hp
  obtain ⟨w₂, hrun', hcaddy', henv'⟩ := hf w₁ hcaddy henv
  refine ⟨w₂, ?_, hcaddy'.trans hcaddy, henv'.trans henv⟩
  rw [Prog.always_bind hrun]
  exact hrun'

/-- A call that leaves the files is answered. -/
theorem ends_ask {e : Call} {q : Answer e × World}
    (happ : apply e .ok w = some q) (hcaddy : q.2.caddyfile = w.caddyfile)
    (henv : q.2.env = w.env) : Ends (ask e) w q.1 :=
  ⟨q.2, Prog.always_op happ, hcaddy, henv⟩

/-- A loop whose every step passes, whatever stands elsewhere. -/
theorem ends_loop {body : σ → β → Act (Except γ σ)} {s : σ} :
    ∀ {l : List β}, (∀ x ∈ l, ∀ w', w'.caddyfile = w.caddyfile →
      w'.env = w.env → Ends (body s x) w' (.ok s)) →
      Ends (Prog.loop body s l) w (.ok s) := by
  intro l
  induction l generalizing w with
  | nil =>
    intro _
    exact ends_ret _
  | cons x l ih =>
    intro hbody
    refine (hbody x (.head _) w rfl rfl).bind ?_
    intro w' hcaddy henv
    refine ih fun y hy w'' hcaddy' henv' => ?_
    exact hbody y (.tail _ hy) w'' (hcaddy'.trans hcaddy)
      (henv'.trans henv)

theorem ends_installedDigest {data : Bytes}
    (hread : w.caddyfileRead = .ok data) :
    Ends (installedDigest h) w (.ok (h.digest data)) := by
  have happ : apply .readCaddyfile .ok w =
      some (.ok data, w.see (.caddyfile (.ok data))) := by
    rw [apply, hread]
    rfl
  exact (ends_ask happ rfl rfl).bind fun _ _ _ => ends_ret _

theorem ends_envDigest {app data : Bytes}
    (hread : w.envRead app = .ok ⟨true, true, data⟩) :
    Ends (envDigest h app) w (.ok (h.digest data)) := by
  have happ : apply (.readEnv app) .ok w =
      some (.ok ⟨true, true, data⟩,
        w.see (.env app (.ok ⟨true, true, data⟩))) := by
    rw [apply, hread]
    rfl
  exact (ends_ask happ rfl rfl).bind fun _ _ _ => ends_ret _

/-- A transaction of the applier with nothing to install, on the box as
it stands. -/
structure Idle (h : Host) (t : Txn) (w : World) : Prop where
  origin : t.record.origin = .applier
  prev : t.record.prev = t.next
  set : t.record.secrets = []
  valid : (t.atPhase .noChange).record.valid h = .ok ()
  reads : w.caddyfileRead = .ok t.next
  listed : ∀ p ∈ t.record.secretsInstalled.entries, ∃ data,
    w.envRead p.1 = .ok ⟨true, true, data⟩ ∧ h.digest data = p.2

namespace Idle

variable {w : World}

section

variable (hi : Idle h t w)
include hi

/-- It stays idle in another world with the same files. -/
theorem congr {w' : World}
    (hcaddy : w'.caddyfile = w.caddyfile) (henv : w'.env = w.env) :
    Idle h t w' := by
  refine ⟨hi.origin, hi.prev, hi.set, hi.valid, ?_, fun p hp => ?_⟩
  · rw [World.caddyfileRead, hcaddy]
    exact hi.reads
  · rw [World.envRead, henv]
    exact hi.listed p hp

/-- Nor does its phase on disk matter. -/
theorem atPhase : Idle h (t.atPhase .noChange) w :=
  ⟨hi.origin, hi.prev, hi.set, hi.valid, hi.reads, hi.listed⟩

theorem digests : t.record.prevSHA256 = h.digest t.next ∧
      t.record.newSHA256 = h.digest t.next := by
  have hsound := Record.valid_sound hi.valid
  have hnew : t.record.newSHA256 = t.record.prevSHA256 :=
    (hsound.no_change rfl).1
  have hprev : h.digest t.record.prev = t.record.prevSHA256 :=
    hsound.prev_digest
  rw [hi.prev] at hprev
  exact ⟨hprev.symm, hnew.trans hprev.symm⟩

/-- The one file of its set reads as it is to be. -/
theorem ends_states : Ends (states h t) w (.ok [⟨[], true, true⟩]) := by
  have happs : t.envApps = [] := by rw [Txn.envApps, hi.set]; rfl
  obtain ⟨hprev, hnew⟩ := hi.digests
  have hstate : Ends (state h t []) w (.ok ⟨[], true, true⟩) := by
    rw [state, if_pos rfl]
    refine (ends_installedDigest hi.reads).bind fun _ _ _ => ?_
    have hat : fileAt [] (h.digest t.next) t.record.prevSHA256
        t.record.newSHA256 = ⟨[], true, true⟩ := by
      simp [fileAt, hprev, hnew]
    rw [← hat]
    exact ends_ret _
  rw [states, happs, Prog.loop]
  refine Ends.bind (hstate.bind fun _ _ _ => ends_ret _) fun _ _ _ => ?_
  exact ends_ret _

/-- Every listed file is found at its digest. -/
theorem ends_checkListed : Ends (checkListed h t) w (.ok ()) := by
  refine ends_loop fun p hp w' hcaddy henv => ?_
  have happs : t.envApps = [] := by rw [Txn.envApps, hi.set]; rfl
  obtain ⟨data, hread, hdigest⟩ := (hi.congr hcaddy henv).listed p hp
  rw [happs, if_neg List.not_mem_nil]
  refine (ends_envDigest hread).bind fun _ _ _ => ?_
  dsimp only
  rw [if_pos hdigest]
  exact ends_ret _

end

/-- The result, the record's removal, the entry's. -/
theorem ends_finish (horigin : t.record.origin = .applier) (msg : Bytes) :
    Ends (finish t phase msg) w (.ok (some (t.result phase msg))) := by
  have hreport : Ends (report t (t.result phase msg)) w () := by
    rw [report, horigin]
    exact .bind (ends_ask (by rfl) (by rfl) (by rfl)) fun _ _ _ => ends_ret ()
  refine hreport.bind fun w₁ _ _ => ?_
  have hrecord : Ends (when t.recorded removeRecord) w₁ () := by
    unfold when
    split
    · exact .bind (ends_ask (by rfl) (by rfl) (by rfl)) fun _ _ _ => ends_ret ()
    · exact ends_ret ()
  refine hrecord.bind fun w₂ _ _ => ?_
  have hentry : Ends (removeEntry t.entry) w₂ () := by
    unfold removeEntry
    split
    · exact ends_ret ()
    · exact .bind (ends_ask (by rfl) (by rfl) (by rfl)) fun _ _ _ => ends_ret ()
  exact hentry.bind fun _ _ _ => ends_ret _

theorem ends_recordBaseline (hi : Idle h t w) (phase : Phase)
    (happlied : t.record.baseline.valid = .ok ()) :
    Ends (recordBaseline t phase) w (.ok (some (t.result phase []))) := by
  have hwrite : Ends (writeApplied t.record) w none := by
    rw [writeApplied, putApplied, happlied]
    have happ : apply (.writeAppliedFile t.record.id t.record.baseline) .ok
        w = some (none, _) := rfl
    exact ends_ask happ rfl rfl
  exact hwrite.bind fun _ _ _ => ends_finish hi.origin []

/-- The set is read as it was, so the push ends with no_change. -/
theorem ends_advance (hi : Idle h t w)
    (happlied : t.record.baseline.valid = .ok ()) :
    Ends (advance h t .noChange) w (.ok (some (t.result .noChange []))) := by
  refine hi.ends_states.bind fun w₁ hcaddy henv => ?_
  have hi₁ := hi.congr hcaddy henv
  dsimp only
  rw [hi.origin]
  refine hi₁.ends_checkListed.bind fun w₂ hcaddy₂ henv₂ => ?_
  exact (hi₁.congr hcaddy₂ henv₂).ends_recordBaseline .noChange happlied

/-- Where every call works, an idle transaction ends no_change. -/
theorem ends_install (hi : Idle h t w)
    (happlied : t.record.baseline.valid = .ok ()) :
    Ends (install h t) w (.ok (some (t.result .noChange []))) := by
  have hfiles : t.files = false := by rw [Txn.files, hi.set]; rfl
  have hwrite : Ends (writeRecord h (t.atPhase .noChange).record) w none := by
    rw [writeRecord, hi.valid]
    have happ : apply (.writeTxn (t.atPhase .noChange).record) .ok w =
        some (none, _) := rfl
    exact ends_ask happ rfl rfl
  rw [install, if_pos ⟨hi.prev, hfiles⟩]
  refine hwrite.bind fun w₁ hcaddy henv => ?_
  exact (hi.atPhase.congr hcaddy henv).ends_advance happlied

end Idle

end Hotserve.Box
