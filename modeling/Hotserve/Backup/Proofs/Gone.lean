/-
When a snapshot is reported gone.

`Missed` says it from the history alone: the latest listing that was
believed did not hold the snapshot, and neither the run that made it nor a
command after has seen it. `after` follows the same along the history, one
command at a time, which is what the record keeps (`Good.replay`), and the
two agree (`after_iff_missed`). `gone_iff` is the result, with what a
healthy report says of every app.
-/
import Hotserve.Backup.Proofs.Record
import Mathlib.Data.List.Induction

namespace Hotserve.Backup

open Bytes

-- ====== the history

/-- The clock along a history: each command's readings come after those of
the commands before. -/
def Timed : Nat → List Command → Prop
  | _, [] => True
  | τ, c :: cs => ∃ hi, c.Within τ hi ∧ Timed hi cs

/-- What is missed once every command of a history is over. -/
def after (xs : List (Status × Command)) : Bytes → Bytes → Prop :=
  xs.foldl (fun missed x => x.2.misses x.1 missed) fun _ _ => False

/-- The latest listing that is believed did not hold the snapshot under
the app's tag, and neither the run that made it nor any command since has
seen it. -/
def Missed (xs : List (Status × Command)) (n id : Bytes) : Prop :=
  ∃ before x since snaps, xs = before ++ x :: since ∧
    x.2.trusted x.1 = some snaps ∧
    (∀ y ∈ since, y.2.trusted y.1 = none) ∧
    ¬ Holds snaps n id ∧ (n, id) ∉ x.2.seen x.1 ∧
    ∀ y ∈ since, (n, id) ∉ y.2.seen y.1

/-- A listing that exited 0, in JSON that could be read and names
snapshots by their ids, with nothing said beside it. -/
structure Answered (a : Asked) (snaps : List Listed) : Prop where
  exited : ∃ o, a.unit = .ok o ∧ o.ok = true
  read : ∃ raw said, a.out = .ok raw ∧ a.decode raw = .ok said ∧
    (∀ s ∈ said, isSnapshotID s.id = true) ∧
    snaps.Perm (said.map (listedOf a.time))
  silent : ∃ said, a.stderr = .ok said ∧ trimSpace said = []

/-- The run comes to its listing with a snapshot to look for. -/
def RunInput.Asks (i : RunInput) (prev : Status) : Prop :=
  i.begun = none ∧ ∃ p, i.plan = .ok p ∧ i.lists prev p = true ∧
    (i.reached prev p).nothing = false

variable {n id : Bytes} {xs : List (Status × Command)} {st : Status} {τ : Nat}
  {missed : Bytes → Bytes → Prop} {cs : List Command}

theorem after_snoc (x : Status × Command) :
    after (xs ++ [x]) = x.2.misses x.1 (after xs) := by
  rw [after, List.foldl_append]
  rfl

/-- One more command. -/
theorem missed_snoc (x : Status × Command) :
    Missed (xs ++ [x]) n id ↔ x.2.misses x.1 (Missed xs) n id := by
  unfold Command.misses
  constructor
  · rintro ⟨before, y, since, snaps, heq, htr, hnone, hno, hy, hsince⟩
    rcases List.eq_nil_or_concat since with rfl | ⟨since, z, rfl⟩
    · -- the last command made the listing
      obtain ⟨-, hxy⟩ := List.append_inj' heq rfl
      cases hxy
      rw [htr]
      exact ⟨hy, hno⟩
    · rw [List.concat_eq_append] at heq hnone hsince
      rw [← List.cons_append, ← List.append_assoc] at heq
      obtain ⟨rfl, hxz⟩ := List.append_inj' heq rfl
      cases hxz
      rw [hnone x (by simp)]
      exact ⟨hsince x (by simp), before, y, since, snaps, rfl, htr,
        fun z hz => hnone z (by simp [hz]), hno, hy,
        fun z hz => hsince z (by simp [hz])⟩
  · rintro ⟨hx, hrest⟩
    cases htr : x.2.trusted x.1 with
    | some snaps =>
      rw [htr] at hrest
      exact ⟨xs, x, [], snaps, rfl, htr, by simp, hrest, hx, by simp⟩
    | none =>
      rw [htr] at hrest
      obtain ⟨before, y, since, snaps, rfl, hy, hnone, hno, hseen, hsince⟩ :=
        hrest
      refine ⟨before, y, since ++ [x], snaps, by simp, hy, fun z hz => ?_,
        hno, hseen, fun z hz => ?_⟩
      · rcases List.mem_append.mp hz with hz | hz
        · exact hnone z hz
        · rw [List.mem_singleton.mp hz]
          exact htr
      · rcases List.mem_append.mp hz with hz | hz
        · exact hsince z hz
        · rw [List.mem_singleton.mp hz]
          exact hx

theorem misses_congr {missed' : Bytes → Bytes → Prop} (c : Command)
    (h : ∀ n id, missed n id ↔ missed' n id) :
    c.misses st missed n id ↔ c.misses st missed' n id := by
  unfold Command.misses
  cases c.trusted st with
  | none => exact and_congr_right fun _ => h n id
  | some snaps => exact Iff.rfl

theorem after_iff_missed (n id : Bytes) : after xs n id ↔ Missed xs n id := by
  induction xs using List.reverseRecOn generalizing n id with
  | nil =>
    refine ⟨False.elim, ?_⟩
    rintro ⟨before, x, since, snaps, heq, -⟩
    simp at heq
  | append_singleton xs x ih =>
    rw [after_snoc, missed_snoc]
    exact misses_congr x.2 ih

theorem Good.apply {hi : Nat} {c : Command} (h : Good st τ missed)
    (hw : c.Within τ hi) (hfresh : c.Fresh st) (hapart : c.Apart st) :
    Good (c.apply st) hi (c.misses st missed) := by
  cases c with
  | run i => exact h.run hw hfresh hapart
  | restore i => exact h.restore hw hfresh hapart
  | drill i => exact h.drill hw

/-- The record along a history. -/
theorem Good.replay (h : Good st τ missed) (htime : Timed τ cs)
    (hfresh : ∀ x ∈ steps st cs, x.2.Fresh x.1)
    (hapart : ∀ x ∈ steps st cs, x.2.Apart x.1) : ∃ hi, Good (replay st cs) hi
      ((steps st cs).foldl (fun missed x => x.2.misses x.1 missed) missed) := by
  induction cs generalizing st τ missed with
  | nil => exact ⟨τ, h⟩
  | cons c cs ih =>
    obtain ⟨hi, hw, htime⟩ := htime
    have hstep := h.apply hw (hfresh (st, c) (.head _))
      (hapart (st, c) (.head _))
    exact ih hstep htime (fun x hx => hfresh x (.tail _ hx))
      fun x hx => hapart x (.tail _ hx)

theorem good_blank : Good Status.blank 0 fun _ _ => False where
  entry := fun n eo hn => by cases hn
  listed := fun k hk => by cases hk

-- ====== what is believed

theorem besides_eq_none {fmt : Fmt} {stderr : Except Bytes Bytes} :
    besides fmt stderr = none ↔
      ∃ said, stderr = .ok said ∧ trimSpace said = [] := by
  constructor
  · intro h
    unfold besides at h
    split at h
    · cases h
    next said =>
      split at h
      next hblank => exact ⟨said, rfl, hblank⟩
      · split at h <;> cases h
  · rintro ⟨said, rfl, hblank⟩
    exact if_pos hblank

theorem snapshots_answered {fmt : Fmt} {a : Asked} {snaps : List Listed}
    (h : snapshots fmt true a = .ok snaps) : Answered a snaps := by
  unfold snapshots at h
  split at h
  · cases h
  rename_i _ o hunit
  obtain ⟨hok, h⟩ := passed h
  rw [Bool.not_eq_true, Bool.not_eq_false'] at hok
  split at h
  · cases h
  rename_i raw hout
  split at h
  · cases h
  rename_i said hsaid
  split at h
  · cases h
  rename_i hids
  split at h
  · cases h
  rename_i hsilent
  cases h
  rw [if_pos rfl] at hsilent
  simp only [List.find?_eq_none, Bool.not_eq_true,
    Bool.not_eq_false'] at hids
  exact ⟨⟨o, hunit, hok⟩, ⟨raw, said, hout, hsaid, hids,
    List.mergeSort_perm _ _⟩, besides_eq_none.mp hsilent⟩

theorem Answered.snapshots {a : Asked} {snaps : List Listed}
    (h : Answered a snaps) (fmt : Fmt) :
    ∃ snaps', snapshots fmt true a = .ok snaps' ∧ snaps'.Perm snaps := by
  obtain ⟨⟨o, hunit, hok⟩, ⟨raw, said, hout, hsaid, hids, hperm⟩, hsilent⟩ := h
  have hfind : (said.find? fun s => !isSnapshotID s.id) = none := by
    simpa using hids
  refine ⟨(said.map (listedOf a.time)).mergeSort
    fun s t => s.snapshot.time ≤ t.snapshot.time, ?_,
    (List.mergeSort_perm _ _).trans hperm.symm⟩
  rw [Backup.snapshots, hunit, hout]
  simp [hok, hsaid, hfind, besides_eq_none.mpr hsilent]

theorem Answered.perm {a : Asked} {snaps snaps' : List Listed}
    (h : Answered a snaps') (hperm : snaps'.Perm snaps) : Answered a snaps := by
  obtain ⟨hexited, ⟨raw, said, hout, hsaid, hids, hall⟩, hsilent⟩ := h
  exact ⟨hexited, ⟨raw, said, hout, hsaid, hids, hperm.symm.trans hall⟩,
    hsilent⟩

/-- A run's listing is believed just where it answered and nothing
interrupted it; no other command makes one. -/
theorem trusted_iff {c : Command} {snaps : List Listed} :
    (∃ snaps', c.trusted st = some snaps' ∧ snaps'.Perm snaps) ↔
      ∃ i, c = .run i ∧ i.Asks st ∧ i.listing.interrupted = false ∧
        Answered i.listing.asked snaps := by
  constructor
  · rintro ⟨snaps', h, hperm⟩
    cases c with
    | run i =>
      simp only [Command.trusted] at h
      split at h
      next p hbegun hplan =>
        split at h
        next hcond =>
          simp only [Bool.and_eq_true, Bool.not_eq_true'] at hcond
          obtain ⟨⟨hlists, hnothing⟩, hgoes⟩ := hcond
          refine ⟨i, rfl, ⟨hbegun, p, hplan, hlists, hnothing⟩, hgoes, ?_⟩
          have hsn := Except.toOption_eq_some.mp h
          exact (snapshots_answered hsn).perm hperm
        · cases h
      · cases h
    | restore i => cases h
    | drill i => cases h
  · rintro ⟨i, rfl, ⟨hbegun, p, hplan, hlists, hnothing⟩, hgoes, hanswered⟩
    obtain ⟨snaps', hsn, hperm⟩ := hanswered.snapshots i.fmt
    refine ⟨snaps', ?_, hperm⟩
    simp [Command.trusted, hbegun, hplan, hlists, hnothing, hgoes, hsn,
      Except.toOption]

-- ====== the report

/-- What a healthy report says of one app of the record. -/
def Kept (i : Status.Input) (eo : Option Entry) : Prop :=
  ∃ e, eo = some e ∧ (e.class_ ≠ .pending → ∃ last, e.lastOK = some last ∧
    i.record.gone last = false ∧ i.now ≤ last.time + Status.staleAfter)

variable {i : Status.Input}

theorem kept_of_lines {eo : Option Entry} (n : Bytes)
    (h : ∀ l ∈ Status.appLines i n eo, l.bad = false) : Kept i eo := by
  unfold Status.appLines at h
  dsimp only at h
  cases eo with
  | none => cases h _ (.head _)
  | some e =>
    refine ⟨e, rfl, fun hclass => ?_⟩
    dsimp only at h
    rw [if_neg hclass] at h
    have hback : ∀ l ∈ Status.backupLines i (i.say.text n) e,
        l.bad = false := fun l hl =>
      h l (List.mem_append_left _ (.tail _ hl))
    unfold Status.backupLines at hback
    dsimp only at hback
    cases hlast : e.lastOK with
    | none =>
      rw [hlast] at hback
      cases hback _ (.head _)
    | some last =>
      rw [hlast] at hback
      dsimp only at hback
      refine ⟨last, rfl, ?_⟩
      split at hback
      · cases hback _ (.head _)
      next hgone =>
        split at hback
        · cases hback _ (.head _)
        next hold =>
          rw [Status.olderThan, decide_eq_true_eq, Nat.not_lt] at hold
          exact ⟨Bool.eq_false_iff.mpr hgone, hold⟩

section

variable (h : Status.healthy i = true)
include h

theorem healthy_line
    {l : Status.Line} (hl : l ∈ Status.report i) : l.bad = false := by
  have hbad := List.all_eq_true.mp h l hl
  rwa [Bool.not_eq_true'] at hbad

theorem healthy_error : i.record.error = [] := by
  by_contra hne
  have hmem : Status.bad (str "the last run ended early: " ++
      i.say.text i.record.error) ∈ Status.endLines i := by
    simp [Status.endLines, hne]
  have hreport : Status.bad (str "the last run ended early: " ++
      i.say.text i.record.error) ∈ Status.report i := by
    simp only [Status.report, List.mem_append]
    exact .inl (.inl (.inr hmem))
  cases healthy_line h hreport

theorem healthy_kept
    {eo : Option Entry} (hget : i.record.apps.get n = some eo) : Kept i eo := by
  refine kept_of_lines n fun l hl => healthy_line h ?_
  have hsorted : (n, eo) ∈ Status.sorted i.record.apps :=
    (List.mergeSort_perm _ _).mem_iff.mpr (Table.get_eq_some_iff.mp hget)
  simp only [Status.report, List.mem_append]
  exact .inl (.inr (List.mem_flatMap.mpr ⟨_, hsorted, hl⟩))

end

/-- A snapshot is reported gone where a listing that is believed missed
it, and a healthy report keeps its word on every app; along every history
in which an upload's id is new and no answer of the repository names a
proven restore's snapshot alone. -/
theorem gone_iff (cs : List Command) (htime : Timed 0 cs)
    (hfresh : ∀ x ∈ steps Status.blank cs, x.2.Fresh x.1)
    (hapart : ∀ x ∈ steps Status.blank cs, x.2.Apart x.1) :
    (∀ n e s, (replay Status.blank cs).app n = some e → s ∈ e.named →
      ((replay Status.blank cs).gone s = true ↔
        Missed (steps Status.blank cs) n s.id)) ∧
    (∀ x ∈ steps Status.blank cs, ∀ snaps,
      (∃ snaps', x.2.trusted x.1 = some snaps' ∧ snaps'.Perm snaps) ↔
        ∃ i, x.2 = .run i ∧ i.Asks x.1 ∧ i.listing.interrupted = false ∧
          Answered i.listing.asked snaps) ∧
    ∀ i : Status.Input, i.record = replay Status.blank cs →
      Status.healthy i = true → i.record.error = [] ∧
        ∀ n eo, i.record.apps.get n = some eo → Kept i eo := by
  obtain ⟨hi, hgood⟩ := good_blank.replay htime hfresh hapart
  refine ⟨fun n e s he hs => ?_, fun x _ snaps => trusted_iff,
    fun i _ hok => ⟨healthy_error hok, fun n eo hget => healthy_kept hok hget⟩⟩
  rw [(hgood.named he hs).1]
  exact after_iff_missed n s.id

-- ====== two records

def exampleId : Bytes := List.replicate 64 97

/-- A `restic snapshots` that answers with these. -/
def answers (said : List Said) (time : Nat) : Asked where
  unit := .ok ⟨0, str "success"⟩
  out := .ok []
  decode := fun _ => .ok said
  time := time
  stderr := .ok []

def unanswered : Asked where
  unit := .error []
  out := .ok []
  decode := fun _ => .ok []
  time := 0
  stderr := .ok []

def examplePlan : Planned := ⟨str "/var/lib/liveswap", [str "a"], by decide⟩

/-- One app, in `env`, from a first reading. -/
def exampleRun (start : Nat) (env : Env) (asked listing : Asked) :
    RunInput where
  fmt := env.fmt
  started := start
  begun := none
  plan := .ok examplePlan
  swept := []
  turn := fun _ =>
    { env := { env with now := start }
      decl := exampleDecl
      asked := { asked with time := start }
      interruptedBefore := false
      interruptedAfter := false
      vouched := none
      upgraded := none
      drillUpgraded := none
      unanswered := none
      unansweredAfter := none
      drill := ⟨.ok 0, false, .interrupted, start⟩ }
  interrupted := false
  interruptedEnd := false
  listing := ⟨listing, false, none, start, start⟩
  finished := start

/-- The app's data is gone. -/
def lostEnv : Env :=
  { exampleEnv 8192 with
    root := .error .notExist
    upload := fun _ _ => .error [] }

/-- A backup, then a listing that misses it. -/
def missedHistory : List Command :=
  [.run (exampleRun 1 (exampleEnv 8192) unanswered unanswered),
    .run (exampleRun 2 lostEnv unanswered (answers [] 2))]

theorem exampleRun_within {start : Nat} {env : Env} {asked listing : Asked}
    {τ : Nat} (h : τ < start) :
    (Command.run (exampleRun start env asked listing)).Within τ start := by
  refine ⟨h, le_rfl, le_rfl, fun p _ m _ k hk => ?_⟩
  simp only [Turn.readings, exampleRun, List.mem_cons, List.not_mem_nil,
    or_false, or_self] at hk
  subst hk
  exact ⟨le_rfl, le_rfl⟩

/-- Whether a record reports a snapshot of the app gone. -/
def Status.reportsGone (st : Status) (n : Bytes) : Bool :=
  (st.app n).any fun e => e.named.any st.gone

theorem gone_iff_example :
    (replay Status.blank missedHistory).reportsGone (str "a") = true ∧
      ∃ id, Missed (steps Status.blank missedHistory) (str "a") id := by
  have hgone : (replay Status.blank missedHistory).reportsGone (str "a") =
      true := by decide +kernel
  obtain ⟨e, he, hany⟩ := (Option.any_eq_true _ _).mp hgone
  obtain ⟨s, hs, hgone'⟩ := List.any_eq_true.mp hany
  refine ⟨hgone, s.id, ((gone_iff missedHistory ?_ ?_ ?_).1 _ e s he
    hs).mp hgone'⟩
  · exact ⟨1, exampleRun_within (by decide), 2, exampleRun_within (by decide),
      trivial⟩
  · intro x hx
    rcases List.mem_cons.mp hx with rfl | hx
    · intro p _ m _ binds masked o out _ e he
      cases he
    · rw [List.mem_singleton.mp hx]
      intro p _ m _ binds masked o out hup
      cases hup
  · intro x hx
    rcases List.mem_cons.mp hx with rfl | hx
    · intro p _ m _ e d last he
      cases he
    · rw [List.mem_singleton.mp hx]
      intro p _ m _ e d last _ _ _ hasked
      cases hasked

/-- A drill of an app no run has reached, of the snapshot the repository
has of it. -/
def exampleDrill (start : Nat) : DrillInput where
  fmt := (exampleEnv 8192).fmt
  started := start
  start := .planned examplePlan
  warning := []
  turn := fun _ =>
    { asked := answers [⟨exampleId, 1, [str "app:a"]⟩] start
      brought := .whole
      time := start
      left := false
      unanswered := none }
  upgraded := false
  checked := none

/-- The drill, then a run that finds the data gone, to which the
repository answers with the same snapshot, and whose listing misses it. -/
def aliasHistory : List Command :=
  [.drill (exampleDrill 1),
    .run (exampleRun 2 lostEnv (answers [⟨exampleId, 1, [str "app:a"]⟩] 2)
      (answers [] 2))]

/-- The run saw the snapshot, under one name; under the other it is
reported gone. -/
theorem proven_alias_gone : Timed 0 aliasHistory ∧
    (∀ x ∈ steps Status.blank aliasHistory, x.2.Fresh x.1) ∧
    ∃ e s, (replay Status.blank aliasHistory).app (str "a") = some e ∧
      s ∈ e.named ∧ (replay Status.blank aliasHistory).gone s = true ∧
      ¬ Missed (steps Status.blank aliasHistory) (str "a") s.id := by
  have hgone : ((replay Status.blank aliasHistory).app (str "a")).any (fun e =>
      e.named.any fun s => (replay Status.blank aliasHistory).gone s &&
        s.id == exampleId) = true := by decide +kernel
  obtain ⟨e, he, hany⟩ := (Option.any_eq_true _ _).mp hgone
  obtain ⟨s, hs, hboth⟩ := List.any_eq_true.mp hany
  rw [Bool.and_eq_true, beq_iff_eq] at hboth
  refine ⟨⟨1, ⟨by decide, le_rfl, fun _ _ _ _ => ⟨le_rfl, le_rfl⟩⟩, 2,
    exampleRun_within (by decide), trivial⟩, fun x hx => ?_,
    e, s, he, hs, hboth.1, ?_⟩
  · rcases List.mem_cons.mp hx with rfl | hx
    · trivial
    · rw [List.mem_singleton.mp hx]
      intro p _ m _ binds masked o out hup
      cases hup
  · rw [hboth.2, ← after_iff_missed]
    intro h
    have hseen : (str "a", exampleId) ∈ (Command.run (exampleRun 2 lostEnv
        (answers [⟨exampleId, 1, [str "app:a"]⟩] 2) (answers [] 2))).seen
        ((exampleDrill 1).drill Status.blank) := by decide +kernel
    exact h.1 hseen

end Hotserve.Backup
