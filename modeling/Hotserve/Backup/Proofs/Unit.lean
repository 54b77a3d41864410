/-
What a run's verdict is worth (`backups/unit/unit.go`).

# The argument

Two things are settled for good: a unit that is over stays over, and a
unit that is not queued is never queued again. So an error that follows a
read of an ended unit, or the manager's word that there is none, is an
error with nothing left running; and the result a reap reads is the one
on record.

A verdict of success is another matter. The job's "done" is the command's
own, but a look only sees the state the unit is in. `Sane` ties that
state to what happened: a unit nothing stopped is as a clean exit leaves
it only after one. Where it is still queued, or was stopped, the look
reads the same properties and says "success" of a command that never
ran, or was killed (`run_invents`).
-/
import Hotserve.Backup.Unit

namespace Hotserve.Backup.Unit

open Effect (Prog Sem Safe Reach Step reach_ret exec_reach)
open Relation (ReflTransGen)

-- ====== what is settled

namespace UnitState

variable {u next : UnitState}

theorem over_runs (h : u.over = true) : u.runs = false := by
  cases u <;> simp_all [UnitState.over, runs]

section

variable (h : u.mayStop next = true)
include h

theorem mayStop_over (hu : u.over = true) : next.over = true := by
  cases u <;> simp_all [mayStop, UnitState.over]
  obtain rfl | rfl := h <;> rfl

theorem mayStop_queued : next ≠ .queued := by
  rintro rfl
  cases u <;> simp_all [mayStop, UnitState.over]

theorem mayStop_activating : next ≠ .activating := by
  rintro rfl
  cases u <;> simp_all [mayStop, UnitState.over]

end

end UnitState

/-- The unit is over. -/
def Over (w : World) : Prop := w.unit.over = true

variable {w w' : World} {c : Choice}

/-- What reads as ended is over, unless it has yet to start. -/
theorem over_of_props (hq : w.unit ≠ .queued)
    (h : w.unit.props.active = .inactive ∨
      w.unit.props.active = .failed) : Over w := by
  rw [Over]
  cases hu : w.unit <;> simp_all [UnitState.over, UnitState.props]

/-- The command was started, and it exited 0. -/
def Clean (w : World) : Prop :=
  w.started = true ∧ w.exited = some 0 ∧ Over w

/-- A result and status are on record for good. -/
def Recorded (result : UnitResult) (status : Int) (w : World) : Prop :=
  w.recorded = some (result, status) ∧
    (w.unit = .absent ∨ ∃ failed, w.unit = .ended failed result status)

section Moves

variable {w w' : World}

theorem Over.move (h : Over w) (hm : Manager w w') : Over w' := by
  cases hm with
  | starts hu => simp [Over, hu, UnitState.over] at h
  | exits hu _ => simp [Over, hu, UnitState.over] at h
  | fails hu _ _ => simp [Over, hu, UnitState.over] at h
  | unloads _ => rfl
  | stops _ hu _ => exact UnitState.mayStop_over hu h

theorem Clean.move (h : Clean w) (hm : Manager w w') : Clean w' := by
  obtain ⟨hstarted, hexited, hover⟩ := h
  refine ⟨?_, ?_, hover.move hm⟩
  · cases hm <;> first | exact hstarted | rfl
  · cases hm with
    | fails hu _ _ => simp [Over, hu, UnitState.over] at hover
    | exits _ _ => rfl
    | starts _ => exact hexited
    | unloads _ => exact hexited
    | stops _ _ _ => exact hexited

/-- No move of the manager's leaves a unit queued. -/
theorem Manager.not_queued (hm : Manager w w') : w'.unit ≠ .queued := by
  cases hm with
  | starts _ => nofun
  | exits _ hnext => obtain rfl | rfl := hnext <;> nofun
  | fails _ _ _ => nofun
  | unloads _ => nofun
  | stops _ hu _ => exact UnitState.mayStop_queued hu

/-- A stop of an ended unit leaves what is on record. -/
theorem Recorded.stop {result : UnitResult} {status : Int} {next : UnitState}
    (h : Recorded result status w) (hnext : w.unit.mayStop next = true) :
    Recorded result status (w.stop next) := by
  obtain ⟨hrec, hu | ⟨failed, hu⟩⟩ := h
  · rw [hu, UnitState.mayStop, beq_iff_eq] at hnext
    subst hnext
    exact ⟨hrec, .inl rfl⟩
  · rw [hu, UnitState.mayStop, Bool.or_eq_true, beq_iff_eq,
      beq_iff_eq] at hnext
    obtain rfl | rfl := hnext
    · exact ⟨rfl, .inr ⟨failed, rfl⟩⟩
    · exact ⟨hrec, .inl rfl⟩

theorem Recorded.move {result : UnitResult} {status : Int}
    (h : Recorded result status w) (hm : Manager w w') :
    Recorded result status w' := by
  have hover : Over w := by
    obtain ⟨-, hu | ⟨failed, hu⟩⟩ := h <;> rw [Over, hu] <;> rfl
  cases hm with
  | starts hu => simp [Over, hu, UnitState.over] at hover
  | exits hu _ => simp [Over, hu, UnitState.over] at hover
  | fails hu _ _ => simp [Over, hu, UnitState.over] at hover
  | unloads _ => exact ⟨h.1, .inl rfl⟩
  | stops _ hu _ => exact h.stop hu

end Moves

-- ====== the state and its history

/-- What a started unit's state and signal say of what happened. -/
structure Sane (w : World) : Prop where
  running : w.unit = .activating → w.started = true
  queued : w.unit = .queued → w.job = none
  done : w.job = some .done → Clean w
  record : ∀ failed result status, w.unit = .ended failed result status →
    w.recorded = some (result, status)
  clean : w.stopped = false → w.unit.clean = true → Clean w

namespace Sane

variable {w w' : World}

/-- A stop keeps it, with a start job that did not end done because of
it. -/
theorem stop (h : Sane w) {next : UnitState} {job : Option JobResult}
    (hnext : w.unit.mayStop next = true)
    (hjob : job = w.job ∨ w.unit.over = false ∧ job ≠ some .done) :
    Sane { w.stop next with job := job } where
  running hu := absurd hu (UnitState.mayStop_activating hnext)
  queued hu := absurd hu (UnitState.mayStop_queued hnext)
  done hj := by
    obtain rfl | ⟨-, hne⟩ := hjob
    · obtain ⟨hstarted, hexited, hover⟩ := h.done hj
      exact ⟨hstarted, hexited, UnitState.mayStop_over hnext hover⟩
    · exact absurd hj hne
  record failed result status hu := by
    rw [show next = _ from hu]
    rfl
  clean hs := nomatch hs

theorem move (h : Sane w) (hm : Manager w w') : Sane w' := by
  cases hm with
  | starts hu =>
    refine ⟨fun _ => rfl, nofun, fun hj => ?_, nofun, nofun⟩
    rw [h.queued hu] at hj
    cases hj
  | @exits next hu hnext =>
    have hclean : ∀ job recorded, Clean { w with
        unit := next, exited := some 0, job, recorded } := by
      intro job recorded
      refine ⟨h.running hu, rfl, ?_⟩
      obtain rfl | rfl := hnext <;> rfl
    refine ⟨?_, ?_, fun _ => hclean _ _, ?_, fun _ _ => hclean _ _⟩
    · obtain rfl | rfl := hnext <;> nofun
    · obtain rfl | rfl := hnext <;> nofun
    · rintro failed result status rfl
      rfl
  | fails hu _ _ =>
    refine ⟨nofun, nofun, nofun, ?_, nofun⟩
    rintro failed result status ⟨⟩
    rfl
  | unloads hu =>
    refine ⟨nofun, nofun, fun hj => ?_, nofun, fun hs _ => ?_⟩
    · obtain ⟨hstarted, hexited, -⟩ := h.done hj
      exact ⟨hstarted, hexited, rfl⟩
    · obtain ⟨hstarted, hexited, -⟩ := h.clean hs (by rw [hu]; rfl)
      exact ⟨hstarted, hexited, rfl⟩
  | stops _ hu hjob => exact h.stop hu hjob

end Sane

-- ====== the calls

/-- A property read leaves the world as it is. One that fails with "no
such unit" finds none; any other answer is the unit's own. -/
theorem read_cases {r : Except CallError Props}
    (h : (w.read c).map (fun r => (r, w)) = some (r, w')) :
    w' = w ∧ ((r = .error .noSuchUnit ∧ Over w) ∨
      (∃ err, r = .error (.other err)) ∨ r = .ok w.unit.props) := by
  obtain ⟨r, hr, ⟨⟩⟩ := Option.map_eq_some_iff.mp h
  refine ⟨rfl, ?_⟩
  simp only [World.read] at hr
  split at hr
  · exact .inr (.inr (Option.some.inj hr).symm)
  · split at hr
    · rename_i hu
      exact .inl ⟨(Option.some.inj hr).symm, by rw [Over, hu]; rfl⟩
    · cases hr
  · rename_i err hne _
    cases err with
    | noSuchUnit => exact absurd rfl hne
    | other err => exact .inr (.inl ⟨err, (Option.some.inj hr).symm⟩)

/-- After a stop request: there is no such unit, or the request failed
some other way, or the unit is not queued. -/
theorem stopUnit_cases
    {r : Except CallError Unit} (h : w.stopUnit c = some (r, w')) :
    (r = .error .noSuchUnit ∧ Over w') ∨ (∃ err, r = .error (.other err)) ∨
    (r = .ok () ∧ w'.unit ≠ .queued) := by
  simp only [World.stopUnit] at h
  split at h
  · split at h
    · rename_i hu
      cases h
      exact .inl ⟨rfl, by rw [Over, hu]; rfl⟩
    · cases h
  · rename_i err hne
    split at h
    · rename_i hnext
      cases herr : c.err with
      | none =>
        simp only [herr] at h
        cases h
        exact .inr (.inr ⟨rfl, UnitState.mayStop_queued hnext⟩)
      | some err =>
        cases err with
        | noSuchUnit => exact absurd herr hne
        | other err =>
          simp only [herr] at h
          cases h
          exact .inr (.inl ⟨err, rfl⟩)
    · cases h

/-- A select leaves the world as it is, and wakes to no job result but the
one that is under way. -/
theorem select_cases {r : Event} (h : apply .select c w = some (r, w')) :
    w' = w ∧ ∀ res, r = .job res → w.job = some res := by
  simp only [apply] at h
  split at h
  · split at h
    · rename_i hjob
      cases h
      exact ⟨rfl, fun res hres => by cases hres; exact hjob⟩
    · cases h
  · cases h
    exact ⟨rfl, nofun⟩
  · cases h
    exact ⟨rfl, nofun⟩

/-- The system whose looks are all of units they can tell the end of. -/
abbrev telling : Sem Call.Answer World := manager.only Telling.looks

section Drifts

variable {w w' : World}

theorem Over.drift (h : Over w) (hd : telling.Drift w w') : Over w' :=
  hd.keeps (fun _ _ => Over.move) h

theorem Clean.drift (h : Clean w) (hd : telling.Drift w w') : Clean w' :=
  hd.keeps (fun _ _ => Clean.move) h

theorem Recorded.drift {result : UnitResult} {status : Int}
    (h : Recorded result status w) (hd : telling.Drift w w') :
    Recorded result status w' :=
  hd.keeps (fun _ _ => Recorded.move) h

theorem Sane.drift (h : Sane w) (hd : telling.Drift w w') : Sane w' :=
  hd.keeps (fun _ _ => Sane.move) h

theorem past_drift (h : w.unit ≠ .queued) (hd : telling.Drift w w') :
    w'.unit ≠ .queued :=
  hd.keeps (fun _ _ _ => Manager.not_queued) h

end Drifts

/-- A reset leaves an ended unit over. -/
theorem Over.reset (h : Over w) : Over (w.resetFailedUnit c) := by
  simp only [World.resetFailedUnit]
  split
  · split
    · rfl
    · exact h
  · exact h

theorem Recorded.reset {result : UnitResult}
    {status : Int} (h : Recorded result status w) :
    Recorded result status (w.resetFailedUnit c) := by
  simp only [World.resetFailedUnit]
  split
  · rename_i hu
    split
    · exact h.stop (by rw [hu, UnitState.mayStop, Bool.or_eq_true]; simp)
    · exact h
  · exact h

-- ====== the programs

/-- Nothing is asked of the worlds a run passes through. -/
abbrev anyWorld (_ : World) : Prop := True

/-- The end of a run: whatever verdict it has is the truth. -/
abbrev Ends (v : Option Verdict) (w : World) : Prop :=
  ∀ x, v = some x → Told w x

/-- The reset that ends a reap or a stop. -/
theorem reset_safe {α : Type} {a : α} {Q : α → World → Prop}
    (h : ∀ c w', telling.Drift (w.resetFailedUnit c) w' → Q a w') :
    Safe telling anyWorld (ask .resetFailedUnit >>= fun _ => .ret a) Q w := by
  intro c r w₁ w₂ _ happ hd
  cases happ
  exact ⟨trivial, h c w₂ hd⟩

theorem stopCause_over (cause : Cause) : Safe telling anyWorld (stopCause cause)
      (fun err w => err.notConfirmedGone = false → Over w) w := by
  intro c r w₁ w₂ _ happ hd
  refine ⟨trivial, ?_⟩
  obtain ⟨rfl, hover⟩ | ⟨err, rfl⟩ | ⟨rfl, hpast⟩ := stopUnit_cases happ
  · exact fun _ => hover.drift hd
  · exact nofun
  intro c r w₃ w₄ _ happ hd'
  cases happ
  refine ⟨trivial, ?_⟩
  have hpast := past_drift (past_drift hpast hd) hd'
  cases c.inTime with
  | false => exact nofun
  | true =>
    intro c r w₅ w₆ _ happ hd
    refine ⟨trivial, ?_⟩
    obtain ⟨rfl, ⟨rfl, hover⟩ | ⟨err, rfl⟩ | rfl⟩ := read_cases happ
    · exact fun _ => hover.drift hd
    · exact nofun
    have hover := over_of_props hpast
    dsimp only [Prog.bind]
    split
    · rename_i hactive
      exact reset_safe fun c w' hd' _ =>
        ((hover (.inl hactive)).drift hd).reset.drift hd'
    · rename_i hactive
      exact reset_safe fun c w' hd' _ =>
        ((hover (.inr hactive)).drift hd).reset.drift hd'
    · exact nofun

/-- An error with the unit over is the truth about it. -/
theorem Over.told {err : RunError}
    (h : err.notConfirmedGone = false → Over w) : Told w (.error err) :=
  fun herr => UnitState.over_runs (h herr)

theorem stop_ends (cause : Cause) :
    Safe telling anyWorld (stop cause) Ends w := by
  refine (stopCause_over cause).andThen fun err w' h => ?_
  rintro x ⟨⟩
  exact Over.told h

/-- What is read of a unit that is over is the verdict on it. -/
theorem verdict_told {jobResult : JobResult} (hs : Sane w)
    (hover : Over w') (hrec : ∀ result status,
      Recorded result status w → Recorded result status w') :
    Told w' (verdict jobResult w.unit.props) := by
  simp only [verdict]
  split
  · exact Over.told fun _ => hover
  · split
    · exact Over.told fun _ => hover
    · rename_i hresult
      obtain ⟨hne, hns⟩ := not_or.mp hresult
      rw [Told, if_neg hns]
      cases hu : w.unit with
      | ended failed result status =>
        have h : Recorded result status w :=
          ⟨hs.record _ _ _ hu, .inr ⟨failed, hu⟩⟩
        cases failed <;> exact (hrec _ _ h).1
      | absent => simp [hu, UnitState.props] at hns
      | queued => simp [hu, UnitState.props] at hns
      | activating => simp [hu, UnitState.props] at hns
      | deactivating => simp [hu, UnitState.props] at hns

theorem reap_ends (jobResult : JobResult) : ∀ (fuel : Nat) (w : World),
    Sane w → w.unit ≠ .queued →
    Safe telling anyWorld (reap jobResult fuel) Ends w := by
  intro fuel
  induction fuel with
  | zero =>
    intro w _ _
    exact fun x hx => nomatch hx
  | succ fuel ih =>
    intro w hs hpast c r w₁ w₂ _ happ hd
    refine ⟨trivial, ?_⟩
    obtain ⟨rfl, ⟨rfl, -⟩ | ⟨err, rfl⟩ | rfl⟩ := read_cases happ
    · exact stop_ends _
    · exact stop_ends _
    have hends : Over w₁ → Safe telling anyWorld
        (ask .resetFailedUnit >>= fun _ =>
          .ret (some (verdict jobResult w₁.unit.props))) Ends w₂ := by
      intro hover
      refine reset_safe fun c w' hd' => ?_
      rintro x ⟨⟩
      exact verdict_told hs ((hover.drift hd).reset.drift hd')
        fun _ _ h => (h.drift hd).reset.drift hd'
    have hover := over_of_props hpast
    dsimp only [Prog.bind]
    split
    · rename_i hactive
      exact hends (hover (.inl hactive))
    · rename_i hactive
      exact hends (hover (.inr hactive))
    · intro c r w₃ w₄ _ happ hd'
      cases happ
      refine ⟨trivial, ?_⟩
      cases c.inTime with
      | true =>
        exact ih w₄ ((hs.drift hd).drift hd')
          (past_drift (past_drift hpast hd) hd')
      | false => exact stop_ends _

/-- A verdict of success on a command that exited 0. -/
theorem Clean.told (h : Clean w) : Told w (.ok .success) :=
  ⟨h.1, h.2.1⟩

/-- What a look takes as done is as a clean exit leaves it, or queued. -/
theorem clean_of_seen {u : UnitState} (hq : u ≠ .queued)
    (h : seen u.props = .success) : u.clean = true := by
  cases u with
  | ended failed result status =>
    cases failed <;> cases result <;>
      simp_all [seen, UnitState.props, UnitState.clean]
  | absent => rfl
  | queued => exact absurd rfl hq
  | activating => simp [seen, UnitState.props] at h
  | deactivating => simp [seen, UnitState.props] at h

/-- One look: where the unit is one it can tell the end of, the verdict
it comes to is the truth, and a unit it reaps is not queued. -/
theorem look_ends {again : Nat → Act (Option Verdict)}
    {fuel unreadable : Nat} (hs : Sane w)
    (hagain : ∀ n w, Sane w → Safe telling anyWorld (again n) Ends w) :
    Safe telling anyWorld (look again fuel unreadable) Ends w := by
  intro c r w₁ w₂ hmay happ hd
  refine ⟨trivial, ?_⟩
  obtain ⟨hpast, hstopped⟩ : Telling w := hmay.2 rfl
  obtain ⟨rfl, hread⟩ := read_cases happ
  have hs₂ := hs.drift hd
  cases r with
  | error err =>
    dsimp only [Prog.bind]
    split
    · exact stop_ends _
    · exact hagain _ _ hs₂
  | ok p =>
    obtain ⟨⟨⟩, -⟩ | ⟨err, ⟨⟩⟩ | ⟨⟨⟩⟩ := hread
    dsimp only [Prog.bind]
    split
    · rename_i hseen
      have hclean := clean_of_seen hpast hseen
      have hnot : w₁.stopped = false := by
        by_contra h
        rw [hstopped (by simpa using h)] at hclean
        cases hclean
      rintro x ⟨⟩
      exact ((hs.clean hnot hclean).drift hd).told
    · exact reap_ends _ _ _ hs₂ (past_drift hpast hd)
    · exact hagain _ _ hs₂

theorem watch_ends : ∀ (fuel unreadable : Nat) (w : World), Sane w →
    Safe telling anyWorld (watch fuel unreadable) Ends w := by
  intro fuel
  induction fuel with
  | zero =>
    intro unreadable w _
    exact fun x hx => nomatch hx
  | succ fuel ih =>
    intro unreadable w hs c r w₁ w₂ _ happ hd
    refine ⟨trivial, ?_⟩
    obtain ⟨rfl, hjob⟩ := select_cases happ
    cases r with
    | done => exact stop_ends _
    | tick => exact look_ends (hs.drift hd) ih
    | job res =>
      have hres := hjob res rfl
      have hpast : w₁.unit ≠ .queued := by
        intro hu
        rw [hs.queued hu] at hres
        cases hres
      have hreap := reap_ends res fuel w₂ (hs.drift hd) (past_drift hpast hd)
      cases res with
      | done =>
        rintro x ⟨⟩
        exact ((hs.done hres).drift hd).told
      | failed => exact hreap
      | canceled => exact hreap
      | dependency => exact hreap
      | timeout => exact hreap
      | skipped => exact hreap

/-- Before the run there is nothing to move. -/
theorem before_drift (hd : telling.Drift .before w) : w = .before := by
  refine hd.keeps (F := fun w => w = .before) ?_ rfl
  rintro w w' rfl hm
  cases hm with
  | starts h => cases h
  | exits h _ => cases h
  | fails h _ _ => cases h
  | unloads h => cases h
  | stops hthere _ _ => exact absurd rfl hthere

/-- A unit just queued is as sane as one can be. -/
theorem sane_queued : Sane { World.before with unit := .queued } :=
  ⟨nofun, fun _ => rfl, nofun, nofun, nofun⟩

theorem started_world
    (h : World.before.startTransientUnit c = some (.ok (), w)) :
    w = { World.before with unit := .queued } := by
  cases herr : c.err <;> simp_all [World.startTransientUnit, World.before]

theorem run_ends (properties : Except Bytes Unit) (fuel : Nat) :
    Safe telling anyWorld (run properties fuel) Ends .before := by
  cases properties with
  | error err =>
    rintro x ⟨⟩
    exact fun _ => rfl
  | ok u =>
    intro c r w₁ w₂ _ happ hd
    refine ⟨trivial, ?_⟩
    cases r with
    | error err => exact stop_ends _
    | ok u =>
      have hmade : w₁ = { World.before with unit := .queued } :=
        started_world happ
      subst hmade
      exact watch_ends fuel 0 w₂ (sane_queued.drift hd)

/-- In every run whose looks are all of a unit that is not still queued
and was not stopped into the state a clean exit leaves: a verdict of
success is of a command that was started and exited 0, any other outcome
is what the manager recorded, and an error that does not say otherwise
leaves nothing running. -/
theorem run_told (properties : Except Bytes Unit) (fuel : Nat)
    (v : Verdict) (w : World) (h : Reach (manager.only Telling.looks) noBoot
      ⟨some (run properties fuel), .before⟩ ⟨some (.ret (some v)), w⟩) :
    Told w v := by
  have hsafe : ∀ w', telling.Drift .before w' →
      Safe telling anyWorld (run properties fuel) Ends w' := by
    intro w' hd
    rw [before_drift hd]
    exact run_ends properties fuel
  exact reach_ret (fun _ _ _ hb => hb) hsafe h v rfl

/-- Every call answered, a select woken by the ticker. -/
def ticking : Choice := ⟨none, true, .tick, true, .absent⟩

/-- The unit just queued. -/
def queued : World := { World.before with unit := .queued }

/-- Its command running. -/
def running : World :=
  { World.before with unit := .activating, started := true }

/-- Its command ended with status 12. -/
def exited12 : World :=
  ⟨.ended true .exitCode 12, true, some 12, false, some .failed,
    some (.exitCode, 12)⟩

/-- One call of a run whose looks are telling. -/
theorem called (e : Call) (r : e.Answer) {k : e.Answer → Act (Option Verdict)}
    (hlook : e = .look → Telling w) (h : apply e ticking w = some (r, w')) :
    Step telling noBoot ⟨some (.call e k), w⟩ ⟨some (k r), w'⟩ :=
  .call ⟨trivial, hlook⟩ h

/-- A command that fails, its job's signal lost: the look has it reaped,
and the verdict is its exit status. -/
theorem run_told_failed :
    ∃ w, Told w (.ok ⟨12, .exitCode⟩) ∧ w.exited = some 12 := by
  have hstart : Step telling noBoot ⟨some (run (.ok ()) 2), .before⟩
      ⟨some (watch 2 0), queued⟩ :=
    called .startTransientUnit (.ok ()) nofun rfl
  have hmoves : Reach telling noBoot ⟨some (watch 2 0), queued⟩
      ⟨some (watch 2 0), exited12⟩ :=
    .head (.env (.starts rfl))
      (.single (.env (.fails rfl ⟨nofun, nofun⟩ (by decide))))
  have htick : Step telling noBoot ⟨some (watch 2 0), exited12⟩
      ⟨some (look (watch 1) 1 0), exited12⟩ :=
    called .select .tick nofun rfl
  have hlook : Step telling noBoot ⟨some (look (watch 1) 1 0), exited12⟩
      ⟨some (reap .failed 1), exited12⟩ :=
    called .look (.ok exited12.unit.props) (fun _ => ⟨nofun, nofun⟩) rfl
  have hread : Step telling noBoot ⟨some (reap .failed 1), exited12⟩
      ⟨some (ask .resetFailedUnit >>= fun _ =>
        .ret (some (.ok ⟨12, .exitCode⟩))), exited12⟩ :=
    called .props (.ok exited12.unit.props) nofun rfl
  have hreset : Step telling noBoot ⟨some (ask .resetFailedUnit >>= fun _ =>
        .ret (some (.ok ⟨12, .exitCode⟩))), exited12⟩
      ⟨some (.ret (some (.ok ⟨12, .exitCode⟩))), exited12.stop .absent⟩ :=
    called .resetFailedUnit () nofun rfl
  have hrun := (ReflTransGen.head hstart hmoves).trans (.head htick
    (.head hlook (.head hread (.single hreset))))
  exact ⟨_, run_told (.ok ()) 2 _ _ hrun, rfl⟩

/-- A look at a unit that is still queued says "success" of a command
that was never started; and a look at one that was stopped while its
command ran, and is gone, says it of a command that never exited. -/
theorem run_invents :
    (∃ w, Reach manager noBoot ⟨some (run (.ok ()) 1), .before⟩
        ⟨some (.ret (some (.ok .success))), w⟩ ∧
      w.started = false ∧ ¬ Told w (.ok .success)) ∧
    ∃ w, Reach manager noBoot ⟨some (run (.ok ()) 1), .before⟩
        ⟨some (.ret (some (.ok .success))), w⟩ ∧
      w.started = true ∧ w.exited = none ∧ ¬ Told w (.ok .success) := by
  have hmay : ∀ cs : List Choice,
      ∀ c ∈ cs, ∀ e w, manager.may e c w := fun _ _ _ _ _ => trivial
  constructor
  · exact ⟨queued, exec_reach (hmay [ticking, ticking, ticking]) rfl, rfl,
      by decide⟩
  · have hstart : Reach manager noBoot ⟨some (run (.ok ()) 1), .before⟩
        ⟨some (watch 1 0), queued⟩ :=
      exec_reach (hmay [ticking]) rfl
    have hstop : Reach manager noBoot ⟨some (watch 1 0), queued⟩
        ⟨some (watch 1 0), running.stop .absent⟩ :=
      .head (.env (.starts rfl)) (.single (.env (.stops nofun rfl (.inl rfl))))
    have hlook : Reach manager noBoot ⟨some (watch 1 0), running.stop .absent⟩
        ⟨some (.ret (some (.ok .success))), running.stop .absent⟩ :=
      exec_reach (hmay [ticking, ticking]) rfl
    exact ⟨_, (hstart.trans hstop).trans hlook, rfl, rfl, by decide⟩

end Hotserve.Backup.Unit
