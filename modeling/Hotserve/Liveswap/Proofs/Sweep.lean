/-
What a sweep does to the manager's units, and what its nil says.

# What is known of a unit

Without a start, a unit only ever ends. So what a thread has once read of
it stays true as far as it matters: a unit that had no process has none
later (`Quiet`), and one that was neither running nor loaded stays so
(`Gone`). A stray is settled when it is gone or an error was recorded,
and both last.

# The argument

Every move of every thread is in one relation, `Moves`: what was quiet or
gone remains so, errors are never taken back, a stray leaves the wait
group only once it is settled, and a stop or a reset is made only of a
unit the sweep may touch. `Moves` is reflexive and transitive and the
manager's own moves are in it, so each thread needs only that its facts
survive `Moves`. The main thread accounts for every unit of the listing,
as still to come, counted by the wait group, or settled; when the group
is empty and no error is recorded, all of them are gone.
-/
import Hotserve.Liveswap.Sweep
import Hotserve.Liveswap.Proofs.Units
import Mathlib.Data.List.Infix

namespace Hotserve.Liveswap

open Bytes
open Effect (Prog Shared Pool Obeys Sem)
open Manager

/-- The arguments of a sweep. -/
structure Sweeping where
  app : Bytes
  keep : Option Bytes
  still : Bool
  spare : Bool

-- ====== what is known

/-- The unit has no process. -/
def Quiet (w : Manager) (unit : Bytes) : Prop :=
  ∀ st, w.units.lookup unit = some st → st.running = false

/-- The unit is neither running nor loaded. -/
def Gone (w : Manager) (unit : Bytes) : Prop :=
  ∀ st, w.units.lookup unit = some st → st.running = false ∧ st.loaded = false

/-- What a sweep has to achieve for a stray; one that someone else may
own by now is left to them. -/
def Settled (s : Sweeping) (w : Manager) (unit : Bytes) : Prop :=
  s.still = true ∨ w.errs ≠ [] ∨ Gone w unit

/-- A unit the sweep may touch. -/
structure Ours (s : Sweeping) (unit : Bytes) : Prop where
  app : unitBelongsTo unit s.app = true
  keep : s.keep ≠ some unit

/-- A stop or a reset the sweep may make. -/
structure Proper (s : Sweeping) (i : Issue) : Prop where
  ours : Ours s i.unit
  spare : ∀ unit, i = .stop unit → s.spare = true → unitPreStart unit = none

/-- What any move of a sweep, or of the manager, does to the world. -/
structure Moves (s : Sweeping) (w w' : Manager) : Prop where
  quiet : ∀ unit, Quiet w unit → Quiet w' unit
  gone : ∀ unit, Gone w unit → Gone w' unit
  errs : w.errs ≠ [] → w'.errs ≠ []
  wg : ∀ unit ∈ w.wg, unit ∈ w'.wg ∨ Settled s w' unit
  forked : ∀ u ∈ w'.forked, u ∈ w.forked ∨
    Ours s u.name ∧ u.state.running = true
  issued : ∀ i ∈ w'.issued, i ∈ w.issued ∨ Proper s i

/-- The invariant: the goroutines asked for are of running strays, and no
stop or reset was made that should not have been. -/
structure Clean (s : Sweeping) (w : Manager) : Prop where
  forked : ∀ u ∈ w.forked, Ours s u.name ∧ u.state.running = true
  issued : ∀ i ∈ w.issued, Proper s i

section Moves

variable {s : Sweeping} {w w' w'' : Manager} {unit : Bytes}

theorem Settled.mono (h : Settled s w unit)
    (hm : Moves s w w') : Settled s w' unit := by
  rcases h with h | h | h
  · exact .inl h
  · exact .inr (.inl (hm.errs h))
  · exact .inr (.inr (hm.gone unit h))

theorem Moves.refl (w : Manager) : Moves s w w where
  quiet _ h := h
  gone _ h := h
  errs h := h
  wg _ h := .inl h
  forked _ h := .inl h
  issued _ h := .inl h

theorem Moves.trans (h : Moves s w w') (h' : Moves s w' w'') :
    Moves s w w'' where
  quiet unit hq := h'.quiet unit (h.quiet unit hq)
  gone unit hg := h'.gone unit (h.gone unit hg)
  errs he := h'.errs (h.errs he)
  wg unit hu := by
    rcases h.wg unit hu with hu | hs
    · exact h'.wg unit hu
    · exact .inr (hs.mono h')
  forked u hu := by
    rcases h'.forked u hu with hu | ho
    · exact h.forked u hu
    · exact .inr ho
  issued i hi := by
    rcases h'.issued i hi with hi | hp
    · exact h.issued i hi
    · exact .inr hp

theorem Clean.mono (h : Clean s w) (hm : Moves s w w') : Clean s w' where
  forked u hu := (hm.forked u hu).elim (h.forked u) id
  issued i hi := (hm.issued i hi).elim (h.issued i) id

-- ====== the manager's moves

theorem lookup_become_self (next : Option UnitState) :
    (w.become unit next).units.lookup unit = next := by
  cases next with
  | none => exact AList.lookup_erase unit w.units
  | some st => exact AList.lookup_insert w.units

theorem lookup_become_ne {unit other : Bytes}
    (next : Option UnitState) (h : other ≠ unit) :
    (w.become unit next).units.lookup other = w.units.lookup other := by
  cases next with
  | none => exact AList.lookup_erase_ne h
  | some st => exact AList.lookup_insert_ne h

variable {next : Option UnitState}

/-- A unit that had no process is unloaded by its end, if anything. -/
theorem endsAs_quiet {cur : Option UnitState} (h : endsAs cur next = true)
    (hcur : ∀ st, cur = some st → st.running = false) :
    next = none ∨ next = cur := by
  cases next with
  | none => exact .inl rfl
  | some st' =>
    cases cur with
    | none => cases h
    | some st =>
      simp only [endsAs, hcur st rfl, Bool.false_or, beq_iff_eq] at h
      exact .inr (congrArg some h.symm)

/-- Changing one unit as an end does. -/
theorem quiet_become (h : endsAs (w.units.lookup unit) next = true) {n : Bytes}
    (hq : Quiet w n) : (w.become unit next).units.lookup n = none ∨
      (w.become unit next).units.lookup n = w.units.lookup n := by
  by_cases hn : n = unit
  · subst hn
    rw [lookup_become_self]
    exact endsAs_quiet h hq
  · exact .inr (lookup_become_ne next hn)

theorem Gone.quiet (h : Gone w unit) : Quiet w unit :=
  fun st hst => (h st hst).1

theorem moves_become (h : endsAs (w.units.lookup unit) next = true) :
    Moves s w (w.become unit next) := by
  have hrest : (w.become unit next).errs = w.errs ∧
      (w.become unit next).wg = w.wg ∧
      (w.become unit next).forked = w.forked ∧
      (w.become unit next).issued = w.issued := by
    cases next <;> exact ⟨rfl, rfl, rfl, rfl⟩
  obtain ⟨herrs, hwg, hforked, hissued⟩ := hrest
  refine ⟨fun n hq st hst => ?_, fun n hg st hst => ?_, ?_, ?_, ?_, ?_⟩
  · rcases quiet_become h hq with hnone | hsame
    · rw [hnone] at hst
      cases hst
    · exact hq st (hsame ▸ hst)
  · rcases quiet_become h hg.quiet with hnone | hsame
    · rw [hnone] at hst
      cases hst
    · exact hg st (hsame ▸ hst)
  · rw [herrs]
    exact id
  · rw [hwg]
    exact fun _ hu => .inl hu
  · rw [hforked]
    exact fun _ hu => .inl hu
  · rw [hissued]
    exact fun _ hi => .inl hi

theorem moves_reset : Moves s w (w.reset unit) := by
  rw [Manager.reset]
  cases hst : w.units.lookup unit with
  | none => exact Moves.refl w
  | some st =>
    by_cases hrun : st.running = true
    · simp only [if_pos hrun]
      exact Moves.refl w
    · simp only [if_neg hrun]
      exact moves_become (by rw [hst]; rfl)

/-- A unit without a process is gone once it is reset. -/
theorem gone_reset (h : Quiet w unit) : Gone (w.reset unit) unit := by
  intro st hst
  rw [Manager.reset] at hst
  cases hcur : w.units.lookup unit with
  | none =>
    rw [hcur] at hst
    exact absurd hst (by rw [hcur]; exact nofun)
  | some cur =>
    simp only [hcur, h cur hcur, Bool.false_eq_true, if_false,
      lookup_become_self] at hst
    cases hst

theorem become_issued : (w.become unit next).issued = w.issued := by
  cases next <;> rfl

theorem reset_issued : (w.reset unit).issued = w.issued := by
  rw [Manager.reset]
  cases w.units.lookup unit with
  | none => rfl
  | some st =>
    dsimp only
    split
    · rfl
    · exact become_issued

/-- Keeping the account of a proper stop or reset changes nothing else. -/
theorem Moves.issue {i : Issue} (h : Moves s w w')
    (hsame : w'.issued = w.issued) (hi : Proper s i) :
    Moves s w { w' with issued := w.issued ++ [i] } := by
  refine h.trans ⟨fun _ h => h, fun _ h => h, id, fun _ h => .inl h,
    fun _ h => .inl h, fun j hj => ?_⟩
  rcases List.mem_append.mp hj with hj | hj
  · exact .inl (hsame ▸ hj)
  · exact .inr (List.mem_singleton.mp hj ▸ hi)

theorem moves_record (err : SweepError) :
    Moves s w { w with errs := w.errs ++ [err] } :=
  ⟨fun _ h => h, fun _ h => h, fun _ => by simp, fun _ h => .inl h,
    fun _ h => .inl h, fun _ h => .inl h⟩

theorem moves_done (h : Settled s w unit) :
    Moves s w { w with wg := w.wg.erase unit } := by
  refine ⟨fun _ h => h, fun _ h => h, id, fun n hn => ?_, fun _ h => .inl h,
    fun _ h => .inl h⟩
  by_cases hne : n = unit
  · exact .inr (hne ▸ h)
  · exact .inl ((List.mem_erase_of_ne hne).mpr hn)

theorem moves_go {u : UnitStatus} (ho : Ours s u.name)
    (hrun : u.state.running = true) :
    Moves s w { w with forked := w.forked ++ [u], wg := w.wg ++ [u.name] } := by
  refine ⟨fun _ h => h, fun _ h => h, id,
    fun _ h => .inl (List.mem_append_left _ h), fun v hv => ?_,
    fun _ h => .inl h⟩
  rcases List.mem_append.mp hv with hv | hv
  · exact .inl hv
  · exact .inr (List.mem_singleton.mp hv ▸ ⟨ho, hrun⟩)

end Moves

-- ====== the threads

section Threads

variable {s : Sweeping}

/-- A thread's program, run among the others. -/
abbrev Runs {α : Type} (s : Sweeping) (t : Thread) (p : Runner α)
    (Q : α → Manager → Prop) (w : Manager) : Prop :=
  Obeys (manager.view (Clean s)
    (fun _ => Moves s) t) (Moves s) p Q w

variable {t : Thread} {w : Manager} {unit : Bytes}

variable {w' : Manager} {α : Type} {u : UnitStatus} {units : List UnitStatus}

theorem moves_env {w : Manager} (h : manager.env w w') : Moves s w w' := by
  obtain ⟨unit, next, hends, rfl⟩ := h
  exact moves_become hends

/-- What a thread sees others do. -/
theorem moves_view {w : Manager} (h : (manager.view (Clean s)
      (fun _ => Moves s) t).env w w') : Moves s w w' := by
  rcases h with ⟨-, henv | ⟨_, -, hother⟩⟩
  · exact moves_env henv
  · exact hother

theorem moves_drift {w : Manager} (h : (manager.view (Clean s)
      (fun _ => Moves s) t).Drift w w') : Moves s w w' :=
  h.keeps (F := Moves s w)
    (fun _ _ hm henv => hm.trans (moves_view henv)) (Moves.refl w)

/-- From its beginning to its end a program has moved. -/
theorem Runs.moved {p : Runner α} {Q : α → Manager → Prop}
    (h : Runs s t p Q w) : Runs s t p (fun a w' => Q a w' ∧ Moves s w w') w :=
  h.frame (fun _ _ hm hg => hm.trans hg)
    (fun _ _ hm henv => hm.trans (moves_view henv)) (Moves.refl w)

/-- One call: its move, and what is left to do after any others. -/
theorem runs_call {e : Call} {k : e.Answer → Runner α} {Q : α → Manager → Prop}
    (h : ∀ c r w', Manager.apply e c w = some (r, w') →
      Moves s w w' ∧ ∀ w'', Moves s w' w'' →
        Runs s t (k r) Q w'') : Runs s t (.call e k) Q w := by
  intro c r w' _ happ
  obtain ⟨hm, hk⟩ := h c r w' happ
  exact ⟨hm, fun w'' hd => hk w'' (moves_drift hd)⟩

/-- What a status says of its unit now. -/
structure Seen (w : Manager) (u : UnitStatus) : Prop where
  quiet : u.state.running = false → Quiet w u.name
  gone : u.state.running = false → u.state.leftover = false → Gone w u.name

theorem Seen.mono {w : Manager} (h : Seen w u)
    (hm : Moves s w w') : Seen w' u :=
  ⟨fun hr => hm.quiet _ (h.quiet hr), fun hr hl => hm.gone _ (h.gone hr hl)⟩

theorem Seen.of_running (h : u.state.running = true) : Seen w u :=
  ⟨fun hr => absurd (h.symm.trans hr) (by decide),
    fun hr => absurd (h.symm.trans hr) (by decide)⟩

/-- What a leftover is not, it is not loaded. -/
theorem loaded_of_leftover {st : UnitState} (h : st.leftover = false) :
    st.loaded = false := by
  rw [UnitState.leftover, Bool.or_eq_false_iff] at h
  exact h.1

/-- A status with the states of the unit as it is. -/
theorem Seen.of_state (h : ∀ st, w.units.lookup u.name = some st →
      st.load = u.state.load ∧ st.active = u.state.active) : Seen w u := by
  have hrun : ∀ st, w.units.lookup u.name = some st →
      st.running = u.state.running := by
    intro st hst
    rw [UnitState.running, UnitState.running, (h st hst).2]
  refine ⟨fun hr st hst => (hrun st hst).trans hr, fun hr hl st hst => ?_⟩
  refine ⟨(hrun st hst).trans hr, ?_⟩
  have hload := loaded_of_leftover hl
  rwa [UnitState.loaded, ← (h st hst).1] at hload

theorem seen_lookup : Seen w ⟨unit, (w.units.lookup unit).getD notFound⟩ := by
  refine Seen.of_state fun st hst => ?_
  rw [hst]
  exact ⟨rfl, rfl⟩

theorem orElse_eq_ok {c : Fate} {a b : α}
    (h : c.orElse a = .ok b) : b = a ∧ c.err = none := by
  rw [Fate.orElse] at h
  cases herr : c.err with
  | none =>
    rw [herr] at h
    cases h
    exact ⟨rfl, rfl⟩
  | some err =>
    rw [herr] at h
    cases h

-- ------ one call at a time

theorem runs_unitStatus : Runs s t (unitStatus unit)
      (fun r w' => ∀ st, r = .ok st → Seen w' ⟨unit, st⟩) w := by
  refine runs_call fun c r w' happ => ?_
  cases happ
  refine ⟨Moves.refl w, fun w'' hm st hst => ?_⟩
  obtain ⟨rfl, -⟩ := orElse_eq_ok hst
  exact seen_lookup.mono hm

theorem runs_resetFailedUnit (hours : Ours s unit) (hq : Quiet w unit) :
    Runs s t (resetFailedUnit unit)
      (fun r w' => r = .ok () → Gone w' unit) w := by
  have hproper : Proper s (.reset unit) :=
    ⟨hours, nofun⟩
  refine runs_call fun c r w' happ => ?_
  cases happ
  constructor
  · split
    · exact (Moves.refl w).issue rfl hproper
    · exact moves_reset.issue reset_issued hproper
  · intro w'' hm hok
    obtain ⟨-, herr⟩ := orElse_eq_ok hok
    refine hm.gone unit ?_
    simp only [herr, Option.isSome_none, Bool.false_and, Bool.false_eq_true,
      if_false]
    exact gone_reset hq

theorem runs_stopUnit {within : Nat} (hours : Ours s unit)
    (hspare : s.spare = true → unitPreStart unit = none) :
    Runs s t (stopUnit unit within) (fun _ _ => True) w := by
  have hproper : Proper s (.stop unit) := by
    refine ⟨hours, fun n hn => ?_⟩
    cases hn
    exact hspare
  refine runs_call fun c r w' happ => ?_
  simp only [Manager.apply] at happ
  split at happ
  next hends =>
    cases happ
    exact ⟨(moves_become hends).issue become_issued hproper,
      fun _ _ => trivial⟩
  next => cases happ

theorem runs_record (err : SweepError) :
    Runs s t (record err) (fun _ w' => w'.errs ≠ []) w := by
  refine runs_call fun c r w' happ => ?_
  cases happ
  exact ⟨moves_record err, fun w'' hm => hm.errs (by simp)⟩

-- ------ the functions

theorem runs_unitStatusOf (hseen : Seen w u) : Runs s t (unitStatusOf u)
      (fun u' w' => u'.name = u.name ∧ Seen w' u') w := by
  refine runs_call fun c r w' happ => ?_
  cases happ
  refine ⟨Moves.refl w, fun w'' hm => ?_⟩
  cases hr : c.orElse ((w.units.lookup u.name).getD notFound) with
  | error err => exact ⟨rfl, hseen.mono hm⟩
  | ok st =>
    obtain ⟨rfl, -⟩ := orElse_eq_ok hr
    exact ⟨rfl, seen_lookup.mono hm⟩

theorem runs_resetLeftover (hours : Ours s unit) (hq : Quiet w unit) :
    Runs s t (resetLeftover unit) (fun _ w' => Settled s w' unit) w := by
  refine Obeys.bind (Obeys.bind ?_)
  refine (runs_resetFailedUnit hours hq).post fun r w' hr => ?_
  cases r with
  | error err =>
    exact (runs_record _).post fun _ w'' herrs => .inr (.inl herrs)
  | ok _ => exact .inr (.inr (hr rfl))

theorem runs_stopUnobserved {within : Nat} (hours : Ours s unit)
    (hspare : s.spare = true → unitPreStart unit = none) :
    Runs s t (stopUnobserved unit within)
      (fun err w' => unitUnconfirmed err = true ∨ Gone w' unit) w := by
  refine Obeys.bind ((runs_stopUnit hours hspare).post fun r w' _ => ?_)
  cases r with
  | error err => exact .inl rfl
  | ok res =>
    by_cases hres : res = .done
    · simp only [hres, ne_eq, not_true_eq_false, if_false]
      refine Obeys.bind (runs_unitStatus.post fun r w' hr => ?_)
      cases r with
      | error err => exact .inl rfl
      | ok st =>
        have hseen := hr st rfl
        cases hrun : st.running with
        | true =>
          simp only [hrun, if_true]
          exact .inl rfl
        | false =>
          cases hleft : st.leftover with
          | true =>
            simp only [hrun, hleft, Bool.false_eq_true, if_false, if_true]
            refine Obeys.bind ((runs_resetFailedUnit hours
              (hseen.quiet hrun)).post fun r w'' hr => ?_)
            cases r with
            | error err => exact .inl rfl
            | ok _ => exact .inr (hr rfl)
          | false =>
            simp only [hrun, hleft, Bool.false_eq_true, if_false]
            exact .inr (hseen.gone hrun hleft)
    · simp only [ne_eq, hres, not_false_eq_true, if_true]
      exact .inl rfl

theorem runs_stopStray (hours : Ours s u.name)
    (hspare : s.spare = true → unitPreStart u.name = none) :
    Runs s t (stopStray s.still u) (fun _ w' => Settled s w' u.name) w := by
  -- an owner is only asked where one may have come
  have hask : Runs s t
      (if s.still then askStill else pure true)
      (fun ours _ => s.still = true ∨ ours = true) w := by
    cases hstill : s.still with
    | true =>
      refine runs_call fun c r w' happ => ?_
      cases happ
      exact ⟨Moves.refl w, fun _ _ => .inl rfl⟩
    | false => exact .inr rfl
  refine Obeys.bind (hask.post fun ours w' hours' => ?_)
  cases ours with
  | false => exact .inl (hours'.resolve_right (by decide))
  | true =>
    refine (runs_stopUnobserved hours hspare).andThen ?_
    intro err w'' hgone
    cases hconf : unitUnconfirmed err with
    | true =>
      simp only [if_true]
      exact (runs_record err).post fun _ w'' herrs => .inr (.inl herrs)
    | false =>
      simp only [Bool.false_eq_true, if_false]
      exact .inr (.inr (hgone.resolve_left (by simp [hconf])))

theorem runs_settleStray (hours : Ours s u.name) (hseen : Seen w u) :
    Runs s t (settleStray s.still s.spare u)
      (fun _ w' => Settled s w' u.name) w := by
  refine (runs_unitStatusOf hseen).andThen ?_
  rintro u' w' ⟨hname, hseen'⟩
  rw [← hname] at hours ⊢
  cases hrun : u'.state.running with
  | true =>
    simp only [if_true]
    cases hpre : unitPreStart u'.name with
    | none => exact runs_stopStray hours fun _ => hpre
    | some version =>
      cases hspare : s.spare with
      | true => exact (runs_record _).post fun _ _ h => .inr (.inl h)
      | false => exact runs_stopStray hours (by simp [hspare])
  | false =>
    simp only [Bool.false_eq_true, if_false]
    cases hleft : u'.state.leftover with
    | true =>
      simp only [if_true]
      exact runs_resetLeftover hours (hseen'.quiet hrun)
    | false =>
      simp only [Bool.false_eq_true, if_false]
      exact .inr (.inr (hseen'.gone hrun hleft))

/-- A goroutine leaves the wait group when its stray is settled. -/
theorem runs_stray (hours : Ours s u.name) (hrun : u.state.running = true) :
    Runs s t (stray s.still s.spare u) (fun _ _ => True) w := by
  refine (runs_settleStray hours (.of_running hrun)).andThen ?_
  intro _ w' hsettled
  refine runs_call fun c r w'' happ => ?_
  cases happ
  exact ⟨moves_done hsettled, fun _ _ => trivial⟩

-- ------ the main thread

/-- Where the main thread stands with `units` of the listing to come:
every unit of the app is among them, with a goroutine, or settled. -/
structure Accounted (s : Sweeping) (units : List UnitStatus) (w : Manager) :
    Prop where
  seen : ∀ u ∈ units, Seen w u
  all : ∀ unit, Ours s unit → (∃ u ∈ units, u.name = unit) ∨
    unit ∈ w.wg ∨ Settled s w unit

theorem Accounted.mono {w : Manager} (h : Accounted s units w)
    (hm : Moves s w w') : Accounted s units w' := by
  refine ⟨fun u hu => (h.seen u hu).mono hm, fun unit hours => ?_⟩
  rcases h.all unit hours with hto | hwg | hsettled
  · exact .inl hto
  · exact .inr (hm.wg unit hwg)
  · exact .inr (.inr (hsettled.mono hm))

/-- The first unit is dealt with. -/
theorem Accounted.tail (h : Accounted s (u :: units) w)
    (hu : Ours s u.name → u.name ∈ w.wg ∨ Settled s w u.name) :
    Accounted s units w := by
  refine ⟨fun v hv => h.seen v (.tail _ hv), ?_⟩
  intro unit hours
  rcases h.all unit hours with ⟨v, hv, rfl⟩ | hdone
  · rcases List.mem_cons.mp hv with rfl | hv
    · exact .inr (hu hours)
    · exact .inl ⟨v, hv, rfl⟩
  · exact .inr hdone

/-- The units the loop skips are the kept one and those of others. -/
theorem ours_iff {unit : Bytes} : Ours s unit ↔
      (unit == s.keep.getD [] || !unitBelongsTo unit s.app) = false := by
  rw [Bool.or_eq_false_iff, Bool.not_eq_false', beq_eq_false_iff_ne]
  constructor
  · rintro ⟨happ, hkeep⟩
    refine ⟨?_, happ⟩
    cases hk : s.keep with
    | some k => exact fun heq => hkeep (hk.trans (congrArg some heq.symm))
    | none =>
      rintro rfl
      exact absurd happ (by
        have hno : unitApp [] = none := by decide +kernel
        simp [unitBelongsTo, hno])
  · rintro ⟨hkeep, happ⟩
    refine ⟨happ, ?_⟩
    intro heq
    exact hkeep (by rw [heq]; rfl)

theorem runs_sweepUnits (h : Accounted s units w) :
    Runs s t (sweepUnits s.app (s.keep.getD []) units)
      (fun _ w' => Accounted s [] w') w := by
  induction units generalizing w with
  | nil => exact h
  | cons u units ih =>
    refine Obeys.bind (Obeys.post
      (Q := fun _ w' => Accounted s units w') ?_
      fun _ w' h' => ih h')
    cases hskip : u.name == s.keep.getD [] || !unitBelongsTo u.name s.app with
    | true =>
      refine h.tail fun hours => ?_
      rw [ours_iff.mp hours] at hskip
      cases hskip
    | false =>
      have hours : Ours s u.name := ours_iff.mpr hskip
      have hseen := h.seen u (.head _)
      simp only [Bool.false_eq_true, if_false]
      cases hrun : u.state.running with
      | true =>
        simp only [if_true]
        refine runs_call fun c r w' happ => ?_
        cases happ
        have hm : Moves s w _ :=
          moves_go hours hrun
        refine ⟨hm, fun w'' hm' => Accounted.mono ?_ hm'⟩
        exact (h.mono hm).tail fun _ => .inl (by simp)
      | false =>
        simp only [Bool.false_eq_true, if_false]
        cases hleft : u.state.leftover with
        | true =>
          simp only [if_true]
          refine (runs_unitStatusOf hseen).moved.andThen ?_
          rintro u' w' ⟨⟨hname, -⟩, hm⟩
          rw [hname]
          have hquiet := hm.quiet _ (hseen.quiet hrun)
          refine (runs_resetLeftover hours hquiet).moved.post ?_
          rintro _ w'' ⟨hsettled, hm'⟩
          exact ((h.mono hm).mono hm').tail fun _ => .inr hsettled
        | false =>
          simp only [Bool.false_eq_true, if_false]
          exact h.tail fun _ => .inr (.inr (.inr (hseen.gone hrun hleft)))

-- ------ the listing

/-- Bytes other than `*` stand for themselves. -/
theorem glob_append {p : Bytes} (hp : 42 ∉ p) (r b : Bytes) :
    glob (p ++ r) (p ++ b) = glob r b := by
  induction p with
  | nil => rfl
  | cons c p ih =>
    rw [List.mem_cons, not_or] at hp
    rw [List.cons_append, List.cons_append, glob, if_neg (Ne.symm hp.1)]
    simp [ih hp.2]

theorem glob_star (p x b : Bytes) (h : glob p b = true) :
    glob (42 :: p) (x ++ b) = true := by
  rw [glob.eq_def]
  simp only [if_true, List.any_eq_true]
  exact ⟨b, (List.mem_tails b _).mpr (List.suffix_append x b), h⟩

/-- The listing's pattern takes in every unit of the app. -/
theorem glob_sweepPattern (h : unitBelongsTo unit s.app = true) :
    glob (sweepPattern s.app) unit = true := by
  obtain ⟨v, n, o, hvalid, rfl⟩ := unitApp_eq_some (beq_iff_eq.mp h)
  have hstar : (42 : UInt8) ∉ s.app := by
    intro hmem
    have hread := reads_of_match appNameRe_reads hvalid.app
    exact absurd (hread.2.2.1 42 hmem) (by decide)
  have hpattern : sweepPattern s.app = (unitPrefix ++ s.app ++ str ".") ++
      (42 :: str ".service") := by
    have hstr : str ".*.service" = str "." ++ 42 :: str ".service" := by
      decide
    simp [sweepPattern, hstr]
  have hname : joinName s.app v n o = (unitPrefix ++ s.app ++ str ".") ++
      ((v ++ str "." ++ n ++ preStartMark o) ++ str ".service") := by
    simp [joinName, preStartMark]
  have hno : (42 : UInt8) ∉ unitPrefix ++ s.app ++ str "." := by
    simp only [List.mem_append, not_or]
    exact ⟨⟨by decide, hstar⟩, by decide⟩
  have hend : glob (str ".service") (str ".service") = true := by decide
  rw [hpattern, hname, glob_append hno]
  exact glob_star _ _ _ hend

/-- A listing accounts for every unit of the app. -/
theorem accounted_listing : Accounted s (w.listing (sweepPattern s.app)) w := by
  constructor
  · intro u hu
    obtain ⟨e, he, rfl⟩ := List.mem_map.mp hu
    refine Seen.of_state fun st hst => ?_
    have hlook := AList.mem_lookup_iff.mpr (List.mem_filter.mp he).1
    cases Option.some.inj (hst.symm.trans hlook)
    exact ⟨rfl, rfl⟩
  · intro unit hours
    cases hst : w.units.lookup unit with
    | none =>
      refine .inr (.inr (.inr (.inr fun st hst' => ?_)))
      exact absurd (hst.symm.trans hst') nofun
    | some st =>
      refine .inl ⟨_, List.mem_map_of_mem (List.mem_filter.mpr
        ⟨AList.mem_lookup_iff.mp hst, ?_⟩), rfl⟩
      exact glob_sweepPattern hours.app

/-- What the main thread's result says. -/
def Swept (s : Sweeping) (res : List SweepError) (w : Manager) : Prop :=
  res = [] → s.still = false → ∀ unit, Ours s unit → Gone w unit

/-- When the wait is over and no error is recorded, all is gone. -/
theorem runs_wgWait (h : Accounted s [] w) : Runs s t wgWait (Swept s) w := by
  refine runs_call fun c r w' happ => ?_
  simp only [Manager.apply] at happ
  split at happ
  next hwg =>
    cases happ
    refine ⟨Moves.refl w, fun w' hm herrs hstill unit hours => ?_⟩
    rcases h.all unit hours with ⟨_, hnone, -⟩ | hin | hsettled
    · cases hnone
    · rw [hwg] at hin
      cases hin
    · rcases hsettled with h | h | h
      · exact absurd (h.symm.trans hstill) (by decide)
      · exact absurd herrs h
      · exact hm.gone unit h
  next => cases happ

theorem runs_sweep : Runs s t (sweep s.app s.keep) (Swept s) w := by
  refine runs_call fun c r w' happ => ?_
  cases happ
  refine ⟨Moves.refl w, fun w' hm => ?_⟩
  cases hr : c.orElse (w.listing (sweepPattern s.app)) with
  | error err => exact fun hres => absurd hres (by simp)
  | ok units =>
    obtain ⟨rfl, -⟩ := orElse_eq_ok hr
    have hloop : Runs s t _ _ w' :=
      runs_sweepUnits (accounted_listing.mono hm)
    exact Obeys.bind (p := sweepUnits s.app _ _)
      (hloop.post fun _ v hall => runs_wgWait hall)

end Threads

-- ====== every run

section Runs

variable {s : Sweeping}

/-- A goroutine that begins is no longer waiting to. -/
theorem moves_begin {w : Manager} {u : UnitStatus} :
    Moves s w { w with forked := w.forked.erase u } :=
  ⟨fun _ h => h, fun _ h => h, id, fun _ h => .inl h,
    fun _ h => .inl (List.mem_of_mem_erase h), fun _ h => .inl h⟩

/-- The threads' postconditions: only the main one's result says
anything. -/
def After (s : Sweeping) : Thread → List SweepError → Manager → Prop
  | .main => Swept s
  | .stray _ => fun _ _ => True

theorem sweep_sound : Pool.Sound manager (begins s.still s.spare)
    (Clean s) (fun _ => Moves s) (After s) where
  keeps _ _ _ hclean hm := hclean.mono hm
  env _ _ hclean henv :=
    have hm : Moves s _ _ := moves_env henv
    hclean.mono hm
  lost _ _ _ _ hlost := hlost.elim
  boot := by
    rintro t w p w' hclean ⟨u, hu, rfl, rfl, rfl⟩
    obtain ⟨hours, hrun⟩ := hclean.forked u hu
    exact ⟨moves_begin, fun w'' _ => runs_stray hours hrun⟩

theorem sweepPool_fair (units : AList fun _ : Bytes => UnitState) :
    Pool.Fair manager (Clean s) (fun _ => Moves s) (After s)
      (sweepPool s.app s.keep units) := by
  refine ⟨⟨nofun, nofun⟩, ?_⟩
  intro t p hrun w _
  cases t with
  | main =>
    cases hrun
    exact runs_sweep
  | stray unit => cases hrun

variable {app : Bytes} {keep : Option Bytes} {still spare : Bool}

/-- A unit of an app is one `unitName` has named for it. -/
theorem belongs_iff {unit : Bytes} :
    unitBelongsTo unit app = true ↔ ∃ spec oneshot, spec.probe = false ∧
      spec.app = app ∧ unitName spec oneshot = .ok unit := by
  constructor
  · intro h
    obtain ⟨v, n, o, hvalid, rfl⟩ := unitApp_eq_some (beq_iff_eq.mp h)
    exact ⟨⟨app, v, n, false⟩, o, rfl, rfl, unitName_ok hvalid o⟩
  · rintro ⟨spec, oneshot, hprobe, rfl, hname⟩
    obtain ⟨hvalid, rfl⟩ := unitName_eq_ok hprobe hname
    exact beq_iff_eq.mpr (unitApp_joinName hvalid oneshot)

/-- It is no probe's, and no other app's. -/
theorem belongs_only {unit : Bytes} (h : unitBelongsTo unit app = true)
    {spec : StartSpec} {oneshot : Bool}
    (hname : unitName spec oneshot = .ok unit) :
    spec.probe = false ∧ spec.app = app := by
  have happ := beq_iff_eq.mp h
  cases hprobe : spec.probe with
  | true =>
    rw [unitApp_probe hprobe hname] at happ
    cases happ
  | false =>
    obtain ⟨hvalid, rfl⟩ := unitName_eq_ok hprobe hname
    rw [unitApp_joinName hvalid] at happ
    exact ⟨rfl, Option.some.inj happ⟩

/-- In every run of a sweep, whatever the manager answers and whenever
units end: every stop and reset is of a unit named for the app, of no
probe and no other app, and not of the kept one; with `spare` no
pre_start is stopped; and once the sweep has returned without an error no
unit of the app but the kept one is running or loaded. Names read back as
they were built. -/
theorem sweep_exact {units : AList fun _ : Bytes => UnitState}
    {q : Pool Thread Call.Answer (List SweepError) Manager}
    (h : Pool.Reach manager (begins still spare) (sweepPool app keep units) q) :
    (∀ i ∈ q.world.issued,
      (∃ spec oneshot, spec.probe = false ∧ spec.app = app ∧
        unitName spec oneshot = .ok i.unit) ∧
      (∀ spec oneshot, unitName spec oneshot = .ok i.unit →
        spec.probe = false ∧ spec.app = app) ∧
      keep ≠ some i.unit ∧
      ∀ unit, i = .stop unit → spare = true → unitPreStart unit = none) ∧
    (q.run .main = some (.ret []) → still = false →
      ∀ unit st, q.world.units.lookup unit = some st →
        (∃ spec oneshot, spec.probe = false ∧ spec.app = app ∧
          unitName spec oneshot = .ok unit) →
        keep ≠ some unit → st.running = false ∧ st.loaded = false) ∧
    ∀ version nonce oneshot, appNameRe.matchString app = true →
      validVersion version = true → nonceRe.matchString nonce = true →
      ∃ name, unitName ⟨app, version, nonce, false⟩ oneshot = .ok name ∧
        unitApp name = some app ∧ unitNonce name = some nonce ∧
        unitPreStart name = if oneshot then some version else none := by
  let s : Sweeping := ⟨app, keep, still, spare⟩
  have hfair := (sweep_sound (s := s)).reach h (sweepPool_fair units)
  refine ⟨fun i hi => ?_, fun hret hstill unit st hst hunit hkeep => ?_, ?_⟩
  · have hproper := hfair.inv.issued i hi
    exact ⟨belongs_iff.mp hproper.ours.app,
      fun _ _ hname => belongs_only hproper.ours.app hname,
      hproper.ours.keep, hproper.spare⟩
  · have hswept : Swept s [] q.world := hfair.ended hret
    exact hswept rfl hstill unit ⟨belongs_iff.mpr hunit, hkeep⟩ st hst
  · intro version nonce oneshot happ hversion hnonce
    have hvalid : ValidParts app version nonce := ⟨happ, hversion, hnonce⟩
    exact ⟨_, unitName_ok hvalid oneshot, unitApp_joinName hvalid oneshot,
      unitNonce_joinName hvalid oneshot, unitPreStart_joinName hvalid oneshot⟩

/-- An instance of `web` that failed and was never reset, beside one of
`web-api` that is running. -/
def leftUnits : AList fun _ : Bytes => UnitState :=
  (AList.insert (str "motel-web.1.0.prestart.0123456789abcdef.service")
      ⟨.loaded, .failed, 10⟩ ∅).insert
    (str "motel-web-api.2.0123456789abcdef.service") ⟨.loaded, .active, 10⟩

/-- A sweep of `web` that is answered at every call resets it, returns
without an error and leaves no unit of `web` loaded. -/
def leftoverReset (q : Pool Thread Call.Answer (List SweepError) Manager) :
    Bool :=
  match q.run .main with
  | some (.ret []) => q.world.issued =
      [.reset (str "motel-web.1.0.prestart.0123456789abcdef.service")]
  | _ => false

theorem sweep_exact_leftover : ∃ q, Pool.Reach manager (begins false true)
        (sweepPool (str "web") none leftUnits) q ∧
      q.run .main = some (.ret []) ∧ q.world.issued =
        [.reset (str "motel-web.1.0.prestart.0123456789abcdef.service")] ∧
      ∀ unit st, q.world.units.lookup unit = some st →
        (∃ spec oneshot, spec.probe = false ∧ spec.app = str "web" ∧
          unitName spec oneshot = .ok unit) →
        none ≠ some unit → st.running = false ∧ st.loaded = false := by
  let fine : Thread × Fate := (.main, ⟨none, false, none, .done, true⟩)
  obtain ⟨q, hreach, hend⟩ := Pool.exec_reach_any (M := manager)
    (q := sweepPool (str "web") none leftUnits) (f := leftoverReset)
    (begins false true) [fine, fine, fine, fine] (by decide +kernel)
  unfold leftoverReset at hend
  split at hend
  next hret =>
    exact ⟨q, hreach, hret, of_decide_eq_true hend,
      (sweep_exact hreach).2.1 hret rfl⟩
  next => cases hend

end Runs

end Hotserve.Liveswap
