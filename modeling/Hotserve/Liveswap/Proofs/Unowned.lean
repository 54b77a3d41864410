/-
The start-time sweep against the owner of the app.

The sweep judges the app unowned once, under the owner lock, and asks again
only for a unit it is about to stop. What keeps its prune off an owner's
instance is that the owner has none until the sweep is over (`Inv.clean`).
A recovery keeps that, since it launches under the owner lock; a deploy
does not take the lock, and one that makes its run dir meanwhile loses it
(`prune_takes_deploy`). Where no deploy makes a run dir while an unvetoed
sweep holds the lock (`State.spared`), the sweep takes nothing of an
owner's.
-/
import Hotserve.Liveswap.Unowned

namespace Hotserve.Liveswap.Unowned

variable {s s' : State}

/-- A deploy does not make its run dir while a sweep that has not been
vetoed holds the owner lock. -/
def State.spared (s : State) (e : Event) : Bool :=
  e != .deployMakes || s.ownerMu != some .sweep || s.vetoed

/-- The sweep holds the owner lock. -/
def Sweep.holds : Sweep → Bool
  | .absent => false
  | .waiting => false
  | _ => true

/-- It has judged the app unowned. -/
def Sweep.judged : Sweep → Bool
  | .absent => false
  | .waiting => false
  | .locked => false
  | _ => true

/-- The units it is to stop. -/
def Sweep.cleared : Sweep → List Nonce
  | .stopping _ cleared => cleared
  | _ => []

/-- The units it has listed and not asked about. -/
def Sweep.unchecked : Sweep → List Nonce
  | .stopping unchecked _ => unchecked
  | _ => []

/-- It is past its veto. -/
def Sweep.prunes : Sweep → Bool
  | .pruningRuns _ => true
  | .pruningPins _ => true
  | _ => false

/-- The recovery holds the owner lock. -/
def Recovery.holds : Recovery → Bool
  | .inside => true
  | .made _ => true
  | .started _ => true
  | _ => false

structure Inv (s : State) : Prop where
  owned : s.configured = true ∨ s.ours ≠ [] → s.refs ≠ 0
  recovers : s.recovery ≠ .absent → s.configured = true
  deploys : s.deploy ≠ .absent → s.configured = true
  sweepLock : s.sweep.holds = true → s.ownerMu = some .sweep
  recoveryLock : s.recovery.holds = true → s.ownerMu = some .recovery
  clean : s.sweep.judged = true → s.vetoed = false → s.ours = []
  prunes : s.sweep.prunes = true → s.vetoed = false
  cleared : ∀ n ∈ s.sweep.cleared, n ∉ s.ours ∧ n < s.next
  listed : ∀ n ∈ s.sweep.unchecked, n < s.next
  fresh : ∀ n ∈ s.units, n < s.next
  made : ∀ n, s.recovery = .made n ∨ s.deploy = .made n → n < s.next
  unharmed : s.harmed = []

theorem when_eq_some {enabled : Bool} {x : State} :
    State.when enabled x = some s' ↔ enabled = true ∧ x = s' := by
  unfold State.when
  split
  next h => simp [h]
  next h => simp [h]

variable {e : Event}

theorem step_cases (h : s.step e = some s') :
    s.reload e = some s' ∨ s.recover e = some s' ∨
      s.deploying e = some s' ∨ s.sweeping e = some s' := by
  rw [State.step, Option.or_eq_some_iff, Option.or_eq_some_iff,
    Option.or_eq_some_iff] at h
  obtain (h | ⟨-, h⟩) | ⟨-, h | ⟨-, h⟩⟩ := h
  · exact .inl h
  · exact .inr (.inl h)
  · exact .inr (.inr (.inl h))
  · exact .inr (.inr (.inr h))

-- ====== what a step sets

/-- A sweep that does not hold the lock has judged, cleared and listed
nothing. -/
theorem Sweep.idle {w : Sweep} (h : w.holds = false) :
    w.judged = false ∧ w.prunes = false ∧ w.cleared = [] ∧
      w.unchecked = [] := by
  cases w with
  | absent => exact ⟨rfl, rfl, rfl, rfl⟩
  | waiting => exact ⟨rfl, rfl, rfl, rfl⟩
  | _ => cases h

/-- One past its veto holds the lock and has judged. -/
theorem Sweep.past {w : Sweep} (h : w.prunes = true) :
    w.holds = true ∧ w.judged = true := by
  cases w with
  | pruningRuns | pruningPins => exact ⟨rfl, rfl⟩
  | _ => cases h

variable {pins runs : List Nonce} {n : Nonce}

/-- What the sweep takes is nobody's. -/
theorem takes_eq (hn : n ∉ s.ours) : s.takes n = s := by
  rw [State.takes, if_neg hn]

section

variable (h : Inv s)
include h

/-- The sweep and the recovery do not hold the lock at once. -/
theorem Inv.apart (hr : s.recovery.holds = true) : s.sweep.holds = false := by
  cases hs : s.sweep.holds with
  | false => rfl
  | true =>
    have hlock := (h.sweepLock hs).symm.trans (h.recoveryLock hr)
    cases hlock

/-- The app of a recovery is configured. -/
theorem Inv.recovered {r : Recovery} (hr : s.recovery = r)
    (hne : r ≠ .absent := by nofun) : s.configured = true :=
  h.recovers (hr ▸ hne)

/-- A recovery that goes on, with the locks it then has. -/
theorem Inv.recovering (r : Recovery) {deployMu mu : Option Actor}
    {routed : Option Nonce} (hconf : r ≠ .absent → s.configured = true)
    (hsweep : s.sweep.holds = true → mu = some .sweep)
    (hlock : r.holds = true → mu = some .recovery := by nofun)
    (hmade : ∀ n, r = .made n → n < s.next := by nofun) :
    Inv { s with
      recovery := r, deployMu := deployMu, ownerMu := mu, routed := routed
      pins := pins } :=
  { h with
    recovers := hconf
    sweepLock := hsweep
    recoveryLock := hlock
    made := fun n hn => hn.elim (hmade n) fun hn => h.made n (.inr hn) }

/-- A deploy that goes on. -/
theorem Inv.deployed (d : Deploy) {deployMu : Option Actor}
    (hconf : d ≠ .absent → s.configured = true)
    (hmade : ∀ n, d = .made n → n < s.next := by nofun) :
    Inv { s with deploy := d, deployMu := deployMu, pins := pins } :=
  { h with
    deploys := hconf
    made := fun n hn => hn.elim (fun hn => h.made n (.inl hn)) (hmade n) }

theorem Inv.starts (hn : n < s.next) : Inv (s.starts n) :=
  { h with fresh := List.forall_mem_cons.mpr ⟨hn, h.fresh⟩ }

/-- One more instance, where an unvetoed sweep has not judged the app and
no sweep is to stop it. -/
theorem Inv.owns (hrefs : s.refs ≠ 0)
    (hjudged : s.sweep.judged = true → s.vetoed = true)
    (hcleared : n ∉ s.sweep.cleared) : Inv { s with ours := n :: s.ours } :=
  { h with
    owned := fun _ => hrefs
    clean := fun hj hv => by
      change s.vetoed = false at hv
      rw [hjudged hj] at hv
      cases hv
    cleared := fun m hm => by
      obtain ⟨hours, hlt⟩ := h.cleared m hm
      refine ⟨fun hmem => ?_, hlt⟩
      rcases List.mem_cons.mp hmem with rfl | hmem
      · exact hcleared hm
      · exact hours hmem }

/-- A new instance. -/
theorem Inv.makes (hrefs : s.refs ≠ 0)
    (hjudged : s.sweep.judged = true → s.vetoed = true) : Inv s.makes := by
  have hnew := h.owns hrefs hjudged fun hn =>
    Nat.lt_irrefl _ (h.cleared s.next hn).2
  exact { hnew with
    cleared := fun n hn => (hnew.cleared n hn).imp_right Nat.lt_succ_of_lt
    listed := fun n hn => Nat.lt_succ_of_lt (h.listed n hn)
    fresh := fun n hn => Nat.lt_succ_of_lt (h.fresh n hn)
    made := fun n hn => Nat.lt_succ_of_lt (h.made n hn) }

/-- A sweep that goes on; the run directories and pins do not matter to
the invariant. -/
theorem Inv.phase (w : Sweep)
    (hlock : s.ownerMu = some .sweep) (hclean : s.vetoed = false → s.ours = [])
    (hprunes : w.prunes = true → s.vetoed = false := by nofun)
    (hcleared : ∀ n ∈ w.cleared, n ∉ s.ours ∧ n < s.next := by nofun)
    (hlisted : ∀ n ∈ w.unchecked, n < s.next := by nofun) :
    Inv { s with sweep := w, runs := runs, pins := pins } :=
  { h with
    sweepLock := fun _ => hlock
    clean := fun _ => hclean
    prunes := hprunes
    cleared := hcleared
    listed := hlisted }

/-- The sweep ends. -/
theorem Inv.swept (hholds : s.sweep.holds = true) : Inv s.swept :=
  { h with
    sweepLock := nofun
    recoveryLock := fun hr => by
      have hidle := h.apart hr
      rw [hholds] at hidle
      cases hidle
    clean := nofun
    prunes := nofun
    cleared := nofun
    listed := nofun }

/-- Past its veto it removes nothing of an owner's. -/
theorem Inv.pruning (w : Sweep) (hprunes : s.sweep.prunes = true)
    (hcleared : w.cleared = [] := by rfl)
    (hlisted : w.unchecked = [] := by rfl) :
    (∀ n, s.takes n = s) ∧
      Inv { s with sweep := w, runs := runs, pins := pins } := by
  obtain ⟨hholds, hjudged⟩ := Sweep.past hprunes
  have hnone := h.clean hjudged (h.prunes hprunes)
  exact ⟨fun n => takes_eq (by rw [hnone]; nofun),
    h.phase w (h.sweepLock hholds) (fun _ => hnone)
      (fun _ => h.prunes hprunes) (by rw [hcleared]; nofun)
      (by rw [hlisted]; nofun)⟩

/-- An app that is not owned has no instance of an owner's. -/
theorem Inv.none_ours (hno : ¬ s.owned = true) : s.ours = [] := by
  by_contra hours
  have hrefs := h.owned (.inr hours)
  simp [State.owned, hrefs] at hno

-- ====== the steps

theorem Inv.reload (hstep : s.reload e = some s') : Inv s' := by
  cases e with
  | takesRef =>
    cases hstep
    exact { h with owned := fun _ => Nat.succ_ne_zero s.refs }
  | configures =>
    obtain ⟨hen, rfl⟩ := when_eq_some.mp hstep
    have hrefs : s.refs ≠ 0 := by simpa [State.owned] using hen
    exact { h with
      owned := fun _ => hrefs
      recovers := fun _ => rfl
      deploys := fun _ => rfl }
  | startsRecovery =>
    obtain ⟨hen, rfl⟩ := when_eq_some.mp hstep
    rw [Bool.and_eq_true, beq_iff_eq] at hen
    exact h.recovering .waiting (fun _ => hen.1) h.sweepLock
  | _ => cases hstep

theorem Inv.recover (hstep : s.recover e = some s') : Inv s' := by
  -- a recovery with the lock is alone with it
  have halone (hr : s.recovery.holds = true) (hh : s.sweep.holds = true)
      {mu : Option Actor} : mu = some .sweep := by
    rw [h.apart hr] at hh
    cases hh
  cases e with
  | recoveryLocks =>
    obtain ⟨hen, rfl⟩ := when_eq_some.mp hstep
    rw [Bool.and_eq_true, beq_iff_eq] at hen
    exact h.recovering .blocked (fun _ => h.recovered hen.1) h.sweepLock
  | recoveryEnters =>
    obtain ⟨hen, rfl⟩ := when_eq_some.mp hstep
    rw [Bool.and_eq_true, beq_iff_eq, beq_iff_eq] at hen
    refine h.recovering .inside (fun _ => h.recovered hen.1)
      (fun hhold => ?_) fun _ => rfl
    rw [h.sweepLock hhold] at hen
    cases hen.2
  | recoveryAdopts n =>
    obtain ⟨hen, rfl⟩ := when_eq_some.mp hstep
    rw [Bool.and_eq_true, beq_iff_eq] at hen
    have hholds : s.recovery.holds = true := by rw [hen.1]; rfl
    obtain ⟨hjudged, -, hcleared, -⟩ := Sweep.idle (h.apart hholds)
    have howns : Inv { s with ours := n :: s.ours } := by
      refine h.owns (h.owned (.inl (h.recovered hen.1))) (fun hj => ?_)
        (by rw [hcleared]; exact List.not_mem_nil)
      rw [hjudged] at hj
      cases hj
    exact howns.recovering .absent (absurd rfl) fun hh => halone hholds hh
  | recoveryMakes =>
    obtain ⟨hen, rfl⟩ := when_eq_some.mp hstep
    rw [beq_iff_eq] at hen
    have hrecovers := h.recovered hen
    have hholds : s.recovery.holds = true := by rw [hen]; rfl
    have hmakes := h.makes (h.owned (.inl hrecovers)) fun hj => by
      rw [(Sweep.idle (h.apart hholds)).1] at hj
      cases hj
    refine hmakes.recovering (.made s.next) (fun _ => hrecovers) h.sweepLock
      (fun _ => h.recoveryLock hholds) fun m hm => ?_
    cases hm
    exact Nat.lt_succ_self _
  | recoveryStarts =>
    simp only [State.recover] at hstep
    split at hstep
    next n hn =>
      cases hstep
      exact (h.starts (h.made n (.inl hn))).recovering (.started n)
        (fun _ => h.recovered hn) h.sweepLock
        fun _ => h.recoveryLock (by rw [hn]; rfl)
    next => cases hstep
  | recoveryRoutes =>
    simp only [State.recover] at hstep
    split at hstep
    next n hn =>
      cases hstep
      exact h.recovering .absent (absurd rfl)
        fun hh => halone (by rw [hn]; rfl) hh
    next => cases hstep
  | _ => cases hstep

theorem Inv.deploying (hstep : s.deploying e = some s')
    (hspared : s.spared e = true) : Inv s' := by
  cases e with
  | deployLocks =>
    obtain ⟨hen, rfl⟩ := when_eq_some.mp hstep
    rw [Bool.and_eq_true, Bool.and_eq_true] at hen
    exact h.deployed .locked fun _ => hen.1.1
  | deployMakes =>
    obtain ⟨hen, rfl⟩ := when_eq_some.mp hstep
    rw [beq_iff_eq] at hen
    have hdeploys := h.deploys (by rw [hen]; simp)
    have hjudged : s.sweep.judged = true → s.vetoed = true := by
      intro hj
      have hholds : s.sweep.holds = true := by
        by_contra hno
        rw [(Sweep.idle (Bool.not_eq_true _ ▸ hno)).1] at hj
        cases hj
      simpa [State.spared, h.sweepLock hholds] using hspared
    refine (h.makes (h.owned (.inl hdeploys)) hjudged).deployed
      (.made s.next) (fun _ => hdeploys) fun m hm => ?_
    cases hm
    exact Nat.lt_succ_self _
  | deployStarts =>
    simp only [State.deploying] at hstep
    split at hstep
    next n hn =>
      cases hstep
      exact (h.starts (h.made n (.inr hn))).deployed (.started n)
        fun _ => h.deploys (by rw [hn]; nofun)
    next => cases hstep
  | deployPins =>
    simp only [State.deploying] at hstep
    split at hstep
    next n hn =>
      cases hstep
      exact h.deployed (.pinned n) fun _ => h.deploys (by rw [hn]; nofun)
    next => cases hstep
  | deployRoutes =>
    simp only [State.deploying] at hstep
    split at hstep
    next n hn =>
      cases hstep
      exact { h with }
    next => cases hstep
  | deployEnds =>
    obtain ⟨hen, rfl⟩ := when_eq_some.mp hstep
    exact h.deployed .absent (absurd rfl)
  | _ => cases hstep

theorem Inv.sweeping (hstep : s.sweeping e = some s') : Inv s' := by
  cases e with
  | sweepLooks =>
    obtain ⟨-, rfl⟩ := when_eq_some.mp hstep
    exact { h with
      sweepLock := nofun
      clean := nofun
      prunes := nofun
      cleared := nofun
      listed := nofun }
  | sweepLocks =>
    obtain ⟨hen, rfl⟩ := when_eq_some.mp hstep
    rw [Bool.and_eq_true, beq_iff_eq, beq_iff_eq] at hen
    refine { h with
      sweepLock := fun _ => rfl
      recoveryLock := fun hr => ?_
      clean := nofun
      prunes := nofun
      cleared := nofun
      listed := nofun }
    rw [h.recoveryLock hr] at hen
    cases hen.2
  | sweepChecks =>
    obtain ⟨hen, rfl⟩ := when_eq_some.mp hstep
    rw [beq_iff_eq] at hen
    have hholds : s.sweep.holds = true := by rw [hen]; rfl
    split
    next => exact h.swept hholds
    next hno =>
      exact h.phase .checked (h.sweepLock hholds) fun _ => h.none_ours hno
  | sweepLists =>
    obtain ⟨hen, rfl⟩ := when_eq_some.mp hstep
    rw [beq_iff_eq] at hen
    exact h.phase (.stopping s.units []) (h.sweepLock (by rw [hen]; rfl))
      (h.clean (by rw [hen]; rfl)) nofun nofun h.fresh
  | sweepAsks n =>
    simp only [State.sweeping] at hstep
    split at hstep
    next unchecked cleared hs =>
      obtain ⟨hen, rfl⟩ := when_eq_some.mp hstep
      have hlock := h.sweepLock (by rw [hs]; rfl)
      have hold := h.cleared
      have hlisted := h.listed
      rw [hs] at hold hlisted
      have hrest : ∀ m ∈ unchecked.erase n, m < s.next := fun m hm =>
        hlisted m (List.mem_of_mem_erase hm)
      split
      next =>
        exact { h with
          sweepLock := fun _ => hlock
          clean := fun _ hv => by cases hv
          prunes := nofun
          cleared := hold
          listed := hrest }
      next hno =>
        have hnone := h.none_ours hno
        refine h.phase (.stopping (unchecked.erase n) (n :: cleared)) hlock
          (fun _ => hnone) nofun
          (List.forall_mem_cons.mpr ⟨⟨?_, ?_⟩, hold⟩) hrest
        · rw [hnone]
          exact List.not_mem_nil
        · exact hlisted n (List.contains_iff_mem.mp hen)
    next => cases hstep
  | sweepStops n =>
    simp only [State.sweeping] at hstep
    split at hstep
    next unchecked cleared hs =>
      obtain ⟨hen, rfl⟩ := when_eq_some.mp hstep
      have hold := h.cleared
      have hlisted := h.listed
      rw [hs] at hold hlisted
      rw [takes_eq (hold n (List.contains_iff_mem.mp hen)).1]
      have hphase : Inv { s with
          sweep := .stopping unchecked (cleared.erase n) } :=
        h.phase _ (h.sweepLock (by rw [hs]; rfl))
          (h.clean (by rw [hs]; rfl)) nofun
          (fun m hm => hold m (List.mem_of_mem_erase hm)) hlisted
      exact { hphase with
        fresh := fun m hm => h.fresh m (List.mem_of_mem_erase hm) }
    next => cases hstep
  | sweepVeto =>
    simp only [State.sweeping] at hstep
    split at hstep
    next hs =>
      cases hstep
      have hholds : s.sweep.holds = true := by rw [hs]; rfl
      split
      next => exact h.swept hholds
      next hno =>
        exact h.phase (.pruningRuns s.runs) (h.sweepLock hholds)
          (h.clean (by rw [hs]; rfl)) fun _ => Bool.not_eq_true _ ▸ hno
    next => cases hstep
  | sweepRemovesRun n =>
    simp only [State.sweeping] at hstep
    split at hstep
    next left hs =>
      obtain ⟨-, rfl⟩ := when_eq_some.mp hstep
      obtain ⟨htakes, hphase⟩ := h.pruning (.pruningRuns (left.erase n))
        (by rw [hs]; rfl)
      rw [htakes]
      exact hphase
    next => cases hstep
  | sweepReadsPins =>
    simp only [State.sweeping] at hstep
    split at hstep
    next hs =>
      cases hstep
      exact (h.pruning (.pruningPins s.pins) (by rw [hs]; rfl)).2
    next => cases hstep
  | sweepRemovesPin n =>
    simp only [State.sweeping] at hstep
    split at hstep
    next left hs =>
      obtain ⟨-, rfl⟩ := when_eq_some.mp hstep
      obtain ⟨htakes, hphase⟩ := h.pruning (.pruningPins (left.erase n))
        (by rw [hs]; rfl)
      rw [htakes]
      exact hphase
    next => cases hstep
  | sweepUnlocks =>
    simp only [State.sweeping] at hstep
    split at hstep
    next hs =>
      cases hstep
      exact h.swept (by rw [hs]; rfl)
    next => cases hstep
  | _ => cases hstep

end

-- ====== runs

theorem Inv.step (h : Inv s) (hspared : s.spared e = true)
    (hstep : s.step e = some s') : Inv s' := by
  rcases step_cases hstep with hr | hr | hd | hs
  · exact h.reload hr
  · exact h.recover hr
  · exact h.deploying hd hspared
  · exact h.sweeping hs

/-- Every event of the run is spared in the state it comes in. -/
def Spared : State → List Event → Bool
  | _, [] => true
  | s, e :: events =>
    s.spared e && (s.step e).all fun s' => Spared s' events

theorem Inv.run {events : List Event} (h : Inv s)
    (hspared : Spared s events = true) (hrun : s.run events = some s') :
    Inv s' := by
  induction events generalizing s with
  | nil =>
    cases hrun
    exact h
  | cons e events ih =>
    obtain ⟨mid, hstep, hrest⟩ := Option.bind_eq_some_iff.mp hrun
    simp only [Spared, hstep, Option.all_some, Bool.and_eq_true] at hspared
    exact ih (h.step hspared.1 hstep) hspared.2 hrest

theorem inv_unowned {units : List Nonce} {next : Nonce}
    (hunits : ∀ n ∈ units, n < next) :
    Inv (State.unowned units runs pins next) where
  owned := fun h => h.elim (nofun) fun h => absurd rfl h
  recovers := fun h => absurd rfl h
  deploys := fun h => absurd rfl h
  sweepLock := nofun
  recoveryLock := nofun
  clean := fun _ _ => rfl
  prunes := nofun
  cleared := nofun
  listed := nofun
  fresh := hunits
  made := fun _ hn => hn.elim (nofun) nofun
  unharmed := rfl

/-- Where no deploy makes its run dir while an unvetoed sweep holds the
owner lock, nothing of an owner's instance is taken, whatever units an
earlier process left. -/
theorem sweep_takes_nothing {units runs pins : List Nonce} {next : Nonce}
    {events : List Event} (hunits : ∀ n ∈ units, n < next)
    (hspared : Spared (.unowned units runs pins next) events = true)
    (hrun : (State.unowned units runs pins next).run events = some s') :
    s'.harmed = [] :=
  ((inv_unowned hunits).run hspared hrun).unharmed

/-- A recovery that comes while the sweep has the lock waits for it, and
the deploy after it is not touched. -/
def waits : List Event :=
  [.sweepLooks, .sweepLocks, .sweepChecks, .takesRef, .configures,
    .startsRecovery, .recoveryLocks, .sweepLists, .sweepVeto,
    .sweepRemovesRun 3, .sweepReadsPins, .sweepUnlocks, .recoveryEnters,
    .recoveryMakes, .recoveryStarts, .recoveryRoutes, .deployLocks,
    .deployMakes, .deployStarts, .deployPins, .deployRoutes, .deployEnds]

theorem sweep_takes_nothing_example :
    ((State.unowned [] [3] [] 4).run waits).map State.routed = some (some 5) ∧
      ∀ s', (State.unowned [] [3] [] 4).run waits = some s' → s'.harmed = [] :=
  ⟨by decide, fun _ hrun => sweep_takes_nothing
    (fun n hn => absurd hn List.not_mem_nil) (by decide) hrun⟩

/-- A reload and a deploy between the listing and the veto: no unit was
listed, so nothing asked `still` again, and the deploy's run dir and pin
are pruned from under the instance routed to. -/
theorem prune_takes_deploy : ((State.unowned [] [] [] 0).run
      [.sweepLooks, .sweepLocks, .sweepChecks, .sweepLists, .takesRef,
        .configures, .startsRecovery, .deployLocks, .deployMakes,
        .deployStarts, .deployPins, .deployRoutes, .sweepVeto,
        .sweepRemovesRun 0, .sweepReadsPins, .sweepRemovesPin 0,
        .sweepUnlocks]).map
      (fun s => (s.routed, s.units, s.runs, s.pins, s.harmed)) =
    some (some 0, [0], [], [], [0, 0]) := by
  decide

end Hotserve.Liveswap.Unowned
