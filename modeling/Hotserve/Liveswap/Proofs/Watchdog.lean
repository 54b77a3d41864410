/-
How often the watchdog relaunches its app.

# What the budget bounds

A restart's slot is stamped when it is claimed, before the backoff and
the wait for the deploy lock. So what the window bounds is the claims:
those that led to a launch, and the one pending, have their times a
window apart from the one `wdRestarts` before (`Books.rated`), since every
claim the books no longer hold has left the window (`Books.covered`).

# What the launches are

A launch comes some time after its claim, and nothing bounds how long: a
launch held back and the next one that is not may be seconds apart
(`relaunches_bunch`). Where each launch comes at least as long after its
claim as the one `wdRestarts` before it did (`Unhurried`), the launches
are as far apart as the claims.
-/
import Hotserve.Rate
import Hotserve.Liveswap.Watchdog

namespace Hotserve.Liveswap.Watchdog

open Phase

variable {s s' : App} {w : World}

-- ====== what a turn does

/-- The claim of a restart that has not been launched. -/
def Phase.pending : Phase → Option Int
  | .backoff r _ => some r.claimed
  | .pausing r _ => some r.claimed
  | .locking r => some r.claimed
  | .lockWait r => some r.claimed
  | .locked r => some r.claimed
  | .rechecking _ r => some r.claimed
  | .reprobing r => some r.claimed
  | .sweeping r => some r.claimed
  | .stopping r => some r.claimed
  | .launching r => some r.claimed
  | _ => none

/-- What a turn does to the books. -/
inductive Moves (s s' : App) : Prop
  | keeps (restarts : s'.wd.restarts = s.wd.restarts)
      (pending : s'.phase.pending = s.phase.pending)
      (launches : s'.launches = s.launches)
  | claims (spec : Spec) (on : s.spec? = some spec)
      (room : (s.wd.kept s.now spec.wdWindow).length < spec.wdRestarts)
      (restarts : s'.wd.restarts = s.wd.kept s.now spec.wdWindow ++ [s.now])
      (before : s.phase.pending = none)
      (pending : s'.phase.pending = some s.now)
      (launches : s'.launches = s.launches)
  | prunes (spec : Spec) (on : s.spec? = some spec)
      (restarts : s'.wd.restarts = s.wd.kept s.now spec.wdWindow)
      (before : s.phase.pending = none)
      (pending : s'.phase.pending = none)
      (launches : s'.launches = s.launches)
  | refunds (claimed : Int)
      (restarts : s'.wd.restarts = s.wd.restarts.dropLast)
      (before : s.phase.pending = some claimed)
      (pending : s'.phase.pending = none)
      (launches : s'.launches = s.launches)
  | launches (r : Restart) (before : s.phase = .launching r)
      (restarts : s'.wd.restarts = s.wd.restarts)
      (pending : s'.phase.pending = none)
      (launches : s'.launches = ⟨r.claimed, s.now⟩ :: s.launches)

/-- Where a turn leaves the books. -/
structure Turned (s s' : App) : Prop where
  moves : Moves s s'
  now : s'.now = s.now
  spec : s'.spec = s.spec

theorem turned_self : Turned s s := ⟨.keeps rfl rfl rfl, rfl, rfl⟩

variable {p : Phase} {r : Restart}

section

variable (hp : p.pending = s.phase.pending)
include hp

theorem turned_goto : Turned s (s.goto p) := ⟨.keeps rfl hp rfl, rfl, rfl⟩

theorem turned_taken :
    Turned s (s.taken.goto p) := ⟨.keeps rfl hp rfl, rfl, rfl⟩

theorem turned_wd {wd : State}
    (hwd : wd.restarts = s.wd.restarts) :
    Turned s { s with wd := wd, phase := p } :=
  ⟨.keeps hwd hp rfl, rfl, rfl⟩

end

theorem turned_refund {claimed : Int} (hp : p.pending = none)
    (hs : s.phase.pending = some claimed) :
    Turned s (s.refund p) ∧ Turned s (s.taken.refund p) ∧
      Turned s (s.unlock.refund p) :=
  ⟨⟨.refunds claimed rfl hs hp rfl, rfl, rfl⟩,
    ⟨.refunds claimed rfl hs hp rfl, rfl, rfl⟩,
    ⟨.refunds claimed rfl hs hp rfl, rfl, rfl⟩⟩

theorem turned_selecting {wakeAt : Int} {done notified timer : App}
    (hdone : Turned s done) (hnotified : Turned s notified)
    (htimer : Turned s timer) :
    Turned s (s.selecting w wakeAt done notified timer) := by
  unfold App.selecting
  split
  all_goals first | exact turned_self | split
  all_goals first | assumption | exact turned_self

theorem turned_blocking {done notified : App} (hdone : Turned s done)
    (hnotified : Turned s notified) :
    Turned s (s.blocking w done notified) := by
  unfold App.blocking
  split
  all_goals first | exact turned_self | split
  all_goals first | assumption | exact turned_self

/-- The turns of supervision leave the books alone. -/
theorem turned_supervising (hp : s.phase.pending = none) :
    Turned s s.loopTurn ∧ (∀ inst g t, Turned s (s.superviseTurn inst g t)) ∧
      (∀ spec inst g t, Turned s (s.watchTurn w spec inst g t)) ∧
      (∀ spec inst g t, Turned s (s.probeTurn w spec inst g t)) := by
  have hgoto {p : Phase} (h : p.pending = none) : Turned s (s.goto p) :=
    turned_goto (h.trans hp.symm)
  have htaken {p : Phase} (h : p.pending = none) :
      Turned s (s.taken.goto p) := turned_taken (h.trans hp.symm)
  have hwd {p : Phase} {wd : State} (h : p.pending = none)
      (hr : wd.restarts = s.wd.restarts) :
      Turned s { s with wd := wd, phase := p } :=
    turned_wd (h.trans hp.symm) hr
  refine ⟨?_, ?_, ?_, ?_⟩
  · unfold App.loopTurn
    split
    · exact hgoto rfl
    split
    · unfold App.superviseInstance
      refine hwd rfl ?_
      split
      · rfl
      · rfl
    · exact hwd rfl rfl
  · intro inst g t
    unfold App.superviseTurn
    split
    · exact hgoto rfl
    · exact hwd rfl rfl
  · intro spec inst g t
    unfold App.watchTurn
    split
    · split
      · exact hgoto rfl
      · exact turned_self
    · split
      · split
        · exact htaken rfl
        · exact htaken rfl
      · exact turned_self
    · split
      · exact hgoto rfl
      · exact hgoto rfl
    · split
      · unfold App.tick
        split
        · exact hgoto rfl
        split
        · exact hgoto rfl
        split
        · exact hwd rfl rfl
        · exact hgoto rfl
      · exact turned_self
  · intro spec inst g t
    unfold App.probeTurn
    split
    · exact hgoto rfl
    split
    · exact hwd rfl rfl
    split
    · exact hwd rfl rfl
    · refine hwd ?_ rfl
      split
      · rfl
      · rfl

/-- Unrouting an instance is not a matter of the books. -/
theorem unrouteIf_same (inst : Instance) :
    (s.unrouteIf inst).wd = s.wd ∧ (s.unrouteIf inst).now = s.now ∧
      (s.unrouteIf inst).spec = s.spec ∧
      (s.unrouteIf inst).launches = s.launches := by
  unfold App.unrouteIf
  split
  · exact ⟨rfl, rfl, rfl, rfl⟩
  · exact ⟨rfl, rfl, rfl, rfl⟩

theorem dropIf_same (inst : Instance) :
    (s.dropIf inst).wd = s.wd ∧ (s.dropIf inst).now = s.now ∧
      (s.dropIf inst).spec = s.spec ∧
      (s.dropIf inst).launches = s.launches := by
  unfold App.dropIf
  split
  · exact ⟨rfl, rfl, rfl, rfl⟩
  · exact ⟨rfl, rfl, rfl, rfl⟩

section

variable (hp : s.phase.pending = none)
include hp

theorem turned_fail {inst : Instance} {kind : FailureKind} :
    Turned s (s.failTurn w inst kind) := by
  unfold App.failTurn
  cases w.alive with
  | true => exact turned_goto hp.symm
  | false =>
    obtain ⟨hwd, hnow, hspec, hlaunches⟩ := unrouteIf_same inst
    exact ⟨.keeps (congrArg State.restarts hwd) hp.symm hlaunches, hnow, hspec⟩

/-- The claim: a slot taken, or none to take. -/
theorem turned_claim {f : Failure} : Turned s (s.claimTurn w f) := by
  unfold App.claimTurn
  cases hspec : s.spec? with
  | none => exact turned_goto hp.symm
  | some spec =>
    change Turned s (if _ then _ else _)
    rw [State.consumeBudget]
    by_cases hfull : spec.wdRestarts ≤ (s.wd.kept s.now spec.wdWindow).length
    · rw [if_pos hfull, if_neg Bool.false_ne_true]
      cases w.alive with
      | true => exact ⟨.prunes spec hspec rfl hp rfl rfl, rfl, rfl⟩
      | false =>
        obtain ⟨-, hnow, hspec', hlaunches⟩ := unrouteIf_same f.inst
        exact ⟨.prunes spec hspec rfl hp rfl hlaunches, hnow, hspec'⟩
    · rw [if_neg hfull, if_pos rfl]
      exact ⟨.claims spec hspec (not_le.mp hfull) rfl hp rfl rfl, rfl, rfl⟩

theorem turned_throttle {f : Failure} {wakeAt : Int} :
    Turned s (s.throttleTurn w f wakeAt) := by
  refine turned_selecting (turned_goto hp.symm) ?_ (turned_goto hp.symm)
  split
  · exact turned_taken hp.symm
  · exact turned_taken hp.symm

end

/-- The waits of a claimed restart: it goes on, or its slot is given
back. -/
theorem turned_waiting (hp : s.phase.pending = some r.claimed) :
    (∀ d, Turned s (s.backoffTurn r d)) ∧
      (∀ d, Turned s (s.pauseTurn w r d)) ∧ Turned s (s.lockTurn r) ∧
      Turned s (s.lockWaitTurn w r) := by
  have hrefund {p : Phase} (h : p.pending = none) := turned_refund h hp
  refine ⟨?_, ?_, ?_, ?_⟩
  · intro d
    unfold App.backoffTurn
    split
    · exact turned_goto hp.symm
    · exact turned_goto hp.symm
  · intro d
    refine turned_selecting (hrefund rfl).1 ?_ (turned_goto hp.symm)
    split
    · exact (hrefund rfl).2.1
    split
    · exact (hrefund rfl).2.1
    · exact turned_taken hp.symm
  · unfold App.lockTurn
    split
    · exact ⟨.keeps rfl hp.symm rfl, rfl, rfl⟩
    · exact turned_goto hp.symm
  · refine turned_blocking (hrefund rfl).1 ?_
    split
    · exact (hrefund rfl).2.1
    · exact turned_taken hp.symm

/-- The checks under the lock. -/
theorem turned_locked (hp : s.phase.pending = some r.claimed) :
    Turned s (s.lockedTurn w r) ∧ (∀ spec, Turned s (s.recheckTurn w spec r)) ∧
      Turned s (s.reprobeTurn w r) ∧ Turned s (s.sweepTurn w r) ∧
      Turned s (s.stopTurn w r) := by
  have hrefund := (turned_refund (p := .loop) rfl hp).2.2
  refine ⟨?_, ?_, ?_, ?_, ?_⟩
  · unfold App.lockedTurn
    split
    · exact (turned_refund rfl hp).2.2
    split
    · exact hrefund
    split
    · exact hrefund
    · exact turned_goto hp.symm
  · intro spec
    unfold App.recheckTurn
    split
    · exact turned_goto hp.symm
    · exact turned_goto hp.symm
  · unfold App.reprobeTurn
    split
    · exact hrefund
    · exact turned_goto hp.symm
  · unfold App.sweepTurn
    split
    · exact hrefund
    · exact turned_goto hp.symm
  · unfold App.stopTurn
    split
    · exact ⟨.refunds r.claimed rfl hp rfl rfl, rfl, rfl⟩
    · exact turned_goto hp.symm

theorem turned_launched (hp : s.phase.pending = none) :
    Turned s (s.launchedTurn w r) := by
  unfold App.launchedTurn
  split
  · obtain ⟨hwd, hnow, hspec, hlaunches⟩ := dropIf_same r.inst
    exact ⟨.keeps (congrArg State.restarts hwd) hp.symm hlaunches, hnow, hspec⟩
  · obtain ⟨hwd, hnow, hspec, hlaunches⟩ := unrouteIf_same r.inst
    exact ⟨.keeps (congrArg State.restarts hwd) hp.symm hlaunches, hnow, hspec⟩
  · exact ⟨.keeps rfl hp.symm rfl, rfl, rfl⟩

/-- Every turn. -/
theorem turned_turn (s : App) (w : World) : Turned s (s.turn w) := by
  unfold App.turn
  have hidle (hp : s.phase.pending = none) := turned_supervising (w := w) hp
  split
  next hp => exact (hidle (by rw [hp]; rfl)).1
  next hp =>
    refine turned_blocking (turned_goto ?_) (turned_taken ?_)
    · rw [hp]
      rfl
    · rw [hp]
      rfl
  next hp => exact (hidle (by rw [hp]; rfl)).2.1 _ _ _
  next hp => exact (hidle (by rw [hp]; rfl)).2.2.1 _ _ _ _
  next hp => exact (hidle (by rw [hp]; rfl)).2.2.2 _ _ _ _
  next hp => exact turned_fail (by rw [hp]; rfl)
  next hp => exact turned_claim (by rw [hp]; rfl)
  next hp => exact turned_throttle (by rw [hp]; rfl)
  next hp => exact (turned_waiting (w := w) (by rw [hp]; rfl)).1 _
  next hp => exact (turned_waiting (by rw [hp]; rfl)).2.1 _
  next hp => exact (turned_waiting (w := w) (by rw [hp]; rfl)).2.2.1
  next hp => exact (turned_waiting (by rw [hp]; rfl)).2.2.2
  next hp => exact (turned_locked (by rw [hp]; rfl)).1
  next hp => exact (turned_locked (by rw [hp]; rfl)).2.1 _
  next hp => exact (turned_locked (by rw [hp]; rfl)).2.2.1
  next hp => exact (turned_locked (by rw [hp]; rfl)).2.2.2.1
  next hp => exact (turned_locked (by rw [hp]; rfl)).2.2.2.2
  next r hp => exact ⟨.launches r hp rfl rfl rfl, rfl, rfl⟩
  next hp => exact turned_launched (by rw [hp]; rfl)
  next => exact turned_self

-- ====== the books

/-- The claims a launch came of, with the one pending, newest first. -/
def App.claims (s : App) : List Int :=
  s.phase.pending.toList ++ s.launches.map Launch.claimed

/-- The budget's books at any time of a run. -/
structure Books (B : Nat) (W : Int) (s : App) : Prop where
  ledger : Ledger B W s.now s.wd.restarts s.claims
  sorted : (s.launches.map Launch.time).Pairwise (· ≥ ·)
  launched : ∀ l ∈ s.launches, l.time ≤ s.now

variable {B : Nat} {W : Int}

/-- Where no launch is added, only the ledger moves. -/
theorem Books.same (h : Books B W s) (hl : s'.launches = s.launches)
    (hnow : s.now ≤ s'.now)
    (hledger : Ledger B W s'.now s'.wd.restarts s'.claims) : Books B W s' := by
  refine ⟨hledger, ?_, ?_⟩
  · rw [hl]
    exact h.sorted
  · rw [hl]
    exact fun l hmem => (h.launched l hmem).trans hnow

/-- Time passes, and what the books are about stays. -/
theorem Books.later (h : Books B W s) (hr : s'.wd.restarts = s.wd.restarts)
    (hp : s'.phase.pending = s.phase.pending)
    (hl : s'.launches = s.launches) (hnow : s.now ≤ s'.now) : Books B W s' := by
  have hclaims : s'.claims = s.claims := by
    rw [App.claims, App.claims, hp, hl]
  refine h.same hl hnow ?_
  rw [hr, hclaims]
  exact h.ledger.mono hnow

/-- Every turn keeps the books, where the spec's budget is the one they
are kept for. -/
theorem Books.turn (h : Books B W s) (ht : Turned s s')
    (hspec : ∀ spec, s.spec? = some spec →
      spec.wdRestarts = B ∧ spec.wdWindow = W) : Books B W s' := by
  have hnow := ht.now
  have hledger := h.ledger
  cases ht.moves with
  | keeps hr hp hl => exact h.later hr hp hl (le_of_eq hnow.symm)
  | claims spec hon hroom hr hbefore hp hl =>
    obtain ⟨rfl, rfl⟩ := hspec spec hon
    have hclaims : s'.claims = s.now :: s.claims := by
      rw [App.claims, App.claims, hp, hbefore, hl]
      rfl
    refine h.same hl (le_of_eq hnow.symm) ?_
    rw [hnow, hr, hclaims]
    exact hledger.prune.grant hroom
  | prunes spec hon hr hbefore hp hl =>
    obtain ⟨rfl, rfl⟩ := hspec spec hon
    have hclaims : s'.claims = s.claims := by
      rw [App.claims, App.claims, hp, hbefore, hl]
    refine h.same hl (le_of_eq hnow.symm) ?_
    rw [hnow, hr, hclaims]
    exact hledger.prune
  | refunds claimed hr hbefore hp hl =>
    have hclaims : s.claims = claimed :: s'.claims := by
      rw [App.claims, App.claims, hp, hbefore, hl]
      rfl
    rw [hclaims] at hledger
    refine h.same hl (le_of_eq hnow.symm) ?_
    rw [hnow, hr]
    exact hledger.giveBack
  | launches r hbefore hr hp hl =>
    have hclaims : s'.claims = s.claims := by
      rw [App.claims, App.claims, hp, hl, hbefore]
      rfl
    refine ⟨?_, ?_, ?_⟩
    · rw [hnow, hr, hclaims]
      exact hledger
    · rw [hl, List.map_cons, List.pairwise_cons]
      refine ⟨fun t ht => ?_, h.sorted⟩
      obtain ⟨l, hmem, rfl⟩ := List.mem_map.mp ht
      exact h.launched l hmem
    · rw [hl, hnow]
      intro l hmem
      rcases List.mem_cons.mp hmem with rfl | hmem
      · exact le_refl _
      · exact h.launched l hmem

-- ====== the launches

/-- How long a launch came after its claim. -/
def Launch.delay (l : Launch) : Int := l.time - l.claimed

/-- A launch about to be made comes no sooner after its claim than the
one `B` before it did. -/
def App.unhurried (B : Nat) (s : App) : Bool :=
  match s.phase with
  | .launching r =>
    (s.launches[B - 1]?).all fun l => decide (l.delay ≤ s.now - r.claimed)
  | _ => true

/-- An event that keeps the budget as configured: no other budget is
installed and no deploy resets the books. -/
def Event.steady (B : Nat) (W : Int) : Event → Bool
  | .reloads spec =>
    spec.all fun spec => spec.wdRestarts == B && spec.wdWindow == W
  | .promotes _ => false
  | _ => true

/-- A run of such events in which no launch is hurried. -/
def Unhurried (B : Nat) (W : Int) : App → List Event → Prop
  | _, [] => True
  | s, e :: events =>
    e.steady B W = true ∧ s.unhurried B = true ∧
      Unhurried B W (s.step e) events

instance decidableUnhurried (B : Nat) (W : Int) :
    (s : App) → (events : List Event) → Decidable (Unhurried B W s events)
  | _, [] => inferInstanceAs (Decidable True)
  | s, e :: events =>
    have := decidableUnhurried B W (s.step e) events
    inferInstanceAs (Decidable (_ ∧ _ ∧ _))

/-- The state a run of them keeps. -/
structure Paced (B : Nat) (W : Int) (s : App) : Prop where
  books : Books B W s
  spec : ∀ spec, s.spec = some spec → spec.wdRestarts = B ∧ spec.wdWindow = W
  paced : ∀ (i : Nat) a b, s.launches[i]? = some a →
    s.launches[i + B]? = some b → b.delay ≤ a.delay

section

variable (h : Paced B W s)
include h

theorem Paced.spec_on (spec : Spec)
    (hon : s.spec? = some spec) : spec.wdRestarts = B ∧ spec.wdWindow = W :=
  h.spec spec (Option.filter_eq_some_iff.mp hon).1

/-- What is not a turn and resets nothing. -/
theorem Paced.other (hwd : s'.wd = s.wd)
    (hp : s'.phase = s.phase) (hl : s'.launches = s.launches)
    (hnow : s.now ≤ s'.now) (hspec : ∀ spec, s'.spec = some spec →
      spec.wdRestarts = B ∧ spec.wdWindow = W) : Paced B W s' := by
  refine ⟨h.books.later (by rw [hwd]) (by rw [hp]) hl hnow, hspec, ?_⟩
  rw [hl]
  exact h.paced

/-- A turn that is not a hurried launch. -/
theorem Paced.turn (w : World)
    (hun : s.unhurried B = true) : Paced B W (s.turn w) := by
  have ht := turned_turn s w
  refine ⟨h.books.turn ht h.spec_on, ?_, ?_⟩
  · rw [ht.spec]
    exact h.spec
  · cases ht.moves with
    | keeps _ _ hl =>
      rw [hl]
      exact h.paced
    | claims _ _ _ _ _ _ hl =>
      rw [hl]
      exact h.paced
    | prunes _ _ _ _ _ hl =>
      rw [hl]
      exact h.paced
    | refunds _ _ _ _ hl =>
      rw [hl]
      exact h.paced
    | launches r hbefore _ _ hl =>
      rw [hl]
      intro i a b ha hb
      cases i with
      | succ i =>
        rw [Nat.add_right_comm] at hb
        exact h.paced i a b ha hb
      | zero =>
        rw [Nat.zero_add] at hb
        rw [List.getElem?_cons_zero, Option.some_inj] at ha
        subst ha
        cases B with
        | zero =>
          rw [List.getElem?_cons_zero, Option.some_inj] at hb
          rw [← hb]
        | succ B =>
          rw [List.getElem?_cons_succ] at hb
          rw [App.unhurried, hbefore] at hun
          change ((s.launches[B]?).all _) = true at hun
          rw [hb, Option.all_some, decide_eq_true_eq] at hun
          exact hun

/-- Every steady event. -/
theorem Paced.step {e : Event}
    (hsteady : e.steady B W = true) (hun : s.unhurried B = true) :
    Paced B W (s.step e) := by
  cases e with
  | turns w => exact h.turn w hun
  | passes d => exact h.other rfl rfl rfl (by simp [App.step]) h.spec
  | reloads spec =>
    refine h.other rfl rfl rfl (le_refl _) fun spec' hspec' => ?_
    change spec = some spec' at hspec'
    rw [Event.steady, hspec', Option.all_some, Bool.and_eq_true,
      beq_iff_eq, beq_iff_eq] at hsteady
    exact hsteady
  | takesLock =>
    rw [App.step]
    split
    · exact h.other rfl rfl rfl (le_refl _) h.spec
    · exact h
  | promotes inst => cases hsteady
  | deployEnds =>
    rw [App.step]
    split
    · exact h.other rfl rfl rfl (le_refl _) h.spec
    · exact h
  | recovers installs =>
    change Paced B W (if _ then _ else _)
    split
    · cases installs with
      | none => exact h.other rfl rfl rfl (le_refl _) h.spec
      | some inst => exact h.other rfl rfl rfl (le_refl _) h.spec
    · exact h
  | cancels => exact h.other rfl rfl rfl (le_refl _) h.spec

theorem Paced.run {events : List Event}
    (hrun : Unhurried B W s events) : Paced B W (s.run events) := by
  induction events generalizing s with
  | nil => exact h
  | cons e events ih => exact ih (h.step hrun.1 hrun.2.1) hrun.2.2

/-- The launches of such a run are rated. -/
theorem Paced.rated : Rated B W (s.launches.map Launch.time) := by
  refine ⟨h.books.sorted, ?_⟩
  intro i x y hx hy
  rw [List.getElem?_map, Option.map_eq_some_iff] at hx hy
  obtain ⟨a, ha, rfl⟩ := hx
  obtain ⟨b, hb, rfl⟩ := hy
  have hdelay := h.paced i a b ha hb
  have hclaims : Rated B W (s.launches.map Launch.claimed) := by
    have hrated := h.books.ledger.rated
    rw [App.claims] at hrated
    cases hp : s.phase.pending with
    | none =>
      rw [hp] at hrated
      exact hrated
    | some claimed =>
      rw [hp] at hrated
      exact hrated.tail
  have hgap := hclaims.spaced i a.claimed b.claimed
    (by rw [List.getElem?_map, ha]; rfl) (by rw [List.getElem?_map, hb]; rfl)
  rw [Launch.delay, Launch.delay] at hdelay
  omega

end

theorem paced_fresh {now : Int} {spec : Option Spec} {current : Option Instance}
    (hspec : ∀ sp, spec = some sp → sp.wdRestarts = B ∧ sp.wdWindow = W) :
    Paced B W (App.fresh now spec current) :=
  ⟨⟨Ledger.empty, List.Pairwise.nil, by simp [App.fresh]⟩, hspec,
    by simp [App.fresh]⟩

/-- In every run of one app's watchdog under a budget of `B` restarts in
`W`, with no successful deploy, in which each launch comes at least as
long after its claim as the one `B` before it did, no half-open interval of
length `W` holds more than `B` relaunches. -/
theorem relaunch_rate (B : Nat) (W now : Int) (spec : Option Spec)
    (current : Option Instance) (events : List Event)
    (hspec : ∀ sp, spec = some sp → sp.wdRestarts = B ∧ sp.wdWindow = W)
    (hrun : Unhurried B W (App.fresh now spec current) events) (t : Int) :
    (((App.fresh now spec current).run events).launches.filter
      fun l => decide (t ≤ l.time ∧ l.time < t + W)).length ≤ B := by
  have hrated := ((paced_fresh hspec).run hrun).rated.count_le t
  rw [List.filter_map, List.length_map] at hrated
  exact hrated

-- ====== two runs

/-- One restart in ten minutes. -/
def exampleSpec : Spec where
  watchdogOn := true
  wdRestarts := 1
  wdWindow := 600 * second
  wdGrace := 0
  wdFailures := 3
  healthInterval := 10 * second
  healthPath := Bytes.str "/health"

/-- A world whose instances are dead and whose launches succeed. -/
def deadWorld (select : Case) : World where
  select := select
  alive := false
  healthy := false
  migrating := false
  stopped := true
  launch := .started 1
  draw := 1 / 2

/-- From the loop's head to a slot claimed and the backoff begun. -/
def crashes : List Event :=
  [.turns (deadWorld .timer), .turns (deadWorld .timer),
    .turns (deadWorld .exited), .turns (deadWorld .timer),
    .turns (deadWorld .timer), .turns (deadWorld .timer)]

/-- The backoff over, up to the attempt at the lock. -/
def backsOff (seconds : Nat) : List Event :=
  [.passes (seconds * 1000000000), .turns (deadWorld .timer),
    .turns (deadWorld .timer)]

/-- From the lock to the launched instance and the loop's head. -/
def relaunches : List Event := List.replicate 7 (.turns (deadWorld .timer))

/-- Two crashes, the second when the first has left the window: the second
backoff is the longer one, and the first ten minutes hold one relaunch. -/
theorem relaunch_rate_example :
    let events := crashes ++ backsOff 1 ++ relaunches ++
      [.passes (700 * 1000000000)] ++ crashes ++ backsOff 2 ++ relaunches
    let s := (App.fresh 0 (some exampleSpec) (some 0)).run events
    s.launches = [⟨701 * second, 703 * second⟩, ⟨0, second⟩] ∧
      (s.launches.filter fun l => decide (second ≤ l.time ∧
        l.time < second + 600 * second)).length ≤ 1 := by
  intro events s
  refine ⟨by decide +kernel, relaunch_rate 1 (600 * second) 0
    (some exampleSpec) (some 0) events ?_ ?_ second⟩
  · intro sp hsp
    rw [← Option.some.inj hsp]
    exact ⟨rfl, rfl⟩
  · decide +kernel

/-- A deploy that fails after ten minutes holds the first restart back
until its claim has left the window; the next one takes two seconds. -/
theorem relaunches_bunch :
    let held : List Event := [.turns (deadWorld .timer),
      .passes 600000000000, .deployEnds, .turns (deadWorld .notified)]
    let events := crashes ++ [.takesLock] ++ backsOff 1 ++ held ++
      relaunches ++ crashes ++ backsOff 2 ++ relaunches
    let s := (App.fresh 0 (some exampleSpec) (some 0)).run events
    (∀ e ∈ events, e.steady 1 (600 * second) = true) ∧
      s.launches.map Launch.time = [603 * second, 601 * second] ∧
      (s.launches.filter fun l => decide (601 * second ≤ l.time ∧
        l.time < 601 * second + 600 * second)).length = 2 := by
  decide +kernel

end Hotserve.Liveswap.Watchdog
