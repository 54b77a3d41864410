/-
The caps of a running unit and the handle's account of them
(liveswap/runner_systemd.go `SetCaps`, `readBackCaps`; liveswap/app.go
`syncCaps`).

A unit always carries some caps of the operator's (`Carries`): those it
was started with, or those of a write that took effect, with the tasks cap
it had where the write left that out. What the manager reports of such a
unit says which (`unitCaps_carries`), so the handle's account is true
after every write that is known to have taken effect and every reading
back, and else is marked unknown.
-/
import Mathlib.Algebra.Group.Nat.Defs
import Mathlib.Order.Nat

namespace Hotserve.Liveswap.Caps

/-- `infinityUSec`: no cap. -/
def infinity : Nat := 2 ^ 64 - 1

/-- The largest of Go's int. -/
def maxInt : Nat := 2 ^ 63 - 1

def usecPerPercent : Nat := 10000

/-- `resourceCaps`; 0 is unset. -/
structure ResourceCaps where
  memoryMax : Nat
  tasksMax : Nat
  cpuQuota : Nat
  deriving DecidableEq

/-- Caps with a property of their own each: tasks that are an int, memory
that is not "infinity" and a quota that does not wrap, as are all that
`Validate` accepts (at most 100000% of a CPU). -/
def ResourceCaps.fits (c : ResourceCaps) : Bool :=
  decide (c.tasksMax ≤ maxInt) && decide (c.memoryMax < infinity) &&
    decide (c.cpuQuota * usecPerPercent < infinity)

/-- The cgroup properties the manager holds of a unit. -/
structure Props where
  memoryMax : Nat
  memorySwapMax : Nat
  tasksMax : Nat
  cpuQuota : Nat
  deriving DecidableEq

/-- `capProperties` set on a unit that has `u`. -/
def capProperties (c : ResourceCaps) (live : Bool) (liftTasksTo : Nat)
    (u : Props) : Props where
  memoryMax := if 0 < c.memoryMax then c.memoryMax
    else if live then infinity else u.memoryMax
  memorySwapMax := if 0 < c.memoryMax then 0
    else if live then infinity else u.memorySwapMax
  tasksMax := if 0 < c.tasksMax then c.tasksMax
    else if live && decide (0 < liftTasksTo) then liftTasksTo else u.tasksMax
  cpuQuota := if 0 < c.cpuQuota then c.cpuQuota * usecPerPercent % 2 ^ 64
    else if live then infinity else u.cpuQuota

/-- `propCaps`. -/
def propCaps (u : Props) : ResourceCaps where
  memoryMax := if u.memoryMax ≠ infinity then u.memoryMax else 0
  tasksMax := if u.tasksMax ≠ infinity ∧ u.tasksMax ≤ maxInt then u.tasksMax
    else 0
  cpuQuota := if u.cpuQuota ≠ infinity ∧ u.cpuQuota / usecPerPercent ≤ maxInt
    then u.cpuQuota / usecPerPercent else 0

/-- `unitCaps`, with the manager's default if it could be read. -/
def unitCaps (dflt : Option Nat) (u : Props) : ResourceCaps :=
  let caps := propCaps u
  if 0 < caps.tasksMax ∧ dflt = some caps.tasksMax then
    { caps with tasksMax := 0 }
  else caps

/-- A unit, and what its handle has of it. -/
structure State where
  unit : Props
  caps : Option ResourceCaps
  capsUnknown : Bool
  deriving DecidableEq

/-- How the manager answers: whether `DefaultTasksMax` can be read, in
`SetCaps` and once more in `unitCaps`; whether the write is said to have
failed, and has taken effect; and whether the unit can be read. -/
structure Answers where
  readsDefault : Bool
  failed : Bool
  took : Bool
  readsUnit : Bool
  readsAgain : Bool

variable (dflt : Nat)

/-- `Start`: the rest of what a unit has is the manager's default. -/
def started (caps : ResourceCaps) : State :=
  ⟨capProperties caps false 0 ⟨infinity, infinity, dflt, infinity⟩, some caps,
    false⟩

/-- `Reattach`, after which the handle is a new one. -/
def reattach (readsDefault : Bool) (s : State) : State :=
  { s with
    caps := some (unitCaps (if readsDefault then some dflt else none) s.unit)
    capsUnknown := false }

/-- `readBackCaps`. -/
def readBackCaps (a : Answers) (s : State) : State :=
  if a.readsUnit then reattach dflt a.readsAgain s
  else { s with capsUnknown := true }

/-- `SetCaps`. -/
def setCaps (a : Answers) (caps : ResourceCaps) (s : State) : State :=
  let lifts := caps.tasksMax == 0 &&
    (s.capsUnknown || s.caps.all fun c => decide (0 < c.tasksMax))
  let lift := if lifts && a.readsDefault then dflt else 0
  let applied := if lifts && !a.readsDefault then
      { caps with tasksMax := (s.caps.map (·.tasksMax)).getD caps.tasksMax }
    else caps
  let written := capProperties caps true lift s.unit
  if a.failed then
    readBackCaps dflt a { s with unit := if a.took then written else s.unit }
  else
    { unit := written
      caps := some applied
      capsUnknown := if 0 < caps.tasksMax ∨ 0 < lift then false
        else s.capsUnknown }

/-- `syncCaps` leaves the unit as it is. -/
def State.synced (s : State) (want : ResourceCaps) : Bool :=
  !s.capsUnknown && s.caps.getD ⟨0, 0, 0⟩ == want

/-- `syncCaps`, of an instance that is alive. -/
def syncCaps (a : Answers) (want : ResourceCaps) (s : State) : State :=
  if s.synced want then s else setCaps dflt a want s

inductive Event
  | set (a : Answers) (caps : ResourceCaps)
  | sync (a : Answers) (want : ResourceCaps)
  | restart (readsDefault : Bool)

def Event.fits : Event → Bool
  | set _ caps => caps.fits
  | sync _ want => want.fits
  | restart _ => true

def step (s : State) : Event → State
  | .set a caps => setCaps dflt a caps s
  | .sync a want => syncCaps dflt a want s
  | .restart readsDefault => reattach dflt readsDefault s

-- ====== what a unit carries

/-- The unit's limits are those of `c`, with the manager's default for a
tasks cap that is unset. -/
structure Carries (u : Props) (c : ResourceCaps) : Prop where
  memory : u.memoryMax = if 0 < c.memoryMax then c.memoryMax else infinity
  swap : u.memorySwapMax = if 0 < c.memoryMax then 0 else infinity
  cpu : u.cpuQuota = if 0 < c.cpuQuota then c.cpuQuota * usecPerPercent
    else infinity
  tasks : u.tasksMax = if 0 < c.tasksMax then c.tasksMax else dflt

/-- The unit carries some caps, and the handle's if they are known. -/
structure Inv (s : State) : Prop where
  carries : ∃ c, c.fits = true ∧ Carries dflt s.unit c
  known : ∃ c, s.caps = some c ∧
    (s.capsUnknown = false → Carries dflt s.unit c)

variable {dflt} {c caps : ResourceCaps} {u : Props} {s : State}

theorem fits_iff : c.fits = true ↔ c.tasksMax ≤ maxInt ∧
    c.memoryMax < infinity ∧ c.cpuQuota * usecPerPercent < infinity := by
  simp [ResourceCaps.fits, and_assoc]

theorem quota_fits (hc : c.fits = true) :
    c.cpuQuota * usecPerPercent % 2 ^ 64 = c.cpuQuota * usecPerPercent :=
  Nat.mod_eq_of_lt (Nat.lt_trans (fits_iff.mp hc).2.2 (by decide))

/-- A live write leaves out at most the tasks cap. -/
theorem written_carries {lift : Nat} (hu : Carries dflt u c)
    (hcaps : caps.fits = true) (hlift : lift = 0 ∨ lift = dflt) :
    Carries dflt (capProperties caps true lift u) { caps with
      tasksMax := if 0 < caps.tasksMax then caps.tasksMax
        else if 0 < lift then 0 else c.tasksMax } where
  memory := by simp [capProperties]
  swap := by simp [capProperties]
  cpu := if_congr Iff.rfl (quota_fits hcaps) rfl
  tasks := by
    rw [capProperties, hu.tasks]
    by_cases htasks : 0 < caps.tasksMax
    · simp [htasks]
    · rcases hlift with rfl | rfl
      · simp [htasks]
      · by_cases hpos : 0 < lift
        · simp [htasks, hpos]
        · simp [htasks, hpos]

/-- The tasks cap that is reported is the unit's number, or there is none
and the number is the default's. -/
theorem propCaps_tasks (hdflt : 0 < dflt) (hc : c.tasksMax ≤ maxInt)
    (hu : Carries dflt u c) :
    (propCaps u).tasksMax = u.tasksMax ∧ 0 < u.tasksMax ∨
      (propCaps u).tasksMax = 0 ∧ u.tasksMax = dflt := by
  have hlt : maxInt < infinity := by decide
  rw [propCaps, hu.tasks]
  by_cases htasks : 0 < c.tasksMax
  · left
    simp [htasks, hc, (hc.trans_lt hlt).ne]
  · by_cases hfits : dflt ≠ infinity ∧ dflt ≤ maxInt
    · simp [htasks, hfits, hdflt]
    · simp [htasks, hfits]

/-- What the manager reports says what the unit carries. -/
theorem unitCaps_carries (hdflt : 0 < dflt) (hc : c.fits = true)
    (hu : Carries dflt u c) (reads : Bool) :
    Carries dflt u (unitCaps (if reads then some dflt else none) u) := by
  obtain ⟨hint, hmem, hquota⟩ := fits_iff.mp hc
  have hprop : (propCaps u).memoryMax = c.memoryMax ∧
      (propCaps u).cpuQuota = c.cpuQuota := by
    rw [propCaps, hu.memory, hu.cpu]
    constructor
    · by_cases h : 0 < c.memoryMax
      · simp [h, hmem.ne]
      · simp [show c.memoryMax = 0 by omega]
    · by_cases h : 0 < c.cpuQuota
      · have hle : c.cpuQuota ≤ maxInt := by
          simp only [usecPerPercent, infinity, maxInt] at hquota ⊢
          omega
        have hdiv : c.cpuQuota * usecPerPercent / usecPerPercent =
            c.cpuQuota := Nat.mul_div_cancel _ (by decide)
        simp [h, hquota.ne, hdiv, hle]
      · simp [show c.cpuQuota = 0 by omega]
  have hsame (d : Option Nat) : (unitCaps d u).memoryMax = c.memoryMax ∧
      (unitCaps d u).cpuQuota = c.cpuQuota := by
    unfold unitCaps
    dsimp only
    split
    next => exact hprop
    next => exact hprop
  refine ⟨?_, ?_, ?_, ?_⟩
  · rw [(hsame _).1, hu.memory]
  · rw [(hsame _).1, hu.swap]
  · rw [(hsame _).2, hu.cpu]
  · unfold unitCaps
    dsimp only
    rcases propCaps_tasks hdflt hint hu with ⟨heq, hpos⟩ | ⟨heq, hnum⟩
    · cases reads with
      | false => simp [heq, hpos]
      | true =>
        by_cases hsame : dflt = u.tasksMax
        · simp [heq, hsame, hpos]
        · simp [heq, hsame, hpos]
    · simp [heq, hnum]

-- ====== the steps

theorem inv_started (hc : c.fits = true) : Inv dflt (started dflt c) := by
  have hcarries : Carries dflt (started dflt c).unit c := by
    constructor
    case cpu => exact if_congr Iff.rfl (quota_fits hc) rfl
    all_goals simp [started, capProperties]
  exact ⟨⟨c, hc, hcarries⟩, c, rfl, fun _ => hcarries⟩

section

variable (hdflt : 0 < dflt)
include hdflt

theorem Inv.reattach (h : Inv dflt s) (reads : Bool) :
    Inv dflt (reattach dflt reads s) := by
  obtain ⟨c, hc, hu⟩ := h.carries
  exact ⟨⟨c, hc, hu⟩, _, rfl, fun _ => unitCaps_carries hdflt hc hu reads⟩

theorem Inv.readBack (h : Inv dflt s) (a : Answers)
    (hu : ∃ c, c.fits = true ∧ Carries dflt u c) :
    Inv dflt (readBackCaps dflt a { s with unit := u }) := by
  obtain ⟨c, hc, hu⟩ := hu
  unfold readBackCaps
  split
  next =>
    exact ⟨⟨c, hc, hu⟩, _, rfl, fun _ => unitCaps_carries hdflt hc hu _⟩
  next =>
    obtain ⟨own, hown, -⟩ := h.known
    exact ⟨⟨c, hc, hu⟩, own, hown, nofun⟩

theorem Inv.setCaps (h : Inv dflt s) (a : Answers)
    (hcaps : caps.fits = true) : Inv dflt (setCaps dflt a caps s) := by
  obtain ⟨c, hc, hu⟩ := h.carries
  obtain ⟨own, hown, hknown⟩ := h.known
  obtain ⟨unit, _, unknown⟩ := s
  obtain rfl := hown
  unfold Caps.setCaps
  dsimp only [Option.all_some, Option.map_some, Option.getD_some] at hu hknown ⊢
  generalize hlifts : (caps.tasksMax == 0 &&
    (unknown || decide (0 < own.tasksMax))) = lifts
  generalize hlift :
    (if (lifts && a.readsDefault) = true then dflt else 0) = lift
  have hwhich : lift = 0 ∨ lift = dflt := by
    rw [← hlift]
    split
    next => exact .inr rfl
    next => exact .inl rfl
  -- the unit carries some caps, whether or not the write takes effect
  have hwritten : ∃ c, c.fits = true ∧
      Carries dflt (capProperties caps true lift unit) c := by
    refine ⟨_, ?_, written_carries hu hcaps hwhich⟩
    have hint := (fits_iff.mp hc).1
    obtain ⟨hint', hrest⟩ := fits_iff.mp hcaps
    refine fits_iff.mpr ⟨?_, hrest⟩
    dsimp only
    split_ifs <;> omega
  by_cases hfailed : a.failed = true
  · rw [if_pos hfailed]
    refine h.readBack hdflt a ?_
    split
    next => exact hwritten
    next => exact ⟨c, hc, hu⟩
  rw [if_neg hfailed]
  refine ⟨hwritten, _, rfl, fun hsettled => ?_⟩
  dsimp only at hsettled ⊢
  by_cases htasks : 0 < caps.tasksMax
  · have hno : lifts = false := by
      rw [← hlifts]
      simp [show caps.tasksMax ≠ 0 by omega]
    have hw := written_carries hu hcaps hwhich
    simpa [hno, htasks] using hw
  have hzero : caps.tasksMax = 0 := Nat.eq_zero_of_not_pos htasks
  have hsame : { caps with tasksMax := 0 } = caps := by rw [← hzero]
  by_cases hpos : 0 < lift
  · have hyes : (lifts && !a.readsDefault) = false := by
      cases hr : a.readsDefault with
      | true => simp
      | false =>
        simp only [hr, Bool.and_false, Bool.false_eq_true, if_false] at hlift
        omega
    have hw := written_carries hu hcaps hwhich
    simpa [hyes, hzero, hpos, hsame] using hw
  · -- the tasks cap is as it was, and was known
    rw [if_neg (by omega)] at hsettled
    have hw := written_carries (hknown hsettled) hcaps hwhich
    simp only [hzero, hpos, lt_irrefl, if_false] at hw
    cases lifts with
    | false =>
      simp [hzero, hsettled] at hlifts
      simpa [hlifts, hsame] using hw
    | true =>
      have hunread : a.readsDefault = false := by
        cases hr : a.readsDefault with
        | false => rfl
        | true => simp [hr] at hlift; omega
      simpa [hunread] using hw

theorem Inv.step (h : Inv dflt s) {e : Event}
    (he : e.fits = true) : Inv dflt (step dflt s e) := by
  cases e with
  | set a caps => exact h.setCaps hdflt a he
  | restart reads => exact h.reattach hdflt reads
  | sync a want =>
    change Inv dflt (syncCaps dflt a want s)
    unfold syncCaps
    split
    next => exact h
    next => exact h.setCaps hdflt a he

theorem Inv.run {events : List Event}
    (hfits : ∀ e ∈ events, e.fits = true) (h : Inv dflt s) :
    Inv dflt (events.foldl (Caps.step dflt) s) := by
  induction events generalizing s with
  | nil => exact h
  | cons e rest ih =>
    have hrest (e' : Event) (he' : e' ∈ rest) :=
      hfits e' (.tail _ he')
    exact ih hrest (h.step hdflt (hfits e (.head _)))

end

/-- Over every run of caps that fit, what the handle knows is what the unit
carries, and a sync that sends nothing has nothing to send. -/
theorem known_caps_are_carried (hdflt : 0 < dflt) (hc : c.fits = true)
    (events : List Event) (hfits : ∀ e ∈ events, e.fits = true) :
    let s := events.foldl (step dflt) (started dflt c)
    (∃ own, s.caps = some own ∧
      (s.capsUnknown = false → Carries dflt s.unit own)) ∧
    ∀ want, s.synced want = true → Carries dflt s.unit want := by
  intro s
  have hinv : Inv dflt s := (inv_started hc).run hdflt hfits
  obtain ⟨own, hown, hknown⟩ := hinv.known
  refine ⟨⟨own, hown, hknown⟩, fun want hsync => ?_⟩
  simp only [State.synced, hown, Option.getD_some, Bool.and_eq_true,
    Bool.not_eq_true', beq_iff_eq] at hsync
  exact hsync.2 ▸ hknown hsync.1

/-- The tasks cap that is set with a write that fails after it took effect
is read back, and then lifted. -/
theorem known_caps_are_carried_example :
    let events : List Event :=
      [.set ⟨true, true, true, true, false⟩ ⟨0, 64, 50⟩,
        .sync ⟨true, false, true, true, true⟩ ⟨0, 0, 50⟩]
    Carries 4096 (events.foldl (step 4096) (started 4096 ⟨0, 0, 0⟩)).unit
      ⟨0, 0, 50⟩ := by
  intro events
  exact (known_caps_are_carried (by decide) (by decide) events
    (by decide)).2 ⟨0, 0, 50⟩ (by decide)

/-- A quota that wraps: the handle's caps are
known, and the unit has no CPU time. -/
theorem quota_overflows :
    let s := setCaps 4096 ⟨true, false, true, true, true⟩ ⟨0, 0, 2 ^ 60⟩
      (started 4096 ⟨0, 0, 0⟩)
    s.capsUnknown = false ∧ s.synced ⟨0, 0, 2 ^ 60⟩ = true ∧
      s.unit.cpuQuota = 0 ∧ ¬ Carries 4096 s.unit ⟨0, 0, 2 ^ 60⟩ := by
  refine ⟨by decide, by decide, by decide, fun h => ?_⟩
  have hcpu := h.cpu
  revert hcpu
  decide

end Hotserve.Liveswap.Caps
