/-
The deploy gate (liveswap/health.go, `waitHealthy`): a new instance has
to be healthy for a whole soak before traffic goes to it, and has until a
deadline for it.

What a tick leaves is the reading at which the run of healthy ticks it
ends began (`Since`), so the soak is done at a tick exactly where some run
of such ticks up to it is as long (`soaked_iff`). A tick past the deadline
is the last, and is probed only if the run before it is long enough
already: a run that begins past the deadline is never one.
-/
import Hotserve.Bytes
import Mathlib.Order.Monotone.Basic

namespace Hotserve.Liveswap.Health

open Bytes

/-- `healthConfig`; an empty path is that of an app with no endpoint. -/
structure HealthConfig where
  path : Bytes
  interval : Nat
  soak : Nat
  deadline : Nat

/-- A probe's error, and the answer in it if the app gave one. -/
structure Failure where
  text : Bytes
  probe : Option Bytes

/-- What the gate meets: when it starts, and at each tick the context's
error, whether the process is alive, the clock's reading and the answer
there would be to a probe. -/
structure Ticks where
  start : Nat
  canceled : Nat → Option Bytes
  alive : Nat → Bool
  now : Nat → Nat
  probe : Nat → Except Failure Unit

/-- What `waitHealthy` returns. -/
inductive Verdict
  | healthy
  | canceled (why : Bytes)
  | exited (probe : Option Bytes)
  /-- Healthy for so much of the soak when the deadline expired. -/
  | short (accrued : Nat)
  | unhealthy (last : Option Bytes) (probe : Option Bytes)
  /-- Healthy for so much, then the probe past the deadline failed. -/
  | failedPast (accrued : Nat) (last : Option Bytes) (probe : Option Bytes)
  deriving DecidableEq

/-- The variables of the loop, and the ticks a probe was issued at. -/
structure Gate where
  healthySince : Option Nat
  lastErr : Option Bytes
  lastProbe : Option Bytes
  probed : List Nat

variable (hc : HealthConfig) (w : Ticks)

def soaked (g : Gate) (now : Nat) : Bool :=
  g.healthySince.any fun since => since + hc.soak ≤ now

/-- `deadlineVerdict`. -/
def deadlineVerdict (g : Gate) : Verdict :=
  match g.healthySince with
  | some since => .short (w.start + hc.deadline - since)
  | none => .unhealthy g.lastErr g.lastProbe

/-- One look at the instance. -/
def look (k : Nat) (g : Gate) : Gate :=
  if hc.path = [] then
    { g with
      healthySince := some (g.healthySince.getD (w.now k))
      lastErr := none }
  else
    match w.probe k with
    | .error e =>
      { healthySince := none
        lastErr := some e.text
        lastProbe := e.probe.or g.lastProbe
        probed := g.probed ++ [k] }
    | .ok () =>
      { g with
        healthySince := some (g.healthySince.getD (w.now k))
        lastErr := if g.healthySince.isNone then none else g.lastErr
        probed := g.probed ++ [k] }

/-- One turn of the loop: the verdict, or none and the gate sleeps. -/
def tick (k : Nat) (g : Gate) : Gate × Option Verdict :=
  match w.canceled k with
  | some why => (g, some (.canceled why))
  | none =>
    if w.alive k = false then (g, some (.exited g.lastProbe))
    else if w.start + hc.deadline < w.now k ∧ soaked hc g (w.now k) = false then
      (g, some (deadlineVerdict hc w g))
    else if soaked hc (look hc w k g) (w.now k) then
      (look hc w k g, some .healthy)
    else if w.start + hc.deadline < w.now k then
      (look hc w k g, some (.failedPast (w.now k - g.healthySince.getD 0)
        (look hc w k g).lastErr (look hc w k g).lastProbe))
    else (look hc w k g, none)

/-- The loop from tick `k`, for so many ticks: the last tick, the verdict
and what is left. -/
def run : Nat → Nat → Gate → Option (Nat × Verdict × Gate)
  | 0, _, _ => none
  | fuel + 1, k, g =>
    match tick hc w k g with
    | (g, some v) => some (k, v, g)
    | (g, none) => run fuel (k + 1) g

def waitHealthy (fuel : Nat) : Option (Nat × Verdict × Gate) :=
  run hc w fuel 0 ⟨none, some (str "no probe completed"), none, []⟩

-- ====== the runs

/-- A tick that is healthy, if it is probed. -/
def Fine (k : Nat) : Prop := hc.path = [] ∨ w.probe k = .ok ()

/-- Every tick from `i` and before `j` is. -/
def FineFrom (i j : Nat) : Prop := ∀ k, i ≤ k → k < j → Fine hc w k

/-- Before tick `k` the gate has the beginning of the longest run of
healthy ticks up to there. -/
structure Since (k : Nat) (since : Option Nat) : Prop where
  held : ∀ s, since = some s → ∃ i < k, s = w.now i ∧ FineFrom hc w i k
  longest : ∀ i < k, FineFrom hc w i k → ∃ s, since = some s ∧ s ≤ w.now i

/-- The soak is done at tick `j`, by a run that begins by the deadline. -/
def Done (j : Nat) : Prop :=
  (∀ k ≤ j, w.alive k = true) ∧ ∃ i ≤ j, FineFrom hc w i (j + 1) ∧
    w.now i + hc.soak ≤ w.now j ∧ w.now i ≤ w.start + hc.deadline

/-- The gate before tick `k`. -/
structure Before (k : Nat) (g : Gate) : Prop where
  since : Since hc w k g.healthySince
  alive : ∀ m < k, w.alive m = true
  inTime : ∀ m < k, w.now m ≤ w.start + hc.deadline
  undone : ∀ m < k, ¬ Done hc w m
  probed : ∀ m ∈ g.probed, m < k
  nodup : g.probed.Nodup

variable {hc w} {g : Gate} {k i : Nat}

theorem FineFrom.last (h : FineFrom hc w i k) (hk : Fine hc w k) :
    FineFrom hc w i (k + 1) := by
  intro m him hm
  rcases Nat.lt_succ_iff_lt_or_eq.mp hm with hm | rfl
  · exact h m him hm
  · exact hk

theorem look_since (hc : HealthConfig) (w : Ticks) :
    (look hc w k g).healthySince = some (g.healthySince.getD (w.now k)) ∧
      Fine hc w k ∨ (look hc w k g).healthySince = none ∧ ¬ Fine hc w k := by
  unfold look Fine
  by_cases hpath : hc.path = []
  · simp [hpath]
  · cases hprobe : w.probe k with
    | error e => simp [hpath]
    | ok u => simp [hpath]

/-- A look adds its own tick to the run, or ends it. -/
theorem Since.look (hmono : ∀ m, w.now m ≤ w.now (m + 1))
    (h : Since hc w k g.healthySince) :
    Since hc w (k + 1) (look hc w k g).healthySince := by
  have hle : ∀ i < k, w.now i ≤ w.now k := fun i hi =>
    monotone_nat_of_le_succ hmono hi.le
  rcases look_since hc w with ⟨heq, hfine⟩ | ⟨heq, hbad⟩
  · rw [heq]
    constructor
    · rintro s ⟨⟩
      cases hs : g.healthySince with
      | none =>
        refine ⟨k, by omega, rfl, fun m hkm hm => ?_⟩
        rwa [show m = k by omega]
      | some s =>
        obtain ⟨i, hi, rfl, hrun⟩ := h.held s hs
        exact ⟨i, by omega, rfl, hrun.last hfine⟩
    · intro i hi hrun
      refine ⟨_, rfl, ?_⟩
      cases hs : g.healthySince with
      | none =>
        rcases Nat.lt_succ_iff_lt_or_eq.mp hi with hi | rfl
        · obtain ⟨s, hsome, -⟩ := h.longest i hi fun m him hm =>
            hrun m him (by omega)
          rw [hs] at hsome
          cases hsome
        · exact le_rfl
      | some s =>
        rcases Nat.lt_succ_iff_lt_or_eq.mp hi with hi | rfl
        · obtain ⟨s', hsome, hle⟩ := h.longest i hi fun m him hm =>
            hrun m him (by omega)
          rw [hs] at hsome
          cases hsome
          exact hle
        · obtain ⟨i', hi', rfl, -⟩ := h.held s hs
          exact hle i' hi'
  · rw [heq]
    refine ⟨by simp, fun i hi hrun => ?_⟩
    exact absurd (hrun k (by omega) (by omega)) hbad

theorem soaked_iff {now : Nat} (h : Since hc w k g.healthySince) :
    soaked hc g now = true ↔ ∃ i < k, FineFrom hc w i k ∧
      w.now i + hc.soak ≤ now := by
  rw [soaked, Option.any_eq_true]
  constructor
  · rintro ⟨s, hs, hdue⟩
    obtain ⟨i, hi, rfl, hrun⟩ := h.held s hs
    exact ⟨i, hi, hrun, of_decide_eq_true hdue⟩
  · rintro ⟨i, hi, hrun, hdue⟩
    obtain ⟨s, hs, hle⟩ := h.longest i hi hrun
    exact ⟨s, hs, decide_eq_true (by omega)⟩

theorem look_probed (hc : HealthConfig) (w : Ticks) :
    (look hc w k g).probed = g.probed ∨
      (look hc w k g).probed = g.probed ++ [k] := by
  unfold look
  split
  next => exact .inl rfl
  split
  next => exact .inr rfl
  next => exact .inr rfl

-- ====== a tick

/-- How the gate ends, at tick `j`. -/
structure Ends (hc : HealthConfig) (w : Ticks) (j : Nat) (v : Verdict)
    (g : Gate) : Prop where
  inTime : ∀ m < j, w.now m ≤ w.start + hc.deadline
  undone : ∀ m < j, ¬ Done hc w m
  done : v = .healthy ↔ Done hc w j
  why : v ≠ .healthy → w.alive j = false ∨ w.start + hc.deadline < w.now j
  nodup : g.probed.Nodup
  /-- A probe past the deadline is the last, and is to complete the soak. -/
  past : ∀ m ∈ g.probed, w.start + hc.deadline < w.now m →
    m = j ∧ ∃ i < j, FineFrom hc w i j ∧ w.now i + hc.soak ≤ w.now j

/-- A gate that ends at a tick it did not look at. -/
theorem Before.refuse (h : Before hc w k g) {v : Verdict} (hv : v ≠ .healthy)
    (hdone : ¬ Done hc w k)
    (hwhy : w.alive k = false ∨ w.start + hc.deadline < w.now k) :
    Ends hc w k v g :=
  { h with
    done := ⟨fun heq => absurd heq hv, fun hd => absurd hd hdone⟩
    why := fun _ => hwhy
    past := fun m hm hlate => by
      have := h.inTime m (h.probed m hm)
      omega }

theorem Before.look_nodup (h : Before hc w k g) :
    (look hc w k g).probed.Nodup ∧ ∀ m ∈ (look hc w k g).probed, m ≤ k := by
  rcases look_probed hc w with heq | heq
  · rw [heq]
    exact ⟨h.nodup, fun m hm => (h.probed m hm).le⟩
  · rw [heq]
    refine ⟨List.nodup_append.mpr ⟨h.nodup, by simp, fun a ha b hb => ?_⟩,
      fun m hm => ?_⟩
    · rw [List.mem_singleton.mp hb]
      exact (h.probed a ha).ne
    · rcases List.mem_append.mp hm with hm | hm
      · exact (h.probed m hm).le
      · exact (List.mem_singleton.mp hm).le

/-- A gate that ends at a tick it looked at. -/
theorem Before.judge (h : Before hc w k g) {v : Verdict}
    (hdone : v = .healthy ↔ Done hc w k)
    (hwhy : v ≠ .healthy → w.start + hc.deadline < w.now k)
    (hdue : w.start + hc.deadline < w.now k → soaked hc g (w.now k) = true) :
    Ends hc w k v (look hc w k g) where
  inTime := h.inTime
  undone := h.undone
  done := hdone
  why := fun hv => .inr (hwhy hv)
  nodup := h.look_nodup.1
  past := fun m hm hlate => by
    have hmk : m = k := by
      by_contra hne
      have hlt : m < k := lt_of_le_of_ne (h.look_nodup.2 m hm) hne
      have := h.inTime m hlt
      omega
    subst hmk
    exact ⟨rfl, (soaked_iff h.since).mp (hdue hlate)⟩

/-- One turn: the gate ends, or is as it should be before the next. -/
theorem Before.tick (hmono : ∀ m, w.now m ≤ w.now (m + 1))
    (hno : w.canceled k = none) (h : Before hc w k g) :
    (∃ v, (tick hc w k g).2 = some v ∧ Ends hc w k v (tick hc w k g).1) ∨
      (tick hc w k g).2 = none ∧ Before hc w (k + 1) (tick hc w k g).1 := by
  have hsince := h.since.look hmono
  unfold Health.tick
  rw [hno]
  dsimp only
  by_cases halive : w.alive k = false
  · rw [if_pos halive]
    refine .inl ⟨_, rfl, h.refuse (by simp) (fun hd => ?_) (.inl halive)⟩
    rw [hd.1 k le_rfl] at halive
    cases halive
  rw [if_neg halive]
  have hall : ∀ m ≤ k, w.alive m = true := by
    intro m hm
    rcases hm.lt_or_eq with hm | rfl
    · exact h.alive m hm
    · exact Bool.not_eq_false _ ▸ halive
  by_cases hshort : w.start + hc.deadline < w.now k ∧
      soaked hc g (w.now k) = false
  · -- past the deadline, and no run that is long enough
    rw [if_pos hshort]
    refine .inl ⟨_, rfl, h.refuse ?_ ?_ (.inr hshort.1)⟩
    · unfold deadlineVerdict
      split <;> simp
    · rintro ⟨-, i, hi, hrun, hdue, hbegin⟩
      have hlt : i < k := by
        refine lt_of_le_of_ne hi ?_
        rintro rfl
        omega
      have := (soaked_iff h.since).mpr ⟨i, hlt, fun m him hm =>
        hrun m him (by omega), hdue⟩
      rw [hshort.2] at this
      cases this
  rw [if_neg hshort]
  have hdue : w.start + hc.deadline < w.now k → soaked hc g (w.now k) = true :=
    fun hlate => Bool.not_eq_false _ ▸ fun hs => hshort ⟨hlate, hs⟩
  -- the run that is long enough began by the deadline
  have hdone : soaked hc (look hc w k g) (w.now k) = true ↔ Done hc w k := by
    rw [soaked_iff hsince]
    constructor
    · rintro ⟨i, hi, hrun, hlong⟩
      refine ⟨hall, ?_⟩
      by_cases hbegin : w.now i ≤ w.start + hc.deadline
      · exact ⟨i, Nat.lt_succ_iff.mp hi, hrun, hlong, hbegin⟩
      · have hik : i = k := by
          by_contra hne
          exact hbegin (h.inTime i (by omega))
        subst hik
        obtain ⟨i', hi', hrun', hlong'⟩ :=
          (soaked_iff h.since).mp (hdue (by omega))
        exact ⟨i', hi'.le, hrun'.last (hrun i le_rfl hi), hlong',
          h.inTime i' hi'⟩
    · rintro ⟨-, i, hi, hrun, hlong, -⟩
      exact ⟨i, by omega, hrun, hlong⟩
  by_cases hsoaked : soaked hc (look hc w k g) (w.now k) = true
  · rw [if_pos hsoaked]
    exact .inl ⟨_, rfl, h.judge (by simp [hdone.mp hsoaked]) (by simp) hdue⟩
  rw [if_neg hsoaked]
  have hnot : ¬ Done hc w k := fun hd => hsoaked (hdone.mpr hd)
  by_cases hlate : w.start + hc.deadline < w.now k
  · rw [if_pos hlate]
    exact .inl ⟨_, rfl, h.judge (by simp [hnot]) (fun _ => hlate) hdue⟩
  · rw [if_neg hlate]
    refine .inr ⟨rfl, hsince, fun m hm => hall m (by omega), fun m hm => ?_,
      fun m hm => ?_, fun m hm => ?_, h.look_nodup.1⟩
    · rcases Nat.lt_succ_iff_lt_or_eq.mp hm with hm | rfl
      · exact h.inTime m hm
      · exact Nat.le_of_not_lt hlate
    · rcases Nat.lt_succ_iff_lt_or_eq.mp hm with hm | rfl
      · exact h.undone m hm
      · exact hnot
    · exact Nat.lt_succ_iff.mpr (h.look_nodup.2 m hm)

-- ====== the gate

/-- The gate has ended before the first tick that is too late for it. -/
theorem run_ends (hmono : ∀ m, w.now m ≤ w.now (m + 1))
    (hno : ∀ m, w.canceled m = none) {last : Nat}
    (hlast : w.start + hc.deadline < w.now last) :
    ∀ {fuel k : Nat} {g : Gate}, Before hc w k g → last < k + fuel →
      ∃ j v g', run hc w fuel k g = some (j, v, g') ∧ j ≤ last ∧
        Ends hc w j v g'
  | 0, k, g, h, hfuel => by
    have := h.inTime last hfuel
    omega
  | fuel + 1, k, g, h, hfuel => by
    rw [run]
    have hstep := h.tick hmono (hno k)
    generalize Health.tick hc w k g = r at hstep
    obtain ⟨g', o⟩ := r
    rcases hstep with ⟨v, hv, hends⟩ | ⟨hnone, hnext⟩
    · cases hv
      refine ⟨k, v, g', rfl, ?_, hends⟩
      by_contra hlt
      have := h.inTime last (by omega)
      omega
    · cases hnone
      have hleft : last < k + 1 + fuel := by omega
      exact run_ends hmono hno hlast hnext hleft

theorem before_zero (hc : HealthConfig) (w : Ticks) (err : Option Bytes) :
    Before hc w 0 ⟨none, err, none, []⟩ where
  since := ⟨by simp, by simp⟩
  alive := by simp
  inTime := by simp
  undone := by simp
  probed := by simp
  nodup := List.nodup_nil

theorem now_ge (hstart : w.start ≤ w.now 0)
    (hsleep : ∀ m, w.now m + hc.interval ≤ w.now (m + 1)) (m : Nat) :
    w.start + m * hc.interval ≤ w.now m := by
  induction m with
  | zero => simpa using hstart
  | succ m ih =>
    have := hsleep m
    rw [Nat.succ_mul]
    omega

/-- The gate opens at a tick exactly where it is the first at which a run
of healthy ticks that began by the deadline is as long as the soak, none
before it being past the deadline; a probe past the deadline is the last
and could complete the soak; and the gate returns. -/
theorem waitHealthy_opens_on_soak (hc : HealthConfig) (w : Ticks)
    (hinterval : 0 < hc.interval) (hstart : w.start ≤ w.now 0)
    (hsleep : ∀ m, w.now m + hc.interval ≤ w.now (m + 1))
    (hno : ∀ m, w.canceled m = none) {fuel : Nat}
    (hfuel : hc.deadline / hc.interval + 2 ≤ fuel) :
    (∃ j v g, waitHealthy hc w fuel = some (j, v, g) ∧
      j + 1 ≤ hc.deadline / hc.interval + 2 ∧ g.probed.Nodup ∧
      ∀ m ∈ g.probed, w.start + hc.deadline < w.now m → m = j ∧
        ∃ i < j, FineFrom hc w i j ∧ w.now i + hc.soak ≤ w.now j) ∧
    ∀ j, (∃ g, waitHealthy hc w fuel = some (j, .healthy, g)) ↔
      Done hc w j ∧ (∀ m < j, ¬ Done hc w m) ∧
        ∀ m < j, w.now m ≤ w.start + hc.deadline := by
  have hmono : ∀ m, w.now m ≤ w.now (m + 1) := fun m => by
    have := hsleep m
    omega
  have hlast : w.start + hc.deadline <
      w.now (hc.deadline / hc.interval + 1) := by
    have hge := now_ge hstart hsleep (hc.deadline / hc.interval + 1)
    have hlt := Nat.lt_mul_div_succ hc.deadline hinterval
    rw [Nat.mul_comm] at hlt
    omega
  have hlong : hc.deadline / hc.interval + 1 < 0 + fuel := by omega
  obtain ⟨j, v, g, hrun, hj, hends⟩ :=
    run_ends hmono hno hlast (before_zero hc w _) hlong
  refine ⟨⟨j, v, g, hrun, by omega, hends.nodup, hends.past⟩, fun j' => ?_⟩
  constructor
  · rintro ⟨g', hrun'⟩
    rw [waitHealthy, hrun] at hrun'
    cases hrun'
    exact ⟨hends.done.mp rfl, hends.undone, hends.inTime⟩
  · rintro ⟨hdone, hfirst, hinTime⟩
    -- the tick it returns at is that one
    have hge : j ≤ j' := by
      by_contra hlt
      exact hends.undone j' (by omega) hdone
    have hle : j' ≤ j := by
      by_contra hlt
      have hv : v ≠ .healthy := fun hv => hfirst j (by omega) (hends.done.mp hv)
      rcases hends.why hv with hdead | hlate
      · rw [hdone.1 j (by omega)] at hdead
        cases hdead
      · have := hinTime j (by omega)
        omega
    obtain rfl : j = j' := by omega
    exact ⟨g, by rw [waitHealthy, hrun, hends.done.mpr hdone]⟩

/-- Ticks two apart, from the start on. -/
def everyTwo (probe : Nat → Except Failure Unit) : Ticks :=
  ⟨0, fun _ => none, fun _ => true, (2 * ·), probe⟩

/-- A soak that falls due on the tick past the deadline is met. -/
theorem waitHealthy_opens_on_soak_example :
    ∃ g, waitHealthy ⟨str "/health", 2, 4, 3⟩ (everyTwo fun _ => .ok ()) 3 =
      some (2, .healthy, g) := by
  refine ((waitHealthy_opens_on_soak ⟨str "/health", 2, 4, 3⟩
    (everyTwo fun _ => .ok ()) (by decide) (by decide) (fun m => ?_)
    (fun _ => rfl) (by decide)).2 2).mpr ⟨⟨fun _ _ => rfl, 0, by decide,
      fun _ _ _ => .inr rfl, by decide, by decide⟩, ?_, ?_⟩
  · exact Nat.le_refl (2 * m + 2)
  · rintro m hm ⟨-, i, hi, -, hdue, -⟩
    change 2 * i + 4 ≤ 2 * m at hdue
    omega
  · intro m hm
    change 2 * m ≤ 0 + 3
    omega

/-- With no soak, a tick past the deadline is refused, whatever a probe
would say: here the first was in time and failed, and the second would
not have. -/
theorem no_soak_past_deadline :
    let hc : HealthConfig := ⟨str "/health", 2, 0, 1⟩
    let w := everyTwo fun k => if k = 0 then .error ⟨[], none⟩ else .ok ()
    (waitHealthy hc w 3).map (fun r => (r.1, r.2.1)) =
        some (1, .unhealthy (some []) none) ∧
      (∀ m, w.alive m = true) ∧ FineFrom hc w 1 2 ∧
      w.now 1 + hc.soak ≤ w.now 1 ∧ ¬ Fine hc w 0 ∧
      w.now 0 ≤ w.start + hc.deadline := by
  refine ⟨by decide +kernel, fun _ => rfl, fun k hk hlt => .inr ?_, by decide,
    ?_, by decide⟩
  · exact if_neg (by omega)
  · rintro (hpath | hprobe)
    · exact absurd hpath (by decide)
    · cases hprobe

end Hotserve.Liveswap.Health
