/-
What a check of the repository says, and which group each reads.

A clean verdict rests on the first probe, the check's exit and its count
(`checkRepository_clean`). Damage that restic counted is kept unless an
interrupt comes after the second probe has answered and before the
verdict is made (`damage_kept_iff`): every verdict but one asks the
context once more.

The group read next is written by the check that was recorded last, and
every other command carries it, so along a history each recorded check
determines the next (`checks_chain`). The rest is counting round 52
groups (`Rotation`).
-/
import Hotserve.Backup.Check
import Mathlib.Data.List.Chain

namespace Hotserve.Backup

open Bytes

-- ====== a verdict

variable {i : CheckInput} {group : Bytes} {c : Check} {place : Nat}

theorem verdict_eq_some {class_ : CheckClass} {detail : Bytes}
    (h : i.verdict place group class_ detail = some c) :
    i.cancelled place = false ∧ c.group = group ∧ c.class_ = class_ := by
  obtain ⟨hno, ⟨⟩⟩ := passedSome h
  exact ⟨Bool.eq_false_iff.mpr hno, rfl, rfl⟩

theorem checkClass_ne_clean (o : Outcome) : (checkClass o).1 ≠ .clean := by
  unfold checkClass
  dsimp only
  split
  · simp
  split
  · simp
  split
  · simp
  split
  · simp
  split
  · simp
  · simp

theorem probed_ne_clean {r : Except StartErr Outcome} {class_ : CheckClass}
    {detail : Bytes} (h : i.probed place r = .verdict class_ detail) :
    class_ ≠ .clean := by
  unfold CheckInput.probed at h
  split at h
  · split at h
    · cases h
    split at h
    · cases h
      simp
    split at h
    · cases h
      simp
    · cases h
      simp
  next o _ =>
    split at h
    · cases h
    · cases h
      exact checkClass_ne_clean o

/-- The check unit ended on its own with exit status 1, and its summary
counted errors. -/
structure CheckInput.Damage (i : CheckInput) : Prop where
  asked : i.probed 0 i.probe = .answered
  exit1 : ∃ o, i.check = .ok o ∧ o.result = str "exit-code" ∧ o.exitStatus = 1
  counted : ∃ n, i.counted = some n ∧ 0 < n

/-- The second probe was stopped: its unit's error came with an interrupt,
or from outside. -/
def CheckInput.Stopped (i : CheckInput) : Prop :=
  ∃ e, startWithin probeClock (i.cancelled 4) i.probeAfter = .error e ∧
    (i.cancelled 5 || e.endedFromOutside) = true

theorem probed_none_iff : i.probed 4 i.probeAfter = .none ↔ i.Stopped := by
  unfold CheckInput.probed CheckInput.Stopped
  constructor
  · intro h
    split at h
    next e he =>
      split at h
      next hstop => exact ⟨e, he, hstop⟩
      · split at h
        · cases h
        split at h
        · cases h
        · cases h
    · split at h
      · cases h
      · cases h
  · rintro ⟨e, he, hstop⟩
    rw [he]
    exact if_pos hstop

/-- An exit of 1 leads to the second probe. -/
theorem CheckInput.Damage.after (h : i.Damage) (group : Bytes) :
    checkRepository i group = i.afterExit1 group := by
  obtain ⟨o, hcheck, hresult, hstatus⟩ := h.exit1
  have hnot : o.ok = false := by
    rw [Outcome.ok, hstatus]
    simp
  unfold checkRepository
  rw [h.asked]
  dsimp only
  rw [hcheck]
  dsimp only
  rw [hnot, if_neg Bool.false_ne_true, if_neg]
  simp [hresult, hstatus]

/-- With damage counted, no verdict after the second probe is clean, and
there is none only where the context is found cancelled. -/
theorem afterExit1_damage (h : i.Damage) :
    (∀ c, i.afterExit1 group = some c → c.class_ ≠ .clean) ∧
      (i.afterExit1 group = none ↔ ¬ i.Stopped ∧ i.cancelled 6 = true) := by
  obtain ⟨n, hn, hpos⟩ := h.counted
  have hverdict : ∀ (class_ : CheckClass) (detail : Bytes),
      i.verdict 6 group class_ detail = none ↔ i.cancelled 6 = true := by
    intro class_ detail
    unfold CheckInput.verdict
    split
    next hc => simp [hc]
    next hc => simp [hc]
  rw [← probed_none_iff]
  unfold CheckInput.afterExit1
  rw [hn]
  cases hprobe : i.probed 4 i.probeAfter with
  | none =>
    dsimp only
    rw [if_pos hpos]
    refine ⟨fun c hc => ?_, by simp⟩
    cases hc
    simp
  | verdict class_ detail =>
    dsimp only
    refine ⟨fun c hc => ?_, by simp [hverdict]⟩
    rw [(verdict_eq_some hc).2.2]
    exact probed_ne_clean hprobe
  | answered =>
    have hne : ¬ (some n).getD 0 = 0 := by
      rw [Option.getD_some]
      omega
    dsimp only
    rw [if_neg hne]
    refine ⟨fun c hc => ?_, by simp [hverdict]⟩
    rw [(verdict_eq_some hc).2.2]
    simp

/-- What a clean verdict rests on. -/
theorem checkRepository_clean (h : checkRepository i group = some c)
    (hclean : c.class_ = .clean) :
    i.probed 0 i.probe = .answered ∧ (∃ o, i.check = .ok o ∧ o.ok = true) ∧
      i.counted = some 0 := by
  unfold checkRepository at h
  split at h
  · cases h
  next class_ detail hprobe =>
    have heq := (verdict_eq_some h).2.2
    exact absurd (heq.symm.trans hclean) (probed_ne_clean hprobe)
  next hasked =>
    refine ⟨hasked, ?_⟩
    split at h
    · obtain ⟨-, h⟩ := passedSome h
      have heq := (verdict_eq_some h).2.2
      rw [hclean] at heq
      cases heq
    next o hcheck =>
      split at h
      next hok =>
        split at h
        next hzero => exact ⟨⟨o, hcheck, hok⟩, hzero⟩
        · have heq := (verdict_eq_some h).2.2
          rw [hclean] at heq
          cases heq
      · split at h
        · have heq := (verdict_eq_some h).2.2
          exact absurd (heq.symm.trans hclean) (checkClass_ne_clean o)
        · exfalso
          unfold CheckInput.afterExit1 at h
          split at h
          · split at h
            · cases h
              cases hclean
            · cases h
          · cases h
          next class_ detail hprobe =>
            have heq := (verdict_eq_some h).2.2
            exact probed_ne_clean hprobe (heq.symm.trans hclean)
          · split at h
            · have heq := (verdict_eq_some h).2.2
              rw [hclean] at heq
              cases heq
            · have heq := (verdict_eq_some h).2.2
              rw [hclean] at heq
              cases heq

/-- A verdict is of the group that was to be read. -/
theorem checkRepository_group (h : checkRepository i group = some c) :
    c.group = group := by
  unfold checkRepository at h
  split at h
  · cases h
  · exact (verdict_eq_some h).2.1
  split at h
  · obtain ⟨-, h⟩ := passedSome h
    exact (verdict_eq_some h).2.1
  split at h
  · split at h
    · exact (verdict_eq_some h).2.1
    · exact (verdict_eq_some h).2.1
  split at h
  · exact (verdict_eq_some h).2.1
  unfold CheckInput.afterExit1 at h
  split at h
  · split at h
    · cases h
      rfl
    · cases h
  · cases h
  · exact (verdict_eq_some h).2.1
  split at h
  · exact (verdict_eq_some h).2.1
  · exact (verdict_eq_some h).2.1

/-- Damage restic counted is recorded, and its group read again, exactly
where no interrupt is found once the second probe has spoken; and what a
clean verdict rests on. -/
theorem damage_kept_iff (i : CheckInput) (next : Bytes) :
    (i.Damage → ((∃ c, checkInto i next =
          some (c, groupToRead next i.time) ∧ c.class_ ≠ .clean) ↔
        (i.cancelled 6 = true → i.Stopped))) ∧
    ∀ c after, checkInto i next = some (c, after) → c.class_ = .clean →
      i.probed 0 i.probe = .answered ∧
        (∃ o, i.check = .ok o ∧ o.ok = true) ∧ i.counted = some 0 := by
  refine ⟨fun h => ?_, fun c after hc hclean => ?_⟩
  · obtain ⟨hclass, hnone⟩ := afterExit1_damage h
    rw [← h.after] at hnone
    constructor
    · rintro ⟨c, hc, -⟩ hcancelled
      by_contra hstop
      rw [checkInto, hnone.mpr ⟨hstop, hcancelled⟩] at hc
      cases hc
    · intro htold
      cases hres : checkRepository i (groupToRead next i.time) with
      | none =>
        obtain ⟨hstop, hcancelled⟩ := hnone.mp hres
        exact absurd (htold hcancelled) hstop
      | some c =>
        have hne := hclass c (h.after _ ▸ hres)
        refine ⟨c, ?_, hne⟩
        rw [checkInto, hres, Option.map_some, if_neg hne]
  · obtain ⟨c', hc', heq⟩ := Option.map_eq_some_iff.mp hc
    cases heq
    exact checkRepository_clean hc' hclean

/-- Both probes answer and the check counts an error; the interrupt comes
before the last verdict is made. -/
def interruptedCheck : CheckInput where
  fmt := ⟨id, id, id, id, fun _ => [], fun _ => []⟩
  nonce := str "00"
  time := 1
  probe := .ok ⟨0, str "success"⟩
  check := .ok ⟨1, str "exit-code"⟩
  said := some ⟨some 1, 0⟩
  probeAfter := .ok ⟨0, str "success"⟩
  interrupt := some 6

theorem counted_damage_dropped : interruptedCheck.Damage ∧
    checkInto interruptedCheck [] = none := by
  have hdamage : interruptedCheck.Damage :=
    ⟨rfl, ⟨_, rfl, rfl, rfl⟩, 1, rfl, by decide⟩
  refine ⟨hdamage, ?_⟩
  rw [checkInto, hdamage.after]
  rfl

-- ====== the groups

variable {n : Int} {next : Bytes}

/-- `n` is a group's number. -/
def Numbered (n : Int) (g : Bytes) : Prop :=
  1 ≤ n ∧ n ≤ checkGroups ∧ g = groupText n checkGroups

/-- A group is read back as it is written. -/
theorem scanGroup_text (hpos : 1 ≤ n) (hle : n ≤ checkGroups) :
    scanGroup (groupText n checkGroups) = some (n, checkGroups) := by
  have hall : ∀ k < 52, scanGroup (groupText ((k : Nat) + 1) checkGroups) =
      some ((k : Int) + 1, checkGroups) := by
    decide +kernel
  obtain ⟨k, rfl⟩ : ∃ k : Nat, n = k + 1 := ⟨(n - 1).toNat, by omega⟩
  exact hall k (by unfold checkGroups at hle; omega)

theorem isoWeek_pos (t : Nat) : 1 ≤ isoWeek t := by
  unfold isoWeek
  dsimp only
  omega

theorem groupNumber_eq_some {s : Bytes} (h : groupNumber s = some n) :
    Numbered n s := by
  unfold groupNumber at h
  split at h
  · cases h
  next m of_ hscan =>
    obtain ⟨hno, ⟨⟩⟩ := passedSome h
    simp only [not_or, not_not, Int.not_lt] at hno
    obtain ⟨rfl, hpos, hle, htext⟩ := hno
    exact ⟨hpos, hle, htext.symm⟩

theorem Numbered.groupNumber {g : Bytes} (h : Numbered n g) :
    groupNumber g = some n := by
  obtain ⟨hpos, hle, rfl⟩ := h
  unfold Backup.groupNumber
  rw [scanGroup_text hpos hle]
  dsimp only
  rw [if_neg]
  simp only [ne_eq, not_true_eq_false, false_or, or_false, not_or, Int.not_lt]
  exact ⟨hpos, hle⟩

theorem Numbered.unique {m : Int} {g : Bytes} (hm : Numbered m g)
    (hn : Numbered n g) : m = n := by
  have h : Backup.groupNumber g = some m := hm.groupNumber
  rw [hn.groupNumber] at h
  exact (Option.some.inj h).symm

/-- The group a check reads is one. -/
theorem groupToRead_numbered (t : Nat) :
    ∃ n, Numbered n (groupToRead next t) := by
  unfold groupToRead
  split
  next n hn => exact ⟨n, groupNumber_eq_some hn⟩
  next hn =>
    have hpos := isoWeek_pos t
    refine ⟨(isoWeek t - 1).tmod checkGroups + 1, ?_, ?_, rfl⟩
    · rw [Int.tmod_eq_emod_of_nonneg (by omega), checkGroups]
      omega
    · rw [Int.tmod_eq_emod_of_nonneg (by omega), checkGroups]
      omega

/-- The successor, modulo 52. -/
def succGroup (n : Int) : Int := n % checkGroups + 1

theorem Numbered.after {g : Bytes} (h : Numbered n g) :
    Numbered (succGroup n) (groupAfter g) := by
  obtain ⟨hpos, -, -⟩ := id h
  unfold groupAfter
  rw [h.groupNumber]
  dsimp only
  rw [Int.tmod_eq_emod_of_nonneg (by omega)]
  unfold Numbered succGroup checkGroups
  exact ⟨by omega, by omega, rfl⟩

-- ====== one command

/-- What a drill leaves of the check: its own, recorded with the group
the next reads, or what was there. -/
theorem drill_check (d : DrillInput) (prev : Status) :
    ((Command.drill d).check = none ∧
      (d.drill prev).checkNext = prev.checkNext ∧
      (d.drill prev).lastCheck = prev.lastCheck) ∨
    ∃ c after, d.checked = some (c, after) ∧ (Command.drill d).check = some c ∧
      (d.drill prev).checkNext = after ∧ (d.drill prev).lastCheck = some c := by
  cases hstart : d.start with
  | interrupted =>
    exact .inl (by simp [Command.check, DrillInput.drill, hstart])
  | couldNot why upgraded =>
    cases hc : d.checked with
    | none =>
      left
      simp [Command.check, DrillInput.drill, hstart, hc, Status.checked]
    | some p =>
      cases upgraded with
      | true =>
        left
        simp [Command.check, DrillInput.drill, hstart]
      | false =>
        right
        exact ⟨p.1, p.2, rfl, by simp [Command.check, hstart, hc],
          by simp [DrillInput.drill, hstart, hc, Status.checked],
          by simp [DrillInput.drill, hstart, hc, Status.checked]⟩
  | planned plan =>
    cases hc : d.checked with
    | none =>
      left
      simp [Command.check, DrillInput.drill, hstart, hc, Status.checked]
    | some p =>
      cases hup : d.upgraded with
      | true =>
        left
        simp [Command.check, DrillInput.drill, hstart, hup]
      | false =>
        right
        exact ⟨p.1, p.2, rfl, by simp [Command.check, hstart, hc, hup],
          by simp [DrillInput.drill, hstart, hc, hup, Status.checked],
          by simp [DrillInput.drill, hstart, hc, hup, Status.checked]⟩

theorem finish_check (r : RunInput) (prev st : Status) (err : Option Bytes) :
    (r.finish prev st err).checkNext = st.checkNext ∧
      (r.finish prev st err).lastCheck = st.lastCheck := by
  cases err with
  | none => exact ⟨rfl, rfl⟩
  | some e => exact ⟨rfl, rfl⟩

theorem list_check (fmt : Fmt) (l : RunListing) (st : Status) :
    (list fmt l st).checkNext = st.checkNext ∧
      (list fmt l st).lastCheck = st.lastCheck := by
  unfold list
  split
  · exact ⟨rfl, rfl⟩
  split
  · exact ⟨rfl, rfl⟩
  split
  · exact ⟨rfl, rfl⟩
  · exact ⟨rfl, rfl⟩

/-- A run carries both. -/
theorem run_check (r : RunInput) (prev : Status) :
    (r.run prev).checkNext = prev.checkNext ∧
      (r.run prev).lastCheck = prev.lastCheck := by
  unfold RunInput.run
  split
  · exact finish_check r prev _ _
  · dsimp only
    rw [(finish_check r prev _ _).1, (finish_check r prev _ _).2]
    unfold RunInput.apps
    split
    · exact ⟨rfl, rfl⟩
    · dsimp only
      split
      · exact list_check _ _ _
      · exact ⟨rfl, rfl⟩

/-- One command, with the check it makes. -/
theorem job_step (prev : Status) (j : Job) :
    ((j.command prev).check = none ∧
      (j.apply prev).checkNext = prev.checkNext ∧
      (j.apply prev).lastCheck = prev.lastCheck) ∨
    ∃ c t, (j.command prev).check = some c ∧
      c.group = groupToRead prev.checkNext t ∧
      (j.apply prev).checkNext =
        (if c.class_ = .clean then groupAfter c.group else c.group) ∧
      (j.apply prev).lastCheck = some c := by
  cases j with
  | run r => exact .inl ⟨rfl, run_check r prev⟩
  | restore r => exact .inl ⟨rfl, rfl, rfl⟩
  | drill d check =>
    rcases drill_check { d with
      checked := check.bind fun i => checkInto i prev.checkNext } prev
      with hnone | ⟨c, after, hc, hcheck, hnext, hlast⟩
    · exact .inl hnone
    · obtain ⟨i, -, hinto⟩ := Option.bind_eq_some_iff.mp hc
      obtain ⟨c', hc', heq⟩ := Option.map_eq_some_iff.mp hinto
      cases heq
      have hgroup := checkRepository_group hc'
      refine .inr ⟨c, i.time, hcheck, hgroup, ?_, hlast⟩
      rw [hgroup]
      exact hnext

-- ====== rotation

/-- A check, and the one recorded next. -/
def Next (a b : Check) : Prop :=
  ∃ n, Numbered n a.group ∧
    Numbered (if a.class_ = .clean then succGroup n else n) b.group

variable {st : Status} {js : List Job}

/-- The first check recorded reads what the record names. -/
theorem checks_head (h : (checks st js).head? = some c) :
    ∃ t, c.group = groupToRead st.checkNext t := by
  induction js generalizing st with
  | nil => cases h
  | cons j js ih =>
    rw [checks] at h
    rcases job_step st j with ⟨hnone, hnext, -⟩ | ⟨d, t, hd, hgroup, -, -⟩
    · rw [hnone, Option.toList_none, List.nil_append] at h
      rw [← hnext]
      exact ih h
    · rw [hd, Option.toList_some, List.singleton_append, List.head?_cons] at h
      cases h
      exact ⟨t, hgroup⟩

theorem Numbered.groupToRead {g : Bytes} (h : Numbered n g) (t : Nat) :
    Backup.groupToRead g t = g := by
  unfold Backup.groupToRead
  rw [h.groupNumber]

/-- Each recorded check determines the group of the next. -/
theorem checks_chain (st : Status) (js : List Job) :
    (checks st js).IsChain Next := by
  induction js generalizing st with
  | nil => exact .nil
  | cons j js ih =>
    rw [checks]
    rcases job_step st j with ⟨hnone, -, -⟩ | ⟨c, t, hc, hgroup, hnext, -⟩
    · rw [hnone]
      exact ih _
    · rw [hc, Option.toList_some, List.singleton_append, List.isChain_cons]
      refine ⟨fun b hb => ?_, ih _⟩
      obtain ⟨n, hn⟩ := groupToRead_numbered t
      rw [← hgroup] at hn
      obtain ⟨t', hb⟩ := checks_head hb
      refine ⟨n, hn, ?_⟩
      rw [hb, hnext]
      split
      · rw [hn.after.groupToRead]
        exact hn.after
      · rw [hn.groupToRead]
        exact hn

theorem checks_numbered (st : Status) (js : List Job) :
    ∀ c ∈ checks st js, ∃ n, Numbered n c.group := by
  induction js generalizing st with
  | nil =>
    intro c hc
    cases hc
  | cons j js ih =>
    rw [checks]
    intro c hc
    rcases job_step st j with ⟨hnone, -, -⟩ | ⟨d, t, hd, hgroup, -, -⟩
    · rw [hnone] at hc
      exact ih _ c hc
    · rw [hd, Option.toList_some, List.singleton_append] at hc
      rcases List.mem_cons.mp hc with rfl | hc
      · rw [hgroup]
        exact groupToRead_numbered t
      · exact ih _ c hc

/-- The record's last check is the last of these. -/
theorem replay_lastCheck : (js.foldl (Job.apply) st).lastCheck =
      (checks st js).getLast?.or st.lastCheck := by
  induction js generalizing st with
  | nil => rfl
  | cons j js ih =>
    rw [List.foldl_cons, ih, checks]
    rcases job_step st j with ⟨hnone, -, hlast⟩ | ⟨c, t, hc, -, -, hlast⟩
    · rw [hnone, hlast]
      rfl
    · rw [hc, hlast, Option.toList_some, List.singleton_append,
        List.getLast?_cons]
      cases (checks (j.apply st) js).getLast? with
      | none => rfl
      | some d => rfl

/-- A group not clean is the only one read until a check of it is. -/
theorem chain_same {a : Check} {mid : List Check} {b : Check}
    (h : (a :: (mid ++ [b])).IsChain Next) (ha : a.class_ ≠ .clean)
    (hmid : ∀ c ∈ mid, c.class_ ≠ .clean) :
    ∀ c ∈ mid ++ [b], c.group = a.group := by
  have hstep : ∀ {x y : Check}, Next x y → x.class_ ≠ .clean →
      y.group = x.group := by
    rintro x y ⟨n, hx, hy⟩ hne
    rw [if_neg hne] at hy
    rw [hx.2.2, hy.2.2]
  induction mid generalizing a with
  | nil =>
    intro c hc
    rw [List.mem_singleton.mp hc]
    rw [List.nil_append, List.isChain_cons] at h
    exact hstep (h.1 b rfl) ha
  | cons d mid ih =>
    rw [List.cons_append, List.isChain_cons] at h
    have hd := hstep (h.1 d rfl) ha
    have hrest := ih h.2 (hmid d (.head _))
      fun c hc => hmid c (.tail _ hc)
    intro c hc
    rcases List.mem_cons.mp hc with rfl | hc
    · exact hd
    · exact (hrest c hc).trans hd

theorem succGroup_iterate {n : Int} (hpos : 1 ≤ n) (hle : n ≤ 52) (k : Nat) :
    succGroup^[k] n = (n - 1 + k) % 52 + 1 := by
  induction k with
  | zero =>
    rw [Function.iterate_zero_apply]
    omega
  | succ k ih =>
    rw [Function.iterate_succ_apply', ih, succGroup, checkGroups]
    omega

/-- The `k`-th of a run of clean checks. -/
theorem chain_clean {a : Check} {xs : List Check} {n : Int}
    (h : (a :: xs).IsChain Next) (hclean : ∀ c ∈ a :: xs, c.class_ = .clean)
    (ha : Numbered n a.group) (k : Nat)
    (hc : (a :: xs)[k]? = some c) : Numbered (succGroup^[k] n) c.group := by
  induction k generalizing a xs n with
  | zero =>
    cases hc
    exact ha
  | succ k ih =>
    cases xs with
    | nil => cases hc
    | cons b xs =>
      rw [List.isChain_cons] at h
      obtain ⟨m, hm, hb⟩ := h.1 b rfl
      rw [if_pos (hclean a List.mem_cons_self)] at hb
      obtain rfl := hm.unique ha
      rw [Function.iterate_succ_apply]
      exact ih h.2 (fun c hc => hclean c (.tail _ hc)) hb hc

/-- Fifty-two clean checks in a row read every group. -/
theorem chain_covers {w : List Check} (h : w.IsChain Next)
    (hnum : ∀ c ∈ w, ∃ n, Numbered n c.group) (hlen : w.length = 52)
    (hclean : ∀ c ∈ w, c.class_ = .clean) {n : Int} (hpos : 1 ≤ n)
    (hle : n ≤ 52) : ∃ c ∈ w, Numbered n c.group := by
  cases w with
  | nil => cases hlen
  | cons a xs =>
    obtain ⟨m, hm⟩ := hnum a (.head _)
    obtain ⟨hmpos, hmle, -⟩ := id hm
    rw [checkGroups] at hmle
    -- as many checks on as the groups lie apart
    let k := ((n - m) % 52).toNat
    have hk : k < (a :: xs).length := by
      rw [hlen]
      omega
    refine ⟨(a :: xs).get ⟨k, hk⟩, List.get_mem _ _, ?_⟩
    have hnum := chain_clean h hclean hm k
      (List.getElem?_eq_getElem hk)
    rw [succGroup_iterate hmpos hmle] at hnum
    have heq : (m - 1 + k) % 52 + 1 = n := by omega
    rwa [heq] at hnum

/-- Along every history from every record: the groups of the recorded
checks go round, one on after a clean verdict and none after another. -/
theorem groups_rotate (st : Status) (js : List Job) :
    (js.foldl (Job.apply) st).lastCheck =
      (checks st js).getLast?.or st.lastCheck ∧
    (∀ before a b after, checks st js = before ++ a :: b :: after →
      ∃ n, Numbered n a.group ∧
        Numbered (if a.class_ = .clean then n % 52 + 1 else n) b.group) ∧
    (∀ before w after, checks st js = before ++ w ++ after →
      w.length = 52 → (∀ c ∈ w, c.class_ = .clean) →
      ∀ n, 1 ≤ n → n ≤ 52 → ∃ c ∈ w, Numbered n c.group) ∧
    ∀ before a mid b after,
      checks st js = before ++ (a :: (mid ++ [b])) ++ after →
      a.class_ ≠ .clean → (∀ c ∈ mid, c.class_ ≠ .clean) →
      ∀ c ∈ mid ++ [b], c.group = a.group := by
  have hchain := checks_chain st js
  have hnum := checks_numbered st js
  refine ⟨replay_lastCheck, fun before a b after h => ?_,
    fun before w after h hlen hclean n hpos hle => ?_,
    fun before a mid b after h ha hmid => ?_⟩
  · rw [h] at hchain
    have htail := (List.isChain_append.mp hchain).2.1
    exact (List.isChain_cons.mp htail).1 b rfl
  · rw [h] at hchain hnum
    have hw := (List.isChain_append.mp (List.isChain_append.mp hchain).1).2.1
    refine chain_covers hw (fun c hc => hnum c ?_) hlen hclean hpos hle
    exact List.mem_append_left _ (List.mem_append_right _ hc)
  · rw [h] at hchain
    have hw := (List.isChain_append.mp (List.isChain_append.mp hchain).1).2.1
    exact chain_same hw ha hmid

end Hotserve.Backup
