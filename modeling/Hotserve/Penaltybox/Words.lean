/-
The penalty box in the widths of the source (`Arith.source`): buckets of
32 bits, a total of 64, and an elapsed time that saturates.

The widths do no harm in a run, at any times, whose adds leave room under
2^32 for their budget's limit. A counter's total is then the sum of its
buckets and never above the limit (`Counted`), so no sum wraps, nothing
is taken from a total that it does not have, and a time that saturates is
past every bucket. An add on such an entry does what it does in exact
arithmetic (`Counted.add_source`), and nothing else in a call counts: the
two runs are one (`run_source`), and what is proved of the exact store
holds of this one.
-/
import Hotserve.Penaltybox.Proofs.Cap

namespace Hotserve.Penaltybox.Words

open Bytes

/-- The store in the source's widths. -/
def source (S : Setup) : Setup := { S with arith := .source }

-- ====== a counter

variable {S : Setup} {tc : TierCounter} {now dur : Int} {slot level inc : Nat}

/-- The counter's total is the sum of its buckets. -/
def Exact (tc : TierCounter) : Prop := tc.total = tc.ring.sum

theorem exact_fresh : Exact (.fresh now) := Ring.sum_empty.symm

section

variable (h : Exact tc)
include h

/-- A turn takes no more than the total. -/
theorem Exact.next_le : tc.ring.buckets tc.ring.next ≤ tc.total := by
  rw [h, ← Ring.sum_turn]
  exact Nat.le_add_left _ _

theorem Exact.turns (k : Nat) : Exact ((TierCounter.turn .exact)^[k] tc) := by
  obtain ⟨hring, hsum⟩ := turns_eq k tc h
  rw [Exact, hsum, hring]

/-- Turns in the source's widths are turns. -/
theorem Exact.turns_source (hlt : tc.total < 2 ^ 64) (k : Nat) :
    (TierCounter.turn .source)^[k] tc = (TierCounter.turn .exact)^[k] tc ∧
      ((TierCounter.turn .exact)^[k] tc).total ≤ tc.total := by
  induction k with
  | zero => exact ⟨rfl, le_rfl⟩
  | succ k ih =>
    obtain ⟨heq, hle⟩ := ih
    rw [Function.iterate_succ_apply', Function.iterate_succ_apply', heq]
    have hnext := (h.turns k).next_le
    generalize (TierCounter.turn .exact)^[k] tc = t at hle hnext
    have hless : (t.total + (2 ^ 64 - t.ring.buckets t.ring.next)) % 2 ^ 64 =
        t.total - t.ring.buckets t.ring.next := by
      omega
    exact ⟨congrArg (TierCounter.mk t.ring.turn t.headStart) hless,
      (Nat.sub_le _ _).trans hle⟩

theorem Exact.advance (now dur : Int) : Exact (tc.advance .exact now dur) := by
  rw [TierCounter.advance_exact]
  split
  · exact h
  split
  · exact exact_fresh
  · exact h.turns _

/-- An advance in the source's widths is one, where sixteen buckets last
no longer than a duration can. -/
theorem Exact.advance_source (now : Int) (hlt : tc.total < 2 ^ 64)
    (hdur : 0 < dur) (hmost : 16 * dur < 2 ^ 63) :
    tc.advance .source now dur = tc.advance .exact now dur ∧
      (tc.advance .exact now dur).total ≤ tc.total := by
  have h16 : numBuckets = 16 := rfl
  have hsource : tc.advance .source now dur =
      let elapsed := max (-(2 ^ 63)) (min (now - tc.headStart) (2 ^ 63 - 1))
      if elapsed < dur then tc
      else if numBuckets ≤ (elapsed / dur).toNat then .fresh now
      else { (TierCounter.turn .source)^[(elapsed / dur).toNat] tc with
        headStart := tc.headStart + (elapsed / dur).toNat * dur } := rfl
  rw [hsource, TierCounter.advance_exact]
  dsimp only
  by_cases hlong : 16 * dur ≤ now - tc.headStart
  · -- past every bucket, whether or not it saturates
    have hpast {d : Int} (hd : 16 * dur ≤ d) :
        ¬ d < dur ∧ numBuckets ≤ (d / dur).toNat := by
      have hsteps := (Int.le_ediv_iff_mul_le hdur).mpr hd
      omega
    have hsat : 16 * dur ≤ max (-(2 ^ 63)) (min (now - tc.headStart)
        (2 ^ 63 - 1)) := by
      omega
    rw [if_neg (hpast hsat).1, if_pos (hpast hsat).2, if_neg (hpast hlong).1,
      if_pos (hpast hlong).2]
    exact ⟨rfl, Nat.zero_le _⟩
  by_cases hshort : now - tc.headStart < dur
  · rw [if_pos hshort, if_pos (by omega)]
    exact ⟨rfl, le_rfl⟩
  · have hsame : max (-(2 ^ 63)) (min (now - tc.headStart) (2 ^ 63 - 1)) =
        now - tc.headStart := by
      omega
    have hfew := Int.ediv_lt_of_lt_mul hdur (not_le.mp hlong)
    have hnot : ¬ numBuckets ≤ ((now - tc.headStart) / dur).toNat := by omega
    obtain ⟨hturns, hle⟩ := h.turns_source hlt
      ((now - tc.headStart) / dur).toNat
    rw [hsame, if_neg hshort, if_neg hshort, if_neg hnot, if_neg hnot, hturns]
    exact ⟨rfl, hle⟩

theorem Exact.count (inc : Nat) : Exact (tc.count .exact inc) := by
  change tc.total + inc = (tc.ring.bump inc).sum
  rw [h, Ring.sum_bump]

/-- An increment that leaves the total under 2^32 wraps nothing. -/
theorem Exact.count_source (hroom : tc.total + inc < 2 ^ 32) :
    tc.count .source inc = tc.count .exact inc := by
  have hhead := h ▸ tc.ring.head_le_sum
  have hbucket : (tc.ring.buckets tc.ring.head + inc) % 2 ^ 32 =
      tc.ring.buckets tc.ring.head + inc := Nat.mod_eq_of_lt (by omega)
  have htotal : (tc.total + inc) % 2 ^ 64 = tc.total + inc :=
    Nat.mod_eq_of_lt (by omega)
  rw [TierCounter.count, Arith.source]
  dsimp only
  rw [hbucket, htotal]
  rfl

end

-- ====== an entry

/-- Room under 2^32 for the limit a level counts against and one more
response of it. -/
abbrev Roomy (S : Setup) (level : Nat) : Prop :=
  (S.budget (S.levelSlot level)).limit +
    (S.budget (S.levelSlot level)).cost level < 2 ^ 32

/-- A counter no sum has wrapped in. -/
structure Within (limit : Nat) (tc : TierCounter) : Prop where
  exact : Exact tc
  le : tc.total ≤ limit
  lt : tc.total < 2 ^ 32

theorem within_fresh (limit : Nat) : Within limit (.fresh now) :=
  ⟨exact_fresh, Nat.zero_le _, Nat.two_pow_pos 32⟩

/-- What an entry's counters keep. -/
def Counted (S : Setup) (e : Entry) : Prop :=
  ∀ slot tc, e.counters slot = some tc → Within (S.budget slot).limit tc

/-- The store counts exactly, in buckets that are durations. -/
structure Lasts (S : Setup) : Prop where
  exact : S.arith = .exact
  pos : ∀ slot, 0 < (S.budget slot).bucketDur
  most : ∀ slot, 16 * (S.budget slot).bucketDur < 2 ^ 63

variable {e : Entry} {st : Store} {s : Step} {steps : List Step}

theorem counted_new : Counted S (.new now) := by
  intro slot tc htc
  cases htc

section

variable (h : Counted S e)
include h

theorem Counted.counter (slot : Nat) (now : Int) :
    Within (S.budget slot).limit (e.counter slot now) := by
  rw [Entry.counter]
  cases htc : e.counters slot with
  | none => exact within_fresh _
  | some tc => exact h slot tc htc

/-- The counter as an add finds it. -/
theorem Counted.advance (hS : Lasts S) (slot : Nat) (now : Int) :
    (e.counter slot now).advance .source now (S.budget slot).bucketDur =
        e.counterAt S now slot ∧
      Within (S.budget slot).limit (e.counterAt S now slot) := by
  obtain ⟨hexact, hle, hlt⟩ := h.counter slot now
  obtain ⟨heq, hless⟩ := hexact.advance_source now
    (hlt.trans (by decide)) (hS.pos slot) (hS.most slot)
  rw [Entry.counterAt, hS.exact]
  exact ⟨heq, hexact.advance now _, hless.trans hle, hless.trans_lt hlt⟩

/-- An add counts as it would without bounds. -/
theorem Counted.add_source (hS : Lasts S) (hroom : Roomy S level) (now : Int) :
    e.add (source S) now level = e.add S now level := by
  obtain ⟨hadvance, hin⟩ := h.advance hS (S.levelSlot level) now
  have hless := lt_of_le_of_lt (Nat.add_le_add_right hin.le _) hroom
  have hcount : (e.counterAt (source S) now (S.levelSlot level)).count .source
      ((S.budget (S.levelSlot level)).cost level) =
      (e.counterAt S now (S.levelSlot level)).count .exact
        ((S.budget (S.levelSlot level)).cost level) :=
    (congrArg (TierCounter.count .source · _) hadvance).trans
      (hin.exact.count_source hless)
  cases hb : e.boxed now with
  | true => rw [Entry.add_boxed hb, Entry.add_boxed hb]
  | false =>
    rw [Entry.add_free hb, Entry.add_free hb, Entry.totalAfter,
      Entry.totalAfter, hS.exact, ← hcount]
    rfl

theorem Counted.add (hS : Lasts S) (hroom : Roomy S level)
    (now : Int) : Counted S (e.add S now level).2 := by
  have hupdate {tc₀ : TierCounter}
      (hnew : Within (S.budget (S.levelSlot level)).limit tc₀) :=
    (Function.forall_update_iff (b := some tc₀) e.counters fun slot o =>
      ∀ tc, o = some tc → Within (S.budget slot).limit tc).mpr
      ⟨fun _ htc => Option.some.inj htc ▸ hnew, fun slot _ => h slot⟩
  cases hb : e.boxed now with
  | true =>
    rw [Entry.add_boxed hb]
    exact h
  | false =>
    rw [Entry.add_free hb]
    split
    · exact hupdate (within_fresh _)
    next hlimit =>
      rw [Entry.totalAfter, not_lt] at hlimit
      refine hupdate ⟨?_, hlimit, hlimit.trans_lt ?_⟩
      · rw [hS.exact]
        exact (h.advance hS _ now).2.exact.count _
      · exact lt_of_le_of_lt (Nat.le_add_right _ _) hroom

end

/-- No turn takes more than the total. -/
theorem Within.turns_le {limit : Nat} (h : Within limit tc) (n : Nat) :
    ((TierCounter.turn .source)^[n] tc).ring.buckets
        ((TierCounter.turn .source)^[n] tc).ring.next ≤
      ((TierCounter.turn .source)^[n] tc).total := by
  rw [(h.exact.turns_source (h.lt.trans (by decide)) n).1]
  exact (h.exact.turns n).next_le

/-- An advance leaves the head bucket over a time not before it. -/
theorem Counted.advance_start (h : Counted S e) (hS : Lasts S)
    (hstart : (e.counter slot now).headStart ≤ now) :
    let tc := (e.counter slot now).advance .source now (S.budget slot).bucketDur
    tc.headStart ≤ now ∧ now < tc.headStart + (S.budget slot).bucketDur := by
  dsimp only
  rw [(h.advance hS slot now).1, Entry.counterAt, hS.exact]
  exact TierCounter.advance_start (hS.pos slot) hstart

/-- The increment of an add with room does not wrap the head bucket. -/
theorem Counted.head_lt (h : Counted S e) (hS : Lasts S)
    (hroom : Roomy S level) (now : Int) :
    let slot := S.levelSlot level
    let tc := (e.counter slot now).advance .source now (S.budget slot).bucketDur
    tc.ring.buckets tc.ring.head + (S.budget slot).cost level < 2 ^ 32 := by
  obtain ⟨heq, hin⟩ := h.advance hS (S.levelSlot level) now
  dsimp only
  rw [heq]
  have hhead := (e.counterAt S now (S.levelSlot level)).ring.head_le_sum
  rw [← hin.exact] at hhead
  exact lt_of_le_of_lt (Nat.add_le_add_right (hhead.trans hin.le) _) hroom

-- ====== a run

/-- The entries of a store. -/
def AllCounted (S : Setup) (st : Store) : Prop :=
  ∀ i k e, (st i).get k = some e → Counted S e

theorem AllCounted.step (h : AllCounted S st) (hS : Lasts S)
    (hroom : ∀ key level, s.call = .add key level → Roomy S level) :
    AllCounted S (s.apply S st).2 := by
  intro i k e he
  obtain heq | heq | ⟨key, level, hcall, heq⟩ := step_cases (S := S) s st i
  · exact h i k e (heq ▸ he)
  · exact h i k e (get_of_sweepShard (heq ▸ he))
  · rw [heq] at he
    obtain ⟨-, rfl⟩ | ⟨-, he⟩ := Table.get_set_cases he
    · refine Counted.add ?_ hS (hroom key level hcall) s.now
      rw [entryFor_snd]
      cases hget : (st i).get key with
      | none => exact counted_new
      | some e => exact h i key e hget
    · exact h i k e (get_of_entryFor he)

theorem AllCounted.step_source (h : AllCounted S st) (hS : Lasts S)
    (hroom : ∀ key level, s.call = .add key level → Roomy S level) :
    s.apply (source S) st = s.apply S st := by
  obtain ⟨now, call, it⟩ := s
  cases call with
  | boxedRemaining key => rfl
  | sweepAll => rfl
  | add key level =>
    have hentry : Counted S
        (((st (S.shardFor key)).get key).getD (.new now)) := by
      cases hget : (st (S.shardFor key)).get key with
      | none => exact counted_new
      | some e => exact h _ key e hget
    have hadd := hentry.add_source hS (hroom key level rfl) now
    -- which entries go depends on their times alone
    have hfor : entryFor (source S) it now key (st (S.shardFor key)) =
        entryFor S it now key (st (S.shardFor key)) := rfl
    have hin : addIn (source S) it now key level (st (S.shardFor key)) =
        addIn S it now key level (st (S.shardFor key)) := by
      simp only [addIn, hfor, entryFor_snd, hadd]
    simp only [Step.apply, Penaltybox.add]
    rw [show (source S).shardFor key = S.shardFor key from rfl, hin]

/-- A run in the source's widths, whose adds all have room, is the run in
exact arithmetic. -/
theorem run_source (hS : Lasts S) (h : AllCounted S st)
    (hroom : ∀ s ∈ steps, ∀ key level, s.call = .add key level →
      Roomy S level) : run (source S) steps st = run S steps st ∧
      AllCounted S (run S steps st).2 := by
  induction steps generalizing st with
  | nil => exact ⟨rfl, h⟩
  | cons s steps ih =>
    have hone := hroom s (.head _)
    have hstep := h.step_source hS hone
    obtain ⟨heq, hall⟩ := ih (h.step hS hone) fun s hs =>
      hroom s (.tail _ hs)
    refine ⟨?_, hall⟩
    rw [run, run, hstep, heq]

theorem newStore_lasts (h : Handler) (shardFor : Bytes → Fin numShards)
    (hwindows : ∀ b ∈ (newStore h shardFor).budgets, b.window < 2 ^ 63) :
    Lasts (newStore h shardFor) := by
  have hfits : ∀ slot, 0 < ((newStore h shardFor).budget slot).bucketDur ∧
      16 * ((newStore h shardFor).budget slot).bucketDur < 2 ^ 63 := by
    intro slot
    rw [Setup.budget, List.getD_eq_getElem?_getD]
    cases hget : (newStore h shardFor).budgets[slot]? with
    | none => decide
    | some b =>
      have hmem := List.mem_of_getElem? hget
      have hb := hwindows b hmem
      have h16 : ((numBuckets : Nat) : Int) = 16 := rfl
      rw [Option.getD_some, (newStore_budgets hmem).1, bucketDur, h16]
      omega
  exact ⟨rfl, fun slot => (hfits slot).1, fun slot => (hfits slot).2⟩

/-- A run in the source's widths, at any times, whose adds all have room
answers and leaves what the run in exact arithmetic does. The counter any
next add goes to, of an entry in its store or of a new one, is exact; no
turn of `advance` takes more than its total has; `advance` leaves the head
bucket over any time that is not before it; and the increment of an add
with room does not wrap. (A window is a `time.Duration`, of 64 bits.) -/
theorem counters_are_exact (h : Handler) (shardFor : Bytes → Fin numShards)
    (steps : List Step)
    (hwindows : ∀ b ∈ (newStore h shardFor).budgets, b.window < 2 ^ 63)
    (hroom : ∀ s ∈ steps, ∀ key level, s.call = .add key level →
      Roomy (newStore h shardFor) level) :
    let S := source (newStore h shardFor)
    run S steps blank = run (newStore h shardFor) steps blank ∧
    ∀ e, (∃ i k, ((run S steps blank).2 i).get k = some e) ∨
        (∃ t, e = .new t) →
      ∀ slot now, let tc := e.counter slot now
        let dur := (S.budget slot).bucketDur
        (tc.total = tc.ring.sum ∧ (tc.ring.head : Nat) < 16) ∧
        (∀ n, let t := (TierCounter.turn S.arith)^[n] tc
          t.ring.buckets t.ring.next ≤ t.total) ∧
        (tc.headStart ≤ now → (tc.advance S.arith now dur).headStart ≤ now ∧
          now < (tc.advance S.arith now dur).headStart + dur) ∧
        ∀ level, S.levelSlot level = slot → Roomy S level →
          let t := tc.advance S.arith now dur
          t.ring.buckets t.ring.head + (S.budget slot).cost level < 2 ^ 32 := by
  have hS := newStore_lasts h shardFor hwindows
  have hblank : AllCounted (newStore h shardFor) blank := fun i k e he =>
    absurd he (by simp [blank])
  obtain ⟨hrun, hall⟩ := run_source hS hblank hroom
  refine ⟨hrun, fun e he slot now => ?_⟩
  have hcounted : Counted (newStore h shardFor) e := by
    rcases he with ⟨i, k, he⟩ | ⟨t, rfl⟩
    · exact hall i k e (hrun ▸ he)
    · exact counted_new
  have hin := hcounted.counter slot now
  refine ⟨⟨hin.exact, Fin.isLt _⟩, hin.turns_le, hcounted.advance_start hS, ?_⟩
  rintro level rfl hlevel
  exact hcounted.head_lt hS hlevel now

theorem counters_are_exact_example :
    let S := newStore exampleHandler fun _ => 0
    let steps : List Step := [⟨5, .add (str "a") 1, newestFirst⟩,
      ⟨2, .add (str "a") 1, newestFirst⟩]
    run (source S) steps blank = run S steps blank ∧
    ∃ e, ((run (source S) steps blank).2 0).get (str "a") = some e ∧
      (e.counter 0 7).total = 2 ∧ (e.counter 0 7).ring.sum = 2 := by
  intro S steps
  have hwindows : ∀ b ∈ S.budgets, b.window < 2 ^ 63 := by decide
  have hroom : ∀ s ∈ steps, ∀ key level, s.call = .add key level →
      Roomy S level := by
    intro s hs key level hcall
    simp only [steps, List.mem_cons, List.not_mem_nil, or_false] at hs
    rcases hs with rfl | rfl <;> cases hcall <;> decide
  obtain ⟨hrun, hall⟩ := counters_are_exact exampleHandler (fun _ => 0) steps
    hwindows hroom
  obtain ⟨e, he, htotal⟩ : ∃ e, ((run (source S) steps blank).2 0).get
      (str "a") = some e ∧ (e.counter 0 7).total = 2 :=
    ⟨_, rfl, by decide +kernel⟩
  have hsum := (hall e (.inl ⟨0, str "a", he⟩) 0 7).1.1
  exact ⟨hrun, e, he, htotal, hsum ▸ htotal⟩

-- ====== a limit without room

def wideHandler : Handler := { exampleHandler with limit := 2 ^ 32 }

/-- Responses of one key, all at one time. -/
def flood (n : Nat) : List Step :=
  List.replicate n ⟨0, .add (str "a") 1, newestFirst⟩

/-- The key's entry after `n` of them: the total has counted them, and the
bucket wraps. -/
structure Flooded (n : Nat) (e : Entry) : Prop where
  free : e.boxedUntil = none
  headStart : (e.counter 0 0).headStart = 0
  total : (e.counter 0 0).total = n
  buckets : ∀ j, (e.counter 0 0).ring.buckets j =
    if j = (e.counter 0 0).ring.head then n % 2 ^ 32 else 0

theorem Flooded.add {n : Nat} (h : Flooded n e) (hn : n < 2 ^ 32) :
    Flooded (n + 1)
      (e.add (source (newStore wideHandler fun _ => 0)) 0 1).2 := by
  have hfree : e.boxed 0 = false := by simp [Entry.boxed, h.free]
  have hstay : e.counterAt (source (newStore wideHandler fun _ => 0)) 0 0 =
      e.counter 0 0 := by
    rw [Entry.counterAt, TierCounter.advance, h.headStart]
    rfl
  have htotal : ((e.counter 0 0).count .source 1).total = n + 1 := by
    change ((e.counter 0 0).total + 1) % 2 ^ 64 = n + 1
    rw [h.total, Nat.mod_eq_of_lt (by omega)]
  have hadd : (e.add (source (newStore wideHandler fun _ => 0)) 0 1).2 =
      { e with
        lastSeen := 0
        counters := Function.update e.counters 0
          (some ((e.counter 0 0).count .source 1)) } := by
    have hslot : (source (newStore wideHandler fun _ => 0)).levelSlot 1 = 0 :=
      rfl
    rw [Entry.add_free hfree, Entry.totalAfter, hslot, hstay]
    have hunder : ¬ (2 ^ 32 < ((e.counter 0 0).count .source 1).total) := by
      omega
    exact congrArg Prod.snd (if_neg hunder)
  have hcounter : (e.add (source (newStore wideHandler fun _ => 0)) 0
      1).2.counter 0 0 = (e.counter 0 0).count .source 1 := by
    rw [hadd]
    exact congrArg (Option.getD · _) (Function.update_self 0 _ e.counters)
  refine ⟨hadd ▸ h.free, hcounter ▸ h.headStart, hcounter ▸ htotal, ?_⟩
  rw [hcounter]
  intro j
  change Function.update _ _ ((_ + 1) % 2 ^ 32) j =
    if j = (e.counter 0 0).ring.head then _ else 0
  by_cases hj : j = (e.counter 0 0).ring.head
  · rw [hj, Function.update_self, h.buckets, if_pos rfl, if_pos rfl,
      Nat.mod_add_mod]
  · rw [Function.update_of_ne hj, h.buckets, if_neg hj, if_neg hj]

theorem Flooded.run {n m : Nat} (hn : n + m ≤ 2 ^ 32)
    (h : Flooded n (((st 0).get (str "a")).getD (.new 0))) :
    Flooded (n + m) ((((run (source (newStore wideHandler fun _ => 0))
      (flood m) st).2 0).get (str "a")).getD (.new 0)) := by
  induction m generalizing n st with
  | zero => exact h
  | succ m ih =>
    rw [Nat.add_succ, ← Nat.succ_add]
    refine ih (by omega) ?_
    change Flooded (n + 1) (((addIn _ newestFirst 0 (str "a") 1
      (st 0)).2.get (str "a")).getD (.new 0))
    rw [(addIn_own ..).2]
    exact h.add (by omega)

/-- A limit of 2^32 is one `Validate` accepts, and that many responses
within a bucket leave its count at zero and the total at 2^32. -/
theorem bucket_wraps : wideHandler.validate (fun _ => []) = .ok () ∧
    ∃ e tc, ((run (source (newStore wideHandler fun _ => 0)) (flood (2 ^ 32))
        blank).2 0).get (str "a") = some e ∧ e.counters 0 = some tc ∧
      tc.total = 2 ^ 32 ∧ tc.ring.sum = 0 := by
  refine ⟨by decide +kernel, ?_⟩
  have hblank : Flooded 0 (((blank 0).get (str "a")).getD (.new 0)) :=
    ⟨rfl, rfl, rfl, fun j => (ite_self 0).symm⟩
  have h := hblank.run (m := 2 ^ 32) (Nat.zero_add _).le
  rw [Nat.zero_add] at h
  generalize ((run (source (newStore wideHandler fun _ => 0)) (flood (2 ^ 32))
    blank).2 0).get (str "a") = o at h
  -- the total is not that of a new entry or a new counter
  cases o with
  | none => exact absurd h.total (by decide)
  | some e =>
    have htotal : (e.counter 0 0).total = 2 ^ 32 := h.total
    have hsum : (e.counter 0 0).ring.sum = 0 := by
      refine Finset.sum_eq_zero fun j _ => (h.buckets _).trans ?_
      rw [Nat.mod_self, ite_self]
    rw [Entry.counter] at htotal hsum
    cases htc : e.counters 0 with
    | none => exact absurd (htc ▸ htotal) (by decide)
    | some tc =>
      rw [htc] at htotal hsum
      exact ⟨e, tc, rfl, htc, htotal, hsum⟩

end Hotserve.Penaltybox.Words
