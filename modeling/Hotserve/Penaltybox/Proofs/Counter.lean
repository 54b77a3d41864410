/-
One key of the penalty box against its history.

# The invariant

A counter tracks a slot's history (`Tracks`): the bucket `j` turns old
holds the units of the interval `j` bucket lengths before the head's
start, the total is their sum, and nothing is recorded past the head. So
the total is the units of sixteen whole buckets, of which the last has
only begun: it lies between the units of the last fifteen bucket lengths
and those of the last sixteen.

A key with no counter, or whose entry a sweep took, has recorded nothing
that the last fifteen bucket lengths hold (`CounterOk`). `KeyOk` says
this of one key and one slot at a time `T`, with the end of its box, and
only weakens as time passes.

# The add

An add on the key keeps `KeyOk` with the response recorded (`KeyOk.add`),
and what it answers is bounded by the history's units (`KeyOk.crossed`,
`KeyOk.crosses`).
-/
import Hotserve.Penaltybox.Window

namespace Hotserve.Penaltybox

open History

variable {S : Setup} {h : History} {slot : Nat} {T now : Int}

-- ====== the counters

/-- The counter's buckets are the units of the intervals, one bucket
length each, back from the head's. -/
structure Tracks (units : Int → Int → Nat) (dur : Int) (tc : TierCounter) :
    Prop where
  ago : ∀ j < numBuckets, tc.ring.ago j =
    units (tc.headStart - j * dur) (tc.headStart - j * dur + dur)
  total : tc.total = tc.ring.sum
  ahead : ∀ lo hi, tc.headStart + dur ≤ lo → units lo hi = 0

variable {tc : TierCounter} {level : Nat} {u dur : Int} {o : Option Entry}
  {units : Int → Int → Nat}

/-- Of a history's units the total is a sum of intervals. -/
theorem Tracks.total_eq (ht : Tracks (h.units S slot) dur tc)
    (hdur : 0 < dur) : tc.total =
      h.units S slot (tc.headStart - 15 * dur) (tc.headStart + dur) := by
  have hsum : tc.ring.sum = ∑ j ∈ Finset.range numBuckets, h.units S slot
      (tc.headStart - j * dur) (tc.headStart - j * dur + dur) :=
    Finset.sum_congr rfl fun j hj => ht.ago j (Finset.mem_range.mp hj)
  have hlow : tc.headStart + dur - (numBuckets : Nat) * dur =
      tc.headStart - 15 * dur := by
    have h16 : ((numBuckets : Nat) : Int) = 16 := rfl
    rw [h16]
    omega
  rw [ht.total, hsum, units_sum (le_of_lt hdur), hlow]

/-- A counter that starts over tracks units none of which are recent. -/
theorem tracks_fresh (hdur : 0 < dur)
    (hnone : ∀ lo hi, now - 15 * dur ≤ lo → units lo hi = 0) :
    Tracks units dur (.fresh now) where
  ago := by
    intro j hj
    have hj15 : (j : Int) ≤ 15 := by
      have h16 : numBuckets = 16 := rfl
      omega
    have hmul : (j : Int) * dur ≤ 15 * dur :=
      Int.mul_le_mul_of_nonneg_right hj15 (le_of_lt hdur)
    have hstart : (TierCounter.fresh now).headStart = now := rfl
    rw [hstart, hnone _ _ (by omega)]
    rfl
  total := Ring.sum_empty.symm
  ahead := by
    intro lo hi hlo
    have hstart : (TierCounter.fresh now).headStart = now := rfl
    rw [hstart] at hlo
    exact hnone _ _ (by omega)

/-- The turns of `advance`'s loop. -/
theorem turns_eq (k : Nat) (tc : TierCounter)
    (htotal : tc.total = tc.ring.sum) :
    ((TierCounter.turn .exact)^[k] tc).ring = Ring.turn^[k] tc.ring ∧
      ((TierCounter.turn .exact)^[k] tc).total =
        (Ring.turn^[k] tc.ring).sum := by
  induction k with
  | zero => exact ⟨rfl, htotal⟩
  | succ k ih =>
    obtain ⟨hring, hsum⟩ := ih
    rw [Function.iterate_succ_apply', Function.iterate_succ_apply']
    refine ⟨congrArg Ring.turn hring, ?_⟩
    have hturn := Ring.sum_turn (Ring.turn^[k] tc.ring)
    change ((TierCounter.turn .exact)^[k] tc).total -
      ((TierCounter.turn .exact)^[k] tc).ring.buckets
        ((TierCounter.turn .exact)^[k] tc).ring.next = _
    rw [hsum, hring]
    omega

/-- `k` turns, the head moved `k` lengths on. -/
theorem Tracks.turns {tc : TierCounter} (ht : Tracks units dur tc)
    (hdur : 0 < dur) (k : Nat) : Tracks units dur
      { (TierCounter.turn .exact)^[k] tc with
        headStart := tc.headStart + k * dur } := by
  have hturns := turns_eq k tc ht.total
  have hback (j : Nat) : tc.headStart + k * dur - j * dur =
      tc.headStart + ((k : Int) - j) * dur := by
    rw [sub_mul]
    omega
  refine ⟨?_, ?_, ?_⟩
  · intro j hj
    change ((TierCounter.turn .exact)^[k] tc).ring.ago j = _
    rw [hturns.1, Ring.ago_turns _ hj]
    change _ = units (tc.headStart + k * _ - j * _)
      (tc.headStart + k * _ - j * _ + _)
    rw [hback]
    split
    next hjk =>
      -- a bucket younger than the turns starts past the old head
      have hmul : 1 * dur ≤ ((k : Int) - j) * dur :=
        Int.mul_le_mul_of_nonneg_right (by omega) (le_of_lt hdur)
      exact (ht.ahead _ _ (by omega)).symm
    next hjk =>
      have hage : ((j - k : Nat) : Int) = j - k := by omega
      have hneg : ((k : Int) - j) * dur = -((j - k : Nat) * dur) := by
        rw [hage, ← neg_mul, neg_sub]
      rw [ht.ago (j - k) (by omega), hneg, ← sub_eq_add_neg]
  · change ((TierCounter.turn .exact)^[k] tc).total = _
    rw [hturns.2, ← hturns.1]
  · intro lo hi hlo
    have hk : 0 ≤ (k : Int) * dur :=
      Int.mul_nonneg (Int.natCast_nonneg k) (le_of_lt hdur)
    change tc.headStart + k * _ + _ ≤ lo at hlo
    exact ht.ahead _ _ (by omega)

theorem TierCounter.advance_exact : tc.advance .exact now dur =
    if now - tc.headStart < dur then tc
    else if numBuckets ≤ ((now - tc.headStart) / dur).toNat then .fresh now
    else { (turn .exact)^[((now - tc.headStart) / dur).toNat] tc with
      headStart := tc.headStart + ((now - tc.headStart) / dur).toNat * dur } :=
  rfl

/-- `advance` brings the head to `now`. -/
theorem TierCounter.advance_start (hdur : 0 < dur)
    (hstart : tc.headStart ≤ now) :
    (tc.advance .exact now dur).headStart ≤ now ∧
      now < (tc.advance .exact now dur).headStart + dur := by
  have hle := Int.ediv_mul_le (now - tc.headStart) (ne_of_gt hdur)
  have hlt := Int.lt_ediv_add_one_mul_self (now - tc.headStart) hdur
  have hnonneg := Int.ediv_nonneg (Int.sub_nonneg_of_le hstart) (le_of_lt hdur)
  rw [add_mul, one_mul] at hlt
  rw [TierCounter.advance_exact]
  split
  next hshort => exact ⟨hstart, by omega⟩
  split
  next =>
    change now ≤ now ∧ now < now + dur
    omega
  next =>
    change tc.headStart + _ * _ ≤ now ∧ now < tc.headStart + _ * _ + _
    rw [Int.toNat_of_nonneg hnonneg]
    omega

/-- `advance` keeps the tracking. -/
theorem Tracks.advance (ht : Tracks units dur tc) (hdur : 0 < dur) :
    Tracks units dur (tc.advance .exact now dur) := by
  have hle := Int.ediv_mul_le (now - tc.headStart) (ne_of_gt hdur)
  rw [TierCounter.advance_exact]
  split
  next => exact ht
  split
  next hlong =>
    have h16 : (16 : Int) ≤ (now - tc.headStart) / dur := by
      have hbuckets : numBuckets = 16 := rfl
      omega
    have hmul := Int.mul_le_mul_of_nonneg_right h16 (le_of_lt hdur)
    exact tracks_fresh hdur fun lo hi hlo => ht.ahead _ _ (by omega)
  next => exact ht.turns hdur _

/-- What is counted goes to the head's interval. -/
theorem Tracks.count {units' : Int → Int → Nat} {cost : Nat}
    (ht : Tracks units dur tc) (hdur : 0 < dur) (hstart : tc.headStart ≤ now)
    (hend : now < tc.headStart + dur)
    (hunits : ∀ lo hi, units' lo hi =
      (if lo ≤ now ∧ now < hi then cost else 0) + units lo hi) :
    Tracks units' dur (tc.count .exact cost) := by
  refine ⟨?_, ?_, ?_⟩
  · intro j hj
    change (tc.ring.bump _).ago j =
      units' (tc.headStart - j * _) (tc.headStart - j * _ + _)
    rw [hunits]
    cases j with
    | zero =>
      rw [Ring.ago_bump_zero, if_pos (by simp [hstart, hend]), ht.ago 0 hj,
        Nat.add_comm]
    | succ j =>
      have hpast : 0 ≤ (j : Int) * dur :=
        Int.mul_nonneg (Int.natCast_nonneg j) (le_of_lt hdur)
      have hout : ¬ (tc.headStart - ((j + 1 : Nat) : Int) * dur ≤ now ∧
          now < tc.headStart - ((j + 1 : Nat) : Int) * dur + dur) := by
        rw [Nat.cast_succ, add_mul, one_mul]
        omega
      rw [Ring.ago_bump_succ _ _ (Nat.succ_pos j) hj, if_neg hout,
        ht.ago (j + 1) hj, Nat.zero_add]
  · change tc.total + _ = (tc.ring.bump _).sum
    rw [ht.total, Ring.sum_bump]
  · intro lo hi hlo
    change tc.headStart + _ ≤ lo at hlo
    rw [hunits, if_neg (by omega), ht.ahead _ _ hlo, Nat.zero_add]

-- ====== the box

/-- The box ends at `u`, the latest of the ends it was given. -/
structure EndsAt (S : Setup) (h : History) (u : Int) : Prop where
  shut : ∃ r ∈ h, r.boxing = true ∧ r.boxEnd S = u
  last : ∀ r ∈ h, r.boxing = true → r.boxEnd S ≤ u

/-- A boxed key's box has an end to come. -/
theorem boxed_iff {t : Int} : h.Boxed S t ↔ ∃ u, t < u ∧ EndsAt S h u := by
  constructor
  · rintro ⟨r, hr, hb, hlt⟩
    obtain ⟨x, hx, hlast⟩ := Finset.exists_max_image
      (h.filter (·.boxing)).toFinset (Response.boxEnd S) ⟨r, by simp [hr, hb]⟩
    simp only [List.mem_toFinset, List.mem_filter] at hx hlast
    exact ⟨x.boxEnd S, lt_of_lt_of_le hlt (hlast r ⟨hr, hb⟩),
      ⟨x, hx.1, hx.2, rfl⟩, fun y hy hyb => hlast y ⟨hy, hyb⟩⟩
  · rintro ⟨u, htu, ⟨r, hr, hb, rfl⟩, -⟩
    exact ⟨r, hr, hb, htu⟩

/-- A response that does not box leaves the box. -/
theorem endsAt_cons : EndsAt S (⟨now, level, false⟩ :: h) u ↔ EndsAt S h u := by
  constructor
  · rintro ⟨hshut, hlast⟩
    exact ⟨by simpa using hshut, fun x hx =>
      hlast x (.tail _ hx)⟩
  · rintro ⟨hshut, hlast⟩
    exact ⟨by simpa using hshut, by simpa using hlast⟩

/-- A crossing of a key that is not boxed gives the box its end. -/
theorem endsAt_crossing (hfree : ¬ h.Boxed S now) (hu : now < u) :
    EndsAt S (⟨now, level, true⟩ :: h) u ↔
      u = now + (S.budget (S.levelSlot level)).penaltyTTL := by
  have hended : ∀ r ∈ h, r.boxing = true → r.boxEnd S ≤ now := by
    intro r hr hb
    exact not_lt.mp fun hlt => hfree ⟨r, hr, hb, hlt⟩
  constructor
  · rintro ⟨⟨r, hr, hb, rfl⟩, -⟩
    rcases List.mem_cons.mp hr with rfl | hr
    · rfl
    · have := hended r hr hb
      omega
  · rintro rfl
    refine ⟨⟨_, .head _, rfl, rfl⟩, ?_⟩
    intro r hr hb
    rcases List.mem_cons.mp hr with rfl | hr
    · exact le_refl _
    · exact (hended r hr hb).trans (le_of_lt hu)

-- ====== a key

/-- A slot's counter, as it stands at `T`. -/
def CounterOk (S : Setup) (slot : Nat) (h : History) (T : Int) :
    Option TierCounter → Prop
  | none => ∀ lo hi, T - 15 * (S.budget slot).bucketDur ≤ lo →
      h.units S slot lo hi = 0
  | some tc => Tracks (h.units S slot) (S.budget slot).bucketDur tc ∧
      tc.headStart ≤ T

/-- One key's entry, or its absence, at `T`. -/
structure KeyOk (S : Setup) (slot : Nat) (h : History) (T : Int)
    (o : Option Entry) : Prop where
  past : ∀ r ∈ h, r.time ≤ T
  box : ∀ u, T < u → (o.bind Entry.boxedUntil = some u ↔ EndsAt S h u)
  seen : ∀ e, o = some e → ∀ r ∈ h, r.time ≤ e.lastSeen
  counter : CounterOk S slot h T (o.bind fun e => e.counters slot)

/-- The slot's window has sixteen buckets that a sweep waits for, and they
count exactly. -/
structure Fits (S : Setup) (slot : Nat) : Prop where
  exact : S.arith = .exact
  pos : 0 < (S.budget slot).bucketDur
  window : 16 * (S.budget slot).bucketDur ≤ S.maxWindow

theorem CounterOk.mono {o : Option TierCounter} (hc : CounterOk S slot h T o)
    (hT : T ≤ now) : CounterOk S slot h now o := by
  cases o with
  | none => exact fun lo hi hlo => hc lo hi (by omega)
  | some tc => exact ⟨hc.1, hc.2.trans hT⟩

theorem KeyOk.mono (hk : KeyOk S slot h T o) (hT : T ≤ now) :
    KeyOk S slot h now o where
  past := fun r hr => (hk.past r hr).trans hT
  box := fun u hu => hk.box u (lt_of_le_of_lt hT hu)
  seen := hk.seen
  counter := hk.counter.mono hT

/-- A key never added. -/
theorem keyOk_nil : KeyOk S slot [] T none where
  past := by simp
  box := by
    intro u _
    constructor
    · intro hnone
      cases hnone
    · rintro ⟨⟨r, hr, -⟩, -⟩
      exact absurd hr List.not_mem_nil
  seen := by simp
  counter := fun lo hi _ => rfl

/-- The entry has the history's box. -/
theorem KeyOk.boxed_iff (hk : KeyOk S slot h now o) :
    (o.any fun e => e.boxed now) = true ↔ h.Boxed S now := by
  rw [Penaltybox.boxed_iff]
  cases o with
  | none =>
    constructor
    · intro hnone
      cases hnone
    · rintro ⟨u, hu, hend⟩
      have hnone := (hk.box u hu).mpr hend
      cases hnone
  | some e =>
    rw [Option.any_some, Entry.boxed, Option.any_eq_true]
    constructor
    · rintro ⟨u, hu, hlt⟩
      rw [decide_eq_true_eq] at hlt
      exact ⟨u, hlt, (hk.box u hlt).mp hu⟩
    · rintro ⟨u, hu, hend⟩
      exact ⟨u, (hk.box u hu).mpr hend, decide_eq_true hu⟩

/-- A sweep takes nothing the last fifteen buckets hold. -/
theorem KeyOk.sweep {e : Entry} (hk : KeyOk S slot h now (some e))
    (hfits : Fits S slot) (hsweep : sweepable S now e = true) :
    KeyOk S slot h now none := by
  have hpos := hfits.pos
  have hwindow := hfits.window
  rw [sweepable, Bool.and_eq_true, decide_eq_true_eq, Bool.not_eq_true']
    at hsweep
  obtain ⟨hfree, hold⟩ := hsweep
  refine ⟨hk.past, ?_, ?_, ?_⟩
  · intro u hu
    constructor
    · intro hnone
      cases hnone
    · intro hend
      have hboxed := hk.boxed_iff.mpr (Penaltybox.boxed_iff.mpr ⟨u, hu, hend⟩)
      rw [Option.any_some, hfree] at hboxed
      cases hboxed
  · intro e' he
    cases he
  · intro lo hi hlo
    refine units_after fun r hr => ?_
    have hseen := hk.seen e rfl r hr
    omega

/-- The entry an add finds or makes. -/
theorem KeyOk.found (hk : KeyOk S slot h now o) :
    KeyOk S slot h now (some (o.getD (.new now))) := by
  cases o with
  | some e => exact hk
  | none =>
    refine ⟨hk.past, hk.box, ?_, hk.counter⟩
    intro e he
    cases he
    exact hk.past

-- ====== an add

variable {e : Entry} {level : Nat}

/-- The total an add compares with its limit. -/
def Entry.totalAfter (S : Setup) (now : Int) (level : Nat) (e : Entry) : Nat :=
  ((e.counterAt S now (S.levelSlot level)).count S.arith
    ((S.budget (S.levelSlot level)).cost level)).total

theorem Entry.add_boxed (hb : e.boxed now = true) :
    e.add S now level = (false, { e with lastSeen := now }) := if_pos hb

theorem Entry.add_free (hb : e.boxed now = false) : e.add S now level =
    if (S.budget (S.levelSlot level)).limit < e.totalAfter S now level then
      (true, {
        lastSeen := now
        boxedUntil := laterEnd e.boxedUntil
          (now + (S.budget (S.levelSlot level)).penaltyTTL)
        counters := Function.update e.counters (S.levelSlot level)
          (some (.fresh now)) })
    else
      (false, {
        lastSeen := now
        boxedUntil := e.boxedUntil
        counters := Function.update e.counters (S.levelSlot level)
          (some ((e.counterAt S now (S.levelSlot level)).count S.arith
            ((S.budget (S.levelSlot level)).cost level))) }) := by
  have hno : ¬ Entry.boxed { e with lastSeen := now } now = true := by
    change ¬ e.boxed now = true
    rw [hb]
    exact Bool.false_ne_true
  exact if_neg hno

/-- The counter an add counts in. -/
theorem KeyOk.counterAt (hk : KeyOk S slot h now (some e))
    (hfits : Fits S slot) : Tracks (h.units S slot) (S.budget slot).bucketDur
        (e.counterAt S now slot) ∧ (e.counterAt S now slot).headStart ≤ now ∧
      now < (e.counterAt S now slot).headStart + (S.budget slot).bucketDur := by
  have hcounter := hk.counter
  rw [Option.bind_some] at hcounter
  rw [Entry.counterAt, Entry.counter, hfits.exact]
  cases hc : e.counters slot with
  | none =>
    rw [hc] at hcounter
    exact ⟨(tracks_fresh hfits.pos hcounter).advance hfits.pos,
      TierCounter.advance_start hfits.pos (le_refl now)⟩
  | some tc =>
    rw [hc] at hcounter
    exact ⟨hcounter.1.advance hfits.pos,
      TierCounter.advance_start hfits.pos hcounter.2⟩

/-- The entry's box is the history's. -/
theorem KeyOk.entry_boxed (hk : KeyOk S slot h now (some e)) :
    e.boxed now = true ↔ h.Boxed S now := hk.boxed_iff

/-- Responses counted against other slots, or of a boxed key, are not this
slot's. -/
theorem units_other (r : Response) (hr : S.levelSlot r.level ≠ slot ∨
    r.boxing = false ∧ h.Boxed S r.time) (lo hi : Int) :
    History.units S slot lo hi (r :: h) = h.units S slot lo hi := by
  rw [History.units]
  by_cases hslot : S.levelSlot r.level ≠ slot
  · rw [if_pos hslot]
  · obtain ⟨hboxing, hboxed⟩ := hr.resolve_left hslot
    rw [if_neg hslot, hboxing, if_neg Bool.false_ne_true, if_pos hboxed]

theorem CounterOk.congr {h' : History} {o : Option TierCounter}
    (hc : CounterOk S slot h now o)
    (hsame : ∀ lo hi, h'.units S slot lo hi = h.units S slot lo hi) :
    CounterOk S slot h' now o := by
  cases o with
  | none => exact fun lo hi hlo => (hsame lo hi).trans (hc lo hi hlo)
  | some tc =>
    have hunits : h'.units S slot = h.units S slot :=
      funext fun lo => funext (hsame lo)
    exact ⟨hunits ▸ hc.1, hc.2⟩

/-- The tracked slot's counter after an add, whichever slot it was on. -/
theorem KeyOk.counter_update (hk : KeyOk S slot h now (some e))
    {boxing : Bool} (hown : S.levelSlot level = slot →
      Tracks (History.units S slot · · (⟨now, level, boxing⟩ :: h))
        (S.budget slot).bucketDur tc ∧ tc.headStart ≤ now) :
    CounterOk S slot (⟨now, level, boxing⟩ :: h) now
      (Function.update e.counters (S.levelSlot level) (some tc) slot) := by
  by_cases hslot : S.levelSlot level = slot
  · subst hslot
    rw [Function.update_self]
    exact hown rfl
  · rw [Function.update_of_ne (Ne.symm hslot)]
    exact hk.counter.congr (units_other _ (.inl hslot))

/-- A response recorded, and what the entry's box and counter became. -/
theorem KeyOk.recorded {e' : Entry} {boxing : Bool} (hk : KeyOk S slot h now o)
    (hseen : e'.lastSeen = now) (hbox : ∀ u, now < u →
      (e'.boxedUntil = some u ↔ EndsAt S (⟨now, level, boxing⟩ :: h) u))
    (hcounter : CounterOk S slot (⟨now, level, boxing⟩ :: h) now
      (e'.counters slot)) :
    KeyOk S slot (⟨now, level, boxing⟩ :: h) now (some e') := by
  have hpast : ∀ r ∈ (⟨now, level, boxing⟩ : Response) :: h, r.time ≤ now :=
    List.forall_mem_cons.mpr ⟨le_refl now, hk.past⟩
  refine ⟨hpast, hbox, ?_, hcounter⟩
  rintro _ ⟨⟩
  rw [hseen]
  exact hpast

/-- The end an add that crosses gives the box, where it is still to
come. -/
theorem laterEnd_eq_some {old : Option Int} {ends : Int}
    (hold : ∀ x, old = some x → x ≤ now) (hu : now < u) :
    Entry.laterEnd old ends = some u ↔ u = ends := by
  cases old with
  | none =>
    rw [Entry.laterEnd, Option.some_inj]
    exact eq_comm
  | some x =>
    have hx := hold x rfl
    rw [Entry.laterEnd]
    split
    · rw [Option.some_inj]
      exact eq_comm
    · rw [Option.some_inj]
      constructor
      · intro hxu
        omega
      · intro hends
        omega

/-- An add keeps its key's invariant, the response recorded. -/
theorem KeyOk.add (level : Nat) (hk : KeyOk S slot h now (some e))
    (hfits : Fits S slot) :
    KeyOk S slot (⟨now, level, (e.add S now level).1⟩ :: h) now
      (some (e.add S now level).2) := by
  cases hb : e.boxed now with
  | true =>
    rw [Entry.add_boxed hb]
    refine hk.recorded rfl (fun u hu => ?_) ?_
    · rw [endsAt_cons]
      exact hk.box u hu
    · exact hk.counter.congr
        (units_other _ (.inr ⟨rfl, hk.entry_boxed.mp hb⟩))
  | false =>
    have hfree : ¬ h.Boxed S now := by
      rw [← hk.entry_boxed, hb]
      exact Bool.false_ne_true
    rw [Entry.add_free hb]
    split
    next =>
      refine hk.recorded rfl (fun u hu => ?_) ?_
      · rw [endsAt_crossing hfree hu]
        refine laterEnd_eq_some (fun x hx => ?_) hu
        rw [Entry.boxed, hx, Option.any_some, decide_eq_false_iff_not] at hb
        omega
      · refine hk.counter_update fun hslot =>
          ⟨tracks_fresh hfits.pos fun lo hi _ => ?_, le_refl now⟩
        simp [units, hslot]
    next =>
      refine hk.recorded rfl (fun u hu => ?_) ?_
      · rw [endsAt_cons]
        exact hk.box u hu
      · refine hk.counter_update fun hslot => ?_
        subst hslot
        obtain ⟨ht, hstart, hend⟩ := hk.counterAt hfits
        rw [hfits.exact]
        exact ⟨ht.count hfits.pos hstart hend fun lo hi => by
          simp [units, hfree], hstart⟩

/-- The counter's total lies between the units of fifteen and of sixteen
buckets. -/
theorem KeyOk.total_bounds (hk : KeyOk S slot h now (some e))
    (hfits : Fits S slot) :
    h.lastUnits S slot now (15 * (S.budget slot).bucketDur) ≤
        (e.counterAt S now slot).total ∧ (e.counterAt S now slot).total ≤
        h.lastUnits S slot now (16 * (S.budget slot).bucketDur) := by
  obtain ⟨ht, hstart, hend⟩ := hk.counterAt hfits
  rw [ht.total_eq hfits.pos, lastUnits, lastUnits]
  refine ⟨units_mono (by omega) (by omega), ?_⟩
  -- nothing is recorded past now
  have hsplit : h.units S slot
      ((e.counterAt S now slot).headStart - 15 * (S.budget slot).bucketDur)
      (now + 1) + h.units S slot (now + 1)
        ((e.counterAt S now slot).headStart + (S.budget slot).bucketDur) = _ :=
    units_split (by have := hfits.pos; omega) (by omega)
  have hnone : h.units S slot (now + 1)
      ((e.counterAt S now slot).headStart + (S.budget slot).bucketDur) = 0 :=
    units_after fun r hr => Int.lt_add_one_of_le (hk.past r hr)
  rw [← hsplit, hnone, Nat.add_zero]
  exact units_mono (by omega) (le_refl _)

/-- It is what the counter had, and the response's cost. -/
theorem Fits.totalAfter (hfits : Fits S (S.levelSlot level)) :
    e.totalAfter S now level = (e.counterAt S now (S.levelSlot level)).total +
        (S.budget (S.levelSlot level)).cost level := by
  rw [Entry.totalAfter, hfits.exact]
  rfl

/-- An add boxes a key that is not boxed and has passed its limit. -/
theorem Entry.add_eq_true : (e.add S now level).1 = true ↔ e.boxed now = false ∧
      (S.budget (S.levelSlot level)).limit < e.totalAfter S now level := by
  cases hb : e.boxed now with
  | true => simp [Entry.add_boxed hb]
  | false =>
    rw [Entry.add_free hb]
    split
    next hlimit => simp [hlimit]
    next hlimit => simp [hlimit]

/-- An add that boxes has crossed sixteen buckets' units. -/
theorem KeyOk.crossed (hk : KeyOk S (S.levelSlot level) h now (some e))
    (hfits : Fits S (S.levelSlot level))
    (hcross : (e.add S now level).1 = true) : ¬ h.Boxed S now ∧
      (S.budget (S.levelSlot level)).limit <
        (S.budget (S.levelSlot level)).cost level +
          h.lastUnits S (S.levelSlot level) now
            (16 * (S.budget (S.levelSlot level)).bucketDur) := by
  have hbound := (hk.total_bounds hfits).2
  obtain ⟨hb, hlimit⟩ := Entry.add_eq_true.mp hcross
  rw [hfits.totalAfter] at hlimit
  refine ⟨?_, by omega⟩
  rw [← hk.entry_boxed, hb]
  exact Bool.false_ne_true

/-- A counted add past fifteen buckets' units boxes. -/
theorem KeyOk.crosses (hk : KeyOk S (S.levelSlot level) h now (some e))
    (hfits : Fits S (S.levelSlot level)) (hfree : ¬ h.Boxed S now)
    (hover : (S.budget (S.levelSlot level)).limit <
      (S.budget (S.levelSlot level)).cost level +
        h.lastUnits S (S.levelSlot level) now
          (15 * (S.budget (S.levelSlot level)).bucketDur)) :
    (e.add S now level).1 = true := by
  have hbound := (hk.total_bounds hfits).1
  rw [← hk.entry_boxed, Bool.not_eq_true] at hfree
  refine Entry.add_eq_true.mpr ⟨hfree, ?_⟩
  rw [hfits.totalAfter]
  omega

end Hotserve.Penaltybox
