/-
A sweep is invisible: two runs of the same calls at the same times answer
alike, wherever each has its sweeps and in whatever order its maps come.

# The two stores

The maps of the two runs differ. An entry that only one of them has is one
a sweep may take (`KeySim`), so that nothing of it is left to see: its box
has ended and its counters have decayed (`Decayed`), and an add that finds
it does what an add that makes a new entry does (`alike_new`). An entry
both have was seen last at the same time and is `Alike`.

# The evictions

What a sweep leaves of the two shards has the same keys, so both are full
or neither is (`Matched.len_eq`), and then both lose the same key: the
oldest is unique, the adds' times being distinct (`Victim.unique`). A
shard that is full only for its stale entries evicts nothing, since the
other one has room. For this the loop must have named its victim, and an
empty key names none: no key here is empty.
-/
import Hotserve.Penaltybox.Proofs.Cap

namespace Hotserve.Penaltybox

open Bytes

variable {S : Setup} {T now : Int} {e e' : Entry} {level : Nat}

-- ====== two entries

/-- Nothing of the counter is left at `T`. -/
def Decayed (S : Setup) (slot : Nat) (T : Int) : Option TierCounter → Prop
  | none => True
  | some tc => 16 * (S.budget slot).bucketDur ≤ T - tc.headStart

theorem Decayed.mono {slot : Nat} {o : Option TierCounter}
    (hd : Decayed S slot T o) (hT : T ≤ now) : Decayed S slot now o := by
  cases o with
  | none => trivial
  | some tc => exact hd.trans (Int.sub_le_sub_right hT _)

/-- A decayed counter starts over. -/
theorem Decayed.counterAt {slot : Nat}
    (hd : Decayed S slot now (e.counters slot))
    (hfits : Fits S slot) : e.counterAt S now slot = .fresh now := by
  have hdur := hfits.pos
  rw [Entry.counterAt, Entry.counter, hfits.exact]
  cases hc : e.counters slot with
  | none =>
    have hzero : now - (TierCounter.fresh now).headStart <
        (S.budget slot).bucketDur := by
      change now - now < _
      omega
    exact if_pos hzero
  | some tc =>
    rw [hc] at hd
    have hd : 16 * (S.budget slot).bucketDur ≤ now - tc.headStart := hd
    have hsteps := (Int.le_ediv_iff_mul_le hdur).mpr hd
    rw [Option.getD_some, TierCounter.advance_exact, if_neg (by omega)]
    exact if_pos (show 16 ≤ _ by omega)

/-- Two entries no call tells apart from `T` on, `lastSeen` aside. -/
structure Alike (S : Setup) (T : Int) (e e' : Entry) : Prop where
  box : e.boxedUntil = e'.boxedUntil ∨ e.boxed T = false ∧ e'.boxed T = false
  counters : ∀ slot, e.counters slot = e'.counters slot ∨
    Decayed S slot T (e.counters slot) ∧ Decayed S slot T (e'.counters slot)

/-- A box that has ended, or none. -/
theorem ended_iff {o : Option Int} :
    o.any (fun u => decide (now < u)) = false ↔ ∀ u, o = some u → u ≤ now := by
  cases o <;> simp

theorem boxed_mono (hb : e.boxed T = false) (hT : T ≤ now) :
    e.boxed now = false :=
  ended_iff.mpr fun u hu => (ended_iff.mp hb u hu).trans hT

theorem Alike.symm (h : Alike S T e e') : Alike S T e' e where
  box := h.box.imp Eq.symm And.symm
  counters := fun slot => (h.counters slot).imp Eq.symm And.symm

theorem Alike.mono (h : Alike S T e e') (hT : T ≤ now) : Alike S now e e' where
  box := h.box.imp_right fun hb => ⟨boxed_mono hb.1 hT, boxed_mono hb.2 hT⟩
  counters := fun slot => (h.counters slot).imp_right fun hd =>
    ⟨hd.1.mono hT, hd.2.mono hT⟩

section

variable (h : Alike S now e e')
include h

theorem Alike.boxed_eq : e.boxed now = e'.boxed now := by
  rcases h.box with heq | ⟨hb, hb'⟩
  · rw [Entry.boxed, Entry.boxed, heq]
  · rw [hb, hb']

theorem Alike.counterAt_eq (slot : Nat) (hfits : Fits S slot) :
    e.counterAt S now slot = e'.counterAt S now slot := by
  rcases h.counters slot with heq | ⟨hd, hd'⟩
  · rw [Entry.counterAt, Entry.counterAt, Entry.counter, Entry.counter, heq]
  · rw [hd.counterAt hfits, hd'.counterAt hfits]

/-- Alike counters stay so when one slot is given the same counter. -/
theorem Alike.update (slot : Nat) (o : Option TierCounter) (k : Nat) :
    Function.update e.counters slot o k = Function.update e'.counters slot o k ∨
      Decayed S k now (Function.update e.counters slot o k) ∧
        Decayed S k now (Function.update e'.counters slot o k) := by
  by_cases hk : k = slot
  · subst hk
    left
    rw [Function.update_self, Function.update_self]
  · rw [Function.update_of_ne hk, Function.update_of_ne hk]
    exact h.counters k

/-- The ends a crossing gives two boxes that are over, or equal. -/
theorem Alike.laterEnd (hfree : e.boxed now = false)
    (u : Int) : Entry.laterEnd e.boxedUntil u = Entry.laterEnd e'.boxedUntil u ∨
      (Entry.laterEnd e.boxedUntil u).any (fun x => decide (now < x)) = false ∧
        (Entry.laterEnd e'.boxedUntil u).any
          (fun x => decide (now < x)) = false := by
  have hfree' : e'.boxed now = false := by rw [← h.boxed_eq, hfree]
  have hover {o : Option Int} (ho : o.any (fun x => decide (now < x)) = false) :
      (now < u → Entry.laterEnd o u = some u) ∧ (¬ now < u →
        (Entry.laterEnd o u).any (fun x => decide (now < x)) = false) := by
    cases o with
    | none => exact ⟨fun _ => rfl, fun hu => by simpa [Entry.laterEnd] using hu⟩
    | some x =>
      have hx := ended_iff.mp ho x rfl
      rw [Entry.laterEnd]
      refine ⟨fun hu => if_pos (by omega), fun hu => ?_⟩
      split
      · simpa using hu
      · exact ho
  by_cases hu : now < u
  · left
    rw [(hover hfree).1 hu, (hover hfree').1 hu]
  · right
    exact ⟨(hover hfree).2 hu, (hover hfree').2 hu⟩

/-- An add answers alike on alike entries, and leaves them alike and seen
at once. -/
theorem Alike.add (level : Nat) (hfits : ∀ slot, Fits S slot) :
    (e.add S now level).1 = (e'.add S now level).1 ∧
      (e.add S now level).2.lastSeen = (e'.add S now level).2.lastSeen ∧
      Alike S now (e.add S now level).2 (e'.add S now level).2 := by
  have hboxed := h.boxed_eq
  have hcounter := h.counterAt_eq (S.levelSlot level) (hfits _)
  have htotal : e.totalAfter S now level = e'.totalAfter S now level := by
    rw [Entry.totalAfter, Entry.totalAfter, hcounter]
  cases hb : e.boxed now with
  | true =>
    rw [Entry.add_boxed hb, Entry.add_boxed (hboxed ▸ hb)]
    exact ⟨rfl, rfl, h.box, h.counters⟩
  | false =>
    rw [Entry.add_free hb, Entry.add_free (hboxed ▸ hb), htotal, hcounter]
    split
    · exact ⟨rfl, rfl, h.laterEnd hb _, h.update _ _⟩
    · exact ⟨rfl, rfl, h.box, h.update _ _⟩

end

-- ====== two shards

/-- What each shard keeps: `C` is the time of the last call. -/
structure Tidy (S : Setup) (C : Int) (sh : Shard) : Prop where
  named : ∀ k e, sh.get k = some e → k ≠ []
  seen : ∀ k e, sh.get k = some e → e.lastSeen ≤ C
  apart : ∀ k k' e e', sh.get k = some e → sh.get k' = some e' →
    e.lastSeen = e'.lastSeen → k = k'
  started : ∀ k e, sh.get k = some e → ∀ slot tc,
    e.counters slot = some tc → tc.headStart ≤ e.lastSeen
  room : sh.len ≤ S.maxPerShard

/-- One key in the two stores. -/
def KeySim (S : Setup) (T : Int) : Option Entry → Option Entry → Prop
  | some e, some e' => e.lastSeen = e'.lastSeen ∧ Alike S T e e'
  | some e, none => sweepable S T e = true
  | none, some e' => sweepable S T e' = true
  | none, none => True

def ShardSim (S : Setup) (T : Int) (a b : Shard) : Prop :=
  ∀ k, KeySim S T (a.get k) (b.get k)

variable {a b sh sh' : Shard} {C : Int} {o o' : Option Entry}

theorem sweepable_mono (hs : sweepable S T e = true) (hT : T ≤ now) :
    sweepable S now e = true := by
  rw [sweepable, Bool.and_eq_true, Bool.not_eq_true', decide_eq_true_eq]
    at hs ⊢
  exact ⟨boxed_mono hs.1 hT, by omega⟩

theorem Alike.sweepable_eq (h : Alike S now e e')
    (hseen : e.lastSeen = e'.lastSeen) :
    sweepable S now e = sweepable S now e' := by
  rw [sweepable, sweepable, h.boxed_eq, hseen]

theorem KeySim.symm (h : KeySim S T o o') : KeySim S T o' o :=
  match o, o', h with
  | none, none, h | none, some _, h | some _, none, h => h
  | some _, some _, h => ⟨h.1.symm, h.2.symm⟩

theorem KeySim.mono (h : KeySim S T o o') (hT : T ≤ now) : KeySim S now o o' :=
  match o, o', h with
  | none, none, h => h
  | none, some _, h | some _, none, h => sweepable_mono h hT
  | some _, some _, h => ⟨h.1, h.2.mono hT⟩

/-- What one store's sweep takes, at any time up to now. -/
theorem KeySim.swept (h : KeySim S now o o') (hT : T ≤ now) :
    KeySim S now (o.filter fun e => !sweepable S T e) o' := by
  cases o with
  | none => exact h
  | some e =>
    cases hs : sweepable S T e with
    | false =>
      rw [Option.filter_some_pos (by simp [hs])]
      exact h
    | true =>
      rw [Option.filter_some_neg (by simp [hs])]
      have hnow := sweepable_mono hs hT
      cases o' with
      | none => trivial
      | some e' =>
        change sweepable S now e' = true
        rw [← h.2.sweepable_eq h.1, hnow]

theorem ShardSim.symm (h : ShardSim S T a b) : ShardSim S T b a :=
  fun k => (h k).symm

theorem ShardSim.mono (h : ShardSim S T a b) (hT : T ≤ now) :
    ShardSim S now a b := fun k => (h k).mono hT

theorem ShardSim.swept (h : ShardSim S now a b) (hT : T ≤ now) :
    ShardSim S now (sweepShard S T a) b := by
  intro k
  rw [get_sweepShard]
  exact (h k).swept hT

/-- Both have swept: the same keys, alike. -/
structure Matched (S : Setup) (T : Int) (a b : Shard) : Prop where
  left : ∀ k e, a.get k = some e → ∃ e', b.get k = some e' ∧
    e.lastSeen = e'.lastSeen ∧ Alike S T e e'
  right : ∀ k e', b.get k = some e' → ∃ e, a.get k = some e

theorem ShardSim.matched (h : ShardSim S now a b) :
    Matched S now (sweepShard S now a) (sweepShard S now b) := by
  have hone {a b : Shard} (h : ShardSim S now a b) (k : Bytes) (e : Entry)
      (he : (sweepShard S now a).get k = some e) :
      ∃ e', (sweepShard S now b).get k = some e' ∧
        e.lastSeen = e'.lastSeen ∧ Alike S now e e' := by
    rw [get_sweepShard, Option.filter_eq_some_iff] at he
    have hk := h k
    rw [he.1] at hk
    rw [get_sweepShard]
    cases hb : b.get k with
    | none =>
      rw [hb] at hk
      change sweepable S now e = true at hk
      rw [hk] at he
      cases he.2
    | some e' =>
      rw [hb] at hk
      refine ⟨e', Option.filter_eq_some_iff.mpr ⟨rfl, ?_⟩, hk⟩
      rw [← hk.2.sweepable_eq hk.1]
      exact he.2
  refine ⟨hone h, fun k e' he' => ?_⟩
  obtain ⟨e, he, -⟩ := hone h.symm k e' he'
  exact ⟨e, he⟩

theorem Matched.len_eq (h : Matched S T a b) : a.len = b.len := by
  refine Nat.le_antisymm (Table.len_le fun k e he => ?_) (Table.len_le h.right)
  obtain ⟨e', he', -⟩ := h.left k e he
  exact ⟨e', he'⟩

theorem Matched.sim (h : Matched S T a b) : ShardSim S T a b := by
  intro k
  cases ha : a.get k with
  | some e =>
    obtain ⟨e', he', hlike⟩ := h.left k e ha
    rw [he']
    exact hlike
  | none =>
    cases hb : b.get k with
    | none => trivial
    | some e' =>
      obtain ⟨e, he⟩ := h.right k e' hb
      rw [ha] at he
      cases he

variable {k key : Bytes} {it : Iteration Bytes Entry} {s : Step}

theorem Tidy.capped (ht : Tidy S C sh) : Capped S sh := ⟨ht.named, ht.room⟩

/-- Matched shards have one victim. -/
theorem Victim.unique {k' : Bytes} (h : Matched S now a b) (ht : Tidy S C a)
    (hv : Victim now a k e) (hv' : Victim now b k' e') : k = k' := by
  obtain ⟨f', hf', hseen, hlike⟩ := h.left k e hv.present
  obtain ⟨f, hf⟩ := h.right k' e' hv'.present
  obtain ⟨g', hg', hseen', hlike'⟩ := h.left k' f hf
  have hg : g' = e' := Option.some.inj (hg'.symm.trans hv'.present)
  subst hg
  have hboxed := hlike.boxed_eq
  have hboxed' := hlike'.boxed_eq
  -- both victims are boxed, or neither is
  have hsame : f.boxed now = e.boxed now := by
    cases he : e.boxed now with
    | true => exact hv.unboxed he k' f hf
    | false =>
      cases hfb : f.boxed now with
      | false => rfl
      | true =>
        have := hv'.unboxed (hboxed' ▸ hfb) k f' hf'
        rw [← hboxed, he] at this
        cases this
  have hle := hv.oldest k' f hf hsame
  have hle' := hv'.oldest k f' hf' (by rw [← hboxed, ← hboxed', hsame])
  exact ht.apart k k' e f hv.present hf (by omega)

-- ====== tidy shards

/-- A shard that only lost entries. -/
theorem Tidy.sub (ht : Tidy S C sh)
    (hsub : ∀ k e, sh'.get k = some e → sh.get k = some e) : Tidy S C sh' where
  named := fun k e he => ht.named k e (hsub k e he)
  seen := fun k e he => ht.seen k e (hsub k e he)
  apart := fun k k' e e' he he' =>
    ht.apart k k' e e' (hsub k e he) (hsub k' e' he')
  started := fun k e he => ht.started k e (hsub k e he)
  room := (Table.len_le fun k e he => ⟨e, hsub k e he⟩).trans ht.room

theorem Tidy.mono (ht : Tidy S C sh) (hC : C ≤ now) : Tidy S now sh :=
  { ht with seen := fun k e he => (ht.seen k e he).trans hC }

/-- The counters an add finds started in the past. -/
theorem Tidy.entryFor_started (ht : Tidy S C sh) (hC : C ≤ now) (slot : Nat)
    (tc : TierCounter)
    (htc : (entryFor S it now key sh).2.counters slot = some tc) :
    tc.headStart ≤ now := by
  rw [entryFor] at htc
  cases hget : sh.get key with
  | none =>
    rw [hget] at htc
    cases htc
  | some e =>
    rw [hget] at htc
    exact (ht.started key e hget slot tc htc).trans
      ((ht.seen key e hget).trans hC)

/-- An add leaves its entry seen now, its counters started by now. -/
theorem Entry.add_started (hfits : ∀ slot, Fits S slot)
    (hstarted : ∀ slot tc, e.counters slot = some tc → tc.headStart ≤ now) :
    (e.add S now level).2.lastSeen = now ∧ ∀ slot tc,
      (e.add S now level).2.counters slot = some tc → tc.headStart ≤ now := by
  have hupdate {tc₀ : TierCounter} (hnew : tc₀.headStart ≤ now) :=
    (Function.forall_update_iff (a := S.levelSlot level) (b := some tc₀)
      e.counters fun _ o => ∀ tc, o = some tc → tc.headStart ≤ now).mpr
      ⟨fun _ htc => Option.some.inj htc ▸ hnew, fun slot _ => hstarted slot⟩
  cases hb : e.boxed now with
  | true =>
    rw [Entry.add_boxed hb]
    exact ⟨rfl, hstarted⟩
  | false =>
    rw [Entry.add_free hb]
    split
    · exact ⟨rfl, hupdate (le_refl now)⟩
    · refine ⟨rfl, hupdate ?_⟩
      change (e.counterAt S now (S.levelSlot level)).headStart ≤ now
      rw [Entry.counterAt, Entry.counter, (hfits 0).exact]
      refine (TierCounter.advance_start (hfits _).pos ?_).1
      cases hc : e.counters (S.levelSlot level) with
      | none => exact le_refl now
      | some tc => exact hstarted _ tc hc

/-- An entry put in a shard that has its key, or room. -/
theorem Tidy.set (ht : Tidy S C sh) (hC : C < now) (hkey : key ≠ [])
    (hseen : e.lastSeen = now)
    (hstarted : ∀ slot tc, e.counters slot = some tc → tc.headStart ≤ now)
    (hroom : (∃ e₀, sh.get key = some e₀) ∨ sh.len < S.maxPerShard) :
    Tidy S now (sh.set key e) := by
  have hcases {k : Bytes} {f : Entry} (hf : (sh.set key e).get k = some f) :=
    Table.get_set_cases hf
  have hold {k : Bytes} {f : Entry} (hf : sh.get k = some f) :
      f.lastSeen < now := lt_of_le_of_lt (ht.seen k f hf) hC
  have hcapped := ht.capped.set (e := e) hkey hroom
  refine ⟨hcapped.named, ?_, ?_, ?_, ?_⟩
  · intro k f hf
    obtain ⟨rfl, rfl⟩ | ⟨-, hf⟩ := hcases hf
    · exact le_of_eq hseen
    · exact le_of_lt (hold hf)
  · intro k k' f f' hf hf' heq
    obtain ⟨hk, hfe⟩ | ⟨-, hf⟩ := hcases hf
    · obtain ⟨hk', -⟩ | ⟨-, hf'⟩ := hcases hf'
      · rw [hk, hk']
      · have hlt := hold hf'
        rw [hfe] at heq
        omega
    · obtain ⟨-, hfe'⟩ | ⟨-, hf'⟩ := hcases hf'
      · have hlt := hold hf
        rw [hfe'] at heq
        omega
      · exact ht.apart k k' f f' hf hf' heq
  · intro k f hf
    obtain ⟨rfl, rfl⟩ | ⟨-, hf⟩ := hcases hf
    · rw [hseen]
      exact hstarted
    · exact ht.started k f hf
  · exact hcapped.room

/-- A shard has room for a key, and every slot fits. -/
structure Sized (S : Setup) : Prop where
  room : 0 < S.maxPerShard
  fits : ∀ slot, Fits S slot

/-- An add keeps its shard tidy. -/
theorem Tidy.addIn {key : Bytes} (ht : Tidy S C sh)
    (it : Iteration Bytes Entry) (level : Nat) (hC : C < now) (hkey : key ≠ [])
    (hS : Sized S) : Tidy S now (addIn S it now key level sh).2 := by
  obtain ⟨hseen, hstarted⟩ := Entry.add_started hS.fits
    (ht.entryFor_started (le_of_lt hC))
  exact (ht.sub fun _ _ => get_of_entryFor).set hC hkey hseen hstarted
    (ht.capped.entryFor_room it now key hS.room)

-- ====== the same adds

/-- A stale entry is as good as a new one. -/
theorem alike_new (hfits : ∀ slot, Fits S slot)
    (hstarted : ∀ slot tc, e.counters slot = some tc →
      tc.headStart ≤ e.lastSeen) (hs : sweepable S now e = true) :
    Alike S now e (.new now) := by
  rw [sweepable, Bool.and_eq_true, Bool.not_eq_true', decide_eq_true_eq] at hs
  refine ⟨.inr ⟨hs.1, rfl⟩, fun slot => .inr ⟨?_, trivial⟩⟩
  cases hc : e.counters slot with
  | none => trivial
  | some tc =>
    have hstart := hstarted slot tc hc
    have hwindow := (hfits slot).window
    change _ ≤ now - tc.headStart
    omega

/-- The shard an add makes room in. -/
def roomFor (S : Setup) (it : Iteration Bytes Entry) (now : Int)
    (sh : Shard) : Shard :=
  if S.maxPerShard ≤ sh.len then makeRoom S it now sh else sh

/-- Where a sweep leaves room, nothing is evicted. -/
theorem roomFor_quiet (it : Iteration Bytes Entry)
    (hroom : (sweepShard S now sh).len < S.maxPerShard) :
    roomFor S it now sh = sh ∨ roomFor S it now sh = sweepShard S now sh := by
  rw [roomFor]
  split
  · right
    rw [makeRoom, evicted, if_pos hroom]
  · exact .inl rfl

theorem len_sweepShard_le : (sweepShard S now sh).len ≤ sh.len :=
  Table.len_le fun _ e he => ⟨e, get_of_sweepShard he⟩

theorem ShardSim.roomFor_quiet (h : ShardSim S now a b)
    (hroom : (sweepShard S now a).len < S.maxPerShard) :
    ShardSim S now (roomFor S it now a) b := by
  rcases Penaltybox.roomFor_quiet it hroom with heq | heq
  · rw [heq]
    exact h
  · rw [heq]
    exact h.swept (le_refl now)

/-- Two shards without the key make room alike. -/
theorem ShardSim.roomFor {it it' : Iteration Bytes Entry}
    (h : ShardSim S now a b) (ha : Tidy S C a) (hb : Tidy S C b)
    (hmax : 0 < S.maxPerShard) :
    ShardSim S now (roomFor S it now a) (roomFor S it' now b) := by
  have hmatched := h.matched
  have hlen := hmatched.len_eq
  by_cases hroom : (sweepShard S now a).len < S.maxPerShard
  · exact ((h.roomFor_quiet hroom).symm.roomFor_quiet (hlen ▸ hroom)).symm
  · -- both are full of entries no sweep takes
    have hafull : S.maxPerShard ≤ a.len :=
      (not_lt.mp hroom).trans len_sweepShard_le
    have hbfull : S.maxPerShard ≤ b.len :=
      (not_lt.mp (hlen ▸ hroom)).trans len_sweepShard_le
    have hta : Tidy S C (sweepShard S now a) :=
      ha.sub fun _ _ => get_of_sweepShard
    have htb : Tidy S C (sweepShard S now b) :=
      hb.sub fun _ _ => get_of_sweepShard
    obtain ⟨k, e, hvictim, hv⟩ := victim_spec it now hta.named (by omega)
    obtain ⟨k', e', hvictim', hv'⟩ := victim_spec it' now htb.named (by omega)
    have hsame := hv.unique hmatched hta hv'
    subst hsame
    rw [Penaltybox.roomFor, Penaltybox.roomFor, if_pos hafull,
      if_pos hbfull, makeRoom, makeRoom, evicted, evicted, if_neg hroom,
      if_neg (hlen ▸ hroom), hvictim, hvictim']
    intro k'
    change KeySim S now (((sweepShard S now a).delete k).get k')
      (((sweepShard S now b).delete k).get k')
    rw [Table.get_delete, Table.get_delete]
    split
    · trivial
    · exact hmatched.sim k'

/-- A shard whose key the other has only stale evicts nothing. -/
theorem ShardSim.roomFor_stale (h : ShardSim S now a b) (hb : Tidy S C b)
    (hget : b.get key = some e) (hs : sweepable S now e = true) :
    ShardSim S now (Penaltybox.roomFor S it now a) b := by
  refine h.roomFor_quiet ?_
  have hlt : (sweepShard S now b).len < b.len := by
    refine Table.len_lt (fun _ f hf => ⟨f, get_of_sweepShard hf⟩) ?_ ⟨e, hget⟩
    rw [get_sweepShard, hget, Option.filter_some_neg (by simp [hs])]
  rw [h.matched.len_eq]
  exact lt_of_lt_of_le hlt hb.room

/-- What an add finds in the two shards. -/
theorem ShardSim.entryFor (key : Bytes) (h : ShardSim S now a b)
    (ha : Tidy S C a) (hb : Tidy S C b) (it it' : Iteration Bytes Entry)
    (hS : Sized S) :
    ShardSim S now (entryFor S it now key a).1 (entryFor S it' now key b).1 ∧
      Alike S now (entryFor S it now key a).2 (entryFor S it' now key b).2 := by
  have hkey := h key
  rw [Penaltybox.entryFor, Penaltybox.entryFor]
  cases hga : a.get key <;> cases hgb : b.get key <;> rw [hga, hgb] at hkey
  case some.some => exact ⟨h, hkey.2⟩
  case some.none e =>
    exact ⟨(h.symm.roomFor_stale ha hga hkey).symm,
      alike_new hS.fits (ha.started key e hga) hkey⟩
  case none.some e' =>
    exact ⟨h.roomFor_stale hb hgb hkey,
      (alike_new hS.fits (hb.started key e' hgb) hkey).symm⟩
  case none.none => exact ⟨h.roomFor ha hb hS.room, .inl rfl, fun _ => .inl rfl⟩

/-- An add answers alike in the two shards and keeps them so. -/
theorem ShardSim.addIn (key : Bytes) (h : ShardSim S now a b) (ha : Tidy S C a)
    (hb : Tidy S C b) (it it' : Iteration Bytes Entry) (level : Nat)
    (hS : Sized S) :
    (addIn S it now key level a).1 = (addIn S it' now key level b).1 ∧
      ShardSim S now (addIn S it now key level a).2
        (addIn S it' now key level b).2 := by
  obtain ⟨hsim, hlike⟩ := h.entryFor key ha hb it it' hS
  obtain ⟨hans, hseen, hafter⟩ := hlike.add level hS.fits
  refine ⟨hans, fun k => ?_⟩
  change KeySim S now ((Table.set _ key _).get k) ((Table.set _ key _).get k)
  rw [Table.get_set, Table.get_set]
  split
  · exact ⟨hseen, hafter⟩
  · exact hsim k

-- ====== the two runs

/-- The two stores at `T`, the last call at `C`. -/
structure StoreSim (S : Setup) (T C : Int) (st st' : Store) : Prop where
  sim : ∀ i, ShardSim S T (st i) (st' i)
  left : ∀ i, Tidy S C (st i)
  right : ∀ i, Tidy S C (st' i)

variable {st st' : Store}

theorem StoreSim.symm (h : StoreSim S T C st st') : StoreSim S T C st' st where
  sim := fun i => (h.sim i).symm
  left := h.right
  right := h.left

theorem StoreSim.mono (h : StoreSim S T C st st') (hT : T ≤ now) :
    StoreSim S now C st st' :=
  { h with sim := fun i => (h.sim i).mono hT }

/-- A step that asks nothing is a sweep. -/
theorem apply_sweep (hs : s.asked = none) :
    s.apply S st = (.swept, sweepAll S s.now st) := by
  obtain ⟨t, call, it⟩ := s
  cases call with
  | add key level => cases hs
  | boxedRemaining key => cases hs
  | sweepAll => rfl

/-- Sweeps of one store, at any times up to now. -/
theorem StoreSim.sweeps {sweeps : List Step} (h : StoreSim S now C st st')
    (hsweeps : ∀ s ∈ sweeps, s.asked = none) (hT : ∀ s ∈ sweeps, s.now ≤ now) :
    StoreSim S now C (run S sweeps st).2 st' := by
  induction sweeps generalizing st with
  | nil => exact h
  | cons s sweeps ih =>
    have ht : s.now ≤ now := hT _ (.head _)
    rw [run, apply_sweep (hsweeps _ List.mem_cons_self)]
    refine ih ⟨fun i => (h.sim i).swept ht,
      fun i => (h.left i).sub fun _ _ => get_of_sweepShard, h.right⟩
      (fun s hs => hsweeps s (.tail _ hs))
      fun s hs => hT s (.tail _ hs)

theorem results_sweeps {sweeps : List Step}
    (hsweeps : ∀ s ∈ sweeps, s.asked = none) : results S sweeps st = [] := by
  induction sweeps generalizing st with
  | nil => rfl
  | cons s sweeps ih =>
    rw [results, run, apply_sweep (hsweeps _ List.mem_cons_self)]
    exact ih fun s hs => hsweeps s (.tail _ hs)

/-- What is left of a box, in the two stores. -/
theorem StoreSim.boxedRemaining (h : StoreSim S now C st st') (key : Bytes) :
    boxedRemaining S now key st = boxedRemaining S now key st' := by
  -- a box that is over leaves nothing
  have hover {f : Entry} (hf : f.boxed now = false) :
      (f.boxedUntil.map (· - now)).filter (fun r => decide (0 < r)) =
        none := by
    have hends := ended_iff.mp hf
    cases hu : f.boxedUntil with
    | none => rfl
    | some u => simp [Int.sub_nonpos_of_le (hends u hu)]
  have hstale {f : Entry} (hf : sweepable S now f = true) :
      f.boxed now = false := by
    rw [sweepable, Bool.and_eq_true, Bool.not_eq_true'] at hf
    exact hf.1
  have hkey := h.sim (S.shardFor key) key
  rw [Penaltybox.boxedRemaining, Penaltybox.boxedRemaining]
  cases ha : (st (S.shardFor key)).get key <;>
    cases hb : (st' (S.shardFor key)).get key <;> rw [ha, hb] at hkey
  case none.some => exact (hover (hstale hkey)).symm
  case some.none => exact hover (hstale hkey)
  case some.some e e' =>
    rcases hkey.2.box with heq | ⟨hfree, hfree'⟩
    · change Option.filter _ (e.boxedUntil.map _) = _
      rw [heq]
    · exact (hover hfree).trans (hover hfree').symm

/-- One shard changed in each store. -/
theorem StoreSim.update (h : StoreSim S T C st st') (i : Fin numShards)
    (hsim : ShardSim S T sh sh') (hleft : Tidy S C sh) (hright : Tidy S C sh') :
    StoreSim S T C (Function.update st i sh) (Function.update st' i sh') := by
  refine ⟨fun j => ?_, fun j => ?_, fun j => ?_⟩ <;> by_cases hj : j = i
  all_goals first | subst hj; simpa only [Function.update_self]
                  | simp only [Function.update_of_ne hj, h.sim, h.left, h.right]

theorem StoreSim.later (h : StoreSim S now C st st') (hC : C ≤ now) :
    StoreSim S now now st st' :=
  ⟨h.sim, fun i => (h.left i).mono hC, fun i => (h.right i).mono hC⟩

theorem StoreSim.add {key : Bytes} (h : StoreSim S now C st st')
    (it it' : Iteration Bytes Entry) (level : Nat) (hC : C < now)
    (hkey : key ≠ []) (hS : Sized S) :
    (add S it now key level st).1 = (add S it' now key level st').1 ∧
      StoreSim S now now (add S it now key level st).2
        (add S it' now key level st').2 := by
  have hlater := h.later (le_of_lt hC)
  by_cases hlevel : 1 ≤ level ∧ level ≤ maxLevel
  · obtain ⟨hans, hsim⟩ := (h.sim (S.shardFor key)).addIn key
      (h.left _) (h.right _) it it' level hS
    rw [add_valid hlevel, add_valid hlevel]
    exact ⟨hans, hlater.update _ hsim
      ((h.left _).addIn it level hC hkey hS)
      ((h.right _).addIn it' level hC hkey hS)⟩
  · rw [add_invalid hlevel, add_invalid hlevel]
    exact ⟨rfl, hlater⟩

theorem asked_eq {call : Call} (hs : s.asked = some (now, call)) :
    ∃ it, s = ⟨now, call, it⟩ := by
  obtain ⟨t, c, it⟩ := s
  cases c with
  | add key level | boxedRemaining key => cases hs; exact ⟨it, rfl⟩
  | sweepAll => cases hs

/-- A call answers alike in the two stores. -/
theorem StoreSim.call {s s' : Step} {call : Call} (h : StoreSim S now C st st')
    (hs : s.asked = some (now, call)) (hs' : s'.asked = some (now, call))
    (hC : C < now) (hkey : call.counted ≠ some []) (hS : Sized S) :
    (s.apply S st).1 = (s'.apply S st').1 ∧ (s.apply S st).1 ≠ .swept ∧
      StoreSim S now now (s.apply S st).2 (s'.apply S st').2 := by
  obtain ⟨it, rfl⟩ := asked_eq hs
  obtain ⟨it', rfl⟩ := asked_eq hs'
  cases call with
  | add key level =>
    have hne : key ≠ [] := by
      rintro rfl
      exact hkey rfl
    obtain ⟨hans, hsim⟩ := h.add it it' level hC hne hS
    exact ⟨congrArg Answer.added hans, Answer.noConfusion, hsim⟩
  | boxedRemaining key =>
    exact ⟨congrArg Answer.remaining (h.boxedRemaining key),
      Answer.noConfusion, h.later (le_of_lt hC)⟩
  | sweepAll => cases hs

theorem results_append (l l' : List Step) (st : Store) :
    results S (l ++ l') st = results S l st ++ results S l' (run S l st).2 := by
  induction l generalizing st with
  | nil => rfl
  | cons s l ih =>
    have hcons := ih (s.apply S st).2
    simp only [results, List.cons_append, run, List.filter_cons] at hcons ⊢
    split
    · rw [List.cons_append, hcons]
    · exact hcons

theorem results_cons (hs : (s.apply S st).1 ≠ .swept) (l : List Step) :
    results S (s :: l) st =
      (s.apply S st).1 :: results S l (s.apply S st).2 := by
  rw [results, run, List.filter_cons_of_pos (by simp [hs])]
  rfl

theorem asked_now {call : Call} (hs : s.asked = some (now, call)) :
    s.now = now := by
  obtain ⟨it, rfl⟩ := asked_eq hs
  rfl

/-- The times before and after one step of a run. -/
theorem times_split {before after : List Step}
    (h : ((before ++ s :: after).map Step.now).Pairwise (· ≤ ·))
    (hs : s.now = now) : (∀ x ∈ before, x.now ≤ now) ∧
      (after.map Step.now).Pairwise (· ≤ ·) := by
  rw [List.map_append, List.map_cons, List.pairwise_append,
    List.pairwise_cons] at h
  refine ⟨fun x hx => ?_, h.2.1.2⟩
  rw [← hs]
  exact h.2.2 _ (List.mem_map_of_mem hx) _ (.head _)

/-- The two runs answer alike. -/
theorem StoreSim.run {asked : List (Int × Call)} {l l' : List Step}
    (h : StoreSim S T C st st') (hl : calls l = asked)
    (hl' : calls l' = asked) (hT : ∀ p ∈ asked, T ≤ p.1 ∧ C < p.1)
    (htimes : (l.map Step.now).Pairwise (· ≤ ·))
    (htimes' : (l'.map Step.now).Pairwise (· ≤ ·))
    (hapart : (asked.map Prod.fst).Pairwise (· < ·))
    (hkeys : ∀ p ∈ asked, p.2.counted ≠ some []) (hS : Sized S) :
    results S l st = results S l' st' := by
  induction asked generalizing l l' st st' T C with
  | nil =>
    rw [results_sweeps (List.filterMap_eq_nil_iff.mp hl),
      results_sweeps (List.filterMap_eq_nil_iff.mp hl')]
  | cons p asked ih =>
    obtain ⟨now, call⟩ := p
    obtain ⟨sweeps, s, rest, rfl, hsweeps, hs, hrest⟩ :=
      List.filterMap_eq_cons_iff.mp hl
    obtain ⟨sweeps', s', rest', rfl, hsweeps', hs', hrest'⟩ :=
      List.filterMap_eq_cons_iff.mp hl'
    rw [List.map_cons, List.pairwise_cons] at hapart
    obtain ⟨hTnow, hC⟩ := hT _ (.head _)
    obtain ⟨hbefore, hafter⟩ := times_split htimes (asked_now hs)
    obtain ⟨hbefore', hafter'⟩ := times_split htimes' (asked_now hs')
    -- each run's sweeps, then the call in both
    have hswept := (((h.mono hTnow).sweeps hsweeps hbefore).symm.sweeps
      hsweeps' hbefore').symm
    obtain ⟨hans, hne, hnext⟩ := hswept.call hs hs' hC
      (hkeys _ (.head _)) hS
    rw [results_append, results_append, results_sweeps hsweeps,
      results_sweeps hsweeps', results_cons hne,
      results_cons (hans ▸ hne), hans]
    congr 1
    congr 1
    refine ih hnext hrest hrest' ?_ hafter hafter' hapart.2
      fun q hq => hkeys q (.tail _ hq)
    intro q hq
    have hlt := hapart.1 _ (List.mem_map_of_mem hq)
    exact ⟨le_of_lt hlt, hlt⟩

/-- All slots fit, where all windows do. -/
theorem newStore_fits_all {c : Handler} {shardFor : Bytes → Fin numShards}
    (hwindows : ∀ b ∈ (newStore c shardFor).budgets, 16 ≤ b.window)
    (slot : Nat) : Fits (newStore c shardFor) slot := by
  cases hget : (newStore c shardFor).budgets[slot]? with
  | some b =>
    refine newStore_fits ?_
    rw [Setup.budget, List.getD_eq_getElem?_getD, hget]
    exact hwindows b (List.mem_of_getElem? hget)
  | none =>
    -- no budget: the default is one nanosecond a bucket
    have hfirst : tierBudget ⟨c.window, c.limit, c.penaltyTTL⟩ true ∈
        (newStore c shardFor).budgets := .head _
    have hlarge := hwindows _ hfirst
    have hmost := (newStore_budgets hfirst).2
    have hbudget : (newStore c shardFor).budget slot =
        ⟨0, 0, 0, 1, false⟩ := by
      rw [Setup.budget, List.getD_eq_getElem?_getD, hget]
      rfl
    refine ⟨rfl, ?_, ?_⟩
    · rw [hbudget]
      decide
    · rw [hbudget]
      exact hlarge.trans hmost

theorem storeSim_blank : StoreSim S T C blank blank := by
  have htidy : Tidy S C .empty := by
    refine ⟨?_, ?_, ?_, ?_, Nat.zero_le _⟩
    all_goals
      intro k
      intros
      simp_all
  exact ⟨fun i k => trivial, fun i => htidy, fun i => htidy⟩

/-- With the windows of `newStore` all of sixteen nanoseconds or more, two
runs of the same calls on keys that are not empty, at the same increasing
times, answer alike, whatever sweeps either has between them and whatever
order its maps come in. -/
theorem sweeps_invisible (c : Handler) (shardFor : Bytes → Fin numShards)
    (steps steps' : List Step)
    (hwindows : ∀ b ∈ (newStore c shardFor).budgets, 16 ≤ b.window)
    (hcalls : calls steps = calls steps')
    (htimes : (steps.map Step.now).Pairwise (· ≤ ·))
    (htimes' : (steps'.map Step.now).Pairwise (· ≤ ·))
    (hapart : ((calls steps).map Prod.fst).Pairwise (· < ·))
    (hkeys : ∀ p ∈ calls steps, p.2.counted ≠ some []) :
    results (newStore c shardFor) steps blank =
      results (newStore c shardFor) steps' blank := by
  have hmax : 0 < (newStore c shardFor).maxPerShard :=
    lt_of_lt_of_le Nat.zero_lt_one (Nat.le_max_right _ 1)
  obtain ⟨T, hT⟩ : ∃ T, ∀ p ∈ calls steps, T < p.1 := by
    cases hasked : calls steps with
    | nil => exact ⟨0, nofun⟩
    | cons q asked =>
      rw [hasked, List.map_cons, List.pairwise_cons] at hapart
      refine ⟨q.1 - 1, fun p hp => ?_⟩
      rcases List.mem_cons.mp hp with rfl | hp
      · omega
      · have hlt := hapart.1 _ (List.mem_map_of_mem hp)
        omega
  exact storeSim_blank.run rfl hcalls.symm
    (fun p hp => ⟨le_of_lt (hT p hp), hT p hp⟩) htimes htimes' hapart hkeys
    ⟨hmax, newStore_fits_all hwindows⟩

/-- A shard of two keys, and three responses in 16 ns. -/
def smallHandler : Handler :=
  { exampleHandler with window := 16, maxKeys := 128 }

theorem sweeps_invisible_example :
    let S := newStore smallHandler fun _ => 0
    let before : List Step := [⟨0, .add (str "a") 2, newestFirst⟩,
      ⟨1, .add (str "b") 1, newestFirst⟩]
    let after : List Step := [⟨20, .add (str "c") 1, newestFirst⟩,
      ⟨21, .add (str "a") 3, newestFirst⟩]
    results S (before ++ ⟨18, .sweepAll, newestFirst⟩ :: after) blank =
      results S (before ++ after) blank := by
  intro S before after
  exact sweeps_invisible smallHandler (fun _ => 0) _ _ (by decide)
    (by decide +kernel) (by decide) (by decide) (by decide +kernel)
    (by decide +kernel)

/-- The empty key is one the loop cannot name: a shard that holds it grows
past its cap, and then whether a key was swept decides who is evicted. -/
theorem empty_key_shows_sweep :
    let S := newStore smallHandler fun _ => 0
    let before : List Step := [⟨0, .add [] 1, newestFirst⟩,
      ⟨1, .add (str "x") 1, newestFirst⟩,
      ⟨2, .add (str "k") 1, newestFirst⟩,
      ⟨10, .add (str "x") 1, newestFirst⟩,
      ⟨11, .add [] 1, newestFirst⟩]
    let after : List Step := [⟨20, .add (str "k") 1, newestFirst⟩,
      ⟨21, .add (str "x") 2, newestFirst⟩]
    (∀ b ∈ S.budgets, 16 ≤ b.window) ∧ results S (before ++ after) blank =
        [.added false, .added false, .added false, .added false,
          .added false, .added false, .added true] ∧
      results S (before ++ ⟨19, .sweepAll, newestFirst⟩ :: after) blank =
        [.added false, .added false, .added false, .added false,
          .added false, .added false, .added false] := by
  decide +kernel

end Hotserve.Penaltybox
