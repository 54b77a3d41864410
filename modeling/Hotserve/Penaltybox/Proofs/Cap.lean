/-
The cap on the keys of a shard, and whom an eviction takes.

A shard never holds more than its share of `max_keys`: an add of a new
key to a full shard makes room first (`Capped.len_makeRoom`), and room is
always made, because the loop over a shard names a key whenever there is
one (`victim_spec`). It tells "no key yet" by the empty string, so this
is about keys that are not empty, the only ones the handler counts.

The times of the calls play no part: they may come in any order.
-/
import Hotserve.Penaltybox.Proofs.Window
import Mathlib.Algebra.Order.BigOperators.Group.Finset

namespace Hotserve.Penaltybox

open Bytes

variable {S : Setup} {now : Int} {e : Entry} {sh sh' : Shard}
  {k key : Bytes} {it : Iteration Bytes Entry}

-- ====== the victims

/-- One candidate of the loop: the key and when it was seen. -/
def pick (c : Bytes × Int) (p : Bytes × Entry) : Bytes × Int :=
  if c.1 == [] || decide (p.2.lastSeen < c.2) then (p.1, p.2.lastSeen) else c

theorem visit_eq (p : Bytes × Entry) (c u : Bytes × Int) :
    Oldest.visit now ⟨c.1, c.2, u.1, u.2⟩ p = ⟨(pick c p).1, (pick c p).2,
        (if p.2.boxed now then u else pick u p).1,
        (if p.2.boxed now then u else pick u p).2⟩ := by
  cases hb : p.2.boxed now
  all_goals cases hc : (c.1 == [] || decide (p.2.lastSeen < c.2))
  all_goals cases hu : (u.1 == [] || decide (p.2.lastSeen < u.2))
  all_goals simp only [Oldest.visit, pick, hb, hc, hu, Bool.not_false,
    Bool.not_true, Bool.true_and, Bool.false_and, Bool.false_eq_true,
    if_true, if_false]

/-- The loop keeps two candidates, of all the entries and of those not
boxed. -/
theorem visits_eq (now : Int) (l : List (Bytes × Entry)) (c u : Bytes × Int) :
    l.foldl (Oldest.visit now) ⟨c.1, c.2, u.1, u.2⟩ =
      ⟨(l.foldl pick c).1, (l.foldl pick c).2,
        ((l.filter fun p => !p.2.boxed now).foldl pick u).1,
        ((l.filter fun p => !p.2.boxed now).foldl pick u).2⟩ := by
  induction l generalizing c u with
  | nil => rfl
  | cons p l ih =>
    rw [List.foldl_cons, List.foldl_cons, visit_eq, ih]
    cases hb : p.2.boxed now with
    | true => rw [List.filter_cons_of_neg (by simp [hb]), if_pos rfl]
    | false =>
      rw [List.filter_cons_of_pos (by simp [hb]), List.foldl_cons,
        if_neg Bool.false_ne_true]

/-- The loop's candidate is the oldest of the entries it saw, where no key
is empty. -/
theorem picked (l : List (Bytes × Entry)) (hnamed : ∀ p ∈ l, p.1 ≠ []) :
    (l = [] ∧ l.foldl pick ([], 0) = ([], 0)) ∨
      ∃ p ∈ l, l.foldl pick ([], 0) = (p.1, p.2.lastSeen) ∧
        ∀ q ∈ l, p.2.lastSeen ≤ q.2.lastSeen := by
  induction l using List.reverseRecOn with
  | nil => exact .inl ⟨rfl, rfl⟩
  | append_singleton l p ih =>
    right
    rw [List.foldl_append, List.foldl_cons, List.foldl_nil]
    obtain ⟨rfl, hnil⟩ | ⟨q, hq, hfold, holdest⟩ :=
      ih fun x hx => hnamed x (List.mem_append_left _ hx)
    · exact ⟨p, by simp, by simp [pick], by simp⟩
    · have hqne : (q.1 == []) = false :=
        beq_eq_false_iff_ne.mpr (hnamed q (List.mem_append_left _ hq))
      rw [hfold, pick]
      by_cases hlt : p.2.lastSeen < q.2.lastSeen
      · refine ⟨p, by simp, by simp [hlt], fun x hx => ?_⟩
        rcases List.mem_append.mp hx with hx | hx
        · exact le_of_lt (lt_of_lt_of_le hlt (holdest x hx))
        · rw [List.mem_singleton.mp hx]
      · refine ⟨q, by simp [hq], by simp [hlt, hqne], fun x hx => ?_⟩
        rcases List.mem_append.mp hx with hx | hx
        · exact holdest x hx
        · rw [List.mem_singleton.mp hx]
          exact not_lt.mp hlt

/-- The key a full shard loses. -/
structure Victim (now : Int) (sh : Shard) (k : Bytes) (e : Entry) : Prop where
  present : sh.get k = some e
  unboxed : e.boxed now = true → ∀ k' e', sh.get k' = some e' →
    e'.boxed now = true
  oldest : ∀ k' e', sh.get k' = some e' → e'.boxed now = e.boxed now →
    e.lastSeen ≤ e'.lastSeen

/-- A shard with an entry loses one. -/
theorem victim_spec (it : Iteration Bytes Entry) (now : Int)
    (hkeys : ∀ k e, sh.get k = some e → k ≠ []) (hsome : 0 < sh.len) :
    ∃ k e, victim it now sh = some k ∧ Victim now sh k e := by
  have hmem (p : Bytes × Entry) :
      p ∈ it.order sh.entries ↔ sh.get p.1 = some p.2 := by
    rw [(it.perm sh.entries).mem_iff, Table.get_eq_some_iff]
  have hfold := visits_eq now (it.order sh.entries) ([], 0) ([], 0)
  have hnamed : ∀ p ∈ it.order sh.entries, p.1 ≠ [] := fun p hp =>
    hkeys p.1 p.2 ((hmem p).mp hp)
  rw [victim]
  obtain ⟨hnil, hu⟩ | ⟨p, hp, hu, holdest⟩ :=
    picked ((it.order sh.entries).filter fun p => !p.2.boxed now)
      fun p hp => hnamed p (List.mem_filter.mp hp).1
  · -- every entry is boxed: the oldest of all
    have hboxed : ∀ p ∈ it.order sh.entries, p.2.boxed now = true := by
      intro p hp
      have := List.filter_eq_nil_iff.mp hnil p hp
      simpa using this
    obtain ⟨hempty, -⟩ | ⟨p, hp, hc, holdest⟩ := picked _ hnamed
    · have hlen := (it.perm sh.entries).length_eq
      rw [hempty, List.length_nil] at hlen
      rw [Table.len] at hsome
      omega
    · refine ⟨p.1, p.2, ?_, (hmem p).mp hp, ?_, ?_⟩
      · simp only [hfold, hu, hc]
        simp [hnamed p hp]
      · intro _ k e he
        exact hboxed (k, e) ((hmem (k, e)).mpr he)
      · intro k e he _
        exact holdest (k, e) ((hmem (k, e)).mpr he)
  · obtain ⟨hp, hfree⟩ := List.mem_filter.mp hp
    have hfree : p.2.boxed now = false := by simpa using hfree
    refine ⟨p.1, p.2, ?_, (hmem p).mp hp, ?_, ?_⟩
    · simp only [hfold, hu]
      simp [hnamed p hp]
    · intro hb
      rw [hfree] at hb
      cases hb
    · intro k e he hb
      refine holdest (k, e) (List.mem_filter.mpr ⟨(hmem (k, e)).mpr he, ?_⟩)
      rw [hb, hfree]
      rfl

-- ====== the shards

/-- What each shard keeps. -/
structure Capped (S : Setup) (sh : Shard) : Prop where
  named : ∀ k e, sh.get k = some e → k ≠ []
  room : sh.len ≤ S.maxPerShard

/-- A shard that only lost entries. -/
theorem Capped.sub (hc : Capped S sh)
    (hsub : ∀ k e, sh'.get k = some e → sh.get k = some e) : Capped S sh' where
  named := fun k e he => hc.named k e (hsub k e he)
  room := (Table.len_le fun k e he => ⟨e, hsub k e he⟩).trans hc.room

theorem get_of_sweepShard (he : (sweepShard S now sh).get k = some e) :
    sh.get k = some e := by
  rw [get_sweepShard, Option.filter_eq_some_iff] at he
  exact he.1

theorem get_of_makeRoom (he : (makeRoom S it now sh).get k = some e) :
    sh.get k = some e := by
  rw [makeRoom] at he
  cases hev : evicted S it now sh with
  | none =>
    rw [hev] at he
    exact get_of_sweepShard he
  | some victim =>
    rw [hev] at he
    exact get_of_sweepShard (Table.get_of_delete he)

/-- Room is made. -/
theorem Capped.len_makeRoom (hc : Capped S sh) (hmax : 0 < S.maxPerShard) :
    (makeRoom S it now sh).len < S.maxPerShard := by
  have hswept : Capped S (sweepShard S now sh) :=
    hc.sub fun _ _ => get_of_sweepShard
  rw [makeRoom, evicted]
  by_cases hroom : (sweepShard S now sh).len < S.maxPerShard
  · rw [if_pos hroom]
    exact hroom
  · obtain ⟨k, e, hvictim, hv⟩ := victim_spec it now hswept.named (by omega)
    rw [if_neg hroom, hvictim]
    exact lt_of_lt_of_le (Table.len_delete_lt hv.present) hswept.room

theorem get_of_entryFor (he : (entryFor S it now key sh).1.get k = some e) :
    sh.get k = some e := by
  rw [entryFor] at he
  cases hget : sh.get key with
  | some e₀ =>
    rw [hget] at he
    exact he
  | none =>
    rw [hget] at he
    change Table.get (if _ then _ else _) k = some e at he
    split at he
    · exact get_of_makeRoom he
    · exact he

/-- An add finds its key in the shard, or room for it. -/
theorem Capped.entryFor_room (hc : Capped S sh) (it : Iteration Bytes Entry)
    (now : Int) (key : Bytes) (hmax : 0 < S.maxPerShard) :
    (∃ e, (entryFor S it now key sh).1.get key = some e) ∨
      (entryFor S it now key sh).1.len < S.maxPerShard := by
  rw [entryFor]
  cases hget : sh.get key with
  | some e => exact .inl ⟨e, hget⟩
  | none =>
    right
    change Table.len (if _ then _ else _) < _
    split
    next => exact hc.len_makeRoom hmax
    next hroom => exact not_le.mp hroom

/-- An entry put in a shard that has its key, or room. -/
theorem Capped.set (hc : Capped S sh) (hkey : key ≠ [])
    (hroom : (∃ e₀, sh.get key = some e₀) ∨ sh.len < S.maxPerShard) :
    Capped S (sh.set key e) := by
  refine ⟨fun k f hf => ?_, ?_⟩
  · obtain ⟨rfl, -⟩ | ⟨-, hf⟩ := Table.get_set_cases hf
    · exact hkey
    · exact hc.named k f hf
  · cases hget : sh.get key with
    | some e₀ =>
      rw [Table.len_set_of_get hget]
      exact hc.room
    | none =>
      rw [Table.len_set_new hget]
      rcases hroom with ⟨e₀, he₀⟩ | hlt
      · rw [hget] at he₀
        cases he₀
      · exact hlt

-- ====== the evictions

/-- What makes an add drop an entry: it is stale, or it is the victim. -/
theorem gone_of_makeRoom (he : sh.get k = some e)
    (hgone : (makeRoom S it now sh).get k = none) :
    sweepable S now e = true ∨ evicted S it now sh = some k := by
  cases hs : sweepable S now e with
  | true => exact .inl rfl
  | false =>
    have hleft : (sweepShard S now sh).get k = some e := by
      rw [get_sweepShard, he, Option.filter_some_pos (by simp [hs])]
    rw [makeRoom] at hgone
    cases hev : evicted S it now sh with
    | none => simp [hev, hleft] at hgone
    | some victim =>
      rw [hev] at hgone
      by_cases hk : k = victim
      · exact .inr (congrArg some hk.symm)
      · rw [Table.get_delete, if_neg hk, hleft] at hgone
        cases hgone

theorem gone_of_addIn {level : Nat} (he : sh.get k = some e)
    (hgone : (addIn S it now key level sh).2.get k = none) :
    sweepable S now e = true ∨ evicted S it now sh = some k := by
  rw [addIn, Table.get_set] at hgone
  obtain ⟨-, hgone⟩ := passedNone hgone
  rw [entryFor] at hgone
  cases hget : sh.get key with
  | some e₀ =>
    rw [hget] at hgone
    simp [he] at hgone
  | none =>
    rw [hget] at hgone
    change Table.get (if _ then _ else _) k = none at hgone
    split at hgone
    · exact gone_of_makeRoom he hgone
    · rw [he] at hgone
      cases hgone

/-- The key an eviction takes, of what the sweep before it left. -/
theorem Capped.evicted (hc : Capped S sh) (he : sh.get k = some e)
    (hev : evicted S it now sh = some k) (hmax : 0 < S.maxPerShard) :
    Victim now (sweepShard S now sh) k e := by
  rw [Penaltybox.evicted] at hev
  obtain ⟨hfull, hev⟩ := passedSome hev
  obtain ⟨k', e', hvictim, hv⟩ := victim_spec it now
    (hc.sub fun _ _ => get_of_sweepShard).named
    (lt_of_lt_of_le hmax (not_lt.mp hfull))
  obtain rfl : k' = k := Option.some.inj (hvictim.symm.trans hev)
  have he' := get_of_sweepShard hv.present
  rw [he] at he'
  rw [Option.some.inj he']
  exact hv

-- ====== a run

variable {st : Store} {s : Step}

/-- What one call does to one shard. -/
theorem step_cases (s : Step) (st : Store) (i : Fin numShards) :
    (s.apply S st).2 i = st i ∨ (s.apply S st).2 i = sweepShard S s.now (st i) ∨
      ∃ key level, s.call = .add key level ∧ (s.apply S st).2 i =
          (addIn S s.iteration s.now key level (st i)).2 := by
  obtain ⟨now, call, it⟩ := s
  cases call with
  | boxedRemaining k => exact .inl rfl
  | sweepAll => exact .inr (.inl rfl)
  | add key level =>
    have hstep : (Step.apply S ⟨now, .add key level, it⟩ st).2 i =
        (add S it now key level st).2 i := rfl
    rw [hstep]
    by_cases hlevel : 1 ≤ level ∧ level ≤ maxLevel
    · rw [add_valid hlevel]
      by_cases hi : i = S.shardFor key
      · subst hi
        exact .inr (.inr ⟨key, level, rfl, Function.update_self ..⟩)
      · exact .inl (Function.update_of_ne hi ..)
    · exact .inl (by rw [add_invalid hlevel])

section

variable (hc : ∀ i, Capped S (st i))
include hc

theorem Capped.step (hs : s.call.counted ≠ some [])
    (hmax : 0 < S.maxPerShard) (i : Fin numShards) :
    Capped S ((s.apply S st).2 i) := by
  obtain heq | heq | ⟨key, level, hcall, heq⟩ := step_cases (S := S) s st i
  · exact heq ▸ hc i
  · exact heq ▸ (hc i).sub fun _ _ => get_of_sweepShard
  · have hkey : key ≠ [] := by
      rintro rfl
      exact hs (by rw [hcall]; rfl)
    rw [heq]
    exact ((hc i).sub fun _ _ => get_of_entryFor).set hkey
      ((hc i).entryFor_room _ _ key hmax)

theorem Capped.run {steps : List Step}
    (hkeys : ∀ s ∈ steps, s.call.counted ≠ some [])
    (hmax : 0 < S.maxPerShard) (i : Fin numShards) :
    Capped S ((run S steps st).2 i) := by
  induction steps generalizing st with
  | nil => exact hc i
  | cons s steps ih =>
    exact ih (Capped.step hc (hkeys s (.head _)) hmax)
      fun s hs => hkeys s (.tail _ hs)

/-- An entry a call removes is stale, or the victim of an eviction. -/
theorem gone_of_step (hmax : 0 < S.maxPerShard)
    (i : Fin numShards) (he : (st i).get k = some e)
    (hgone : ((s.apply S st).2 i).get k = none) : sweepable S s.now e = true ∨
      Victim s.now (sweepShard S s.now (st i)) k e := by
  obtain heq | heq | ⟨key, level, -, heq⟩ := step_cases (S := S) s st i
  · rw [heq, he] at hgone
    cases hgone
  · rw [heq, get_sweepShard, he, Option.filter_eq_none_iff] at hgone
    exact .inl (by simpa using hgone)
  · rw [heq] at hgone
    exact (gone_of_addIn he hgone).imp_right fun hev =>
      (hc i).evicted he hev hmax

end

/-- After any calls, at any times, with no add on the empty key: every
shard is within its share, the store within 64 of them, and what the next
call removes is an entry a sweep takes or one `makeRoomLocked` evicts. That
one is boxed only if all the sweep left are, and of its kind the longest
unseen. -/
theorem key_cap_is_hard (h : Handler) (shardFor : Bytes → Fin numShards)
    (steps : List Step) (hkeys : ∀ s ∈ steps, s.call.counted ≠ some []) :
    let S := newStore h shardFor
    let st := (run S steps blank).2
    (∀ i, (st i).len ≤ perShardKeys h.maxKeys) ∧
      ((∑ i, (st i).len : Nat) : Int) ≤ 64 * max (h.maxKeys / 64) 1 ∧
      ∀ (s : Step) (i : Fin numShards) (k : Bytes) (e : Entry),
        (st i).get k = some e → ((s.apply S st).2 i).get k = none →
        sweepable S s.now e = true ∨
          Victim s.now (sweepShard S s.now (st i)) k e := by
  intro S st
  have hmax : 0 < S.maxPerShard :=
    lt_of_lt_of_le Nat.zero_lt_one (Nat.le_max_right _ 1)
  have hblank : ∀ i, Capped S (blank i) := fun i =>
    ⟨fun k e he => absurd he (by simp [blank]), Nat.zero_le _⟩
  have hc : ∀ i, Capped S (st i) := Capped.run hblank hkeys hmax
  refine ⟨fun i => (hc i).room, ?_, fun s i k e => gone_of_step hc hmax i⟩
  have hsum : ∑ i, (st i).len ≤ 64 * perShardKeys h.maxKeys :=
    Finset.sum_le_card_nsmul _ _ _ fun i _ => (hc i).room
  rw [perShardKeys] at hsum
  change ∑ i, (st i).len ≤ 64 * max (h.maxKeys / 64).toNat 1 at hsum
  omega

/-- A map in the order it was filled, newest first. -/
def newestFirst : Iteration Bytes Entry := ⟨id, fun l => List.Perm.refl l⟩

/-- A share of two: the boxed key stays, though unseen for longer, and the
other makes room. -/
theorem key_cap_is_hard_example :
    let S := newStore { exampleHandler with maxKeys := 128 } fun _ => 0
    let st := (run S [⟨5, .add (str "a") 3, newestFirst⟩,
      ⟨6, .add (str "b") 1, newestFirst⟩] blank).2
    let s : Step := ⟨7, .add (str "c") 1, newestFirst⟩
    (∃ e, ((s.apply S st).2 0).get (str "a") = some e ∧ e.boxed 7 = true) ∧
      ((s.apply S st).2 0).get (str "b") = none ∧
      ∃ e, Victim s.now (sweepShard S s.now (st 0)) (str "b") e := by
  intro S st s
  have hgone : ((s.apply S st).2 0).get (str "b") = none := by decide +kernel
  obtain ⟨e, he, hfresh⟩ : ∃ e, (st 0).get (str "b") = some e ∧
      sweepable S s.now e = false := ⟨_, rfl, by decide +kernel⟩
  refine ⟨⟨_, rfl, by decide +kernel⟩, hgone, e, ((key_cap_is_hard _
    (fun _ => 0) _ ?_).2.2 s 0 _ e he hgone).resolve_left ?_⟩
  · decide +kernel
  · exact (hfresh ▸ Bool.false_ne_true)

end Hotserve.Penaltybox
