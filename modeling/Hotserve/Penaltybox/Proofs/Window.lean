/-
The penalty box counts a sliding window, up to one bucket.

Each call keeps `KeyOk` of a key it does not evict: an add on the key
(`KeyOk.add`), a sweep (`KeyOk.swept`), and an add on another key, which
may sweep this one's shard (`KeyOk.other`). So it holds after every run,
and an add at its end answers by the units of the key's history.
-/
import Hotserve.Penaltybox.Proofs.Counter

namespace Hotserve.Penaltybox

open History Bytes

variable {S : Setup} {h : History} {slot : Nat} {T now : Int} {level : Nat}

-- ====== a step

theorem get_sweepShard (sh : Shard) (key : Bytes) :
    (sweepShard S now sh).get key =
      (sh.get key).filter fun e => !sweepable S now e := by
  refine Option.ext fun e => ?_
  rw [sweepShard, Table.get_filter, Option.filter_eq_some_iff]

/-- A sweep keeps the key, or takes what it may. -/
theorem KeyOk.swept {o : Option Entry} (hk : KeyOk S slot h now o)
    (hfits : Fits S slot) :
    KeyOk S slot h now (o.filter fun e => !sweepable S now e) := by
  cases o with
  | none => exact hk
  | some e =>
    cases hsweep : sweepable S now e with
    | true =>
      rw [Option.filter_some_neg (by simp [hsweep])]
      exact hk.sweep hfits hsweep
    | false =>
      rw [Option.filter_some_pos (by simp [hsweep])]
      exact hk

/-- What room costs a key that is not evicted. -/
theorem KeyOk.makeRoom {it : Iteration Bytes Entry} {sh : Shard}
    {key : Bytes} (hk : KeyOk S slot h now (sh.get key))
    (hfits : Fits S slot) (hkept : evicted S it now sh ≠ some key) :
    KeyOk S slot h now ((makeRoom S it now sh).get key) := by
  have hswept := hk.swept hfits
  rw [← get_sweepShard] at hswept
  rw [Penaltybox.makeRoom]
  cases hev : evicted S it now sh with
  | none => exact hswept
  | some victim =>
    have hne : key ≠ victim := by
      rintro rfl
      exact hkept hev
    change KeyOk S slot h now (((sweepShard S now sh).delete victim).get key)
    rw [Table.get_delete, if_neg hne]
    exact hswept

/-- An add on another key of the shard. -/
theorem KeyOk.other {it : Iteration Bytes Entry} {sh : Shard}
    {key other : Bytes} (hk : KeyOk S slot h now (sh.get key))
    (hfits : Fits S slot) (hother : key ≠ other)
    (hkept : sh.get other = none → S.maxPerShard ≤ sh.len →
      evicted S it now sh ≠ some key) :
    KeyOk S slot h now ((addIn S it now other level sh).2.get key) := by
  rw [addIn, Table.get_set, if_neg hother, entryFor]
  cases hget : sh.get other with
  | some e => exact hk
  | none =>
    change KeyOk S slot h now (Table.get (if _ then _ else _) key)
    split
    next hfull => exact hk.makeRoom hfits (hkept hget hfull)
    next => exact hk

/-- The entry an add works on: its key's, or a new one. -/
theorem entryFor_snd (S : Setup) (it : Iteration Bytes Entry) (now : Int)
    (key : Bytes) (sh : Shard) :
    (entryFor S it now key sh).2 = (sh.get key).getD (.new now) := by
  rw [entryFor]
  cases sh.get key with
  | some e => rfl
  | none => rfl

/-- An add on the key itself. -/
theorem addIn_own (S : Setup) (it : Iteration Bytes Entry) (now : Int)
    (key : Bytes) (level : Nat) (sh : Shard) : (addIn S it now key level sh).1 =
        (((sh.get key).getD (.new now)).add S now level).1 ∧
      (addIn S it now key level sh).2.get key =
        some (((sh.get key).getD (.new now)).add S now level).2 := by
  rw [addIn, Table.get_set, if_pos rfl, entryFor_snd]
  exact ⟨rfl, rfl⟩

variable {it : Iteration Bytes Entry} {key : Bytes} {st : Store} {c : Handler}
  {shardFor : Bytes → Fin numShards}

theorem add_valid (hlevel : 1 ≤ level ∧ level ≤ maxLevel) :
    add S it now key level st =
      ((addIn S it now key level (st (S.shardFor key))).1,
        Function.update st (S.shardFor key)
          (addIn S it now key level (st (S.shardFor key))).2) := by
  rw [add, if_neg (by omega)]

/-- A response that is no level is dropped. -/
theorem add_invalid (hlevel : ¬ (1 ≤ level ∧ level ≤ maxLevel)) :
    add S it now key level st = (false, st) := by
  rw [add, if_pos (by omega)]

/-- An add keeps the invariant of every key it does not evict. -/
theorem KeyOk.step_add {k : Bytes}
    (hk : KeyOk S slot h now ((st (S.shardFor key)).get key))
    (hfits : Fits S slot)
    (hkept : Step.evicts S ⟨now, .add k level, it⟩ st ≠ some key) :
    KeyOk S slot (record key h ⟨now, .add k level, it⟩
        (.added (Penaltybox.add S it now k level st).1)) now
      (((Penaltybox.add S it now k level st).2 (S.shardFor key)).get key) := by
  by_cases hlevel : 1 ≤ level ∧ level ≤ maxLevel
  · rw [add_valid hlevel]
    by_cases hown : k = key
    · subst hown
      obtain ⟨hans, hget⟩ := addIn_own S it now k level (st (S.shardFor k))
      have hrec := hk.found.add level hfits
      rw [← hans, ← hget] at hrec
      simpa [record, hlevel] using hrec
    · have hrec (boxing : Bool) :
          record key h ⟨now, .add k level, it⟩ (.added boxing) = h := by
        simp [record, hown]
      rw [hrec]
      by_cases hshard : S.shardFor key = S.shardFor k
      · rw [hshard] at hk ⊢
        change KeyOk S slot h now (Table.get
          (Function.update st (S.shardFor k) _ (S.shardFor k)) key)
        rw [Function.update_self]
        refine hk.other hfits (Ne.symm hown) fun hnone hfull => ?_
        have hroom : ¬ (level < 1 ∨ maxLevel < level ∨
            ((st (S.shardFor k)).get k).isSome ∨
              (st (S.shardFor k)).len < S.maxPerShard) := by
          rw [hnone]
          simp only [Option.isSome_none, Bool.false_eq_true, false_or]
          omega
        have hevicts : Step.evicts S ⟨now, .add k level, it⟩ st =
            evicted S it now (st (S.shardFor k)) := if_neg hroom
        rwa [hevicts] at hkept
      · change KeyOk S slot h now (Table.get
          (Function.update st (S.shardFor k) _ (S.shardFor key)) key)
        rw [Function.update_of_ne hshard]
        exact hk
  · have hrec : record key h ⟨now, .add k level, it⟩ (.added false) = h :=
      if_neg fun hvalid => hlevel hvalid.2
    rw [add_invalid hlevel, hrec]
    exact hk

section

variable (hk : KeyOk S slot h T ((st (S.shardFor key)).get key))
include hk

/-- So does every call. -/
theorem KeyOk.step {s : Step} (hT : T ≤ s.now)
    (hfits : Fits S slot) (hkept : s.evicts S st ≠ some key) :
    KeyOk S slot (record key h s (s.apply S st).1) s.now
      (((s.apply S st).2 (S.shardFor key)).get key) := by
  obtain ⟨now, call, it⟩ := s
  have hnow := hk.mono hT
  cases call with
  | add k level => exact hnow.step_add hfits hkept
  | boxedRemaining k => exact hnow
  | sweepAll =>
    change KeyOk S slot h now
      ((sweepShard S now (st (S.shardFor key))).get key)
    rw [get_sweepShard]
    exact hnow.swept hfits

/-- Every run keeps it, up to any later time. -/
theorem KeyOk.run {steps : List Step}
    (hfits : Fits S slot) (hfirst : ∀ s ∈ steps, T ≤ s.now)
    (htimes : (steps.map Step.now).Pairwise (· ≤ ·)) (hT : T ≤ now)
    (hlast : ∀ s ∈ steps, s.now ≤ now) (hkept : Kept S key steps st) :
    KeyOk S slot (historyOf S key steps st h) now
      (((Penaltybox.run S steps st).2 (S.shardFor key)).get key) := by
  induction steps generalizing st h T with
  | nil => exact hk.mono hT
  | cons s steps ih =>
    rw [List.map_cons, List.pairwise_cons] at htimes
    have hs := hfirst s (.head _)
    refine ih (hk.step hs hfits hkept.1) ?_ htimes.2
      (hlast s (.head _))
      (fun x hx => hlast x (.tail _ hx)) hkept.2
    intro x hx
    exact htimes.1 _ (List.mem_map_of_mem hx)

end

-- ====== the whole store

/-- The budgets of a store are those `newStore` cuts. -/
theorem newStore_budgets {b : TierBudget}
    (hb : b ∈ (newStore c shardFor).budgets) :
    b.bucketDur = bucketDur b.window ∧
      b.window ≤ (newStore c shardFor).maxWindow := by
  have hfold (l : List (Nat × TierConfig)) : ∀ w : Int,
      w ≤ l.foldl (fun w p => max w p.2.window) w ∧
        ∀ p ∈ l, p.2.window ≤ l.foldl (fun w p => max w p.2.window) w := by
    induction l with
    | nil =>
      intro w
      exact ⟨le_refl w, nofun⟩
    | cons q l ih =>
      intro w
      obtain ⟨hw, hl⟩ := ih (max w q.2.window)
      rw [List.foldl_cons]
      refine ⟨by omega, fun p hp => ?_⟩
      rcases List.mem_cons.mp hp with rfl | hp
      · omega
      · exact hl p hp
  obtain ⟨hdefault, htiers⟩ := hfold c.explicit c.window
  rcases List.mem_cons.mp hb with rfl | hb
  · exact ⟨rfl, hdefault⟩
  · obtain ⟨p, hp, rfl⟩ := List.mem_map.mp hb
    exact ⟨rfl, htiers p hp⟩

/-- A slot with a window is one of the budgets. -/
theorem budget_mem (hwindow : 16 ≤ (S.budget slot).window) :
    S.budget slot ∈ S.budgets := by
  rw [Setup.budget, List.getD_eq_getElem?_getD] at hwindow ⊢
  cases hget : S.budgets[slot]? with
  | some b => exact List.mem_of_getElem? hget
  | none =>
    rw [hget] at hwindow
    exact absurd hwindow (by decide)

/-- A window of sixteen nanoseconds or more has sixteen buckets in it. -/
theorem newStore_fits
    (hwindow : 16 ≤ ((newStore c shardFor).budget slot).window) :
    Fits (newStore c shardFor) slot := by
  obtain ⟨hdur, hmax⟩ := newStore_budgets (budget_mem hwindow)
  have hsixteen : ((numBuckets : Nat) : Int) = 16 := rfl
  rw [bucketDur, hsixteen] at hdur
  exact ⟨rfl, by omega, by omega⟩

/-- A budget with a window has the TTL `Validate` asks for. -/
theorem newStore_ttl {dur : Int → Bytes} (hvalid : c.validate dur = .ok ())
    {b : TierBudget} (hb : b ∈ (newStore c shardFor).budgets) :
    0 < b.penaltyTTL := by
  simp only [Handler.validate, Except.check_eq_ok] at hvalid
  obtain ⟨-, -, httl, -, -, -, -, hvalid⟩ := hvalid
  have htiers := Except.forM_eq_ok.mp hvalid
  rcases List.mem_cons.mp hb with rfl | hb
  · rw [failIf_eq_ok, decide_eq_false_iff_not] at httl
    exact not_le.mp httl
  · obtain ⟨p, hp, rfl⟩ := List.mem_map.mp hb
    obtain ⟨l, -, hl⟩ := List.mem_filterMap.mp hp
    obtain ⟨t, hlookup, rfl⟩ := Option.map_eq_some_iff.mp hl
    obtain ⟨before, after, htiersEq, -⟩ :=
      List.lookup_eq_some_iff.mp hlookup
    have htier := htiers ((l : Int), t) (by rw [htiersEq]; simp)
    simp only [validateTier, Except.check_eq_ok] at htier
    obtain ⟨-, -, -, -, htier⟩ := htier
    rw [failIf_eq_ok, decide_eq_false_iff_not] at htier
    exact not_le.mp htier

/-- What is left of a key's box. -/
theorem KeyOk.boxedRemaining_iff {d : Int}
    (hk : KeyOk S slot h now ((st (S.shardFor key)).get key)) :
    boxedRemaining S now key st = some d ↔ 0 < d ∧ EndsAt S h (now + d) := by
  have hbox (hd : 0 < d) := hk.box (now + d) (by omega)
  rw [boxedRemaining]
  cases hget : (st (S.shardFor key)).get key with
  | none =>
    rw [hget] at hbox
    constructor
    · intro hnone
      cases hnone
    · rintro ⟨hd, hend⟩
      have hnone := (hbox hd).mpr hend
      cases hnone
  | some e =>
    rw [hget, Option.bind_some] at hbox
    change (e.boxedUntil.map (· - now)).filter _ = some d ↔ _
    rw [Option.filter_eq_some_iff, Option.map_eq_some_iff,
      decide_eq_true_eq, and_comm]
    refine and_congr_right fun hd => ?_
    rw [← hbox hd]
    constructor
    · rintro ⟨u, hu, rfl⟩
      rw [hu, Option.some_inj]
      omega
    · intro hu
      exact ⟨now + d, hu, by omega⟩

/-- The invariant after a run from a blank store. -/
theorem keyOk_run {steps : List Step} (hfits : Fits S slot)
    (htimes : (steps.map Step.now).Pairwise (· ≤ ·))
    (hlast : ∀ s ∈ steps, s.now ≤ now) (hkept : Kept S key steps blank) :
    KeyOk S slot (historyOf S key steps blank []) now
      (((run S steps blank).2 (S.shardFor key)).get key) := by
  cases steps with
  | nil => exact keyOk_nil
  | cons s steps =>
    refine KeyOk.run (T := s.now) keyOk_nil hfits ?_ htimes
      (hlast s (.head _)) hlast hkept
    intro x hx
    rw [List.map_cons, List.pairwise_cons] at htimes
    rcases List.mem_cons.mp hx with rfl | hx
    · exact le_refl _
    · exact htimes.1 _ (List.mem_map_of_mem hx)

/-- After any run at non-decreasing times that never evicts a key, an add
on it in a window of sixteen nanoseconds or more: boxing means that the
units of the last sixteen buckets, this response's among them, have passed
the limit, and where those of the last fifteen have, a key not boxed is
boxed for the slot's TTL. The key is boxed until the latest end its
crossings gave, and an add meanwhile only moves `lastSeen`. -/
theorem sliding_window (dur : Int → Bytes) (c : Handler)
    (shardFor : Bytes → Fin numShards) (key : Bytes) (steps : List Step)
    (it : Iteration Bytes Entry) (now : Int) (level : Nat)
    (hvalid : c.validate dur = .ok ())
    (hlevel : 1 ≤ level ∧ level ≤ maxLevel)
    (hwindow : 16 ≤ ((newStore c shardFor).budget
      ((newStore c shardFor).levelSlot level)).window)
    (htimes : (steps.map Step.now).Pairwise (· ≤ ·))
    (hlast : ∀ s ∈ steps, s.now ≤ now)
    (hkept : Kept (newStore c shardFor) key steps blank) :
    let S := newStore c shardFor
    let slot := S.levelSlot level
    let budget := S.budget slot
    let st := (run S steps blank).2
    let hist := historyOf S key steps blank []
    let U := fun d => budget.cost level + hist.lastUnits S slot now d
    let r := add S it now key level st
    (r.1 = true → budget.limit < U (16 * budget.bucketDur)) ∧
      (¬ hist.Boxed S now → budget.limit < U (15 * budget.bucketDur) →
        r.1 = true) ∧
      (r.1 = true → boxedRemaining S now key r.2 = some budget.penaltyTTL) ∧
      (∀ d, boxedRemaining S now key st = some d ↔
        0 < d ∧ EndsAt S hist (now + d)) ∧
      (hist.Boxed S now → r.1 = false ∧ ∃ e,
        (st (S.shardFor key)).get key = some e ∧
          (r.2 (S.shardFor key)).get key =
            some { e with lastSeen := now }) := by
  intro S slot budget st hist U r
  have hfits : Fits S slot := newStore_fits hwindow
  have hk : KeyOk S slot hist now ((st (S.shardFor key)).get key) :=
    keyOk_run hfits htimes hlast hkept
  obtain ⟨hans, hget⟩ := addIn_own S it now key level (st (S.shardFor key))
  have hr : r.1 = (addIn S it now key level (st (S.shardFor key))).1 :=
    congrArg Prod.fst (add_valid hlevel)
  have hr2 : r.2 (S.shardFor key) =
      (addIn S it now key level (st (S.shardFor key))).2 := by
    change (add S it now key level st).2 (S.shardFor key) = _
    rw [add_valid hlevel]
    exact Function.update_self ..
  rw [hr2, hget, hr, hans]
  refine ⟨?_, ?_, ?_, fun d => hk.boxedRemaining_iff, ?_⟩
  · intro hcross
    exact (hk.found.crossed hfits hcross).2
  · intro hfree hover
    exact hk.found.crosses hfits hfree hover
  · intro hcross
    have hafter := hk.found.add level hfits
    have hfree := (hk.found.crossed hfits hcross).1
    rw [hcross, ← hget, ← hr2] at hafter
    have httl : 0 < budget.penaltyTTL :=
      newStore_ttl hvalid (budget_mem hwindow)
    exact hafter.boxedRemaining_iff.mpr
      ⟨httl, (endsAt_crossing hfree (by omega)).mpr rfl⟩
  · intro hboxed
    obtain ⟨e, he, hb⟩ := (Option.any_eq_true ..).mp (hk.boxed_iff.mpr hboxed)
    rw [he, Option.getD_some, Entry.add_boxed hb]
    exact ⟨rfl, e, rfl, rfl⟩

/-- A handler that boxes at the third response in 160 ns. -/
def exampleHandler : Handler where
  header := str "Penalty"
  minLevel := 1
  window := 160
  limit := 2
  penaltyTTL := 100
  status := 429
  maxKeys := 64
  tiers := []

/-- Two responses counted, one sweep, and the third boxes. -/
theorem sliding_window_example :
    let S := newStore exampleHandler fun _ => 0
    let asIs : Iteration Bytes Entry := ⟨id, fun l => List.Perm.refl l⟩
    let steps : List Step := [⟨0, .add (str "k") 1, asIs⟩,
      ⟨30, .sweepAll, asIs⟩, ⟨40, .add (str "k") 1, asIs⟩]
    let r := add S asIs 120 (str "k") 1 (run S steps blank).2
    r.1 = true ∧ boxedRemaining S 120 (str "k") r.2 = some 100 := by
  intro S asIs steps r
  have hwindow := sliding_window (fun _ => []) exampleHandler (fun _ => 0)
    (str "k") steps asIs 120 1 (by decide +kernel) (by decide)
    (by decide +kernel) (by decide) (by decide) (by decide +kernel)
  have hcross : r.1 = true := by
    refine hwindow.2.1 ?_ ?_
    · decide +kernel
    · decide +kernel
  exact ⟨hcross, hwindow.2.2.1 hcross⟩

end Hotserve.Penaltybox
