/-
The throttle of failed authentications, which bounds what an
unauthenticated caller can write to the journal
(liveswap/deploytrust/limiter.go).

Each of its three tables of times is a sliding-window ledger (Rate.lean):
one call leaves the times of a table as they are, drops those that have
left the window, or adds its own time where there is room (`Meets.call`).
What is logged is among the times added, for the process as a whole, for a
source that could not be consulted, and for an address as far back as the
limiter has not forgotten it.
-/
import Hotserve.Table
import Hotserve.Rate
import Hotserve.Bytes
import Mathlib.Algebra.Group.Int.Defs

namespace Hotserve.Liveswap.Limiter

/-- `FailBudget`. -/
def failBudget : Nat := 10

/-- `FailGlobalBudget`. -/
def failGlobalBudget : Nat := 100

/-- `FailWindow`: a minute, in nanoseconds. -/
def failWindow : Int := 60 * 10 ^ 9

def keysMax : Nat := 4096

/-- `failWindow`, the type: the failures counted, oldest first, and whether
the line that the budget is spent has been written. -/
structure FailWindow where
  times : List Int
  tripped : Bool

/-- `Limiter`; `lastSweep` is `none` for the zero time. -/
structure Limiter where
  keys : Table Bytes FailWindow
  global : FailWindow
  lastSweep : Option Int
  outages : Table (Bytes × Bytes) Int

/-- `NewLimiter`. -/
def newLimiter : Limiter := ⟨.empty, ⟨[], false⟩, none, .empty⟩

/-- The failures counted of an address. -/
def Limiter.held (l : Limiter) (key : Bytes) : List Int :=
  ((l.keys.get key).map FailWindow.times).getD []

/-- `failVerdict`. -/
structure FailVerdict where
  log : Bool
  trippedKey : Bool
  trippedGlobal : Bool

def silent : FailVerdict := ⟨false, false, false⟩

def withinWindow (times : List Int) (now : Int) : List Int :=
  times.dropWhile fun t => decide (failWindow ≤ now - t)

/-- One turn of `makeRoomLocked`'s last loop. -/
def drop (keys : Table Bytes FailWindow) (p : Bytes × FailWindow) :
    Table Bytes FailWindow :=
  if keys.len < keysMax then keys else keys.delete p.1

/-- The sweep of drained windows. -/
def sweep (now : Int) (keys : Table Bytes FailWindow) :
    Table Bytes FailWindow :=
  (keys.mapValues fun _ fw => { fw with times := withinWindow fw.times now })
    |>.filter fun p => !p.2.times.isEmpty

def makeRoomLocked (it : Iteration Bytes FailWindow) (now : Int)
    (l : Limiter) : Limiter :=
  if l.keys.len < keysMax then l
  else
    let due := l.lastSweep.all fun t => decide (failWindow ≤ now - t)
    let keys := if due then sweep now l.keys else l.keys
    { l with
      lastSweep := if due then some now else l.lastSweep
      keys := (it.order keys.entries).foldl drop keys }

/-- The limiter and the window `fail` goes on with. -/
def windowOf (it : Iteration Bytes FailWindow) (now : Int) (key : Bytes)
    (l : Limiter) : Limiter × FailWindow :=
  match l.keys.get key with
  | some fw => (l, fw)
  | none => (makeRoomLocked it now l, ⟨[], false⟩)

def fail (it : Iteration Bytes FailWindow) (now : Int) (key : Bytes)
    (l : Limiter) : Limiter × FailVerdict :=
  let (l, fw) := windowOf it now key l
  let times := withinWindow fw.times now
  if failBudget ≤ times.length then
    ({ l with keys := l.keys.set key { fw with times := times } }, silent)
  else
    let fw : FailWindow := ⟨times ++ [now], !times.isEmpty && fw.tripped⟩
    let logged := withinWindow l.global.times now
    if failGlobalBudget ≤ logged.length then
      ({ l with
          keys := l.keys.set key fw
          global := { l.global with times := logged } }, silent)
    else
      let global : FailWindow :=
        ⟨logged ++ [now], !logged.isEmpty && l.global.tripped⟩
      let trippedKey := fw.times.length == failBudget && !fw.tripped
      let trippedGlobal :=
        global.times.length == failGlobalBudget && !global.tripped
      ({ l with
          keys := l.keys.set key { fw with tripped := fw.tripped || trippedKey }
          global :=
            { global with tripped := global.tripped || trippedGlobal } },
        ⟨true, trippedKey, trippedGlobal⟩)

def outage (now : Int) (k : Bytes × Bytes) (l : Limiter) : Limiter × Bool :=
  if (l.outages.get k).any fun last => decide (now - last < failWindow) then
    (l, false)
  else
    let outages := l.outages.filter fun p => !decide (failWindow ≤ now - p.2)
    ({ l with outages := outages.set k now }, true)

def clear (key : Bytes) (l : Limiter) : Limiter :=
  { l with keys := l.keys.delete key }

-- ====== calls and runs

inductive Op where
  | fail (it : Iteration Bytes FailWindow) (key : Bytes)
  | clear (key : Bytes)
  | outage (k : Bytes × Bytes)

/-- A call of the limiter, made at `now`. -/
structure Call where
  before : Limiter
  now : Int
  op : Op

namespace Call

def after (c : Call) : Limiter :=
  match c.op with
  | .fail it key => (fail it c.now key c.before).1
  | .clear key => clear key c.before
  | .outage k => (outage c.now k c.before).1

/-- What a call of `fail` answers; the other calls say nothing. -/
def verdict (c : Call) : FailVerdict :=
  match c.op with
  | .fail it key => (fail it c.now key c.before).2
  | _ => silent

/-- A logged failure of this address. -/
def logsOf (key : Bytes) (c : Call) : Bool :=
  match c.op with
  | .fail _ key' => key' == key && c.verdict.log
  | _ => false

/-- `outage` of this source and scope, answered true. -/
def tells (k : Bytes × Bytes) (c : Call) : Bool :=
  match c.op with
  | .outage k' => k' == k && (outage c.now k' c.before).2
  | _ => false

/-- The address was neither cleared nor evicted, unless its window had
drained. -/
def keeps (key : Bytes) (c : Call) : Bool :=
  (c.before.keys.get key).all fun fw =>
    (c.after.keys.get key).isSome || (withinWindow fw.times c.now).isEmpty

/-- The global window is empty at the time of the call. -/
def drained (c : Call) : Bool :=
  (withinWindow c.before.global.times c.now).isEmpty

end Call

/-- The limiter after any calls at non-decreasing times, the newest first;
the last was made at or before `now`. -/
inductive Runs : Int → Limiter → List Call → Prop where
  | new (now : Int) : Runs now newLimiter []
  | call {now later : Int} {l : Limiter} {trace : List Call} (op : Op) :
      Runs now l trace → now ≤ later →
        Runs later (Call.after ⟨l, later, op⟩) (⟨l, later, op⟩ :: trace)

/-- How many such calls there were in the window that starts at `t`. -/
def count (p : Call → Bool) (t : Int) (trace : List Call) : Nat :=
  (trace.filter fun c =>
    p c && decide (t ≤ c.now ∧ c.now < t + failWindow)).length

-- ====== ledgers of calls

/-- The times held are a ledger of at least the calls of `p`. -/
def Meets (B : Nat) (p : Call → Bool) (now : Int) (held : List Int)
    (trace : List Call) : Prop :=
  ∃ granted, Ledger B failWindow now held granted ∧
    ((trace.filter p).map Call.now).Sublist granted

section
variable {B : Nat} {p : Call → Bool} {now later t : Int}
variable {held held' : List Int} {l : Limiter} {trace : List Call} {op : Op}
variable {it : Iteration Bytes FailWindow} {key : Bytes}

theorem Meets.nil : Meets B p now [] [] := ⟨[], .empty, .slnil⟩

theorem Meets.count_le (h : Meets B p now held trace) (t : Int) :
    count p t trace ≤ B := by
  obtain ⟨granted, hledger, hsub⟩ := h
  refine Nat.le_trans ?_ (hledger.rated.count_le t)
  refine Nat.le_trans (Nat.le_of_eq ?_) (hsub.filter _).length_le
  rw [count, List.filter_map, List.length_map, List.filter_filter]
  simp only [Function.comp_def, Bool.and_comm]

/-- What one call may do to the times held. -/
def Moves (B : Nat) (now : Int) (counted : Bool) (held held' : List Int) :
    Prop :=
  counted = false ∧ (held' = held ∨ held' = withinWindow held now) ∨
    (withinWindow held now).length < B ∧ held' = withinWindow held now ++ [now]

theorem Meets.call (h : Meets B p now held trace) (hnow : now ≤ later)
    {c : Call} (hc : c.now = later) (hmoves : Moves B later (p c) held held') :
    Meets B p later held' (c :: trace) := by
  obtain ⟨granted, hledger, hsub⟩ := h
  have hledger := hledger.mono hnow
  rcases hmoves with ⟨hp, hheld⟩ | ⟨hroom, rfl⟩
  · refine ⟨granted, ?_, by rwa [List.filter_cons_of_neg (by simp [hp])]⟩
    rcases hheld with rfl | rfl
    · exact hledger
    · exact hledger.expire
  · refine ⟨later :: granted, hledger.expire.grant hroom, ?_⟩
    rw [List.filter_cons]
    split
    · rw [List.map_cons, hc]
      exact hsub.cons_cons later
    · exact hsub.cons later

-- ====== room in the table

theorem drop_get {keys : Table Bytes FailWindow} {q : Bytes × FailWindow}
    {fw : FailWindow} (h : (drop keys q).get key = some fw) :
    keys.get key = some fw := by
  unfold drop at h
  split at h
  · exact h
  · exact Table.get_of_delete h

theorem foldl_drop_get {qs : List (Bytes × FailWindow)}
    {keys : Table Bytes FailWindow} {fw : FailWindow}
    (h : (qs.foldl drop keys).get key = some fw) : keys.get key = some fw := by
  induction qs generalizing keys with
  | nil => exact h
  | cons q qs ih => exact drop_get (ih h)

/-- The first address of the table is dropped where it is full. -/
theorem foldl_drop_len {keys : Table Bytes FailWindow}
    (hlen : keys.len ≤ keysMax) :
    ((it.order keys.entries).foldl drop keys).len < keysMax := by
  have hperm := it.perm keys.entries
  cases hqs : it.order keys.entries with
  | nil =>
    rw [hqs] at hperm
    rw [List.foldl_nil, Table.len, ← hperm.length_eq]
    decide
  | cons q qs =>
    have hq : keys.get q.1 = some q.2 :=
      Table.get_eq_some_iff.mpr (hperm.mem_iff.mp (by simp [hqs]))
    rw [List.foldl_cons]
    refine Nat.lt_of_le_of_lt
      (Table.len_le fun k v hv => ⟨v, foldl_drop_get hv⟩) ?_
    rw [drop]
    split
    · assumption
    · exact Nat.lt_of_lt_of_le (Table.len_delete_lt hq) hlen

/-- A window that is still there has its times, or those of them that are
in the window. -/
def Shrinks (now : Int) (key : Bytes) (l l' : Limiter) : Prop :=
  ∀ fw', l'.keys.get key = some fw' → ∃ fw, l.keys.get key = some fw ∧
    (fw'.times = fw.times ∨ fw'.times = withinWindow fw.times now)

section
variable (it : Iteration Bytes FailWindow) (now : Int) (key : Bytes)
variable (l : Limiter)

theorem makeRoomLocked_shrinks :
    Shrinks now key l (makeRoomLocked it now l) := by
  intro fw' hfw
  unfold makeRoomLocked at hfw
  split at hfw
  · exact ⟨fw', hfw, .inl rfl⟩
  · have hfw := foldl_drop_get hfw
    split at hfw
    · obtain ⟨hmap, -⟩ := Table.get_filter.mp hfw
      rw [Table.get_mapValues, Option.map_eq_some_iff] at hmap
      obtain ⟨fw, hget, rfl⟩ := hmap
      exact ⟨fw, hget, .inr rfl⟩
    · exact ⟨fw', hfw, .inl rfl⟩

theorem makeRoomLocked_len {l : Limiter} (hlen : l.keys.len ≤ keysMax) :
    (makeRoomLocked it now l).keys.len < keysMax := by
  unfold makeRoomLocked
  split
  · assumption
  · refine foldl_drop_len ?_
    split
    · exact Nat.le_trans (List.length_filter_le ..)
        (by simpa [Table.mapValues, Table.len] using hlen)
    · exact hlen

theorem makeRoomLocked_rest : (makeRoomLocked it now l).global = l.global ∧
      (makeRoomLocked it now l).outages = l.outages := by
  unfold makeRoomLocked
  split <;> exact ⟨rfl, rfl⟩

/-- What `fail` goes on with. -/
theorem windowOf_spec : (windowOf it now key l).2.times = l.held key ∧
      (∀ k, Shrinks now k l (windowOf it now key l).1) ∧
      (windowOf it now key l).1.global = l.global ∧
      (windowOf it now key l).1.outages = l.outages ∧
      (l.keys.len ≤ keysMax → ∀ fw,
        ((windowOf it now key l).1.keys.set key fw).len ≤ keysMax) := by
  unfold windowOf Limiter.held
  cases hget : l.keys.get key with
  | some fw =>
    refine ⟨rfl, fun k fw' h => ⟨fw', h, .inl rfl⟩, rfl, rfl, ?_⟩
    intro hlen fw'
    rwa [Table.len_set_of_get hget]
  | none =>
    refine ⟨rfl, fun k => makeRoomLocked_shrinks it now k l,
      (makeRoomLocked_rest it now l).1, (makeRoomLocked_rest it now l).2, ?_⟩
    intro hlen fw'
    have hnone : (makeRoomLocked it now l).keys.get key = none := by
      rw [Option.eq_none_iff_forall_ne_some]
      intro fw hfw
      obtain ⟨_, h, -⟩ := makeRoomLocked_shrinks it now key l fw hfw
      rw [hget] at h
      cases h
    rw [Table.len_set_new hnone]
    exact makeRoomLocked_len it now hlen

-- ====== what one call does

/-- The flag of a window: it is written where it was not set, and reset
only once the window has drained. -/
def Trips (now : Int) (tripped : Bool) (g g' : FailWindow) : Prop :=
  (tripped → g.tripped = false ∧ g'.tripped = true) ∧
    (g.tripped → g'.tripped = true ∨ (withinWindow g.times now).isEmpty)

theorem trips_logged (g : FailWindow) (now : Int) {logged : List Int}
    (hlogged : withinWindow g.times now = logged) :
    Trips now ((logged ++ [now]).length == failGlobalBudget &&
      !(!logged.isEmpty && g.tripped)) g ⟨logged ++ [now],
        (!logged.isEmpty && g.tripped) ||
          ((logged ++ [now]).length == failGlobalBudget &&
            !(!logged.isEmpty && g.tripped))⟩ := by
  cases logged with
  | nil => simp [Trips, hlogged, failGlobalBudget]
  | cons x xs => simp +contextual [Trips]

theorem fail_spec : ∃ fw, (fail it now key l).1.keys =
        (windowOf it now key l).1.keys.set key fw ∧
      Moves failBudget now (fail it now key l).2.log (l.held key) fw.times ∧
      Moves failGlobalBudget now (fail it now key l).2.log l.global.times
        (fail it now key l).1.global.times ∧
      Trips now (fail it now key l).2.trippedGlobal l.global
        (fail it now key l).1.global ∧
      ((fail it now key l).2.trippedKey ∨ (fail it now key l).2.trippedGlobal →
        (fail it now key l).2.log) ∧
      (fail it now key l).1.outages = l.outages := by
  obtain ⟨htimes, -, hglobal, hout, -⟩ := windowOf_spec it now key l
  unfold fail
  rw [← htimes, ← hglobal, ← hout]
  dsimp only
  split
  next hover =>
    exact ⟨_, rfl, .inl ⟨rfl, .inr rfl⟩, .inl ⟨rfl, .inl rfl⟩,
      ⟨nofun, fun h => .inl h⟩, nofun, rfl⟩
  next hroom =>
    have hkey := Nat.lt_of_not_le hroom
    split
    next hspent =>
      exact ⟨_, rfl, .inr ⟨hkey, rfl⟩, .inl ⟨rfl, .inr rfl⟩,
        ⟨nofun, fun h => .inl h⟩, nofun, rfl⟩
    next hleft =>
      exact ⟨_, rfl, .inr ⟨hkey, rfl⟩, .inr ⟨Nat.lt_of_not_le hleft, rfl⟩,
        trips_logged _ now rfl, fun _ => rfl, rfl⟩

end

theorem Shrinks.moves {c : Call} (h : Shrinks c.now key c.before c.after)
    (hkeeps : c.keeps key) :
    Moves B c.now false (c.before.held key) (c.after.held key) := by
  refine .inl ⟨rfl, ?_⟩
  unfold Call.keeps at hkeeps
  unfold Limiter.held
  cases hafter : c.after.keys.get key with
  | some fw' =>
    obtain ⟨fw, hfw, htimes⟩ := h fw' hafter
    rw [hfw]
    exact htimes
  | none =>
    cases hbefore : c.before.keys.get key with
    | none => exact .inl rfl
    | some fw =>
      simp only [hafter, hbefore, Option.all_some, Option.isSome_none,
        Bool.false_or, List.isEmpty_iff] at hkeeps
      exact .inr hkeeps.symm

/-- Of a source and scope the time last logged is held while it is in the
window. -/
theorem outage_moves (k k' : Bytes × Bytes) :
    Moves 1 now (k' == k && (outage now k' l).2) (l.outages.get k).toList
      ((outage now k' l).1.outages.get k).toList := by
  unfold outage
  split
  next => exact .inl ⟨Bool.and_false _, .inl rfl⟩
  next hout =>
    dsimp only
    rw [Table.get_set]
    split
    next hk =>
      subst hk
      have hnil : withinWindow (l.outages.get k).toList now = [] := by
        cases hget : l.outages.get k with
        | none => rfl
        | some last =>
          simp only [hget, Option.any_some, decide_eq_true_eq] at hout
          simp [withinWindow, Int.not_lt.mp hout]
      exact .inr ⟨by simp [hnil], by simp [hnil]⟩
    next hk =>
      refine .inl ⟨by simp [Ne.symm hk], .inr ?_⟩
      have hfilter : (l.outages.filter fun p =>
          !decide (failWindow ≤ now - p.2)).get k = (l.outages.get k).filter
            fun last => !decide (failWindow ≤ now - last) :=
        Option.ext fun last => by
          rw [Table.get_filter, Option.filter_eq_some_iff]
      rw [hfilter]
      cases l.outages.get k with
      | none => rfl
      | some last =>
        by_cases hlast : failWindow ≤ now - last <;>
          simp [withinWindow, hlast]

/-- What a call may do to each table, and what it answers. -/
structure CallSpec (c : Call) : Prop where
  global : Moves failGlobalBudget c.now c.verdict.log c.before.global.times
    c.after.global.times
  keys : ∀ key, c.keeps key → Moves failBudget c.now (c.logsOf key)
    (c.before.held key) (c.after.held key)
  outages : ∀ k, Moves 1 c.now (c.tells k) (c.before.outages.get k).toList
    (c.after.outages.get k).toList
  trips : Trips c.now c.verdict.trippedGlobal c.before.global c.after.global
  logs : c.verdict.trippedKey ∨ c.verdict.trippedGlobal → c.verdict.log
  len : c.before.keys.len ≤ keysMax → c.after.keys.len ≤ keysMax

theorem callSpec (c : Call) : CallSpec c := by
  obtain ⟨l, now, op⟩ := c
  cases op with
  | fail it key =>
    obtain ⟨fw, hkeys, hkey, hglobal, htrips, hlogs, hout⟩ :=
      fail_spec it now key l
    obtain ⟨-, hshrinks, -, -, hlen⟩ := windowOf_spec it now key l
    refine ⟨hglobal, fun k hkeeps => ?_, fun k => ?_, htrips, hlogs,
      fun h => ?_⟩
    · by_cases hk : key = k
      · subst hk
        simpa [Call.logsOf, Call.verdict, Call.after, Limiter.held, hkeys,
          Table.get_set] using hkey
      · have hother : Call.logsOf k ⟨l, now, .fail it key⟩ = false := by
          simp [Call.logsOf, hk]
        rw [hother]
        refine Shrinks.moves (fun fw' hfw => hshrinks k fw' ?_) hkeeps
        simpa [Call.after, hkeys, Table.get_set, Ne.symm hk] using hfw
    · exact .inl ⟨rfl, .inl (by rw [Call.after, hout])⟩
    · rw [Call.after, hkeys]
      exact hlen h fw
  | clear key =>
    exact ⟨.inl ⟨rfl, .inl rfl⟩, fun k => Shrinks.moves fun fw' hfw =>
        ⟨fw', Table.get_of_delete hfw, .inl rfl⟩,
      fun k => .inl ⟨rfl, .inl rfl⟩, ⟨nofun, .inl⟩, nofun,
      Nat.le_trans (List.length_filter_le ..)⟩
  | outage k' =>
    have hrest : (outage now k' l).1.keys = l.keys ∧
        (outage now k' l).1.global = l.global := by
      unfold outage
      split <;> exact ⟨rfl, rfl⟩
    refine ⟨.inl ⟨rfl, .inl ?_⟩, fun k => Shrinks.moves fun fw' hfw =>
      ⟨fw', ?_, .inl rfl⟩, fun k => outage_moves k k',
      ⟨nofun, fun h => .inl ?_⟩, nofun, fun h => ?_⟩
    all_goals simp_all [Call.after]

-- ====== every run

/-- Which ledger each table of a reached limiter is. -/
structure Inv (now : Int) (l : Limiter) (trace : List Call) : Prop where
  global : Meets failGlobalBudget (fun c => c.verdict.log) now l.global.times
    trace
  keys : ∀ key, Meets failBudget (Call.logsOf key) now (l.held key)
    (trace.takeWhile (Call.keeps key))
  outages : ∀ k, Meets 1 (Call.tells k) now (l.outages.get k).toList trace
  len : l.keys.len ≤ keysMax
  tripped : ∀ newer c older, trace = newer ++ c :: older →
    c.verdict.trippedGlobal →
      l.global.tripped = true ∨ ∃ d ∈ newer, d.drained

theorem Inv.call (h : Inv now l trace) (hnow : now ≤ later) (op : Op) :
    Inv later (Call.after ⟨l, later, op⟩) (⟨l, later, op⟩ :: trace) := by
  have hc := callSpec ⟨l, later, op⟩
  refine ⟨h.global.call hnow rfl hc.global, fun key => ?_,
    fun k => (h.outages k).call hnow rfl (hc.outages k), hc.len h.len, ?_⟩
  · rw [List.takeWhile_cons]
    split
    next hkeeps => exact (h.keys key).call hnow rfl (hc.keys key hkeeps)
    next hforgets =>
      -- an address that is forgotten holds nothing
      have hnone : (Call.after ⟨l, later, op⟩).keys.get key = none := by
        rw [Option.eq_none_iff_forall_ne_some]
        exact fun fw hfw => hforgets (by simp [Call.keeps, hfw])
      rw [Limiter.held, hnone]
      exact .nil
  · rintro newer c older heq htripped
    cases newer with
    | nil =>
      obtain ⟨rfl, -⟩ := List.cons.inj heq
      exact .inl (hc.trips.1 htripped).2
    | cons d newer =>
      obtain ⟨rfl, hrest⟩ := List.cons.inj heq
      rcases h.tripped newer c older hrest htripped with hset | ⟨d, hd, hdr⟩
      · exact (hc.trips.2 hset).imp id fun h => ⟨_, .head _, h⟩
      · exact .inr ⟨d, .tail _ hd, hdr⟩

theorem Runs.inv (h : Runs now l trace) : Inv now l trace := by
  induction h with
  | new now =>
    exact ⟨.nil, fun _ => .nil, fun _ => .nil, Nat.zero_le _, by simp⟩
  | call op _ hnow ih => exact ih.call hnow op

/-- The calls up to any of a run are a run. -/
theorem Runs.suffix {newer older : List Call}
    (h : Runs now l (newer ++ older)) : ∃ now l, Runs now l older := by
  induction newer generalizing now l with
  | nil => exact ⟨now, l, h⟩
  | cons c newer ih =>
    cases h with
    | call _ h _ => exact ih h

/-- Whatever is called at non-decreasing times: no window of a minute sees
more than 100 failures logged, nor more than 10 of an address while it is
neither cleared nor evicted, nor more than one line of a source and scope;
the lines that a budget is spent are written with a logged failure, and
the process's again only once its window has drained; and the table of
addresses stays within its size. -/
theorem journal_is_bounded (h : Runs now l trace) :
    (∀ t, count (fun c => c.verdict.log) t trace ≤ failGlobalBudget) ∧
    (∀ key newer calls older, trace = newer ++ (calls ++ older) →
      (∀ c ∈ calls, c.keeps key) →
        ∀ t, count (Call.logsOf key) t calls ≤ failBudget) ∧
    (∀ c ∈ trace, c.verdict.trippedKey ∨ c.verdict.trippedGlobal →
      c.verdict.log) ∧ (∀ newer c calls c' older,
      trace = newer ++ (c :: (calls ++ c' :: older)) →
      c.verdict.trippedGlobal → c'.verdict.trippedGlobal →
        ∃ d ∈ calls, d.drained) ∧
    (∀ label scope t, count (Call.tells (label, scope)) t trace ≤ 1) ∧
    l.keys.len ≤ keysMax := by
  refine ⟨h.inv.global.count_le, ?_, fun c _ => (callSpec c).logs, ?_,
    fun label scope => (h.inv.outages _).count_le, h.inv.len⟩
  · rintro key newer calls older rfl hkeeps t
    obtain ⟨now, l, h⟩ := h.suffix
    refine Nat.le_trans ?_ ((h.inv.keys key).count_le t)
    rw [List.takeWhile_append_of_pos hkeeps]
    exact ((List.sublist_append_left ..).filter _).length_le
  · rintro newer c calls c' older rfl hc hc'
    obtain ⟨now, l, h⟩ := h.suffix
    cases h with
    | call op h hnow =>
      rcases h.inv.tripped _ _ _ rfl hc' with hset | hdrained
      · rw [((callSpec _).trips.1 hc).1] at hset
        cases hset
      · exact hdrained

end

/-- A failure, a minute later another, and a clear. -/
theorem journal_is_bounded_example :
    let it : Iteration Bytes FailWindow := ⟨id, fun _ => .refl _⟩
    let first : Call := ⟨newLimiter, 0, .fail it []⟩
    let second : Call := ⟨first.after, failWindow, .fail it []⟩
    let trace := [⟨second.after, failWindow, .clear []⟩, second, first]
    Runs failWindow (Call.after ⟨second.after, failWindow, .clear []⟩) trace ∧
      first.verdict.log = true ∧ second.verdict.log = true ∧
      count (fun c => c.verdict.log) 0 trace ≤ failGlobalBudget := by
  intro it first second trace
  have hruns : Runs failWindow _ trace :=
    .call _ (.call _ (.call _ (.new 0) (Int.le_refl 0)) (by decide))
      (Int.le_refl _)
  exact ⟨hruns, by decide +kernel, by decide +kernel,
    (journal_is_bounded hruns).1 0⟩

end Hotserve.Liveswap.Limiter
