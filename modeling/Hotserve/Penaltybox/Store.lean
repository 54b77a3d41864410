/-
The penalty box (penaltybox/penaltybox.go, penaltybox/store.go): the
configuration `Validate` accepts, the store made of it, and the store's
calls. Times and durations are nanoseconds; a call is atomic, as its
shard's lock makes it, and carries the time it read. The counters'
arithmetic is a parameter (`Arith`): exact, or in the source's widths.

The seeded hash of a key is the store's `shardFor`, and the order of a
`range` over a shard an `Iteration` the call comes with.
-/
import Hotserve.Check
import Hotserve.Ring
import Hotserve.Table

namespace Hotserve.Penaltybox

open Bytes

def numShards : Nat := 64

def numBuckets : Nat := 16

def maxLevel : Nat := 3

instance : NeZero numShards := ⟨by decide⟩

instance : NeZero numBuckets := ⟨by decide⟩

-- ====== the configuration

/-- `TierConfig`. -/
structure TierConfig where
  window : Int
  limit : Int
  penaltyTTL : Int
  deriving DecidableEq

/-- The fields of `Handler` the checks and the store read, defaults
filled in; a tier is named by its level. -/
structure Handler where
  header : Bytes
  minLevel : Int
  window : Int
  limit : Int
  penaltyTTL : Int
  status : Int
  maxKeys : Int
  tiers : List (Int × TierConfig)

/-- `%d`. -/
def decimal (n : Int) : Bytes := str (toString n)

/-- One tier's checks; `dur` prints a duration. -/
def validateTier (dur : Int → Bytes) (minLevel : Int) (level : Int)
    (t : TierConfig) : Except Bytes Unit := do
  failIf (decide (level < 1) || decide ((maxLevel : Int) < level))
    (str "tier level must be 1, 2, or 3, got " ++ decimal level)
  failIf (decide (level < minLevel)) (str "tier " ++ decimal level ++
    str " is below min_level " ++ decimal minLevel ++
    str " and would never count")
  failIf (decide (t.window ≤ 0)) (str "tier " ++ decimal level ++
    str ": window must be positive, got " ++ dur t.window)
  failIf (decide (t.limit ≤ 0)) (str "tier " ++ decimal level ++
    str ": limit must be positive, got " ++ decimal t.limit)
  failIf (decide (t.penaltyTTL ≤ 0)) (str "tier " ++ decimal level ++
    str ": penalty_ttl must be positive, got " ++ dur t.penaltyTTL)

/-- `Validate`. -/
def Handler.validate (dur : Int → Bytes) (h : Handler) : Except Bytes Unit := do
  failIf (h.header == []) (str "header must not be empty")
  failIf (decide (h.window ≤ 0))
    (str "window must be positive, got " ++ dur h.window)
  failIf (decide (h.penaltyTTL ≤ 0))
    (str "penalty_ttl must be positive, got " ++ dur h.penaltyTTL)
  failIf (decide (h.limit ≤ 0))
    (str "limit must be positive, got " ++ decimal h.limit)
  failIf (decide (h.minLevel < 1) || decide (3 < h.minLevel))
    (str "min_level must be 1, 2, or 3, got " ++ decimal h.minLevel)
  failIf (decide (h.status < 400) || decide (599 < h.status))
    (str "status must be a 4xx or 5xx code, got " ++ decimal h.status)
  failIf (decide (h.maxKeys ≤ 0))
    (str "max_keys must be positive, got " ++ decimal h.maxKeys)
  h.tiers.forM fun p => validateTier dur h.minLevel p.1 p.2

/-- `tierBudget`. -/
structure TierBudget where
  window : Int
  limit : Nat
  penaltyTTL : Int
  bucketDur : Int
  weighted : Bool
  deriving DecidableEq

/-- `bucketDur: max(window/numBuckets, 1)`. -/
def bucketDur (window : Int) : Int := max (window / numBuckets) 1

/-- The budget of a window, a limit and a TTL. -/
def tierBudget (t : TierConfig) (weighted : Bool) : TierBudget where
  window := t.window
  limit := t.limit.toNat
  penaltyTTL := t.penaltyTTL
  bucketDur := bucketDur t.window
  weighted := weighted

/-- The counters' arithmetic: what a bucket and the total hold of a sum,
the total less a bucket, and the time since a bucket's start. -/
structure Arith where
  bucket : Nat → Nat
  total : Nat → Nat
  less : Nat → Nat → Nat
  elapsed : Int → Int

def Arith.exact : Arith := ⟨id, id, (· - ·), id⟩

/-- `uint32`, `uint64`, and a `time.Duration`, which saturates. -/
def Arith.source : Arith where
  bucket := (· % 2 ^ 32)
  total := (· % 2 ^ 64)
  less := fun a b => (a + (2 ^ 64 - b)) % 2 ^ 64
  elapsed := fun d => max (-(2 ^ 63)) (min d (2 ^ 63 - 1))

/-- The part of `store` that does not change, with its arithmetic. -/
structure Setup where
  /-- Slot 0 is the default budget, the others explicit tiers. -/
  budgets : List TierBudget
  levelSlot : Nat → Nat
  maxWindow : Int
  maxPerShard : Nat
  shardFor : Bytes → Fin numShards
  arith : Arith

/-- `perShardKeys`. -/
def perShardKeys (maxKeys : Int) : Nat := max (maxKeys / numShards).toNat 1

/-- The explicit tiers, in the order of their levels. -/
def Handler.explicit (h : Handler) : List (Nat × TierConfig) :=
  [1, 2, 3].filterMap fun level : Nat =>
    (h.tiers.lookup (level : Int)).map fun t => (level, t)

/-- A level's slot: its own tier's, else that of the nearest tier below,
else the default's. -/
def slotOf (levels : List Nat) : Nat → Nat
  | 0 => 0
  | level + 1 =>
    if level + 1 ∈ levels then levels.idxOf (level + 1) + 1
    else slotOf levels level

/-- `newStore`. -/
def newStore (h : Handler) (shardFor : Bytes → Fin numShards) : Setup where
  budgets := tierBudget ⟨h.window, h.limit, h.penaltyTTL⟩ true ::
    h.explicit.map fun p => tierBudget p.2 false
  levelSlot := slotOf (h.explicit.map Prod.fst)
  maxWindow := h.explicit.foldl (fun w p => max w p.2.window) h.window
  maxPerShard := perShardKeys h.maxKeys
  shardFor := shardFor
  arith := .exact

variable (S : Setup) (it : Iteration Bytes Entry) (now : Int)

/-- The budget a level counts against. -/
def Setup.budget (slot : Nat) : TierBudget :=
  S.budgets.getD slot ⟨0, 0, 0, 1, false⟩

/-- What a response of a level costs there. -/
def TierBudget.cost (b : TierBudget) (level : Nat) : Nat :=
  if b.weighted then level else 1

-- ====== the counters

/-- `tierCounter`. -/
structure TierCounter where
  ring : Ring numBuckets
  headStart : Int
  total : Nat

namespace TierCounter

/-- `tierCounter{headStart: now}`. -/
def fresh : TierCounter := ⟨.empty, now, 0⟩

/-- One turn of `advance`'s loop. -/
def turn (a : Arith) (tc : TierCounter) : TierCounter :=
  { tc with
    ring := tc.ring.turn
    total := a.less tc.total (tc.ring.buckets tc.ring.next) }

/-- `advance`. -/
def advance (a : Arith) (tc : TierCounter) (now dur : Int) : TierCounter :=
  let elapsed := a.elapsed (now - tc.headStart)
  if elapsed < dur then tc
  else
    let steps := (elapsed / dur).toNat
    if numBuckets ≤ steps then fresh now
    else { (turn a)^[steps] tc with headStart := tc.headStart + steps * dur }

/-- `buckets[head] += inc; total += uint64(inc)`. -/
def count (a : Arith) (tc : TierCounter) (inc : Nat) : TierCounter :=
  { tc with
    ring := tc.ring.put (a.bucket (tc.ring.buckets tc.ring.head + inc))
    total := a.total (tc.total + inc) }

end TierCounter

-- ====== an entry

/-- `entry`; a `boxedUntil` never set is none. -/
structure Entry where
  lastSeen : Int
  boxedUntil : Option Int
  counters : Nat → Option TierCounter

namespace Entry

/-- `boxedUntil.After(now)`. -/
def boxed (e : Entry) (now : Int) : Bool :=
  e.boxedUntil.any fun u => decide (now < u)

/-- A new key's entry; `lastSeen` is set at once. -/
def new : Entry := ⟨now, none, fun _ => none⟩

/-- A slot's counter, which is new if it is the slot's first. -/
def counter (e : Entry) (slot : Nat) (now : Int) : TierCounter :=
  (e.counters slot).getD (.fresh now)

/-- The counter a level's response goes to, as it stands at `now`. -/
def counterAt (e : Entry) (now : Int) (slot : Nat) : TierCounter :=
  (e.counter slot now).advance S.arith now (S.budget slot).bucketDur

/-- The later end of a box. -/
def laterEnd (old : Option Int) (u : Int) : Option Int :=
  match old with
  | none => some u
  | some o => if o < u then some u else some o

/-- The part of `add` under the entry: whether it boxed the key. -/
def add (level : Nat) (e : Entry) : Bool × Entry :=
  let e := { e with lastSeen := now }
  if e.boxed now then (false, e)
  else
    let slot := S.levelSlot level
    let budget := S.budget slot
    let tc := (e.counterAt S now slot).count S.arith (budget.cost level)
    if budget.limit < tc.total then
      (true, { e with
        boxedUntil := laterEnd e.boxedUntil (now + budget.penaltyTTL)
        counters := Function.update e.counters slot (some (.fresh now)) })
    else
      (false, { e with
        counters := Function.update e.counters slot (some tc) })

end Entry

-- ====== the shards

abbrev Shard := Table Bytes Entry

abbrev Store := Fin numShards → Shard

/-- Whether a sweep removes an entry. -/
def sweepable (e : Entry) : Bool :=
  !e.boxed now && decide (S.maxWindow < now - e.lastSeen)

/-- `sweepShardLocked`. -/
def sweepShard (sh : Shard) : Shard :=
  sh.filter fun p => !sweepable S now p.2

/-- What `makeRoomLocked`'s loop holds. -/
structure Oldest where
  key : Bytes
  seen : Int
  unboxedKey : Bytes
  unboxedSeen : Int

/-- One turn of that loop. -/
def Oldest.visit (o : Oldest) (p : Bytes × Entry) : Oldest :=
  let o :=
    if o.key == [] || decide (p.2.lastSeen < o.seen) then
      { o with key := p.1, seen := p.2.lastSeen }
    else o
  if !p.2.boxed now &&
      (o.unboxedKey == [] || decide (p.2.lastSeen < o.unboxedSeen)) then
    { o with unboxedKey := p.1, unboxedSeen := p.2.lastSeen }
  else o

/-- The key a full shard loses, if any. -/
def victim (sh : Shard) : Option Bytes :=
  let o := (it.order sh.entries).foldl (Oldest.visit now) ⟨[], 0, [], 0⟩
  if o.unboxedKey != [] then some o.unboxedKey
  else if o.key != [] then some o.key
  else none

/-- The key `makeRoomLocked` evicts. -/
def evicted (sh : Shard) : Option Bytes :=
  if (sweepShard S now sh).len < S.maxPerShard then none
  else victim it now (sweepShard S now sh)

/-- `makeRoomLocked`. -/
def makeRoom (sh : Shard) : Shard :=
  match evicted S it now sh with
  | none => sweepShard S now sh
  | some key => (sweepShard S now sh).delete key

/-- The shard `add` puts its entry in, and the entry. -/
def entryFor (key : Bytes) (sh : Shard) : Shard × Entry :=
  match sh.get key with
  | some e => (sh, e)
  | none =>
    (if S.maxPerShard ≤ sh.len then makeRoom S it now sh else sh, .new now)

/-- `add` in its key's shard. -/
def addIn (key : Bytes) (level : Nat) (sh : Shard) : Bool × Shard :=
  let found := entryFor S it now key sh
  let r := found.2.add S now level
  (r.1, found.1.set key r.2)

-- ====== the calls

/-- `add`. -/
def add (key : Bytes) (level : Nat) (st : Store) : Bool × Store :=
  if level < 1 ∨ maxLevel < level then (false, st)
  else
    let i := S.shardFor key
    let r := addIn S it now key level (st i)
    (r.1, Function.update st i r.2)

/-- `boxedRemaining`; none is `0, false`. -/
def boxedRemaining (key : Bytes) (st : Store) : Option Int :=
  match (st (S.shardFor key)).get key with
  | none => none
  | some e => (e.boxedUntil.map (· - now)).filter fun r => decide (0 < r)

/-- `sweepAll`. -/
def sweepAll (S : Setup) (now : Int) (st : Store) : Store :=
  fun i => sweepShard S now (st i)

inductive Call
  | add (key : Bytes) (level : Nat)
  | boxedRemaining (key : Bytes)
  | sweepAll
  deriving DecidableEq

inductive Answer
  | added (boxed : Bool)
  | remaining (r : Option Int)
  | swept
  deriving DecidableEq

/-- One call, at the time it read and with the order its map came in. -/
structure Step where
  now : Int
  call : Call
  iteration : Iteration Bytes Entry

def Step.apply (s : Step) (st : Store) : Answer × Store :=
  match s.call with
  | .add key level =>
    let r := Penaltybox.add S s.iteration s.now key level st
    (.added r.1, r.2)
  | .boxedRemaining key =>
    (.remaining (Penaltybox.boxedRemaining S s.now key st), st)
  | .sweepAll => (.swept, Penaltybox.sweepAll S s.now st)

/-- A store before its first call. -/
def blank : Store := fun _ => .empty

/-- The answers of a run, oldest first, and the store it leaves. -/
def run (S : Setup) : List Step → Store → List Answer × Store
  | [], st => ([], st)
  | s :: steps, st =>
    let r := s.apply S st
    let rest := run S steps r.2
    (r.1 :: rest.1, rest.2)

end Hotserve.Penaltybox
