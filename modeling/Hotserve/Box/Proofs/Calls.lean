/-
What each call does, as rules for `Safe`: one lemma a kind of call, for
a box with nobody at the console. `ok` is whatever a proof assumes at
every call; only the reads of results use it.

Reads change nothing but `reads`, so their rules speak of the world
before: an invariant that does not mention `reads` holds after a read by
definition.
-/
import Hotserve.Box.Settle
import Hotserve.Box.Proofs.Record

namespace Hotserve.Box

open Bytes Effect

variable {w miss hit w' : World} {app id : Bytes} {c : Fate} {e : Call}
  {h : Host}

/-- An env file's read has no error of its own. -/
theorem envRead_ne_other {err : Bytes} :
    w.envRead app ≠ .error (.other err) := by
  unfold World.envRead
  split
  · simp
  · simp
  · split <;> simp
  · simp

-- ====== the three ends

/-- A write changed the world, or failed and left it. -/
theorem Fate.write_cases {r : Option Bytes}
    (h : c.write miss hit = some (r, w')) :
    (∃ e, r = some e ∧ w' = miss) ∨ w' = hit := by
  cases c with
  | ok | landed _ => cases h; exact .inr rfl
  | fail e => cases h; exact .inl ⟨e, rfl, rfl⟩
  | word _ | drop _ => cases h

/-- So did a rename over a name; a directory there refuses it. -/
theorem renameOver_cases {old : Slot} {r : Option Bytes}
    (h : renameOver c old miss hit = some (r, w')) :
    (∃ e, r = some e ∧ w' = miss) ∨ w' = hit := by
  unfold renameOver at h
  split at h
  next e => cases h; exact .inl ⟨e, rfl, rfl⟩
  next => cases h
  next => exact Fate.write_cases h

/-- A read answers what is there or an error, and changes nothing. -/
theorem Fate.read_cases {ε α : Type} {err : Bytes → ε} {v : Except ε α}
    {r : Except ε α} (h : c.read err v w = some (r, w')) :
    w' = w ∧ (r = v ∨ ∃ e, r = .error (err e)) := by
  cases c with
  | ok => cases h; exact ⟨rfl, .inl rfl⟩
  | fail e => cases h; exact ⟨rfl, .inr ⟨e, rfl⟩⟩
  | landed _ | word _ | drop _ => cases h

/-- A read of a file of the box, by its answer. -/
theorem Fate.look_cases {ε α : Type} {err : Bytes → ε} {v r : Except ε α}
    {sight : Except ε α → Sight} (h : c.look err v sight w = some (r, w')) :
    w' = w.see (sight r) ∧ (r = v ∨ ∃ e, r = .error (err e)) := by
  obtain ⟨⟨a, w₁⟩, hread, heq⟩ := Option.map_eq_some_iff.mp h
  obtain ⟨rfl, ha⟩ := Fate.read_cases hread
  cases heq
  exact ⟨rfl, ha⟩

-- ====== one call

/-- The transaction whose file a call writes or removes. -/
def Call.writesFor : Call → Option Bytes
  | .writeCaddyfile id _ => some id
  | .writeEnvFile id _ _ => some id
  | .unlinkEnvFile id _ => some id
  | _ => none

/-- What a call can do to the world: all of it, but for what the write of
a file leaves there and which results leave out/. -/
inductive Change (w : World) : Call → Fate → World → Prop
  | still {e : Call} {c : Fate} : Change w e c w
  | seen {e : Call} {c : Fate} (s : Sight) : Change w e c (w.see s)
  | file {e : Call} {c : Fate} {id : Bytes} (he : e.writesFor = some id)
      (s : Slot) (env : Bytes → Slot) : Change w e c
        { w.note (.fileWritten id) with caddyfile := s, env := env }
  | lost {r : Record} {err : Bytes} : Change w (.writeTxn r) (.fail err)
      (w.note (.recordLost r w.txn))
  | written {r : Record} {c : Fate} : Change w (.writeTxn r) c (w.setTxn r)
  | removed {c : Fate} : Change w .removeTxn c w.dropTxn
  | baseline {id : Bytes} {v : Applied} {c : Fate} (a : Option Applied) :
      Change w (.writeAppliedFile id v) c
        { w.note (.baselineWritten id v w.txn w.reads) with applied := a }
  | remembered {r : Result} {c : Fate} :
      Change w (.writeResult r) c ((w.report r).remember r)
  | filed {r : Result} {c : Fate} : Change w (.writeResult r) c
      (((w.report r).remember r).setOut r.id (some r))
  | reported {r : Result} {c : Fate} : Change w (.logOutcome r) c (w.report r)
  | dropped {e : Call} {c : Fate} {out : Bytes → Option Result}
      (hout : ∀ i r, out i = some r → w.out i = some r) :
      Change w e c { w with out := out }
  | cleaned {e : Call} {c : Fate} (work : List Bytes) :
      Change w e c { w with work := work }

/-- That is all it does. -/
theorem change_of_apply {r : Answer e} (happ : apply e c w = some (r, w')) :
    Change w e c w' := by
  have hread : ∀ {ε β : Type} {err : Bytes → ε} {v r : Except ε β},
      c.read err v w = some (r, w') → Change w e c w' := by
    intro ε β err v r h
    rw [(Fate.read_cases h).1]
    exact .still
  have hlook : ∀ {ε β : Type} {err : Bytes → ε} {v r : Except ε β}
      {sight : Except ε β → Sight}, c.look err v sight w = some (r, w') →
      Change w e c w' := by
    intro ε β err v r sight h
    rw [(Fate.look_cases h).1]
    exact .seen _
  have hwrite : ∀ {r : Option Bytes} {miss hit : World},
      c.write miss hit = some (r, w') → Change w e c miss →
      Change w e c hit → Change w e c w' := by
    intro r miss hit h hmiss hhit
    rcases Fate.write_cases h with ⟨-, -, rfl⟩ | rfl
    · exact hmiss
    · exact hhit
  have hfile : ∀ {old : Slot} {r : Option Bytes} {miss hit : World},
      renameOver c old miss hit = some (r, w') → Change w e c miss →
      Change w e c hit → Change w e c w' := by
    intro old r miss hit h hmiss hhit
    rcases renameOver_cases h with ⟨-, -, rfl⟩ | rfl
    · exact hmiss
    · exact hhit
  cases e with
  | readCaddyfile => exact hlook happ
  | readEnv app => exact hlook happ
  | writeCaddyfile id data =>
    exact hfile happ (.file rfl w.caddyfile w.env) (.file rfl _ w.env)
  | writeEnvFile id app data =>
    exact hfile happ (.file rfl w.caddyfile w.env) (.file rfl w.caddyfile _)
  | unlinkEnvFile id app =>
    exact hfile happ (.file rfl w.caddyfile w.env) (.file rfl w.caddyfile _)
  | readTxn => exact hread happ
  | writeTxn r =>
    cases c with
    | ok | landed _ => cases happ; exact .written
    | fail err => cases happ; exact .lost
    | word _ | drop _ => cases happ
  | removeTxn => exact hwrite happ .still .removed
  | readApplied => exact hread happ
  | writeAppliedFile id v =>
    exact hwrite happ (.baseline w.applied) (.baseline _)
  | readResult id => exact hread happ
  | writeResult res => exact hwrite happ .remembered .filed
  | removeResult id =>
    refine hwrite happ .still (.dropped fun i res hres => ?_)
    by_cases hi : i = id
    · rw [hi, Function.update_self] at hres
      cases hres
    · rwa [Function.update_of_ne hi] at hres
  | logOutcome res =>
    cases c with
    | ok => cases happ; exact .reported
    | fail _ | landed _ | word _ | drop _ => cases happ
  | wrote id =>
    cases c with
    | ok => cases happ; exact .still
    | fail _ | landed _ | word _ | drop _ => cases happ
  | listWork => exact hread happ
  | removeEntry id => exact hwrite happ .still (.cleaned _)
  | reload => exact hwrite happ .still .still
  | running =>
    cases c with
    | fail _ | word _ => cases happ; exact .still
    | ok | landed _ | drop _ => cases happ
  | sweep =>
    cases c with
    | drop ids =>
      cases happ
      refine .dropped fun i res hres => ?_
      split at hres
      · cases hres
      · exact hres
    | ok | fail _ | landed _ | word _ => cases happ

section Quiet

variable {ok : Call → Fate → World → Prop} {I : World → Prop} {α : Type}
  {Q : α → World → Prop} {w : World}

/-- With nobody at the console nothing moves between calls. -/
theorem quiet_drift (h : (quiet.only ok).Drift w w') : w' = w := by
  induction h with
  | refl => rfl
  | tail _ hstep _ => exact hstep.elim

/-- One call with nobody at the console. -/
theorem safe_ask {f : Answer e → Act α}
    (h : ∀ c r w', ok e c w → apply e c w = some (r, w') →
      I w' ∧ Safe (quiet.only ok) I (f r) Q w') :
    Safe (quiet.only ok) I (ask e >>= f) Q w := by
  intro c r w' w'' hmay happ hd
  obtain rfl := quiet_drift hd
  exact h c r _ hmay.2 happ

-- ====== writes

/-- A call with a write's three ends: `miss` is the world it left alone,
`hit` the one it changed. -/
theorem safe_write {f : Answer e → Act α} (some' : Bytes → Answer e)
    (hcases : ∀ c r w', apply e c w = some (r, w') →
      (∃ b, r = some' b ∧ w' = miss) ∨ w' = hit)
    (hmiss : I miss ∧ ∀ b, Safe (quiet.only ok) I (f (some' b)) Q miss)
    (hhit : I hit ∧ ∀ a, Safe (quiet.only ok) I (f a) Q hit) :
    Safe (quiet.only ok) I (ask e >>= f) Q w := by
  refine safe_ask fun c r w' _ happ => ?_
  rcases hcases c r w' happ with ⟨b, rfl, rfl⟩ | rfl
  · exact ⟨hmiss.1, hmiss.2 b⟩
  · exact ⟨hhit.1, hhit.2 r⟩

variable {f : Option Bytes → Act α}

/-- A record's write: it is lost, or it is on disk. -/
theorem safe_writeRecord {r : Record} (hinvalid : r.valid h ≠ .ok () → ∀ b,
      Safe (quiet.only ok) I (f (some b)) Q w)
    (hmiss : r.valid h = .ok () → I (w.note (.recordLost r w.txn)) ∧
      ∀ b, Safe (quiet.only ok) I (f (some b)) Q (w.note (.recordLost r w.txn)))
    (hhit : r.valid h = .ok () → I (w.setTxn r) ∧
      ∀ a, Safe (quiet.only ok) I (f a) Q (w.setTxn r)) :
    Safe (quiet.only ok) I (writeRecord h r >>= f) Q w := by
  unfold writeRecord
  split
  next e he => exact hinvalid (by simp [he]) _
  next hv =>
    exact safe_write some (fun _ _ _ h => Fate.write_cases h)
      (hmiss hv) (hhit hv)

-- ====== reads

/-- The Caddyfile's digest, read: an error, or that of its content. -/
theorem safe_installedDigest {f : Except Bytes Bytes → Act α}
    (hI : ∀ rd, I { w with reads := rd })
    (herr : ∀ rd e, Safe (quiet.only ok) I (f (.error e)) Q
      { w with reads := rd })
    (hok : ∀ rd d, w.caddyfileDigest h = some d →
      Safe (quiet.only ok) I (f (.ok d)) Q { w with reads := rd }) :
    Safe (quiet.only ok) I (installedDigest h >>= f) Q w := by
  intro c r w' w'' hmay happ hd
  obtain rfl := quiet_drift hd
  obtain ⟨rfl, hr⟩ := Fate.look_cases happ
  refine ⟨hI _, ?_⟩
  rcases hr with rfl | ⟨e, rfl⟩
  · rcases hcase : w.caddyfileRead with (_ | _ | e) | b
    case ok | error.notExist | error.tooLarge =>
      exact hok _ _ (by rw [World.caddyfileDigest, hcase])
    case error.other => exact herr _ e
  · exact herr _ e

/-- The state of the service, whatever it is. -/
theorem safe_running {f : Except Bytes Bytes → Act α}
    (hk : ∀ a, I w ∧ Safe (quiet.only ok) I (f a) Q w) :
    Safe (quiet.only ok) I (ask .running >>= f) Q w := by
  refine safe_ask fun c r w' _ happ => ?_
  obtain rfl : w' = w := by
    cases c <;> simp only [apply, Option.some.injEq, Prod.mk.injEq,
      reduceCtorEq] at happ
    all_goals exact happ.2.symm
  exact hk r

/-- An env file's digest, read: an error, or that of its content. -/
theorem safe_envDigest {f : Except Bytes Bytes → Act α}
    (hI : ∀ rd, I { w with reads := rd })
    (herr : ∀ rd e, Safe (quiet.only ok) I (f (.error e)) Q
      { w with reads := rd })
    (hok : ∀ rd, Safe (quiet.only ok) I (f (.ok (w.envDigest h app))) Q
      { w with reads := rd }) :
    Safe (quiet.only ok) I (envDigest h app >>= f) Q w := by
  intro c r w' w'' hmay happ hd
  obtain rfl := quiet_drift hd
  obtain ⟨rfl, hr⟩ := Fate.look_cases happ
  refine ⟨hI _, ?_⟩
  rcases hr with rfl | ⟨e, rfl⟩
  · have hdigest := hok
    unfold World.envDigest at hdigest
    rcases hcase : w.envRead app with (_ | _ | e) | b
    case ok | error.notRegular | error.tooLarge =>
      rw [hcase] at hdigest
      exact hdigest _
    case error.other => exact absurd hcase envRead_ne_other
  · exact herr _ e

end Quiet

end Hotserve.Box
