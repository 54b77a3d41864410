/-
Running programs against a world: the semantics half of the effect
library, with the invariant rules every protocol model is proved by.

# The world

A `Sem` says what each call may do: the environment picks a choice (did
the write land, did the peer answer), and the choice decides the answer
and the next world. `apply` is a function of the choice, so a run with
its choices written out evaluates; `may` cuts the environment down to
the choices a statement is about; `env` is what others do to the world
between two calls.

# Runs

A `Config` is a world with the program running in it, if any. Besides a
program's own calls, a run may start a program, end one, lose one part
way (`crash`, which keeps the world and forgets the program), and let
the environment act. Every safety statement is about the worlds of
`Reach`.

# The rules

`Safe I p Q w` says that from `w` every world `p` passes through has `I`
and every way it ends has `Q`. The rules below compose it along
`bind` and `loop`; `reach_inv` turns "each program keeps `I`, and so
does the environment" into "every reachable world has `I`", crashes
and restarts included.
-/
import Hotserve.Effect.Prog

namespace Hotserve.Effect

open Relation (ReflTransGen)

/-- What calls do to a world `W`, and what else happens to it. -/
structure Sem {E : Type} (R : E → Type) (W : Type) where
  /-- What the environment decides at one call. -/
  Choice : Type
  /-- The answer and the next world, if the choice is possible here. -/
  apply : (e : E) → Choice → W → Option (R e × W)
  /-- The choices a run is allowed to make. -/
  may : E → Choice → W → Prop
  /-- What others may do between two calls. -/
  env : W → W → Prop

variable {E : Type} {R : E → Type} {W α β γ σ : Type}

/-- Any number of moves by others. -/
def Sem.Drift (S : Sem R W) : W → W → Prop := ReflTransGen S.env

variable {S : Sem R W}

theorem Sem.Drift.keeps {F : W → Prop} {w w' : W} (hd : S.Drift w w')
    (henv : ∀ w w', F w → S.env w w' → F w') (hw : F w) : F w' := by
  induction hd with
  | refl => exact hw
  | tail _ hstep ih => exact henv _ _ ih hstep

/-- The same world with fewer choices allowed. -/
def Sem.only (S : Sem R W) (ok : E → S.Choice → W → Prop) : Sem R W :=
  { S with may := fun e c w => S.may e c w ∧ ok e c w }

-- ====== the rules

/-- Every world the program passes through from `w` has `I`, and every
end it comes to has `Q`. -/
def Safe (S : Sem R W) (I : W → Prop) :
    Prog R α → (α → W → Prop) → W → Prop
  | .ret a, Q, w => Q a w
  | .call e k, Q, w => ∀ c r w' w'', S.may e c w →
      S.apply e c w = some (r, w') → S.Drift w' w'' →
      I w' ∧ Safe S I (k r) Q w''

section Rules

variable {S : Sem R W} {I J : W → Prop} {p : Prog R α} {f : α → Prog R β}
  {Q Q' : α → W → Prop} {w : W}

/-- The rule of consequence, in the postcondition and the invariant. -/
theorem Safe.mono (h : Safe S I p Q w) (hI : ∀ w, I w → J w)
    (hQ : ∀ a w, Q a w → Q' a w) : Safe S J p Q' w := by
  induction p generalizing w with
  | ret a => exact hQ a w h
  | call e k ih =>
    intro c r w' w'' hmay happ hd
    obtain ⟨hi, hk⟩ := h c r w' w'' hmay happ hd
    exact ⟨hI w' hi, ih r hk⟩

theorem Safe.post (h : Safe S I p Q w) (hQ : ∀ a w, Q a w → Q' a w) :
    Safe S I p Q' w :=
  h.mono (fun _ hi => hi) hQ

/-- Sequencing: what the first program ends with starts the second. -/
theorem Safe.bind {Q : β → W → Prop}
    (h : Safe S I p (fun a w => Safe S I (f a) Q w) w) :
    Safe S I (p >>= f) Q w := by
  induction p generalizing w with
  | ret a => exact h
  | call e k ih =>
    intro c r w' w'' hmay happ hd
    obtain ⟨hi, hk⟩ := h c r w' w'' hmay happ hd
    exact ⟨hi, ih r hk⟩

/-- The program keeps `I`, at its ends as on the way. -/
abbrev Keeps (S : Sem R W) (I : W → Prop) (p : Prog R α) (w : W) : Prop :=
  Safe S I p (fun _ => I) w

theorem Safe.andThen {R : β → W → Prop} (h : Safe S I p Q w)
    (hf : ∀ a w, Q a w → Safe S I (f a) R w) : Safe S I (p >>= f) R w :=
  (h.post hf).bind

/-- A program that gives up with `E`, or comes through with `Q`. -/
def Through (E : W → Prop) (Q : α → W → Prop) : Except γ α → W → Prop
  | .error _, w => E w
  | .ok a, w => Q a w

/-- What follows such a program. -/
theorem Safe.through {E : W → Prop} {p : Prog R (Except γ α)}
    {f : Except γ α → Prog R β} {R : β → W → Prop}
    (h : Safe S I p (Through E Q) w)
    (herr : ∀ c w, E w → Safe S I (f (.error c)) R w)
    (hok : ∀ a w, Q a w → Safe S I (f (.ok a)) R w) :
    Safe S I (p >>= f) R w := by
  refine h.andThen fun r w' hr => ?_
  cases r with
  | error c => exact herr c w' hr
  | ok a => exact hok a w' hr

/-- The loop rule: an assertion on the part of the list that is done,
kept by each pass that goes on and turned into the postcondition by each
pass that leaves. -/
theorem safe_loop {body : σ → β → Prog R (Except γ σ)} {xs : List β} {s : σ}
    {Q : Except γ σ → W → Prop} (Inv : List β → σ → W → Prop)
    (hstart : Inv [] s w) (hend : ∀ s w, Inv xs s w → Q (.ok s) w)
    (hstep : ∀ done x, x ∈ xs → ∀ s w, Inv done s w →
      Safe S I (body s x) (fun r w' => match r with
        | .ok s' => Inv (done ++ [x]) s' w'
        | .error c => Q (.error c) w') w) :
    Safe S I (Prog.loop body s xs) Q w := by
  -- on the rest, which with what is done is the whole list
  suffices hrest : ∀ rest done s w, done ++ rest = xs → Inv done s w →
      Safe S I (Prog.loop body s rest) Q w from hrest xs [] s w rfl hstart
  intro rest
  induction rest with
  | nil =>
    intro done s w hxs h
    rw [List.append_nil] at hxs
    exact hend s w (hxs ▸ h)
  | cons x rest ih =>
    intro done s w hxs h
    refine (hstep done x (by simp [← hxs]) s w h).andThen fun r w' hr => ?_
    cases r with
    | ok s' => exact ih (done ++ [x]) s' w' (by simpa using hxs) hr
    | error c => exact hr

/-- What every call and every move of others keeps may be assumed at
each call, and holds throughout. -/
theorem Safe.assuming (F : W → Prop) (hcall : ∀ e c w r w', F w → S.may e c w →
      S.apply e c w = some (r, w') → F w')
    (henv : ∀ w w', F w → S.env w w' → F w') (hw : F w)
    (h : Safe (S.only fun _ _ w => F w) I p Q w) :
    Safe S (fun w => I w ∧ F w) p (fun a w => Q a w ∧ F w) w := by
  induction p generalizing w with
  | ret a => exact ⟨h, hw⟩
  | call e k ih =>
    intro c r w' w'' hmay happ hd
    obtain ⟨hi, hk⟩ := h c r w' w'' ⟨hmay, hw⟩ happ hd
    have hw' : F w' := hcall e c w r w' hw hmay happ
    exact ⟨⟨hi, hw'⟩, ih r (hd.keeps henv hw') hk⟩

/-- Every program keeps what every call keeps. -/
theorem safe_of_calls (F : W → Prop) (hcall : ∀ e c w r w', F w → S.may e c w →
      S.apply e c w = some (r, w') → F w')
    (henv : ∀ w w', F w → S.env w w' → F w') (hw : F w) : Keeps S F p w := by
  induction p generalizing w with
  | ret a => exact hw
  | call e k ih =>
    intro c r w' w'' hmay happ hd
    have hw' : F w' := hcall e c w r w' hw hmay happ
    exact ⟨hw', ih r (hd.keeps henv hw')⟩

/-- Every program of calls that keep `F` keeps `F`. -/
theorem safe_of_all {P : E → Prop} (F : W → Prop)
    (hcall : ∀ e c w r w', P e → F w → S.may e c w →
      S.apply e c w = some (r, w') → F w')
    (henv : ∀ w w', F w → S.env w w' → F w') (hp : p.All P) (hw : F w) :
    Keeps S F p w := by
  induction p generalizing w with
  | ret a => exact hw
  | call e k ih =>
    intro c r w' w'' hmay happ hd
    have hw' : F w' := hcall e c w r w' hp.1 hw hmay happ
    exact ⟨hw', ih r (hp.2 r) (hd.keeps henv hw')⟩

end Rules

-- ====== runs

/-- A world, and what is running in it. -/
structure Config (R : E → Type) (α W : Type) where
  run : Option (Prog R α)
  world : W

/-- One move of the whole system. `boot w p w'` says that `p` may be
started in `w`, in `w'` once the new process has its fresh memory. -/
inductive Step (S : Sem R W) (boot : W → Prog R α → W → Prop) :
    Config R α W → Config R α W → Prop
  | start {w w' : W} {p : Prog R α} (h : boot w p w') :
      Step S boot ⟨none, w⟩ ⟨some p, w'⟩
  | call {e : E} {k : R e → Prog R α} {c : S.Choice} {r : R e} {w w' : W}
      (hmay : S.may e c w) (h : S.apply e c w = some (r, w')) :
      Step S boot ⟨some (.call e k), w⟩ ⟨some (k r), w'⟩
  | done {a : α} {w : W} : Step S boot ⟨some (.ret a), w⟩ ⟨none, w⟩
  | crash {p : Prog R α} {w : W} : Step S boot ⟨some p, w⟩ ⟨none, w⟩
  | env {q : Option (Prog R α)} {w w' : W} (h : S.env w w') :
      Step S boot ⟨q, w⟩ ⟨q, w'⟩

/-- Any number of moves. -/
def Reach (S : Sem R W) (boot : W → Prog R α → W → Prop) :
    Config R α W → Config R α W → Prop :=
  ReflTransGen (Step S boot)

/-- A run under fewer choices is a run. -/
theorem Reach.of_only {boot : W → Prog R α → W → Prop}
    {ok : E → S.Choice → W → Prop} {q q' : Config R α W}
    (h : Reach (S.only ok) boot q q') : Reach S boot q q' := by
  induction h with
  | refl => exact .refl
  | tail _ hstep ih =>
    refine ih.tail ?_
    cases hstep with
    | start hb => exact .start hb
    | call hmay happ => exact .call hmay.1 happ
    | done => exact .done
    | crash => exact .crash
    | env he => exact .env he

/-- A configuration from which `I` cannot be lost: `I` holds, and the
program in it, if any, keeps it to its end. -/
def Kept (S : Sem R W) (I : W → Prop) (q : Config R α W) : Prop :=
  I q.world ∧ ∀ p, q.run = some p → ∀ w', S.Drift q.world w' →
    Keeps S I p w'

theorem Kept.idle {I : W → Prop} {w : W} (h : I w) :
    Kept (α := α) S I ⟨none, w⟩ :=
  ⟨h, fun _ hp => by cases hp⟩

section Adequacy

variable {S : Sem R W} {boot : W → Prog R α → W → Prop} {I : W → Prop}

/-- One move keeps a kept configuration, when every program that may be
started keeps the invariant and so do the others' moves. -/
theorem step_kept (henv : ∀ w w', I w → S.env w w' → I w')
    (hboot : ∀ w p w' w'', I w → boot w p w' → S.Drift w' w'' →
      I w' ∧ Keeps S I p w'')
    {q q' : Config R α W} (h : Step S boot q q') (hq : Kept S I q) :
    Kept S I q' := by
  cases h with
  | start hb =>
    refine ⟨(hboot _ _ _ _ hq.1 hb .refl).1, ?_⟩
    intro p hp w'' hd
    cases hp
    exact (hboot _ _ _ w'' hq.1 hb hd).2
  | call hmay happ =>
    have hsafe := hq.2 _ rfl _ .refl
    refine ⟨(hsafe _ _ _ _ hmay happ .refl).1, ?_⟩
    intro p hp w'' hd
    cases hp
    exact (hsafe _ _ _ w'' hmay happ hd).2
  | done => exact Kept.idle hq.1
  | crash => exact Kept.idle hq.1
  | env he =>
    refine ⟨henv _ _ hq.1 he, ?_⟩
    intro p hp w'' hd
    exact hq.2 p hp w'' (ReflTransGen.head he hd)

/-- Every reachable world has the invariant. -/
theorem reach_inv (henv : ∀ w w', I w → S.env w w' → I w')
    (hboot : ∀ w p w' w'', I w → boot w p w' → S.Drift w' w'' →
      I w' ∧ Keeps S I p w'')
    {q q' : Config R α W} (h : Reach S boot q q') (hq : Kept S I q) :
    I q'.world := by
  have hkept : Kept S I q' := by
    induction h with
    | refl => exact hq
    | tail _ hstep ih => exact step_kept henv hboot hstep ih
  exact hkept.1

variable {p : Prog R α} {w w' : W}

/-- Where nothing else is started, every end a program comes to has the
postcondition it is safe for. -/
theorem reach_ret {Q : α → W → Prop} (hboot : ∀ w p w', ¬ boot w p w') {a : α}
    (hsafe : ∀ v, S.Drift w v → Safe S I p Q v)
    (h : Reach S boot ⟨some p, w⟩ ⟨some (.ret a), w'⟩) : Q a w' := by
  have hrun : ∀ q, Reach S boot ⟨some p, w⟩ q → ∀ p', q.run = some p' →
      ∀ v, S.Drift q.world v → Safe S I p' Q v := by
    intro q hq
    induction hq with
    | refl =>
      rintro p' ⟨⟩ v hd
      exact hsafe v hd
    | tail _ hstep ih =>
      cases hstep with
      | start hb => exact absurd hb (hboot _ _ _)
      | call hmay happ =>
        rintro p' ⟨⟩ v hd
        exact (ih _ rfl _ .refl _ _ _ v hmay happ hd).2
      | done => nofun
      | crash => nofun
      | env he =>
        intro p' hp v hd
        exact ih p' hp v (.head he hd)
  exact hrun _ h _ rfl _ .refl

/-- Run a program to its end, one choice made at every call. -/
def Prog.always (S : Sem R W) (c : S.Choice) :
    Prog R α → W → Option (α × W)
  | .ret a, w => some (a, w)
  | .call e k, w =>
    match S.apply e c w with
    | some (r, w') => (k r).always S c w'
    | none => none

theorem Prog.always_op {S : Sem R W} {c : S.Choice} {e : E}
    {r : R e} (h : S.apply e c w = some (r, w')) :
    (Prog.op e : Prog R (R e)).always S c w = some (r, w') := by
  simp only [Prog.op, Prog.always, h]

theorem Prog.always_bind {S : Sem R W} {c : S.Choice} {f : α → Prog R β}
    {a : α} (h : p.always S c w = some (a, w')) :
    (p >>= f).always S c w = (f a).always S c w' := by
  induction p generalizing w with
  | ret b =>
    cases h
    rfl
  | call e k ih =>
    simp only [Prog.always] at h
    split at h
    next r w₁ happ =>
      rw [Prog.call_bind, Prog.always, happ]
      exact ih r h
    next => cases h

/-- Run a program as far as a list of choices lasts. -/
def Prog.exec (S : Sem R W) :
    List S.Choice → Prog R α → W → Option (Prog R α × W)
  | [], p, w => some (p, w)
  | c :: cs, .call e k, w =>
    match S.apply e c w with
    | some (r, w') => exec S cs (k r) w'
    | none => none
  | _ :: _, .ret _, _ => none

/-- A run with its choices written out is a run, where each of them may
be made. -/
theorem exec_reach : ∀ {cs : List S.Choice} {p p' : Prog R α} {w w' : W},
      (∀ c ∈ cs, ∀ e w, S.may e c w) → Prog.exec S cs p w = some (p', w') →
      Reach S boot ⟨some p, w⟩ ⟨some p', w'⟩ := by
  intro cs
  induction cs with
  | nil =>
    intro p p' w w' _ h
    simp only [Prog.exec, Option.some.injEq, Prod.mk.injEq] at h
    obtain ⟨rfl, rfl⟩ := h
    exact .refl
  | cons c cs ih =>
    intro p p' w w' hmay h
    cases p with
    | ret a => simp [Prog.exec] at h
    | call e k =>
      simp only [Prog.exec] at h
      split at h
      next r w₁ happ =>
        exact .head (Step.call (hmay c (.head _) e w) happ)
          (ih (fun c hc => hmay c (.tail _ hc)) h)
      next => cases h

/-- The same, with what is asked of the world it ends in. -/
theorem exec_reach_world (boot : W → Prog R α → W → Prop) (cs : List S.Choice)
    {f : W → Bool} (hmay : ∀ c ∈ cs, ∀ e w, S.may e c w)
    (hrun : (Prog.exec S cs p w).any (fun x => f x.2) = true) :
    ∃ p' w', Reach S boot ⟨some p, w⟩ ⟨some p', w'⟩ ∧ f w' = true := by
  cases hexec : Prog.exec S cs p w with
  | none =>
    rw [hexec] at hrun
    cases hrun
  | some x =>
    rw [hexec] at hrun
    exact ⟨x.1, x.2, exec_reach hmay hexec, hrun⟩

end Adequacy

end Hotserve.Effect
