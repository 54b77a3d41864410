/-
Programs running side by side over one world: the concurrent half of the
effect library, with the rely-guarantee rule.

# The pool

A `Shared` says what a call does when a given thread makes it, so a lock
can know its holder. A `Pool` is a world with at most one program per
thread; a run starts threads, lets any of them make its next call, loses
one part way where the world allows that, and lets the environment act.

# The rule

Each thread is given a guarantee `G t`, a relation its every move is in.
What a thread must survive between two of its calls is then the
environment and the guarantees of the others: `Shared.view` is the world
as one thread sees it. `Obeys` says of one program that its moves are in
the guarantee and its ends in the postcondition; `Pool.reach_fair` puts
the threads together: the invariant holds in every reachable pool and
every thread in it still obeys.
-/
import Hotserve.Effect.Safe
import Mathlib.Logic.Function.Basic

namespace Hotserve.Effect

open Relation (ReflTransGen)

variable {T E : Type} {R : E → Type} {W α β γ σ : Type}

-- ====== one of several

/-- Every move of the program from `w` is in `G`, and every end it comes
to has `Q`, whatever happens in between. -/
def Obeys (S : Sem R W) (G : W → W → Prop) :
    Prog R α → (α → W → Prop) → W → Prop
  | .ret a, Q, w => Q a w
  | .call e k, Q, w => ∀ c r w', S.may e c w → S.apply e c w = some (r, w') →
      G w w' ∧ ∀ w'', S.Drift w' w'' → Obeys S G (k r) Q w''

section Rules

variable {S : Sem R W} {G : W → W → Prop} {p : Prog R α} {f : α → Prog R β}
  {Q Q' : α → W → Prop} {w : W}

theorem Obeys.post (h : Obeys S G p Q w) (hQ : ∀ a w, Q a w → Q' a w) :
    Obeys S G p Q' w := by
  induction p generalizing w with
  | ret a => exact hQ a w h
  | call e k ih =>
    intro c r w' hmay happ
    obtain ⟨hg, hk⟩ := h c r w' hmay happ
    exact ⟨hg, fun w'' hd => ih r (hk w'' hd)⟩

/-- Sequencing: what the first program ends with starts the second. -/
theorem Obeys.bind {Q : β → W → Prop}
    (h : Obeys S G p (fun a w => Obeys S G (f a) Q w) w) :
    Obeys S G (p >>= f) Q w := by
  induction p generalizing w with
  | ret a => exact h
  | call e k ih =>
    intro c r w' hmay happ
    obtain ⟨hg, hk⟩ := h c r w' hmay happ
    exact ⟨hg, fun w'' hd => ih r (hk w'' hd)⟩

theorem Obeys.andThen {Q' : β → W → Prop} (h : Obeys S G p Q w)
    (hf : ∀ a w, Q a w → Obeys S G (f a) Q' w) : Obeys S G (p >>= f) Q' w :=
  (h.post hf).bind

/-- What the thread's own moves keep, and the others' too, is still so at
its end. -/
theorem Obeys.frame {F : W → Prop} (h : Obeys S G p Q w)
    (hG : ∀ w w', F w → G w w' → F w')
    (henv : ∀ w w', F w → S.env w w' → F w') (hw : F w) :
    Obeys S G p (fun a w => Q a w ∧ F w) w := by
  induction p generalizing w with
  | ret a => exact ⟨h, hw⟩
  | call e k ih =>
    intro c r w' hmay happ
    obtain ⟨hg, hk⟩ := h c r w' hmay happ
    refine ⟨hg, fun w'' hd => ih r (hk w'' hd) ?_⟩
    exact hd.keeps henv (hG w w' hw hg)

end Rules

-- ====== the pool

/-- A world that several threads call into. -/
structure Shared (T : Type) {E : Type} (R : E → Type) (W : Type) where
  /-- What the environment decides at one call. -/
  Choice : Type
  /-- The answer to a thread's call and the next world, if the choice is
  possible here. -/
  apply : T → (e : E) → Choice → W → Option (R e × W)
  /-- What is left of the world when a thread is lost part way. -/
  lost : T → W → W → Prop
  /-- What others may do between two calls. -/
  env : W → W → Prop

/-- A world, and what runs in it. -/
structure Pool (T : Type) {E : Type} (R : E → Type) (α W : Type) where
  run : T → Option (Prog R α)
  world : W

section Pool

variable [DecidableEq T]

/-- The pool once a thread has moved. -/
def Pool.move (q : Pool T R α W) (t : T) (p : Option (Prog R α)) (w : W) :
    Pool T R α W :=
  ⟨Function.update q.run t p, w⟩

/-- One move of the whole system. `boot t w p w'` says that thread `t` may
be started in `w` with `p`, which leaves `w'`. -/
inductive Pool.Step (M : Shared T R W)
    (boot : T → W → Prog R α → W → Prop) :
    Pool T R α W → Pool T R α W → Prop
  | start {q : Pool T R α W} {t : T} {p : Prog R α} {w : W}
      (hidle : q.run t = none) (h : boot t q.world p w) :
      Step M boot q (q.move t (some p) w)
  | call {q : Pool T R α W} {t : T} {e : E} {k : R e → Prog R α}
      {c : M.Choice} {r : R e} {w : W} (hrun : q.run t = some (.call e k))
      (h : M.apply t e c q.world = some (r, w)) :
      Step M boot q (q.move t (some (k r)) w)
  | done {q : Pool T R α W} {t : T} {a : α} (hrun : q.run t = some (.ret a)) :
      Step M boot q (q.move t none q.world)
  | lost {q : Pool T R α W} {t : T} {p : Prog R α} {w : W}
      (hrun : q.run t = some p) (h : M.lost t q.world w) :
      Step M boot q (q.move t none w)
  | env {q : Pool T R α W} {w : W} (h : M.env q.world w) :
      Step M boot q ⟨q.run, w⟩

/-- Any number of moves. -/
def Pool.Reach (M : Shared T R W) (boot : T → W → Prog R α → W → Prop) :
    Pool T R α W → Pool T R α W → Prop :=
  ReflTransGen (Pool.Step M boot)

/-- The world as thread `t` sees it: `I` holds whenever it calls, and the
others move as their guarantees say. -/
def Shared.view (M : Shared T R W) (I : W → Prop) (G : T → W → W → Prop)
    (t : T) : Sem R W where
  Choice := M.Choice
  apply := M.apply t
  may _ _ w := I w
  env w w' := I w ∧ (M.env w w' ∨ ∃ u, u ≠ t ∧ G u w w')

/-- The invariant holds, and every thread obeys whatever the others have
done since its last move. -/
structure Pool.Fair (M : Shared T R W) (I : W → Prop) (G : T → W → W → Prop)
    (Post : T → α → W → Prop) (q : Pool T R α W) : Prop where
  inv : I q.world
  threads : ∀ t p, q.run t = some p → ∀ w,
    (M.view I G t).Drift q.world w → Obeys (M.view I G t) (G t) p (Post t) w

/-- What rely-guarantee reasoning asks of the threads and the world. -/
structure Pool.Sound (M : Shared T R W)
    (boot : T → W → Prog R α → W → Prop) (I : W → Prop)
    (G : T → W → W → Prop) (Post : T → α → W → Prop) : Prop where
  keeps : ∀ t w w', I w → G t w w' → I w'
  env : ∀ w w', I w → M.env w w' → I w'
  lost : ∀ t w w', I w → M.lost t w w' → G t w w'
  boot : ∀ t w p w', I w → boot t w p w' → G t w w' ∧ ∀ w'',
    (M.view I G t).Drift w' w'' → Obeys (M.view I G t) (G t) p (Post t) w''

variable {M : Shared T R W} {boot : T → W → Prog R α → W → Prop}
  {I : W → Prop} {G : T → W → W → Prop} {Post : T → α → W → Prop}
  {q q' : Pool T R α W}

/-- A thread's own move: the others take it as a move of their
environment, and it goes on from where it is. -/
theorem Pool.Fair.move (h : Pool.Fair M I G Post q) (hs : I q.world → I w)
    {t : T} {p : Option (Prog R α)} (hg : G t q.world w)
    (hp : ∀ p', p = some p' → ∀ w', (M.view I G t).Drift w w' →
      Obeys (M.view I G t) (G t) p' (Post t) w') :
    Pool.Fair M I G Post (q.move t p w) := by
  refine ⟨hs h.inv, ?_⟩
  intro u p' hrun w' hd
  by_cases hut : u = t
  · subst hut
    exact hp p' (by simpa [Pool.move] using hrun) w' hd
  · have hrun' : q.run u = some p' := by simpa [Pool.move, hut] using hrun
    have hmoved : (M.view I G u).env q.world w :=
      ⟨h.inv, .inr ⟨t, Ne.symm hut, hg⟩⟩
    exact h.threads u p' hrun' w' (.head hmoved hd)

/-- A program that leaves the pool leaves nothing to show. -/
theorem Pool.Fair.drop (h : Pool.Fair M I G Post q) (t : T) :
    Pool.Fair M I G Post (q.move t none q.world) := by
  refine ⟨h.inv, ?_⟩
  intro u p hrun w hd
  by_cases hut : u = t
  · subst hut
    simp [Pool.move] at hrun
  · exact h.threads u p (by simpa [Pool.move, hut] using hrun) w hd

theorem Pool.Sound.step (hsound : Pool.Sound M boot I G Post)
    (h : Pool.Step M boot q q') (hq : Pool.Fair M I G Post q) :
    Pool.Fair M I G Post q' := by
  cases h with
  | @start t p w hidle hb =>
    obtain ⟨hg, hp⟩ := hsound.boot t _ p w hq.inv hb
    refine hq.move (fun hi => hsound.keeps t _ _ hi hg) hg ?_
    intro p' hp' w' hd
    cases hp'
    exact hp w' hd
  | @call t e k c r w hrun happ =>
    obtain ⟨hg, hk⟩ := hq.threads t _ hrun _ .refl c r w hq.inv happ
    refine hq.move (fun hi => hsound.keeps t _ _ hi hg) hg ?_
    intro p' hp' w' hd
    cases hp'
    exact hk w' hd
  | @done t a hrun => exact hq.drop t
  | @lost t p w hrun hl =>
    have hg := hsound.lost t _ _ hq.inv hl
    refine hq.move (fun hi => hsound.keeps t _ _ hi hg) hg ?_
    intro p' hp'
    cases hp'
  | @env w he =>
    refine ⟨hsound.env _ _ hq.inv he, ?_⟩
    intro t p hrun w' hd
    exact hq.threads t p hrun w' (.head ⟨hq.inv, .inl he⟩ hd)

/-- Every reachable pool has the invariant, and its threads obey. -/
theorem Pool.Sound.reach (hsound : Pool.Sound M boot I G Post)
    (h : Pool.Reach M boot q q') (hq : Pool.Fair M I G Post q) :
    Pool.Fair M I G Post q' := by
  induction h with
  | refl => exact hq
  | tail _ hstep ih => exact hsound.step hstep ih

-- ------ runs written out

/-- Let threads make their next calls in the order given, with the
choices given. -/
def Pool.exec (M : Shared T R W) :
    List (T × M.Choice) → Pool T R α W → Option (Pool T R α W)
  | [], q => some q
  | (t, c) :: cs, q =>
    match q.run t with
    | some (.call e k) =>
      match M.apply t e c q.world with
      | some (r, w) => exec M cs (q.move t (some (k r)) w)
      | none => none
    | _ => none

/-- A run written out is a run. -/
theorem Pool.exec_reach {cs : List (T × M.Choice)}
    (h : Pool.exec M cs q = some q') : Pool.Reach M boot q q' := by
  induction cs generalizing q with
  | nil =>
    cases h
    exact .refl
  | cons x cs ih =>
    simp only [Pool.exec] at h
    split at h
    next e k hrun =>
      split at h
      next r w happ => exact .head (.call hrun happ) (ih h)
      next => cases h
    next => cases h

/-- The same, with what is asked of where it ends. -/
theorem Pool.exec_reach_any (boot : T → W → Prog R α → W → Prop)
    (cs : List (T × M.Choice)) {f : Pool T R α W → Bool}
    (h : (Pool.exec M cs q).any f = true) :
    ∃ q', Pool.Reach M boot q q' ∧ f q' = true := by
  obtain ⟨q', hq', hf⟩ := (Option.any_eq_true _ _).mp h
  exact ⟨q', Pool.exec_reach hq', hf⟩

omit [DecidableEq T] in
/-- A thread that has come to its end has its postcondition. -/
theorem Pool.Fair.ended (h : Pool.Fair M I G Post q) {t : T} {a : α}
    (hrun : q.run t = some (.ret a)) : Post t a q.world :=
  h.threads t _ hrun _ .refl

end Pool

end Hotserve.Effect
