/-
Programs as trees of calls: the syntax half of the effect library.

# The shape

A program over a set of calls `E`, each answered with a value of `R e`,
is either finished (`ret`) or about to make one call and go on with
whatever the answer is (`call`). Nothing else is observable about
it, so a program that stops half way (a kill, a power loss) is simply a
program whose remaining tree is thrown away. What a call does to the
world is not said here: Safe.lean gives a world to run against.

# Loops

`loop` is the one loop the models need: over a list, carrying a state,
leaving early with a result. It is structural on the list, so programs
stay finite trees and evaluate by `decide`.
-/
import Mathlib.Logic.Relation

namespace Hotserve.Effect

/-- A program: finished, or one call and what follows each answer. -/
inductive Prog {E : Type} (R : E → Type) (α : Type) : Type
  | ret (a : α) : Prog R α
  | call (e : E) (k : R e → Prog R α) : Prog R α

namespace Prog

variable {E : Type} {R : E → Type} {α β γ σ : Type}

/-- Sequencing: the second program is grafted on the first's leaves. -/
def bind : Prog R α → (α → Prog R β) → Prog R β
  | .ret a, f => f a
  | .call e k, f => .call e fun r => (k r).bind f

instance : Monad (Prog R) where
  pure := .ret
  bind := bind

/-- One call, its answer the result. -/
def op (e : E) : Prog R (R e) := .call e .ret

@[simp] theorem pure_eq (a : α) : (pure a : Prog R α) = .ret a := rfl

@[simp] theorem ret_bind (a : α) (f : α → Prog R β) :
    (Prog.ret a >>= f) = f a := rfl

@[simp] theorem call_bind (e : E) (k : R e → Prog R α) (f : α → Prog R β) :
    (Prog.call e k >>= f) = .call e fun r => k r >>= f := rfl

/-- Run `body` over the list in order, threading a state; an `error`
leaves the loop with that result. -/
def loop (body : σ → β → Prog R (Except γ σ)) :
    σ → List β → Prog R (Except γ σ)
  | s, [] => .ret (.ok s)
  | s, x :: xs => body s x >>= fun
      | .ok s' => loop body s' xs
      | .error c => .ret (.error c)

/-- A loop over the images of a list. -/
theorem loop_map {δ : Type} (g : δ → β)
    (body : σ → β → Prog R (Except γ σ)) (xs : List δ) (s : σ) :
    loop body s (xs.map g) = loop (fun s x => body s (g x)) s xs := by
  induction xs generalizing s with
  | nil => rfl
  | cons x xs ih => simp only [List.map_cons, loop, ih]

/-- Every call the program can come to is as `P` says. -/
def All (P : E → Prop) : Prog R α → Prop
  | .ret _ => True
  | .call e k => P e ∧ ∀ r, (k r).All P

section All

variable {P : E → Prop} {p : Prog R α} {f : α → Prog R β}

/-- Of two programs in sequence, if of both. -/
theorem All.bind (hp : p.All P) (hf : ∀ a, (f a).All P) : (p >>= f).All P := by
  induction p with
  | ret a => exact hf a
  | call e k ih => exact ⟨hp.1, fun r => ih r (hp.2 r)⟩

theorem All.mono {Q : E → Prop} (hp : p.All P) (hPQ : ∀ e, P e → Q e) :
    p.All Q := by
  induction p with
  | ret a => trivial
  | call e k ih => exact ⟨hPQ e hp.1, fun r => ih r (hp.2 r)⟩

/-- Of a loop, if of its body. -/
theorem all_loop {body : σ → β → Prog R (Except γ σ)}
    (hbody : ∀ s x, (body s x).All P) :
    ∀ (xs : List β) (s : σ), (loop body s xs).All P := by
  intro xs
  induction xs with
  | nil => intro s; trivial
  | cons x xs ih =>
    intro s
    refine (hbody s x).bind fun r => ?_
    cases r with
    | ok s' => exact ih s'
    | error c => trivial

end All

end Prog

end Hotserve.Effect
