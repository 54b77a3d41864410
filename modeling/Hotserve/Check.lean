/-
Go's early returns: a check that returns an error or goes on, written
in `Except`, with the lemmas that take checks which passed apart
into their conditions.
-/
import Hotserve.Bytes

namespace Hotserve

/-- `if bad { return errors.New(msg) }`. -/
def failIf (bad : Bool) (msg : Bytes) : Except Bytes Unit :=
  if bad then .error msg else .ok ()

@[simp] theorem failIf_eq_ok {bad : Bool} {msg : Bytes} :
    failIf bad msg = .ok () ↔ bad = false := by
  cases bad <;> simp [failIf]

variable {ε α β : Type} {x : Except ε α} {f : α → Except ε β}

/-- A chain of checks passes when each link does. -/
theorem Except.bind_eq_ok {b : β} :
    (x >>= f) = .ok b ↔ ∃ a, x = .ok a ∧ f a = .ok b := by
  cases x with
  | error e => simp [bind, Except.bind]
  | ok a => simp [bind, Except.bind]

/-- The same when the first link only checks. -/
theorem Except.check_eq_ok {x : Except ε Unit} {f : Unit → Except ε β} {b : β} :
    (x >>= f) = .ok b ↔ x = .ok () ∧ f () = .ok b := by
  rw [Except.bind_eq_ok]
  constructor
  · rintro ⟨⟨⟩, hx, hf⟩
    exact ⟨hx, hf⟩
  · rintro ⟨hx, hf⟩
    exact ⟨(), hx, hf⟩

/-- A check in the way passed, and then what follows it did. -/
theorem passed {c : Prop} [Decidable c] {e : ε} {a : α}
    (h : (if c then .error e else x) = .ok a) : ¬ c ∧ x = .ok a := by
  split at h
  · cases h
  next hc => exact ⟨hc, h⟩

/-- The same where a failed check finds nothing. -/
theorem passedSome {c : Prop} [Decidable c] {x : Option α} {a : α}
    (h : (if c then none else x) = some a) : ¬ c ∧ x = some a := by
  split at h
  · cases h
  next hc => exact ⟨hc, h⟩

/-- And where it finds a fault. -/
theorem passedNone {c : Prop} [Decidable c] {x : Option α} {a : α}
    (h : (if c then some a else x) = none) : ¬ c ∧ x = none := by
  split at h
  · cases h
  next hc => exact ⟨hc, h⟩

/-- Another error in a failure's place does not make it a success. -/
theorem Except.mapError_eq_ok {ε' : Type} {f : ε → ε'} {a : α} :
    x.mapError f = .ok a ↔ x = .ok a := by
  cases x <;> simp [Except.mapError]

theorem Except.isOk_iff : x.isOk = true ↔ ∃ a, x = .ok a := by
  cases x <;> simp [Except.isOk, Except.toBool]

theorem Except.toOption_eq_some {a : α} : x.toOption = some a ↔ x = .ok a := by
  cases x <;> simp [Except.toOption]

/-- A check of each member of a list. -/
theorem Except.forM_eq_ok {f : α → Except ε Unit} {l : List α} :
    l.forM f = .ok () ↔ ∀ a ∈ l, f a = .ok () := by
  induction l with
  | nil => simp [List.forM, pure, Except.pure]
  | cons a l ih =>
    change (f a >>= fun _ => l.forM f) = .ok () ↔ _
    rw [Except.check_eq_ok, ih]
    simp

/-- What each step of a fold keeps, of the members it has taken, holds at
its end. -/
theorem Except.foldlM_inv {σ : Type} {f : σ → α → Except ε σ}
    (P : List α → σ → Prop)
    (hstep : ∀ seen s a s', P seen s → f s a = .ok s' → P (seen ++ [a]) s') :
    ∀ {l : List α} (seen : List α) {s s' : σ}, P seen s →
      l.foldlM f s = .ok s' → P (seen ++ l) s'
  | [], seen, s, s', hs, hrun => by
    cases hrun
    simpa using hs
  | a :: l, seen, s, s', hs, hrun => by
    rw [List.foldlM_cons, Except.bind_eq_ok] at hrun
    obtain ⟨s₁, hone, hrest⟩ := hrun
    have := Except.foldlM_inv P hstep _ (hstep seen s a s₁ hs hone) hrest
    simpa using this

/-- A list mapped through checks that passed keeps its length. -/
theorem Except.mapM_length : ∀ {l : List α} {out : List β}, l.mapM f = .ok out →
      out.length = l.length := by
  intro l
  induction l with
  | nil =>
    intro out hrun
    cases hrun
    rfl
  | cons a l ih =>
    intro out hrun
    rw [List.mapM_cons] at hrun
    obtain ⟨b, -, hrun⟩ := Except.bind_eq_ok.mp hrun
    obtain ⟨rest, hrest, hrun⟩ := Except.bind_eq_ok.mp hrun
    cases hrun
    rw [List.length_cons, List.length_cons, ih hrest]

/-- What it gives, it gives of its members. -/
theorem Except.mem_mapM {l : List α} {out : List β} (h : l.mapM f = .ok out) :
    ∀ b ∈ out, ∃ a ∈ l, f a = .ok b := by
  induction l generalizing out with
  | nil =>
    cases h
    simp
  | cons a l ih =>
    rw [List.mapM_cons] at h
    obtain ⟨b, hb, h⟩ := Except.bind_eq_ok.mp h
    obtain ⟨rest, hrest, h⟩ := Except.bind_eq_ok.mp h
    cases h
    intro c hc
    rcases List.mem_cons.mp hc with rfl | hc
    · exact ⟨a, .head _, hb⟩
    · obtain ⟨d, hd, hfd⟩ := ih hrest c hc
      exact ⟨d, .tail _ hd, hfd⟩

end Hotserve
