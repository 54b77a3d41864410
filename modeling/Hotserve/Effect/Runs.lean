/-
Programs that carry a state and may fail: `Leaves x s Q E` says of the
run from `s`, however it ends, what it leaves, and `Runs x s Q` that it
ends well. The second is a total statement, so a program that throws
satisfies none; it is the first with no failure left to end in, and the
rules are those of the first.
-/
import Mathlib.Data.List.Basic

namespace Hotserve.Effect

variable {ε σ α β : Type}

/-- However the program ends from `s`: with what `Q` says, or a failure
that leaves what `E` says. -/
def Leaves (x : EStateM ε σ α) (s : σ) (Q : α → σ → Prop) (E : σ → Prop) :
    Prop :=
  match x s with
  | .ok a s' => Q a s'
  | .error _ s' => E s'

/-- From `s` the program ends well, with what `Q` says. -/
abbrev Runs (x : EStateM ε σ α) (s : σ) (Q : α → σ → Prop) : Prop :=
  Leaves x s Q fun _ => False

variable {x : EStateM ε σ α} {s : σ} {P Q : α → σ → Prop} {E : σ → Prop}
  {f : α → EStateM ε σ β}

/-- The value and the state a program that runs ends with. -/
theorem Runs.ok (h : Runs x s Q) : ∃ a s', x s = .ok a s' ∧ Q a s' := by
  unfold Runs Leaves at h
  split at h
  next a s' hx => exact ⟨a, s', hx, h⟩
  next => exact h.elim

/-- A weaker word on what it ends with. -/
theorem Leaves.mono (h : Leaves x s P E) (hPQ : ∀ a s', P a s' → Q a s') :
    Leaves x s Q E := by
  unfold Leaves at h ⊢
  split
  next a s' hx =>
    rw [hx] at h
    exact hPQ a s' h
  next e s' hx =>
    rw [hx] at h
    exact h

/-- A weaker word on failures. -/
theorem Leaves.mono_error {E' : σ → Prop} (h : Leaves x s Q E)
    (hE : ∀ s', E s' → E' s') : Leaves x s Q E' := by
  unfold Leaves at h ⊢
  split
  next a s' hx =>
    rw [hx] at h
    exact h
  next e s' hx =>
    rw [hx] at h
    exact hE s' h

/-- One program after another: what the first ends with, the second
starts from, and the failures of either are spoken for. -/
theorem Leaves.bind {Q : β → σ → Prop} (h : Leaves x s P E)
    (hf : ∀ a s', P a s' → Leaves (f a) s' Q E) : Leaves (x >>= f) s Q E := by
  change Leaves (EStateM.bind x f) s Q E
  unfold Leaves EStateM.bind
  unfold Leaves at h
  split at h
  next a s' hx =>
    rw [hx]
    exact hf a s' h
  next e s' hx =>
    rw [hx]
    exact h

/-- A program that ends at once. -/
theorem leaves_pure {a : α} (h : Q a s) :
    Leaves (pure a : EStateM ε σ α) s Q E :=
  h

/-- One that fails at once. -/
theorem leaves_throw {e : ε} (h : E s) :
    Leaves (throw e : EStateM ε σ α) s Q E :=
  h

/-- A program that begins by looking at its state. -/
theorem leaves_get {f : σ → EStateM ε σ β} {Q : β → σ → Prop}
    (h : Leaves (f s) s Q E) : Leaves (get >>= f) s Q E :=
  h

theorem leaves_set {s' : σ} {Q : PUnit → σ → Prop} (h : Q ⟨⟩ s') :
    Leaves (set s' : EStateM ε σ PUnit) s Q E :=
  h

theorem leaves_modify {f : σ → σ} {Q : PUnit → σ → Prop} (h : Q ⟨⟩ (f s)) :
    Leaves (modify f : EStateM ε σ PUnit) s Q E :=
  h

/-- Both branches, each under its condition. -/
theorem leaves_ite {c : Prop} [Decidable c] {y : EStateM ε σ α}
    (hx : c → Leaves x s Q E) (hy : ¬ c → Leaves y s Q E) :
    Leaves (if c then x else y) s Q E := by
  split
  next hc => exact hx hc
  next hc => exact hy hc

/-- A loop, by what holds of the members done. -/
theorem leaves_forM {f : α → EStateM ε σ PUnit} (P : List α → σ → Prop) :
    ∀ {l : List α} (done : List α) {s : σ}, P done s →
      (∀ done a s, a ∈ l → P done s →
        Leaves (f a) s (fun _ s' => P (done ++ [a]) s') E) →
      Leaves (l.forM f) s (fun _ s' => P (done ++ l) s') E
  | [], done, s, hs, _ => leaves_pure (by simpa using hs)
  | a :: l, done, s, hs, hstep => by
    refine Leaves.bind (hstep done a s (.head _) hs) fun _ s' hs' => ?_
    have := leaves_forM P (done ++ [a]) hs' fun done b s hb =>
      hstep done b s (.tail _ hb)
    simpa using this

/-- A loop that answers each member, by what each answer is and what the
state stays. -/
theorem leaves_mapM {f : α → EStateM ε σ β} (P : σ → Prop) (R : β → Prop) :
    ∀ {l : List α} {s : σ}, P s →
      (∀ a s, a ∈ l → P s → Leaves (f a) s (fun b s' => R b ∧ P s') E) →
      Leaves (l.mapM f) s (fun bs s' => (∀ b ∈ bs, R b) ∧ P s') E
  | [], s, hs, _ => leaves_pure ⟨by simp, hs⟩
  | a :: l, s, hs, hstep => by
    rw [List.mapM_cons]
    refine Leaves.bind (hstep a s (.head _) hs) ?_
    rintro b s' ⟨hb, hs'⟩
    refine Leaves.bind (leaves_mapM P R hs' fun c s hc =>
      hstep c s (.tail _ hc)) ?_
    rintro bs s'' ⟨hbs, hs''⟩
    exact leaves_pure ⟨List.forall_mem_cons.mpr ⟨hb, hbs⟩, hs''⟩

end Hotserve.Effect
