/-
Caddy's substitution of environment variables (box/tokens.go,
`expandEmptyEnv`): `{$NAME}` and `{$NAME:default}`, each from an opener
to the first closer after it, before the file is read as tokens.

`replaceEnvVars` is the algorithm that is kept to: it splices each value
into the buffer it scans and goes on after it. `expandEmptyEnv` passes
over the text once and never looks at what it wrote. What is left to
scan is in both the same end of the text, whatever stands before it, so
the spans a value goes in for are the text's and not the values'
(`replaceEnvVars_append`).
-/
import Hotserve.Text

namespace Hotserve.Box.Expand

open Bytes

def spanOpen : Bytes := str "\x7b$"

def spanClose : UInt8 := 125

/-- A span that is substituted: what stands between its opener and its
closer, and how much of the text is left where it begins and where it
ends. -/
structure Span where
  content : Bytes
  start : Nat
  stop : Nat
  deriving DecidableEq

/-- `{$` and what follows it, up to the first closer and after it. -/
def nextSpan (text : Bytes) : Option (Bytes × Bytes × Bytes) :=
  match cutOn spanOpen text with
  | none => none
  | some (before, rest) =>
    (cut spanClose rest).map fun p => (before, p.1, p.2)

theorem nextSpan_eq {text before name after : Bytes}
    (h : nextSpan text = some (before, name, after)) :
    text = before ++ (spanOpen ++ (name ++ spanClose :: after)) ∧
      spanClose ∉ name := by
  unfold nextSpan at h
  split at h
  next => cases h
  next b r hopen =>
    obtain ⟨⟨x, y⟩, hcut, heq⟩ := Option.map_eq_some_iff.mp h
    cases heq
    rw [cutOn_eq_some hopen, ← cut_eq_some hcut]
    exact ⟨rfl, cut_not_mem hcut⟩

theorem nextSpan_length {text before name after : Bytes}
    (h : nextSpan text = some (before, name, after)) :
    text.length = before.length + (2 + (name.length + (after.length + 1))) := by
  rw [(nextSpan_eq h).1]
  simp [spanOpen, str]
  rfl

/-- What a variable's text says where it is unset: what is after the
first `:`, or nothing. -/
def dflt (name : Bytes) : Bytes := (cut 58 name).elim [] Prod.snd

/-- `expandEmptyEnv`. -/
def expandEmptyEnv (input : Bytes) : Bytes :=
  match _h : nextSpan input with
  | none => input
  | some (before, name, after) =>
    if name = [] then
      -- `{$}` is left as it is
      before ++ spanOpen ++ [spanClose] ++ expandEmptyEnv after
    else before ++ dflt name ++ expandEmptyEnv after
termination_by input.length
decreasing_by
  all_goals
    have := nextSpan_length _h
    omega

/-- `replaceEnvVars`: each span found at or after `offset` is spliced out
of the buffer for its value, and the search goes on after that. -/
def replaceEnvVars (value : Bytes → Bytes) (buf : Bytes) (offset : Nat) :
    Bytes × List Span :=
  match _h : nextSpan (buf.drop offset) with
  | none => (buf, [])
  | some (before, name, after) =>
    let begin_ := offset + before.length
    let stop := begin_ + spanOpen.length + name.length + 1
    if name = [] then replaceEnvVars value buf stop
    else
      let (out, spans) := replaceEnvVars value
        (buf.take begin_ ++ value name ++ buf.drop stop)
        (begin_ + (value name).length)
      (out, ⟨name, buf.length - begin_, after.length⟩ :: spans)
termination_by buf.length - offset
decreasing_by
  all_goals
    have hlen := nextSpan_length _h
    have hopen : spanOpen.length = 2 := rfl
    simp only [List.length_drop, List.length_append, List.length_take] at hlen ⊢
    omega

-- ====== one pass

/-- One pass, with a value for each span. -/
def expand (value : Bytes → Bytes) (input : Bytes) : Bytes × List Span :=
  match _h : nextSpan input with
  | none => (input, [])
  | some (before, name, after) =>
    let (out, spans) := expand value after
    if name = [] then (before ++ spanOpen ++ [spanClose] ++ out, spans)
    else (before ++ value name ++ out,
      ⟨name, input.length - before.length, after.length⟩ :: spans)
termination_by input.length
decreasing_by
  have := nextSpan_length _h
  omega

section

variable {value : Bytes → Bytes} {input before name after : Bytes}

theorem expand_none (h : nextSpan input = none) :
    expand value input = (input, []) := by
  rw [expand]
  split
  next => rfl
  next hsome =>
    rw [h] at hsome
    cases hsome

theorem expand_some (h : nextSpan input = some (before, name, after)) :
    expand value input =
      if name = [] then
        (before ++ spanOpen ++ [spanClose] ++ (expand value after).1,
          (expand value after).2)
      else (before ++ value name ++ (expand value after).1,
        ⟨name, input.length - before.length, after.length⟩ ::
          (expand value after).2) := by
  rw [expand]
  split
  next hnone =>
    rw [h] at hnone
    cases hnone
  next hsome =>
    rw [h] at hsome
    cases hsome
    rfl

/-- Whatever stands before the offset, the rest is as in one pass. -/
theorem replaceEnvVars_append (value : Bytes → Bytes) (done input : Bytes) :
    replaceEnvVars value (done ++ input) done.length =
      (done ++ (expand value input).1, (expand value input).2) := by
  rw [replaceEnvVars]
  split
  next hnone =>
    rw [List.drop_left] at hnone
    rw [expand_none hnone]
  next before name after hnext =>
    rw [List.drop_left] at hnext
    have hlen := nextSpan_length hnext
    have htext := (nextSpan_eq hnext).1
    -- the text up to the end of the span
    have hstop : done ++ input =
        (done ++ (before ++ (spanOpen ++ (name ++ [spanClose])))) ++ after := by
      simp [htext]
    have hat : done.length + before.length + spanOpen.length + name.length + 1 =
        (done ++ (before ++ (spanOpen ++ (name ++ [spanClose])))).length := by
      simp only [List.length_append, List.length_singleton]
      omega
    have htake : (done ++ input).take (done.length + before.length) =
        done ++ before := by
      rw [htext, ← List.append_assoc, ← List.length_append, List.take_left]
    rw [expand_some hnext]
    dsimp only
    split
    next hname =>
      rw [hat, hstop, replaceEnvVars_append value _ after, hname]
      simp
    next =>
      rw [htake, hat, hstop, List.drop_left, ← hstop, ← List.length_append,
        ← List.length_append, replaceEnvVars_append value _ after]
      simp only [List.append_assoc, List.length_append, Prod.mk.injEq,
        List.cons.injEq, Span.mk.injEq, true_and, and_true]
      omega
termination_by input.length
decreasing_by all_goals omega

theorem expandEmptyEnv_eq (input : Bytes) :
    expandEmptyEnv input = (expand dflt input).1 := by
  rw [expandEmptyEnv]
  split
  next hnone => rw [expand_none hnone]
  next before name after hnext =>
    have hlen := nextSpan_length hnext
    rw [expand_some hnext, expandEmptyEnv_eq after]
    split
    next => rfl
    next => rfl
termination_by input.length
decreasing_by omega

end

/-- The single pass is the splicing it stands for. -/
theorem expandEmptyEnv_is_replaceEnvVars (input : Bytes) :
    expandEmptyEnv input = (replaceEnvVars dflt input 0).1 := by
  have h := replaceEnvVars_append dflt [] input
  rw [List.nil_append, List.length_nil] at h
  rw [h, expandEmptyEnv_eq]
  rfl

end Hotserve.Box.Expand
