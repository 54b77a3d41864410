/-
The walk is sound: where it answers that a request reaches box_webhook,
every request it stands for does.

A verdict `admits` the outcomes a matcher may have, and combining
verdicts admits what combining outcomes gives. Of the groups the walk
keeps what every request has met (`Tracks`). Under a verdict that is
certain the routes are run, and what the walk says holds of the run;
under one that may match they are run or skipped, and what the walk
keeps has to hold of both.
-/
import Hotserve.Box.Routing

namespace Hotserve.Box.Reach

open Bytes

-- ====== verdicts

/-- A matcher that may fail is one that may match. -/
def Verdict.Honest (v : Verdict) : Prop := v.fails = true → v.status = .mayMatch

variable {v best : Verdict} {o : Outcome} {l : List Verdict}
  {fields : List (Bytes × Json)} {groups : Groups} {out : ReachEnd × Groups}
  {next : State → Result}

theorem Verdict.Honest.admits_any (h : v.Honest) (hf : v.fails = true) :
    v.admits o := by
  have hs := h hf
  cases o with
  | yes => rw [Verdict.admits, hs]; decide
  | no => rw [Verdict.admits, hs]; decide
  | error => exact hf

theorem decided_honest (b : Bool) : (decided b).Honest := by
  cases b <;> simp [decided, sure, never, Verdict.Honest]

theorem static_honest {key : Bytes} {v : Json}
    {run : List Bytes → Option Bool} : (static key v run).Honest := by
  unfold static
  split
  · simp [mayBe, Verdict.Honest]
  · exact decided_honest _

theorem leaf_honest (c : Caddy) (key : Bytes) (v : Json) :
    (leaf c key v).Honest := by
  unfold leaf
  split
  · exact static_honest
  split
  · exact static_honest
  split
  · exact static_honest
  split
  · split
    · split
      · exact decided_honest _
      · simp [mayBe, Verdict.Honest]
    · simp [mayBe, Verdict.Honest]
  split
  · simp [mayBe, Verdict.Honest]
  split
  · simp [mayBe, Verdict.Honest]
  · simp [mayBe, Verdict.Honest]

theorem negated_honest (key : Bytes) : (negated key v).Honest := by
  unfold negated
  split
  · simp [mayBe, Verdict.Honest]
  · split <;> simp [never, sure, mayBe, Verdict.Honest]

theorem one_honest (c : Caddy) (key : Bytes) (v : Json) :
    (one c key v).Honest := by
  cases v with
  | list items =>
    rw [one]
    split
    · exact negated_honest _
    · exact leaf_honest _ _ _
  | text s => exact leaf_honest _ _ _
  | object fields => exact leaf_honest _ _ _
  | other => exact leaf_honest _ _ _

theorem negated_admits {key : Bytes} (h : v.admits o) :
    (negated key v).admits o.negate := by
  unfold negated
  split
  next hf =>
    exact Verdict.Honest.admits_any (by simp [Verdict.Honest, mayBe]) rfl
  next hf =>
    cases o with
    | error => exact absurd h hf
    | yes =>
      have h : v.status ≠ .noMatch := h
      split
      · simp [Outcome.negate, Verdict.admits, never]
      next hs => exact absurd hs h
      · simp [Outcome.negate, Verdict.admits, mayBe]
    | no =>
      have h : v.status ≠ .matched := h
      split
      next hs => exact absurd hs h
      · simp [Outcome.negate, Verdict.admits, sure]
      · simp [Outcome.negate, Verdict.admits, mayBe]

-- ====== sets

/-- What a set's matchers, run in some order, may come to. -/
def AllAdmit (l : List Verdict) : Outcome → Prop
  | .yes => ∀ v ∈ l, v.admits .yes
  | .no => ∃ v ∈ l, v.admits .no
  | .error => ∃ v ∈ l, v.admits .error

section

variable (hl : ∀ v ∈ l, v.Honest)
include hl

theorem setVerdict_honest (hbest : best.Honest) :
    (setVerdict best l).Honest := by
  induction l generalizing best with
  | nil => exact hbest
  | cons v l ih =>
    rw [List.forall_mem_cons] at hl
    rw [setVerdict]
    split
    · exact hl.1
    split
    · exact ih hl.2 hl.1
    split
    · exact ih hl.2 hl.1
    · exact ih hl.2 hbest

/-- A set says no only if a matcher does, surely yes only if all do, and
may fail if one may. -/
theorem setVerdict_parts (best : Verdict) :
    (best.status ≠ .noMatch → (∀ v ∈ l, v.status ≠ .noMatch) →
      (setVerdict best l).status ≠ .noMatch) ∧
    ((best.status ≠ .matched ∨ ∃ v ∈ l, v.status ≠ .matched) →
      (setVerdict best l).status ≠ .matched) ∧
    ((∃ v ∈ l, v.fails = true) → (setVerdict best l).fails = true) := by
  induction l generalizing best with
  | nil => simp [setVerdict]
  | cons v l ih =>
    rw [List.forall_mem_cons] at hl
    rw [setVerdict]
    by_cases hf : v.fails = true
    · rw [if_pos hf, hl.1 hf]
      exact ⟨fun _ _ => by decide, fun _ => by decide, fun _ => hf⟩
    rw [if_neg hf]
    have hfails : ∀ b : Verdict, (∃ u ∈ v :: l, u.fails = true) →
        (setVerdict b l).fails = true := by
      rintro b ⟨u, hu, huf⟩
      rcases List.mem_cons.mp hu with rfl | hu
      · exact absurd huf hf
      · exact (ih hl.2 _).2.2 ⟨u, hu, huf⟩
    by_cases hno : v.status = .noMatch
    · rw [if_pos hno]
      refine ⟨fun _ hall => absurd hno (hall v (.head _)),
        fun _ => (ih hl.2 _).2.1 (.inl (by rw [hno]; decide)), hfails v⟩
    rw [if_neg hno]
    by_cases hmay : v.status = .mayMatch ∧ best.status = .matched
    · rw [if_pos hmay]
      refine ⟨fun _ hall => (ih hl.2 _).1 hno
        (fun u hu => hall u (.tail _ hu)),
        fun _ => (ih hl.2 _).2.1 (.inl (by rw [hmay.1]; decide)), hfails v⟩
    · rw [if_neg hmay]
      refine ⟨fun hb hall => (ih hl.2 _).1 hb
        (fun u hu => hall u (.tail _ hu)), fun hor => ?_,
        hfails best⟩
      refine (ih hl.2 _).2.1 ?_
      by_cases hb : best.status = .matched
      · -- `best` is sure, so `v` is too
        have hv : v.status = .matched := by
          cases hs : v.status with
          | noMatch => exact absurd hs hno
          | mayMatch => exact absurd ⟨hs, hb⟩ hmay
          | matched => rfl
        rcases hor with h | ⟨u, hu, hus⟩
        · exact absurd hb h
        · rcases List.mem_cons.mp hu with rfl | hu
          · exact absurd hv hus
          · exact .inr ⟨u, hu, hus⟩
      · exact .inl hb

theorem setVerdict_admits (h : AllAdmit l o) :
    (setVerdict sure l).admits o := by
  obtain ⟨hyes, hno, herr⟩ := setVerdict_parts hl sure
  cases o with
  | yes => exact hyes (by decide) h
  | no => exact hno (.inr h)
  | error => exact herr h

/-- What sets tried in order may come to. -/
inductive AnyAdmit : List Verdict → Outcome → Prop
  | nil : AnyAdmit [] .no
  | next {v : Verdict} {l : List Verdict} {o : Outcome} (hv : v.admits .no)
      (hl : AnyAdmit l o) : AnyAdmit (v :: l) o
  | stop {v : Verdict} {l : List Verdict} {o : Outcome} (hv : v.admits o)
      (ho : o ≠ .no) : AnyAdmit (v :: l) o

theorem anyVerdict_ne_noMatch (hbest : best.status ≠ .noMatch) :
    (anyVerdict best l).status ≠ .noMatch := by
  induction l generalizing best with
  | nil => exact hbest
  | cons v l ih =>
    rw [List.forall_mem_cons] at hl
    rw [anyVerdict]
    split
    next hor =>
      rcases hor with hf | hs
      · rw [hl.1 hf]
        decide
      · rw [hs]
        decide
    split
    next hmay => exact absurd hmay.2 hbest
    next => exact ih hl.2 hbest

theorem anyVerdict_admits (hbest : best.status ≠ .matched) (h : AnyAdmit l o) :
    (anyVerdict best l).admits o := by
  induction h generalizing best with
  | nil => exact hbest
  | @next v l o hv _ ih =>
    rw [List.forall_mem_cons] at hl
    have hv : v.status ≠ .matched := hv
    rw [anyVerdict]
    split
    next hor => exact hl.1.admits_any (hor.resolve_right hv)
    split
    next => exact ih hl.2 hv
    next => exact ih hl.2 hbest
  | @stop v l o hv ho =>
    rw [List.forall_mem_cons] at hl
    rw [anyVerdict]
    split
    next => exact hv
    next hor =>
      rw [not_or] at hor
      cases o with
      | no => exact absurd rfl ho
      | error => exact absurd hv hor.1
      | yes =>
        have hv : v.status ≠ .noMatch := hv
        split
        next => exact anyVerdict_ne_noMatch hl.2 hv
        next hmay =>
          -- `v` may match and something before it may already
          have hvs : v.status = .mayMatch := by
            cases hs : v.status with
            | noMatch => exact absurd hs hv
            | mayMatch => rfl
            | matched => exact absurd hs hor.2
          exact anyVerdict_ne_noMatch hl.2 fun hb => hmay ⟨hvs, hb⟩

end

-- ====== evaluation

section

variable {c : Caddy} {a : Assignment c}

theorem mem_fieldVerdicts {x : Bytes × Verdict}
    (h : x ∈ fieldVerdicts c fields) : x.2.Honest := by
  induction fields with
  | nil => cases h
  | cons f fields ih =>
    rw [fieldVerdicts] at h
    rcases List.mem_cons.mp h with rfl | h
    · exact one_honest c f.1 f.2
    · exact ih h

/-- The order of the keys does not matter to what a set may come to. -/
theorem sortedVerdicts_admits
    (h : AllAdmit ((fieldVerdicts c fields).map Prod.snd) o) :
    (setVerdict sure (((fieldVerdicts c fields).insertionSort
      fun a b => a.1 ≤ b.1).map Prod.snd)).admits o := by
  have hmem : ∀ v, v ∈ ((fieldVerdicts c fields).insertionSort
      fun a b => a.1 ≤ b.1).map Prod.snd ↔
      v ∈ (fieldVerdicts c fields).map Prod.snd := fun v =>
    ((List.perm_insertionSort _ _).map Prod.snd).mem_iff
  refine setVerdict_admits ?_ ?_
  · intro v hv
    obtain ⟨x, hx, rfl⟩ := List.mem_map.mp ((hmem v).mp hv)
    exact mem_fieldVerdicts hx
  · cases o with
    | yes => exact fun v hv => h v ((hmem v).mp hv)
    | no => exact h.imp fun v hv => ⟨(hmem v).mpr hv.1, hv.2⟩
    | error => exact h.imp fun v hv => ⟨(hmem v).mpr hv.1, hv.2⟩

theorem setVerdicts_honest {items : List Json} :
    ∀ v ∈ setVerdicts c items, v.Honest := by
  induction items with
  | nil => simp [setVerdicts]
  | cons item items ih =>
    cases item with
    | object fields =>
      rw [setVerdicts]
      refine List.forall_mem_cons.mpr ⟨setVerdict_honest ?_ ?_, ih⟩
      · intro v hv
        obtain ⟨x, hx, rfl⟩ := List.mem_map.mp hv
        exact mem_fieldVerdicts ((List.mem_insertionSort _).mp hx)
      · simp [sure, Verdict.Honest]
    | text s => exact ih
    | list l => exact ih
    | other => exact ih

mutual

/-- A matcher comes out as its verdict admits. -/
theorem one_admits (key : Bytes) : ∀ (v : Json) (n : Nat),
    (one c key v).admits (evalOne a key v n).1
  | .list items, n => by
    rw [one, evalOne]
    split
    next hnot =>
      exact negated_admits (anyVerdict_admits setVerdicts_honest (by decide)
        (any_admits items n))
    next => exact a.agrees n key _
  | .text s, n => a.agrees n key _
  | .object fields, n => a.agrees n key _
  | .other, n => a.agrees n key _

theorem any_admits : ∀ (items : List Json) (n : Nat),
    AnyAdmit (setVerdicts c items) (evalAny a items n).1
  | [], n => .nil
  | .object fields :: rest, n => by
    have hset := sortedVerdicts_admits (all_admits fields n)
    rw [setVerdicts, evalAny]
    rcases heval : evalAll a fields n with ⟨o, n'⟩
    rw [heval] at hset
    cases o with
    | no => exact .next hset (any_admits rest n')
    | yes => exact AnyAdmit.stop (o := .yes) hset (by decide)
    | error => exact AnyAdmit.stop (o := .error) hset (by decide)
  | .text s :: rest, n => any_admits rest n
  | .list items :: rest, n => any_admits rest n
  | .other :: rest, n => any_admits rest n

theorem all_admits : ∀ (fields : List (Bytes × Json)) (n : Nat),
    AllAdmit ((fieldVerdicts c fields).map Prod.snd) (evalAll a fields n).1
  | [], n => by simp [fieldVerdicts, evalAll, AllAdmit]
  | (key, v) :: rest, n => by
    have hone := one_admits key v n
    rw [fieldVerdicts, evalAll, List.map_cons]
    rcases heval : evalOne a key v n with ⟨o, n'⟩
    rw [heval] at hone
    cases o with
    | no => exact ⟨_, .head _, hone⟩
    | error => exact ⟨_, .head _, hone⟩
    | yes =>
      have hrest := all_admits rest n'
      dsimp only
      rcases hr : evalAll a rest n' with ⟨o', n''⟩
      rw [hr] at hrest
      cases o' with
      | yes => exact List.forall_mem_cons.mpr ⟨hone, hrest⟩
      | no => exact hrest.imp fun u hu => ⟨.tail _ hu.1, hu.2⟩
      | error =>
        exact hrest.imp fun u hu => ⟨.tail _ hu.1, hu.2⟩

end

/-- A route's matchers come out as its verdict admits. -/
theorem route_admits (sets : List (List (Bytes × Json))) (n : Nat) :
    (routeVerdict c sets).admits (evalRoute a sets n).1 := by
  unfold routeVerdict evalRoute
  split
  · simp [sure, Verdict.admits]
  · exact anyVerdict_admits setVerdicts_honest (by decide) (any_admits _ n)

-- ====== groups

/-- What the walk keeps of the groups holds of a request. -/
structure Tracks (groups : Groups) (met : Bytes → Bool) : Prop where
  sure : ∀ g, (groups g).status = .matched → met g = true
  never : ∀ g, (groups g).status = .noMatch → met g = false

/-- A member that may match, met or not. -/
theorem Tracks.record_skip {met : Bytes → Bool} {group : Bytes}
    (h : Tracks groups met) (hv : v.status = .matched → met group = true) :
    Tracks (recordGroup groups group v) met := by
  unfold recordGroup
  split
  next hbelow =>
    constructor
    · intro g hg
      by_cases heq : g = group
      · subst heq
        rw [Function.update_self] at hg
        exact hv hg
      · rw [Function.update_of_ne heq] at hg
        exact h.sure g hg
    · intro g hg
      by_cases heq : g = group
      · subst heq
        rw [Function.update_self] at hg
        have hg : v.status = .noMatch := hg
        rw [hg] at hbelow
        cases hs : (groups g).status <;> rw [hs] at hbelow <;> cases hbelow
      · rw [Function.update_of_ne heq] at hg
        exact h.never g hg
  next => exact h

/-- A member that matched, and is the first to. -/
theorem Tracks.record_run {met : Bytes → Bool} {group : Bytes}
    (h : Tracks groups met) (hv : v.status ≠ .noMatch) :
    Tracks (recordGroup groups group v) (Function.update met group true) := by
  have hnot : (recordGroup groups group v group).status ≠ .noMatch := by
    unfold recordGroup
    split
    next => simpa using hv
    next hbelow =>
      intro hs
      rw [hs] at hbelow
      cases hvs : v.status with
      | noMatch => exact hv hvs
      | mayMatch => rw [hvs] at hbelow; exact hbelow rfl
      | matched => rw [hvs] at hbelow; exact hbelow rfl
  have hother : ∀ g, g ≠ group → recordGroup groups group v g = groups g := by
    intro g hg
    unfold recordGroup
    split
    · exact Function.update_of_ne hg ..
    · rfl
  constructor
  · intro g hg
    by_cases heq : g = group
    · rw [heq, Function.update_self]
    · rw [Function.update_of_ne heq]
      exact h.sure g (hother g heq ▸ hg)
  · intro g hg
    by_cases heq : g = group
    · exact absurd (heq ▸ hg) hnot
    · rw [Function.update_of_ne heq]
      exact h.never g (hother g heq ▸ hg)

-- ====== the walk

/-- Handlers that let a request on. -/
def Passing (ran : List Handler) : Prop :=
  ∀ h ∈ ran, classify h = .passes ∨ classify h = .subroute

/-- What the walk says of routes holds of one run of them. -/
def Sound (out : ReachEnd × Groups) (r : Result) : Prop :=
  match out.1 with
  | .fellThrough => r.stop = none ∧ Tracks out.2 r.state.met ∧ Passing r.ran
  | .reachedWebhook => r.stop = some .webhook ∧ Passing r.ran
  | .blocked _ => True

/-- What the walk says of routes under a verdict holds of every run of
them and, if they may be skipped, where they are. -/
structure Covers (v : Verdict) (groups : Groups) (out : ReachEnd × Groups)
    (run : State → Result) : Prop where
  runs : ∀ s, Tracks groups s.met → Sound out (run s)
  skips : v.status = .mayMatch → out.1 ≠ .reachedWebhook ∧
    (out.1 = .fellThrough → ∀ met, Tracks groups met → Tracks out.2 met)

theorem covers_blocked (b : Block) (after : Groups) (run : State → Result) :
    Covers v groups (.blocked b, after) run :=
  ⟨fun _ _ => trivial, fun _ => ⟨by simp, by simp⟩⟩

/-- Nothing more to walk. -/
theorem covers_nil :
    Covers v groups (.fellThrough, groups) fun s => ⟨none, s, []⟩ :=
  ⟨fun _ hs => ⟨rfl, hs, by simp [Passing]⟩,
    fun _ => ⟨by simp, fun _ _ h => h⟩⟩

theorem Passing.append {l l' : List Handler} (h : Passing l) (h' : Passing l') :
    Passing (l ++ l') :=
  fun x hx => (List.mem_append.mp hx).elim (h x) (h' x)

theorem Sound.andThen {r : Result} (hr : Sound (.fellThrough, groups) r)
    (hnext : Sound out (next r.state)) : Sound out (r.andThen next) := by
  obtain ⟨hstop, -, hran⟩ := hr
  unfold Result.andThen
  rw [hstop]
  unfold Sound at hnext ⊢
  split
  next he =>
    rw [he] at hnext
    exact ⟨hnext.1, hnext.2.1, hran.append hnext.2.2⟩
  next he =>
    rw [he] at hnext
    exact ⟨hnext.1, hran.append hnext.2⟩
  next => trivial

/-- What is over stays so. -/
theorem Sound.done {r : Result} (hr : Sound out r) (he : out.1 ≠ .fellThrough) :
    Sound out (r.andThen next) := by
  unfold Sound at hr ⊢
  split
  next h => exact absurd h he
  next h =>
    rw [h] at hr
    unfold Result.andThen
    rw [hr.1]
    exact hr
  next => trivial

/-- One walk after another, over one run after another. -/
theorem Covers.andThen {out' : ReachEnd × Groups} {run : State → Result}
    (h : Covers v groups out run)
    (hnext : out.1 = .fellThrough → Covers v out.2 out' next)
    (hdone : out.1 ≠ .fellThrough → out' = out) :
    Covers v groups out' fun s => (run s).andThen next := by
  by_cases he : out.1 = .fellThrough
  · have hn := hnext he
    have hout : out = (.fellThrough, out.2) := by rw [← he]
    constructor
    · intro s hs
      have hr := h.runs s hs
      rw [hout] at hr
      exact Sound.andThen hr (hn.runs _ hr.2.1)
    · intro hv
      obtain ⟨hreach, hskip⟩ := hn.skips hv
      exact ⟨hreach, fun he' met hmet =>
        hskip he' met ((h.skips hv).2 he met hmet)⟩
  · rw [hdone he]
    refine ⟨fun s hs => (h.runs s hs).done he, fun hv => ⟨(h.skips hv).1, ?_⟩⟩
    exact fun he' => absurd he' he

/-- A handler that lets the request on, before the rest. -/
theorem Covers.after_pass {h : Handler} (hnext : Covers v groups out next)
    (hpass : classify h = .passes ∨ classify h = .subroute) :
    Covers v groups out fun s => (Result.mk none s [h]).andThen next where
  runs := by
    intro s hs
    have hr : Sound (.fellThrough, groups) (Result.mk none s [h]) :=
      ⟨rfl, hs, by simpa [Passing] using hpass⟩
    exact hr.andThen (hnext.runs s hs)
  skips := hnext.skips

/-- What follows a route's handlers, in the walk. -/
def afterRoute (terminal : Bool) (block : Block)
    (rest : Groups → ReachEnd × Groups) :
    ReachEnd × Groups → ReachEnd × Groups
  | (.fellThrough, groups) =>
    if terminal then (.blocked block, groups) else rest groups
  | done => done

/-- What a step of a run does with one route that the walk takes for a
match: pass it by, which then was not certain, or run it. -/
inductive Took (v : Verdict) (after : Groups) (terminal : Bool)
    (handle rest : State → Result) (s : State) (r : Result) : Prop
  | passed (n : Nat) (eq : r = rest ⟨n, s.met⟩) (may : v.status = .mayMatch)
      (tracks : Tracks after s.met)
  | ran (n : Nat) (met : Bytes → Bool)
      (eq : r = (handle ⟨n, met⟩).andThen fun s =>
        if terminal then ⟨some .ended, s, []⟩ else rest s)
      (tracks : Tracks after met)

/-- One route and those after it. -/
theorem covers_member {outer : Verdict} {after : Groups} {terminal : Bool}
    {block : Block} {hout : ReachEnd × Groups}
    {handle rest step : State → Result} {restOut : Groups → ReachEnd × Groups}
    (hhandle : Covers v after hout handle)
    (hrest : ∀ g, Covers outer g (restOut g) rest)
    (hstep : ∀ s, Tracks groups s.met →
      Took v after terminal handle rest s (step s))
    (hskip : outer.status = .mayMatch → v.status = .mayMatch ∧
      ∀ met, Tracks groups met → Tracks after met) :
    Covers outer groups (afterRoute terminal block restOut hout) step := by
  obtain ⟨e, g⟩ := hout
  cases e with
  | blocked b => exact covers_blocked _ _ _
  | reachedWebhook =>
    refine ⟨fun s hs => ?_, fun hmay => ?_⟩
    · rcases hstep s hs with ⟨n, -, hmay, -⟩ | ⟨n, met, heq, htr⟩
      · exact absurd rfl (hhandle.skips hmay).1
      · rw [heq]
        exact (hhandle.runs ⟨n, met⟩ htr).done (by simp)
    · exact absurd rfl (hhandle.skips (hskip hmay).1).1
  | fellThrough =>
    cases terminal with
    | true => exact covers_blocked _ _ _
    | false =>
      refine ⟨fun s hs => ?_, fun hmay => ?_⟩
      · rcases hstep s hs with ⟨n, heq, hmay, htr⟩ | ⟨n, met, heq, htr⟩
        · rw [heq]
          exact (hrest g).runs ⟨n, s.met⟩ ((hhandle.skips hmay).2 rfl _ htr)
        · rw [heq]
          have hr := hhandle.runs ⟨n, met⟩ htr
          exact hr.andThen ((hrest g).runs _ hr.2.1)
      · obtain ⟨hv, htr⟩ := hskip hmay
        obtain ⟨hreach, hthrough⟩ := (hrest g).skips hmay
        exact ⟨hreach, fun he met hmet => hthrough he met
          ((hhandle.skips hv).2 rfl met (htr met hmet))⟩

/-- The verdict a route's handlers run under, and the groups then. -/
theorem member_verdict {outer own : Verdict} (hout : outer.status ≠ .noMatch)
    (hown : own.status ≠ .noMatch) (group : Bytes)
    (hgroup : ¬ (group ≠ [] ∧ (groups group).status = .matched)) :
    ∀ v, v = (if outer.status.below own.status then outer else own) →
    ∀ v', v' = (if group ≠ [] then underGroup (groups group) v else v) →
      v.status ≠ .noMatch ∧ v'.status ≠ .noMatch ∧
      (own.status ≠ .matched ∨ outer.status = .mayMatch →
        v.status = .mayMatch ∧ v'.status = .mayMatch) ∧
      (group ≠ [] → (groups group).status ≠ .noMatch →
        v'.status = .mayMatch) := by
  rintro v hv v' hv'
  have hvs : v.status = .mayMatch ∨ v.status = .matched ∧
      own.status = .matched ∧ outer.status = .matched := by
    cases ho : outer.status <;> cases hw : own.status <;>
      simp_all [MatchStatus.below]
  have hv's : v.status = .mayMatch → v'.status = .mayMatch := by
    intro h
    rw [hv']
    split
    · simp [underGroup, h]
    · exact h
  refine ⟨?_, ?_, ?_, ?_⟩
  · rcases hvs with h | h
    · rw [h]; decide
    · rw [h.1]; decide
  · rcases hvs with h | h
    · rw [hv's h]; decide
    · rw [hv']
      split
      · unfold underGroup
        split
        · simp [mayBe]
        · rw [h.1]; decide
      · rw [h.1]; decide
  · intro hor
    have hmay : v.status = .mayMatch := by
      rcases hvs with h | ⟨-, hw, ho⟩
      · exact h
      · rcases hor with hor | hor
        · exact absurd hw hor
        · rw [ho] at hor; cases hor
    exact ⟨hmay, hv's hmay⟩
  · intro hne hg
    rw [hv', if_pos hne]
    have hgs : (groups group).status = .mayMatch := by
      cases hs : (groups group).status with
      | noMatch => exact absurd hs hg
      | mayMatch => rfl
      | matched => exact absurd ⟨hne, hs⟩ hgroup
    unfold underGroup
    split
    · rfl
    next hnot =>
      rcases hvs with h | h
      · exact h
      · exact absurd ⟨hgs, h.1⟩ hnot

/-- The groups once the route has been met. -/
def metGroups (groups : Groups) (group : Bytes) (v : Verdict) : Groups :=
  if group ≠ [] then recordGroup groups group v else groups

variable {group : Bytes} {sets : List (List (Bytes × Json))}
  {handle : List Handler} {terminal : Bool} {rest : List Route}

/-- A route that may be passed by leaves the groups as they may be. -/
theorem Tracks.pass {met : Bytes → Bool} (h : Tracks groups met)
    (hv : v.status = .mayMatch) : Tracks (metGroups groups group v) met := by
  unfold metGroups
  split
  · exact h.record_skip fun hm => by rw [hv] at hm; cases hm
  · exact h

/-- What a run does with a route whose matchers do not fail: pass it by,
not matched or its group met, or run it. -/
theorem runRoutes_cases (hfails : (routeVerdict c sets).fails = false)
    (s : State) :
    ∃ n, runRoutes a (.mk group sets handle terminal :: rest) s =
          runRoutes a rest ⟨n, s.met⟩ ∧
        ((routeVerdict c sets).status ≠ .matched ∨
          group ≠ [] ∧ s.met group = true) ∨
      runRoutes a (.mk group sets handle terminal :: rest) s =
          (runHandlers a handle ⟨n, if group ≠ [] then
            Function.update s.met group true else s.met⟩).andThen (fun s =>
              if terminal then ⟨some .ended, s, []⟩ else runRoutes a rest s) ∧
        ¬ ((routeVerdict c sets).status = .noMatch ∨
          group ≠ [] ∧ s.met group = true) := by
  have hadm := route_admits (a := a) sets s.n
  rw [runRoutes]
  rcases heval : evalRoute a sets s.n with ⟨o, n⟩
  rw [heval] at hadm
  refine ⟨n, ?_⟩
  cases o with
  | error =>
    have hadm : (routeVerdict c sets).fails = true := hadm
    rw [hfails] at hadm
    cases hadm
  | no => exact .inl ⟨rfl, .inl hadm⟩
  | yes =>
    dsimp only
    by_cases hmet : group ≠ [] ∧ s.met group = true
    · rw [if_pos hmet]
      exact .inl ⟨rfl, .inr hmet⟩
    · rw [if_neg hmet]
      exact .inr ⟨rfl, not_or.mpr ⟨hadm, hmet⟩⟩

/-- The walk of one route, its cases put together. -/
theorem walkRoutes_cons {outer : Verdict} {top : Bool}
    (hfails : (routeVerdict c sets).fails = false)
    (hmatch : (routeVerdict c sets).status ≠ .noMatch)
    (hgroup : ¬ (group ≠ [] ∧ (groups group).status = .matched)) :
    ∀ v, v = (if outer.status.below (routeVerdict c sets).status
        then outer else routeVerdict c sets) →
      ∀ v', v' = (if group ≠ [] then underGroup (groups group) v else v) →
      ∃ block,
        walkRoutes c outer top (.mk group sets handle terminal :: rest) groups =
          afterRoute terminal block (walkRoutes c outer top rest)
            (walkHandlers c v' handle (metGroups groups group v)) := by
  intro v hv v' hv'
  refine ⟨{ terminal := true, site := top, may := v'.status = .mayMatch,
            matcher := v'.matcher }, ?_⟩
  rw [walkRoutes]
  dsimp only
  rw [if_neg (by simp [hfails]), if_neg hmatch, if_neg hgroup, ← hv, ← hv',
    metGroups]
  rcases walkHandlers c v' handle _ with ⟨e, g⟩
  cases e with
  | fellThrough => rfl
  | reachedWebhook => rfl
  | blocked b => rfl

mutual

/-- What the walk says of a route list holds of every run. -/
theorem covers_routes : ∀ (rs : List Route) (outer : Verdict) (top : Bool)
    (groups : Groups), outer.status ≠ .noMatch →
    Covers outer groups (walkRoutes c outer top rs groups) (runRoutes a rs)
  | [], outer, top, groups, _ => by
    have hrun : runRoutes a [] = fun s => ⟨none, s, []⟩ :=
      funext fun s => by rw [runRoutes]
    rw [walkRoutes, hrun]
    exact covers_nil
  | .mk group sets handle terminal :: rest, outer, top, groups, hout => by
    have hrest := fun g => covers_routes rest outer top g hout
    by_cases hfails : (routeVerdict c sets).fails = true
    · rw [walkRoutes]
      dsimp only
      rw [if_pos hfails]
      exact covers_blocked _ _ _
    have hfails : (routeVerdict c sets).fails = false := by simpa using hfails
    -- where no run takes the route, the rest is all there is
    have hpass : (∀ s : State, Tracks groups s.met →
        (routeVerdict c sets).status = .noMatch ∨
          group ≠ [] ∧ s.met group = true) →
        Covers outer groups (walkRoutes c outer top rest groups)
          (runRoutes a (.mk group sets handle terminal :: rest)) := by
      intro hnot
      refine ⟨fun s hs => ?_, (hrest groups).skips⟩
      obtain ⟨n, ⟨heq, -⟩ | ⟨-, hwas⟩⟩ := runRoutes_cases (a := a) hfails s
      · rw [heq]
        exact (hrest groups).runs _ hs
      · exact absurd (hnot s hs) hwas
    by_cases hno : (routeVerdict c sets).status = .noMatch
    · rw [walkRoutes]
      dsimp only
      rw [if_neg (by simp [hfails]), if_pos hno]
      exact hpass fun _ _ => .inl hno
    by_cases hgroup : group ≠ [] ∧ (groups group).status = .matched
    · rw [walkRoutes]
      dsimp only
      rw [if_neg (by simp [hfails]), if_neg hno, if_pos hgroup]
      exact hpass fun s hs => .inr ⟨hgroup.1, hs.sure group hgroup.2⟩
    obtain ⟨v, hv⟩ : ∃ v, v = if outer.status.below
        (routeVerdict c sets).status then outer else routeVerdict c sets :=
      ⟨_, rfl⟩
    obtain ⟨v', hv'⟩ : ∃ v', v' = if group ≠ [] then
        underGroup (groups group) v else v := ⟨_, rfl⟩
    obtain ⟨hvne, hv'ne, hmayv, hmayg⟩ :=
      member_verdict hout hno group hgroup v hv v' hv'
    obtain ⟨block, hwalk⟩ := walkRoutes_cons hfails hno hgroup v hv v' hv'
    rw [hwalk]
    refine covers_member (covers_handlers handle v' _ hv'ne) hrest ?_ ?_
    · intro s hs
      obtain ⟨n, ⟨heq, hown | ⟨hne, hmet⟩⟩ | ⟨heq, -⟩⟩ :=
        runRoutes_cases (a := a) hfails s
      · obtain ⟨hvm, hv'm⟩ := hmayv (.inl hown)
        exact .passed n heq hv'm (hs.pass hvm)
      · have hg : (groups group).status ≠ .noMatch := by
          intro h
          rw [hs.never group h] at hmet
          cases hmet
        refine .passed n heq (hmayg hne hg) ?_
        rw [metGroups, if_pos hne]
        exact hs.record_skip fun _ => hmet
      · refine .ran n _ heq ?_
        unfold metGroups
        split
        · exact hs.record_run hvne
        · exact hs
    · intro hmay
      obtain ⟨hvm, hv'm⟩ := hmayv (.inr hmay)
      exact ⟨hv'm, fun met hmet => hmet.pass hvm⟩

/-- And of a route's handlers. -/
theorem covers_handlers : ∀ (hs : List Handler) (v : Verdict)
    (groups : Groups), v.status ≠ .noMatch →
    Covers v groups (walkHandlers c v hs groups) (runHandlers a hs)
  | [], v, groups, _ => by
    have hrun : runHandlers a [] = fun s => ⟨none, s, []⟩ :=
      funext fun s => by rw [runHandlers]
    rw [walkHandlers, hrun]
    exact covers_nil
  | .mk name request setting sub :: rest, v, groups, hv => by
    have hrest := fun g => covers_handlers rest v g hv
    rw [walkHandlers]
    cases hclass : classify (.mk name request setting sub) with
    | reached =>
      dsimp only
      split
      · exact covers_blocked _ _ _
      next hmay =>
        refine ⟨fun s _ => ?_, fun h => absurd (by simpa using h) hmay⟩
        rw [runHandlers, hclass]
        exact ⟨rfl, by simp [Passing]⟩
    | subroute =>
      have hsub := covers_routes sub v false groups hv
      have hboth : Covers v groups
          (match walkRoutes c v false sub groups with
          | (.fellThrough, groups) => walkHandlers c v rest groups
          | done => done)
          fun s => (runRoutes a sub s).andThen (runHandlers a rest) :=
        hsub.andThen ?_ ?_
      · have := hboth.after_pass (h := .mk name request setting sub)
          (.inr hclass)
        refine ⟨fun s hs => ?_, this.skips⟩
        rw [runHandlers, hclass]
        exact this.runs s hs
      · intro he
        rcases hw : walkRoutes c v false sub groups with ⟨e, g⟩
        rw [hw] at he
        cases he
        exact hrest g
      · intro he
        rcases hw : walkRoutes c v false sub groups with ⟨e, g⟩
        rw [hw] at he
        cases e with
        | fellThrough => exact absurd rfl he
        | reachedWebhook => rfl
        | blocked b => rfl
    | passes =>
      have := (hrest groups).after_pass
        (h := .mk name request setting sub) (.inl hclass)
      refine ⟨fun s hs => ?_, this.skips⟩
      rw [runHandlers, hclass]
      exact this.runs s hs
    | changes => exact covers_blocked _ _ _
    | caps => exact covers_blocked _ _ _
    | cuts => exact covers_blocked _ _ _
    | answers => exact covers_blocked _ _ _

end

/-- Where the walk answers that a request reaches box_webhook, it does:
whatever the matchers decided per request come to, no matcher fails and
only handlers that let it on run first. -/
theorem reach_sound {routes : List Route}
    (h : walk c routes = .reachedWebhook) (a : Assignment c) :
    (serve a routes).stop = some .webhook ∧ Passing (serve a routes).ran := by
  have hcover := covers_routes (a := a) routes sure true
    (fun _ => ⟨.noMatch, []⟩) (by decide)
  have hstart : Tracks (fun _ => ⟨.noMatch, []⟩) fun _ => false :=
    ⟨fun _ hg => (nomatch hg), fun _ _ => rfl⟩
  have hsound := hcover.runs ⟨0, fun _ => false⟩ hstart
  unfold walk at h
  rcases hw : walkRoutes c sure true routes fun _ => ⟨.noMatch, []⟩ with ⟨e, g⟩
  rw [hw] at h hsound
  cases h
  exact hsound

end

-- ====== an instance

/-- Matchers that match whenever they may. -/
def eager (c : Caddy) : Assignment c where
  outcome := fun _ key v =>
    if (leaf c key v).status = .noMatch then .no else .yes
  agrees := by
    intro n key v
    split
    next h => rw [Verdict.admits, h]; decide
    next h => exact h

def exampleCaddy : Caddy where
  host := fun l => some (l.contains (str "box.example"))
  path := fun _ => some true
  method := fun _ => true
  protocol := fun _ => true

/-- A site with two members of a group, the first decided per request,
before box_webhook. -/
def exampleRoutes : List Route :=
  [.mk [] [[(str "host", .list [.text (str "box.example")])]]
    [.mk (str "subroute") false []
      [.mk (str "g") [[(str "header", .other)]] [.mk (str "vars") false [] []]
          false,
        .mk (str "g") [[(str "not", .list [.object [(str "host",
          .list [.text (str "other.example")])]])]]
          [.mk (str "encode") false [] []] false,
        .mk [] [] [.mk (str "box_webhook") false [] []] true]] true]

theorem reach_sound_example :
    walk exampleCaddy exampleRoutes = .reachedWebhook ∧
      (serve (eager exampleCaddy) exampleRoutes).stop = some .webhook ∧
      Passing (serve (eager exampleCaddy) exampleRoutes).ran := by
  have h : walk exampleCaddy exampleRoutes = .reachedWebhook := by
    decide +kernel
  exact ⟨h, reach_sound h _⟩

end Hotserve.Box.Reach
