/-
What one sweep does to the pairs of results and markers.

`Step` says all that the work on one candidate can come to, however its
calls end: it touches one id, leaves a kept one as it is but for a result
more, and takes a result only once the marker is gone. The invariants
over a whole sweep, any call failing and a crash anywhere, follow from it
(`sweepEach_safe`). When every call succeeds, an id has a result at the
end exactly when its candidate was kept (`sweepEach_done`), and the
limits are read off that.
-/
import Hotserve.Box.Sweep

namespace Hotserve.Box.Retention

open Effect

-- ====== the statements

def Shelves.hasResult (w : Shelves) (id : Bytes) : Bool :=
  (w.out.get id).isSome

def Shelves.hasMarker (w : Shelves) (id : Bytes) : Bool :=
  (w.stage.get id).isSome

/-- A marker's time: the one it says, or else its file's. -/
def Shelves.dated (w : Shelves) (id : Bytes) : Int :=
  ((w.stage.get id).bind fun m => m.posted <|> m.modTime).getD zeroTime

/-- The time an id's age is counted from. -/
def born (r : Around) (w : Shelves) (id : Bytes) : Int :=
  match w.out.get id with
  | some t => min (t.getD r.now) r.now
  | none =>
    if pendingAge < w.dated id - r.now then zeroTime else w.dated id

/-- A marker the sweep must not take: its bundle is in in/ or work/, the
record holds it, this run settled it, or it is younger than `pendingAge`,
a time no further ahead than that included. -/
def Pending (r : Around) (w : Shelves) (id : Bytes) : Prop :=
  r.inbox id = true ∨ r.work id = true ∨ r.held = some id ∨ id ∈ r.wrote ∨
    r.now - w.dated id < pendingAge ∧ w.dated id - r.now ≤ pendingAge

variable {r : Around} {w w₁ w' : Shelves} {id : Bytes}
  {p : Bytes × IdState}

-- ====== the states

/-- What the sweep reads of an id. -/
def stateOf (now : Int) (w : Shelves) (id : Bytes) : IdState where
  result := w.hasResult id
  marker := w.hasMarker id
  key := w.dated id
  written := ((w.out.get id).map fun t => t.getD now).getD zeroTime

/-- A state with a marker read into it. -/
def IdState.mark (s : IdState) (m : Marker) : IdState :=
  { s with marker := true, key := (m.posted <|> m.modTime).getD s.key }

theorem readMarkers_get {l : List (Bytes × Marker)}
    (hnodup : (l.map Prod.fst).Nodup) (ids : Table Bytes IdState) :
    (∀ m, (id, m) ∈ l →
      (l.foldl (fun ids p => readMarker ids p.1 p.2) ids).get id =
        some (((ids.get id).getD {}).mark m)) ∧ (id ∉ l.map Prod.fst →
      (l.foldl (fun ids p => readMarker ids p.1 p.2) ids).get id =
        ids.get id) := by
  induction l generalizing ids with
  | nil => exact ⟨fun m hm => (by cases hm), fun _ => rfl⟩
  | cons q l ih =>
    rw [List.map_cons, List.nodup_cons] at hnodup
    have hother : ∀ {id}, id ≠ q.1 →
        (readMarker ids q.1 q.2).get id = ids.get id := by
      intro id hne
      rw [readMarker, Table.get_set, if_neg hne]
    obtain ⟨hin, hout⟩ := ih hnodup.2 (readMarker ids q.1 q.2)
    rw [List.foldl_cons]
    refine ⟨fun m hm => ?_, fun hid => ?_⟩
    · rcases List.mem_cons.mp hm with rfl | hm
      · rw [hout hnodup.1, readMarker, Table.get_set, if_pos rfl]
        rfl
      · have hne : id ≠ q.1 := by
          rintro rfl
          exact hnodup.1 (List.mem_map.mpr ⟨_, hm, rfl⟩)
        rw [hin m hm, hother hne]
    · rw [List.map_cons, List.mem_cons, not_or] at hid
      rw [hout hid.2, hother hid.1]

/-- What the sweep knows of an id: the state of what is kept of it. -/
theorem readIds_get (now : Int) : (readIds now w).get id =
      if w.hasResult id || w.hasMarker id then some (stateOf now w id)
      else none := by
  obtain ⟨hin, hout⟩ := readMarkers_get w.stage.nodup (readOut now w.out)
  rw [readOut, Table.get_mapValues] at hin hout
  unfold readIds
  cases hstage : w.stage.get id with
  | none =>
    have hid : id ∉ w.stage.entries.map Prod.fst := by
      rw [Table.mem_keys, hstage]
      simp
    rw [readOut, hout hid]
    cases hres : w.out.get id with
    | none => simp [Shelves.hasResult, Shelves.hasMarker, hres, hstage]
    | some t =>
      simp [Shelves.hasResult, Shelves.hasMarker, Shelves.dated, stateOf,
        hres, hstage]
  | some m =>
    rw [readOut, hin m (Table.get_eq_some_iff.mp hstage)]
    cases hres : w.out.get id with
    | none =>
      simp [Shelves.hasResult, Shelves.hasMarker, Shelves.dated, stateOf,
        IdState.mark, hres, hstage]
    | some t =>
      simp [Shelves.hasResult, Shelves.hasMarker, Shelves.dated, stateOf,
        IdState.mark, hres, hstage]

/-- A candidate as the sweep has it. -/
structure Listed (r : Around) (w : Shelves) (p : Bytes × IdState) : Prop where
  result : p.2.result = w.hasResult p.1
  marker : p.2.marker = w.hasMarker p.1
  key : p.2.key = born r w p.1
  stranded : p.2.stranded = !w.hasResult p.1
  pending : w.hasResult p.1 = false → ¬ Pending r w p.1

/-- A saturated difference is below a bound just where the difference is.
-/
theorem sub_lt_iff {t u b : Int} (hlo : -(2 ^ 63) < b)
    (hhi : b ≤ 2 ^ 63 - 1) : sub t u < b ↔ t - u < b := by
  unfold sub
  omega

theorem lt_sub_iff {t u b : Int} (hlo : -(2 ^ 63) ≤ b)
    (hhi : b < 2 ^ 63 - 1) : b < sub t u ↔ b < t - u := by
  unfold sub
  omega

theorem age_key (r : Around) (w : Shelves) (id : Bytes) :
    ((stateOf r.now w id).age r).key = born r w id := by
  unfold IdState.age born
  cases hout : w.out.get id with
  | some t =>
    have hresult : (stateOf r.now w id).result = true := by
      simp [stateOf, Shelves.hasResult, hout]
    rw [if_pos hresult]
    simp only [minTime, stateOf, hout, Option.map_some, Option.getD_some]
    split
    next h => exact (Int.min_eq_left (Int.le_of_lt h)).symm
    next h => exact (Int.min_eq_right (Int.not_lt.mp h)).symm
  | none =>
    have hresult : ¬ (stateOf r.now w id).result = true := by
      simp [stateOf, Shelves.hasResult, hout]
    rw [if_neg hresult]
    simp only [stateOf, lt_sub_iff (b := pendingAge) (by decide) (by decide)]
    split
    · rfl
    · rfl

/-- An id that counts as stranded is not pending. -/
theorem not_pending (hout : w.hasResult id = false) (hmine : id ∉ r.wrote)
    (h : stranded r id (born r w id) = true) : ¬ Pending r w id := by
  unfold stranded at h
  split at h
  · cases h
  next hfree =>
    rw [not_or, not_or] at hfree
    have hborn : born r w id =
        if pendingAge < w.dated id - r.now then zeroTime else w.dated id := by
      have hnone : w.out.get id = none := by
        simpa [Shelves.hasResult] using hout
      rw [born, hnone]
    rw [decide_eq_true_eq, ← Int.not_lt,
      sub_lt_iff (by decide) (by decide), hborn] at h
    rintro (hin | hwork | hheld | hwrote | ⟨hyoung, hahead⟩)
    · exact hfree.2.1 hin
    · exact hfree.2.2 hwork
    · exact hfree.1 hheld.symm
    · exact hmine hwrote
    · rw [if_neg (Int.not_lt.mpr hahead)] at h
      exact h hyoung

theorem age_fields (r : Around) (w : Shelves) (id : Bytes) :
    ((stateOf r.now w id).age r).result = w.hasResult id ∧
      ((stateOf r.now w id).age r).marker = w.hasMarker id ∧
      ((stateOf r.now w id).age r).stranded = false := by
  unfold IdState.age
  split
  · exact ⟨rfl, rfl, rfl⟩
  · split
    · exact ⟨rfl, rfl, rfl⟩
    · exact ⟨rfl, rfl, rfl⟩

theorem candidate_listed (h : candidate r (id, stateOf r.now w id) = some p) :
    p.1 = id ∧ Listed r w p := by
  have hkey := age_key r w id
  obtain ⟨hresult, hmarker, hplain⟩ := age_fields r w id
  unfold candidate at h
  dsimp only at h
  split at h
  next hres =>
    cases h
    rw [hresult] at hres
    refine ⟨rfl, hresult, hmarker, hkey, ?_, fun hno => ?_⟩
    · rw [hplain, hres]
      rfl
    · rw [hres] at hno
      cases hno
  next hres =>
    split at h
    · cases h
    next hfree =>
      cases h
      rw [hresult, Bool.not_eq_true] at hres
      rw [not_or, Bool.not_eq_false, hkey] at hfree
      refine ⟨rfl, hresult, hmarker, hkey, ?_, fun _ => ?_⟩
      · rw [hres]
        rfl
      · exact not_pending hres hfree.1 hfree.2

/-- Whoever has a result is a candidate. -/
theorem candidate_of_result (h : w.hasResult id = true) :
    ∃ s, candidate r (id, stateOf r.now w id) = some (id, s) := by
  refine ⟨(stateOf r.now w id).age r, ?_⟩
  rw [candidate, if_pos]
  exact (age_fields r w id).1.trans h

section Candidates

variable {it : Iteration Bytes IdState}

theorem candidate_fst {q : Bytes × IdState} (h : candidate r q = some p) :
    p.1 = q.1 := by
  unfold candidate at h
  dsimp only at h
  split at h
  · cases h
    rfl
  · split at h
    · cases h
    · cases h
      rfl

/-- The candidates are the ids with something kept that may go. -/
theorem mem_candidates : p ∈ candidates r it w ↔
    ∃ id, (w.hasResult id || w.hasMarker id) = true ∧
      candidate r (id, stateOf r.now w id) = some p := by
  rw [candidates, List.mem_insertionSort, List.mem_filterMap]
  constructor
  · rintro ⟨⟨id, s⟩, hq, hp⟩
    rw [(it.perm _).mem_iff, ← Table.get_eq_some_iff, readIds_get] at hq
    split at hq
    next hknown =>
      cases hq
      exact ⟨id, hknown, hp⟩
    · cases hq
  · rintro ⟨id, hknown, hp⟩
    refine ⟨_, ?_, hp⟩
    rw [(it.perm _).mem_iff, ← Table.get_eq_some_iff, readIds_get,
      if_pos hknown]

theorem candidates_sublist (l : List (Bytes × IdState)) :
    ((l.filterMap (candidate r)).map Prod.fst).Sublist (l.map Prod.fst) := by
  induction l with
  | nil => exact .slnil
  | cons q l ih =>
    rw [List.filterMap_cons]
    split
    · exact ih.cons q.1
    next p hp =>
      rw [List.map_cons, List.map_cons, candidate_fst hp]
      exact ih.cons_cons q.1

/-- No id is a candidate twice, in whatever order the map is walked. -/
theorem candidates_nodup (r : Around) (it : Iteration Bytes IdState)
    (w : Shelves) : ((candidates r it w).map Prod.fst).Nodup := by
  rw [candidates, ((List.perm_insertionSort newer _).map Prod.fst).nodup_iff]
  refine List.Nodup.sublist (candidates_sublist _) ?_
  rw [((it.perm _).map Prod.fst).nodup_iff]
  exact (readIds r.now w).nodup

theorem mem_candidates_listed (h : p ∈ candidates r it w) : Listed r w p := by
  obtain ⟨id, -, hp⟩ := mem_candidates.mp h
  exact (candidate_listed hp).2

end Candidates

-- ====== one candidate

/-- One id as it was. -/
def SameAt (w w' : Shelves) (id : Bytes) : Prop :=
  w'.out.get id = w.out.get id ∧ w'.stage.get id = w.stage.get id

theorem SameAt.hasResult (h : SameAt w w' id) :
    w'.hasResult id = w.hasResult id := by
  rw [Shelves.hasResult, h.1, Shelves.hasResult]

theorem SameAt.hasMarker (h : SameAt w w' id) :
    w'.hasMarker id = w.hasMarker id := by
  rw [Shelves.hasMarker, h.2, Shelves.hasMarker]

theorem SameAt.trans (h : SameAt w w₁ id) (h' : SameAt w₁ w' id) :
    SameAt w w' id := ⟨h'.1.trans h.1, h'.2.trans h.2⟩

/-- All that the work on the `n`th candidate can come to. -/
structure Step (r : Around) (n : Nat) (p : Bytes × IdState)
    (w w' : Shelves) : Prop where
  others : ∀ id, id ≠ p.1 → SameAt w w' id
  kept : keep r n p = true → w'.hasMarker p.1 = w.hasMarker p.1 ∧
    (w.hasResult p.1 = true → w'.hasResult p.1 = true)
  pair : w.hasResult p.1 = true → w'.hasMarker p.1 = true →
    w'.hasResult p.1 = true

theorem Step.refl (r : Around) (n : Nat) (p : Bytes × IdState)
    (w : Shelves) : Step r n p w w :=
  ⟨fun _ _ => ⟨rfl, rfl⟩, fun _ => ⟨rfl, fun h => h⟩, fun h _ => h⟩

/-- Nobody else touches the shelves. -/
theorem drift_eq (hd : (disk r).Drift w w') : w' = w := by
  induction hd with
  | refl => rfl
  | tail _ he => exact he.elim

/-- A call that may fail either way, safe if it is safe made and not. -/
theorem safe_ask {α : Type} {I : Shelves → Prop} {Q : α → Shelves → Prop}
    {e : Call} {k : Bool → Act α} (hmade : I (e.effect r.now w) ∧
      ∀ ok, Safe (disk r) I (k ok) Q (e.effect r.now w))
    (hfailed : I w ∧ Safe (disk r) I (k false) Q w) :
    Safe (disk r) I (ask e >>= k) Q w := by
  intro c b w₁ w₂ _ happ hd
  obtain rfl := drift_eq hd
  cases c with
  | done =>
    cases happ
    exact ⟨hmade.1, hmade.2 true⟩
  | unsynced =>
    cases happ
    exact ⟨hmade.1, hmade.2 false⟩
  | failed =>
    cases happ
    exact hfailed

variable {n : Nat}

/-- A write leaves what is there. -/
theorem step_write : Step r n p w ((Call.writeResult p.1).effect r.now w) where
  others := fun id hne => ⟨by rw [Call.effect, Table.get_set, if_neg hne], rfl⟩
  kept := fun _ => ⟨rfl, fun _ => by
    rw [Shelves.hasResult, Call.effect, Table.get_set, if_pos rfl]
    rfl⟩
  pair := fun _ _ => by
    rw [Shelves.hasResult, Call.effect, Table.get_set, if_pos rfl]
    rfl

/-- With the marker gone, so may the result be. -/
theorem Step.unmarked (hkeep : keep r n p = false)
    (hothers : ∀ id, id ≠ p.1 → SameAt w w' id)
    (hmarker : w'.hasMarker p.1 = false) : Step r n p w w' where
  others := hothers
  kept := fun h => by
    rw [hkeep] at h
    cases h
  pair := fun _ h => by
    rw [hmarker] at h
    cases h

/-- A marker that was removed is gone. -/
theorem hasMarker_removed (now : Int) :
    ((Call.removeMarker id).effect now w).hasMarker id = false := by
  rw [Shelves.hasMarker, Call.effect, Table.get_delete, if_pos rfl]
  rfl

/-- The result's removal, the marker gone. -/
theorem unfile_safe (hkeep : keep r n p = false)
    (hstep : Step r n p w w₁) (hgone : w₁.hasMarker p.1 = false) :
    Keeps (disk r) (Step r n p w)
      (do let _ ← ask (.removeResult p.1); return ()) w₁ := by
  have hremoved :
      Step r n p w ((Call.removeResult p.1).effect r.now w₁) := by
    refine Step.unmarked hkeep (fun id hne => ?_) hgone
    rw [SameAt, Call.effect, Table.get_delete, if_neg hne]
    exact hstep.others id hne
  exact safe_ask ⟨hremoved, fun _ => hremoved⟩ ⟨hstep, hstep⟩

/-- Every world the work on one candidate passes through is such a step. -/
theorem sweepOne_safe (hm : p.2.marker = w.hasMarker p.1) :
    Keeps (disk r) (Step r n p w) (sweepOne r n p) w := by
  have hrefl := Step.refl r n p w
  unfold sweepOne
  split
  · split
    · exact safe_ask ⟨step_write, fun _ => step_write⟩ ⟨hrefl, hrefl⟩
    · exact hrefl
  next hkeep =>
    rw [Bool.not_eq_true] at hkeep
    dsimp only
    split
    · -- the marker's removal, and the result's only if that went well
      have hremoved :
          Step r n p w ((Call.removeMarker p.1).effect r.now w) := by
        refine Step.unmarked hkeep (fun id hne => ⟨rfl, ?_⟩)
          (hasMarker_removed r.now)
        rw [Call.effect, Table.get_delete, if_neg hne]
      refine safe_ask ⟨hremoved, fun ok => ?_⟩ ⟨hrefl, hrefl⟩
      split
      · exact unfile_safe hkeep hremoved (hasMarker_removed r.now)
      · exact hremoved
    next hnone =>
      rw [Bool.not_eq_true] at hnone
      rw [Prog.pure_eq, Prog.ret_bind]
      split
      · exact unfile_safe hkeep hrefl (hm.symm.trans hnone)
      · exact hrefl

-- ====== the whole sweep

/-- What holds in every world a sweep from `w` passes through. -/
structure Consistent (r : Around) (w w' : Shelves) : Prop where
  pair : ∀ id, w.hasResult id = true → w'.hasMarker id = true →
    w'.hasResult id = true
  pending : ∀ id, w.hasMarker id = true → w.hasResult id = false →
    Pending r w id → w'.hasMarker id = true
  mine : ∀ id ∈ r.wrote, w.hasResult id = true → w'.hasResult id = true

theorem Consistent.refl (r : Around) (w : Shelves) : Consistent r w w :=
  ⟨fun _ h _ => h, fun _ h _ _ => h, fun _ _ h => h⟩

/-- One more candidate swept, which nothing had touched before. -/
theorem Consistent.step (h : Consistent r w w₁)
    (hl : Listed r w p) (hsame : SameAt w w₁ p.1)
    (hstep : Step r n p w₁ w') : Consistent r w w' where
  pair := fun id hres hmark => by
    by_cases hid : id = p.1
    · subst hid
      exact hstep.pair (hsame.hasResult.trans hres) hmark
    · have hother := hstep.others id hid
      rw [hother.hasMarker] at hmark
      rw [hother.hasResult]
      exact h.pair id hres hmark
  pending := fun id hmark hres hpend => by
    by_cases hid : id = p.1
    · subst hid
      exact absurd hpend (hl.pending hres)
    · rw [(hstep.others id hid).hasMarker]
      exact h.pending id hmark hres hpend
  mine := fun id hwrote hres => by
    by_cases hid : id = p.1
    · subst hid
      refine (hstep.kept ?_).2 (hsame.hasResult.trans hres)
      simp [keep, hwrote]
    · rw [(hstep.others id hid).hasResult]
      exact h.mine id hwrote hres

/-- So of the whole loop, over candidates that differ. -/
theorem sweepEach_safe {ps : List (Bytes × IdState)}
    (hl : ∀ p ∈ ps, Listed r w p) (hnodup : (ps.map Prod.fst).Nodup)
    (hsame : ∀ p ∈ ps, SameAt w w₁ p.1) (h : Consistent r w w₁) :
    Keeps (disk r) (Consistent r w) (sweepEach r n ps) w₁ := by
  induction ps generalizing n w₁ with
  | nil => exact h
  | cons p ps ih =>
    have hp : Listed r w p := hl p (.head _)
    have hat : SameAt w w₁ p.1 := hsame p (.head _)
    rw [List.map_cons, List.nodup_cons] at hnodup
    rw [sweepEach]
    refine Safe.bind ((sweepOne_safe (n := n) ?_).mono
      (fun w' hstep => h.step hp hat hstep) fun _ w' hstep => ?_)
    · rw [hp.marker, hat.hasMarker]
    · refine ih (fun q hq => hl q (.tail _ hq)) hnodup.2
        (fun q hq => ?_) (h.step hp hat hstep)
      -- the others are other ids
      have hne : q.1 ≠ p.1 := fun heq =>
        hnodup.1 (heq ▸ List.mem_map_of_mem hq)
      exact (hsame q (.tail _ hq)).trans (hstep.others q.1 hne)

-- ====== when all of it succeeds

/-- A sweep whose calls all work keeps a result just where `keep` says. -/
theorem sweepOne_done (hl : Listed r w p) (hsame : SameAt w w₁ p.1) :
    ∃ w', (sweepOne r n p).always (disk r) .done w₁ = some ((), w') ∧
      (∀ id, id ≠ p.1 → SameAt w₁ w' id) ∧ w'.hasResult p.1 = keep r n p := by
  unfold sweepOne
  split
  next hkeep =>
    cases hres : w.hasResult p.1 with
    | true =>
      rw [hl.stranded, hres]
      refine ⟨w₁, rfl, fun _ _ => ⟨rfl, rfl⟩, ?_⟩
      rw [hsame.hasResult, hres, hkeep]
    | false =>
      rw [hl.stranded, hres]
      refine ⟨(Call.writeResult p.1).effect r.now w₁, rfl,
        (step_write (n := n)).others, ?_⟩
      rw [Shelves.hasResult, Call.effect, Table.get_set, if_pos rfl, hkeep]
      rfl
  next hkeep =>
    rw [Bool.not_eq_true] at hkeep
    rw [hkeep, hl.result, hl.marker]
    -- first the marker, if there is one, which leaves out/ as it is
    obtain ⟨w₂, hunmark, hout, hothers⟩ : ∃ w₂,
        (if w.hasMarker p.1 = true then ask (.removeMarker p.1)
          else pure true : Act Bool).always (disk r) .done w₁ =
            some (true, w₂) ∧
        w₂.out = w₁.out ∧ ∀ id, id ≠ p.1 → SameAt w₁ w₂ id := by
      split
      · refine ⟨(Call.removeMarker p.1).effect r.now w₁, rfl, rfl,
          fun id hne => ⟨rfl, ?_⟩⟩
        rw [Call.effect, Table.get_delete, if_neg hne]
      · exact ⟨w₁, rfl, rfl, fun _ _ => ⟨rfl, rfl⟩⟩
    rw [Prog.always_bind hunmark, Bool.true_and]
    cases hres : w.hasResult p.1 with
    | true =>
      refine ⟨(Call.removeResult p.1).effect r.now w₂, rfl,
        fun id hne => ?_, ?_⟩
      · refine ⟨?_, (hothers id hne).2⟩
        rw [Call.effect, Table.get_delete, if_neg hne, hout]
      · rw [Shelves.hasResult, Call.effect, Table.get_delete, if_pos rfl]
        rfl
    | false =>
      refine ⟨w₂, rfl, hothers, ?_⟩
      rw [Shelves.hasResult, hout, hsame.1]
      exact hres

/-- An id has a result at the end if its candidate was kept, and not if it
was not; the ids of no candidate are as they were. -/
theorem sweepEach_done {ps : List (Bytes × IdState)}
    (hl : ∀ p ∈ ps, Listed r w p) (hnodup : (ps.map Prod.fst).Nodup)
    (hsame : ∀ p ∈ ps, SameAt w w₁ p.1) :
    ∃ w', (sweepEach r n ps).always (disk r) .done w₁ = some ((), w') ∧
      (∀ id ∉ ps.map Prod.fst, SameAt w₁ w' id) ∧
      ∀ i p, ps[i]? = some p → w'.hasResult p.1 = keep r (n + i) p := by
  induction ps generalizing n w₁ with
  | nil => exact ⟨w₁, rfl, fun _ _ => ⟨rfl, rfl⟩, by simp⟩
  | cons p ps ih =>
    rw [List.map_cons, List.nodup_cons] at hnodup
    obtain ⟨w₂, hone, hothers, hkept⟩ := sweepOne_done (n := n)
      (hl p (.head _)) (hsame p (.head _))
    have hrest : ∀ q ∈ ps, SameAt w w₂ q.1 := by
      intro q hq
      have hne : q.1 ≠ p.1 := fun heq =>
        hnodup.1 (heq ▸ List.mem_map_of_mem hq)
      exact (hsame q (.tail _ hq)).trans (hothers q.1 hne)
    obtain ⟨w', hrun, hsame', hkept'⟩ := ih (n := n + 1)
      (fun q hq => hl q (.tail _ hq)) hnodup.2 hrest
    refine ⟨w', ?_, fun id hid => ?_, fun i q hq => ?_⟩
    · rw [sweepEach, Prog.always_bind hone, hrun]
    · rw [List.map_cons, List.mem_cons, not_or] at hid
      exact (hothers id hid.1).trans (hsame' id hid.2)
    · cases i with
      | zero =>
        rw [List.getElem?_cons_zero] at hq
        cases hq
        rw [(hsame' p.1 hnodup.1).hasResult]
        exact hkept
      | succ i =>
        rw [List.getElem?_cons_succ] at hq
        rw [hkept' i q hq, Nat.add_assoc, Nat.add_comm 1 i]

-- ====== the limits

/-- An id that was there, and of which nothing is left. -/
def Removed (w w' : Shelves) (id : Bytes) : Prop :=
  (w.hasResult id || w.hasMarker id) = true ∧
    (w'.hasResult id || w'.hasMarker id) = false

/-- What is left after a sweep, besides the ids this run wrote: so many at
most, all of them young, and nothing newer was taken. -/
structure Limited (r : Around) (w w' : Shelves) : Prop where
  count : ((w'.out.entries.map Prod.fst).filter
    (fun id => decide (id ∉ r.wrote))).length ≤ keepIDs
  young : ∀ id, w'.hasResult id = true → id ∉ r.wrote →
    r.now - born r w id < keepAge
  newest : ∀ id, w'.hasResult id = true → id ∉ r.wrote →
    ∀ gone, Removed w w' gone → born r w gone ≤ born r w id

/-- The rule of retention for an id that is not the run's own. -/
theorem keep_iff (hmine : p.1 ∉ r.wrote) :
    keep r n p = true ↔ n < keepIDs ∧ r.now - p.2.key < keepAge := by
  rw [keep, decide_eq_false hmine, Bool.false_or, Bool.and_eq_true,
    decide_eq_true_eq, decide_eq_true_eq, sub_lt_iff (by decide) (by decide)]

section

variable {it : Iteration Bytes IdState}

theorem newer_total (a b : Bytes × IdState) : newer a b ∨ newer b a := by
  unfold newer
  rcases Int.lt_trichotomy a.2.key b.2.key with h | h | h
  · exact .inr (.inl h)
  · rcases List.le_total a.1 b.1 with hle | hle
    · exact .inl (.inr ⟨h, hle⟩)
    · exact .inr (.inr ⟨h.symm, hle⟩)
  · exact .inl (.inl h)

theorem newer_trans {a b c : Bytes × IdState} (hab : newer a b)
    (hbc : newer b c) : newer a c := by
  rcases hab with hab | ⟨hab, hle⟩
  · rcases hbc with hbc | ⟨hbc, -⟩
    · exact .inl (Int.lt_trans hbc hab)
    · exact .inl (hbc ▸ hab)
  · rcases hbc with hbc | ⟨hbc, hle'⟩
    · exact .inl (hab ▸ hbc)
    · exact .inr ⟨hab.trans hbc, List.le_trans hle hle'⟩

/-- The candidates come newest first. -/
theorem key_le_of_lt {i j : Nat} {q : Bytes × IdState}
    (hi : (candidates r it w)[i]? = some p)
    (hj : (candidates r it w)[j]? = some q) (hlt : i < j) :
    q.2.key ≤ p.2.key := by
  have : Std.Total newer := ⟨newer_total⟩
  have : IsTrans (Bytes × IdState) newer := ⟨fun _ _ _ => newer_trans⟩
  have hsorted : (candidates r it w).Pairwise newer :=
    List.pairwise_insertionSort newer _
  obtain ⟨hib, rfl⟩ := List.getElem?_eq_some_iff.mp hi
  obtain ⟨hjb, rfl⟩ := List.getElem?_eq_some_iff.mp hj
  rcases List.pairwise_iff_getElem.mp hsorted i j hib hjb hlt with h | h
  · exact Int.le_of_lt h
  · exact Int.le_of_eq h.1.symm

variable (hothers : ∀ id ∉ (candidates r it w).map Prod.fst, SameAt w w' id)
  (hkept : ∀ i p, (candidates r it w)[i]? = some p →
    w'.hasResult p.1 = keep r i p)
include hothers hkept

/-- The candidate of an id that has a result at the end. -/
theorem kept_of_result (h : w'.hasResult id = true) :
    ∃ i p, (candidates r it w)[i]? = some p ∧ p.1 = id ∧ keep r i p = true := by
  by_cases hid : id ∈ (candidates r it w).map Prod.fst
  · obtain ⟨p, hp, rfl⟩ := List.mem_map.mp hid
    obtain ⟨i, hi⟩ := List.getElem?_of_mem hp
    exact ⟨i, p, hi, rfl, by rw [← hkept i p hi, h]⟩
  · -- one that is no candidate had none, and got none
    rw [(hothers id hid).hasResult] at h
    obtain ⟨s, hs⟩ := candidate_of_result (r := r) h
    refine absurd (List.mem_map_of_mem (mem_candidates.mpr ⟨id, ?_, hs⟩)) hid
    rw [h, Bool.true_or]

/-- The candidate of an id of which nothing is left. -/
theorem removed_of_gone (h : Removed w w' id) :
    ∃ i p, (candidates r it w)[i]? = some p ∧ p.1 = id ∧
      keep r i p = false := by
  obtain ⟨hwas, hnow⟩ := h
  by_cases hid : id ∈ (candidates r it w).map Prod.fst
  · obtain ⟨p, hp, rfl⟩ := List.mem_map.mp hid
    obtain ⟨i, hi⟩ := List.getElem?_of_mem hp
    rw [Bool.or_eq_false_iff] at hnow
    exact ⟨i, p, hi, rfl, by rw [← hkept i p hi, hnow.1]⟩
  · have hsame := hothers id hid
    rw [hsame.hasResult, hsame.hasMarker, hwas] at hnow
    cases hnow

/-- What is kept is then limited in number and age. -/
theorem limited_of_kept : Limited r w w' where
  count := by
    have hsub : (w'.out.entries.map Prod.fst).filter
        (fun id => decide (id ∉ r.wrote)) ⊆
          ((candidates r it w).take keepIDs).map Prod.fst := by
      intro id hid
      obtain ⟨hid, hmine⟩ := List.mem_filter.mp hid
      rw [decide_eq_true_eq] at hmine
      have hres : w'.hasResult id = true := by
        obtain ⟨t, ht⟩ := Table.mem_keys.mp hid
        rw [Shelves.hasResult, ht]
        rfl
      obtain ⟨i, p, hi, rfl, hk⟩ := kept_of_result hothers hkept hres
      refine List.mem_map_of_mem (List.mem_of_getElem? (i := i) ?_)
      rw [List.getElem?_take_of_lt ((keep_iff hmine).mp hk).1, hi]
    have hnodup : ((w'.out.entries.map Prod.fst).filter
        (fun id => decide (id ∉ r.wrote))).Nodup := w'.out.nodup.filter _
    refine Nat.le_trans (List.subperm_of_subset hnodup hsub).length_le ?_
    rw [List.length_map, List.length_take]
    exact Nat.min_le_left _ _
  young := fun id hres hmine => by
    obtain ⟨i, p, hi, rfl, hk⟩ := kept_of_result hothers hkept hres
    have hl := mem_candidates_listed (List.mem_of_getElem? hi)
    rw [← hl.key]
    exact ((keep_iff hmine).mp hk).2
  newest := fun id hres hmine gone hgone => by
    obtain ⟨i, p, hi, rfl, hk⟩ := kept_of_result hothers hkept hres
    obtain ⟨j, q, hj, rfl, hq⟩ := removed_of_gone hothers hkept hgone
    rw [← (mem_candidates_listed (List.mem_of_getElem? hi)).key,
      ← (mem_candidates_listed (List.mem_of_getElem? hj)).key]
    have hmine' : q.1 ∉ r.wrote := fun h => by
      rw [keep, decide_eq_true h, Bool.true_or] at hq
      cases hq
    rw [← Bool.not_eq_true, keep_iff hmine'] at hq
    rw [keep_iff hmine] at hk
    rcases Nat.lt_trichotomy i j with hlt | rfl | hlt
    · exact key_le_of_lt hi hj hlt
    · rw [hi] at hj
      cases hj
      exact Int.le_refl _
    · -- an earlier one was taken for its age
      have hold : ¬ r.now - q.2.key < keepAge := fun h =>
        hq ⟨Nat.lt_trans hlt hk.1, h⟩
      omega

end

/-- A sweep keeps pairs consistent in every world it passes through, its
calls failing and a crash anywhere; and when every call succeeds it leaves
no more than Retention allows. -/
theorem retention_consistent (r : Around) (it : Iteration Bytes IdState)
    (w : Shelves) :
    (∀ q, Reach (disk r) (fun _ _ _ => False) ⟨some (sweep r it w), w⟩ q →
      (∀ id, w.hasResult id = true → q.world.hasMarker id = true →
        q.world.hasResult id = true) ∧
      (∀ id, w.hasMarker id = true → w.hasResult id = false →
        Pending r w id → q.world.hasMarker id = true) ∧
      ∀ id ∈ r.wrote, w.hasResult id = true → q.world.hasResult id = true) ∧
    (r.listsOut = true → r.listsStage = true →
      ∃ w', (sweep r it w).always (disk r) .done w = some ((), w') ∧
        ((w'.out.entries.map Prod.fst).filter
          (fun id => decide (id ∉ r.wrote))).length ≤ keepIDs ∧
        (∀ id, w'.hasResult id = true → id ∉ r.wrote →
          r.now - born r w id < keepAge) ∧
        ∀ id, w'.hasResult id = true → id ∉ r.wrote →
          ∀ gone, Removed w w' gone → born r w gone ≤ born r w id) := by
  have hl : ∀ p ∈ candidates r it w, Listed r w p :=
    fun p hp => mem_candidates_listed hp
  have hnodup := candidates_nodup r it w
  refine ⟨fun q hq => ?_, fun hout hstage => ?_⟩
  · have hsafe : Keeps (disk r) (Consistent r w) (sweep r it w) w := by
      unfold sweep
      split
      · exact Consistent.refl r w
      · exact sweepEach_safe hl hnodup (fun _ _ => ⟨rfl, rfl⟩)
          (Consistent.refl r w)
    have hkept : Kept (disk r) (Consistent r w)
        ⟨some (sweep r it w), w⟩ := by
      refine ⟨Consistent.refl r w, ?_⟩
      rintro p ⟨⟩ w' hd
      rwa [drift_eq hd]
    obtain ⟨hpair, hpend, hmine⟩ := reach_inv
      (fun _ _ _ he => False.elim he) (fun _ _ _ _ _ hb => hb.elim) hq hkept
    exact ⟨hpair, hpend, hmine⟩
  · obtain ⟨w', hrun, hothers, hkept⟩ := sweepEach_done (n := 0) hl hnodup
      (fun _ _ => ⟨rfl, rfl⟩)
    obtain ⟨hcount, hyoung, hnewest⟩ := limited_of_kept hothers
      (fun i p hi => by rw [hkept i p hi, Nat.zero_add])
    refine ⟨w', ?_, hcount, hyoung, hnewest⟩
    rw [sweep, hout, hstage]
    exact hrun

end Hotserve.Box.Retention
