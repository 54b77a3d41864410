/-
One push at a time: what holds of the exchange tree in every run of the
handlers and the applier.

# The argument

A push that was dropped is accounted for (`Excused`) once it has a
terminal result, has had one that Retention swept, or its marker has
aged. Until then its bundle is in in/ or work/ (`Tidy.tracked`) and,
once its handler has let go of the lock, its marker is in stage/
(`Tidy.marked`). A handler that holds the lock and finds in/ empty and
every marker of stage/ old or answered has therefore found every push
accounted for, and since only its own kind adds to in/ and stage/, that
is still so when it drops.

# The moves

`HandlerMove` and `RootMove` say once what each side ever does to the
tree and under which condition; they are the guarantees the threads are
held to. The invariant is kept by each of them. What a handler relies on
while it holds the lock is `Held`, what root relies on is `Beside`; both
are read off the other side's moves.
-/
import Hotserve.Box.Admission

namespace Hotserve.Box.Exchange

open Effect (Prog Pool Obeys)

-- ====== the invariant

/-- The push has a terminal result, had one that was swept, or its marker
is at least `pendingAge` old. -/
def Excused (w : Tree) (p : Push) : Prop :=
  w.terminal p.id = true ∨ p.swept = true ∨
    ∃ posted, p.posted = some posted ∧ posted + pendingAge ≤ w.clock

/-- Every push has its marker written. -/
def AllPosted (w : Tree) : Prop := ∀ p ∈ w.ledger, p.posted ≠ none

/-- The invariant of the tree. -/
structure Tidy (w : Tree) : Prop where
  one : w.inbox.length ≤ 1
  tracked : ∀ p ∈ w.ledger, Excused w p ∨ p.id ∈ w.inbox ∨ p.id ∈ w.work
  marked : ∀ p ∈ w.ledger, Excused w p ∨ p.posted = none ∨
    w.stage.lookup p.id = p.posted
  entries : ∀ id, id ∈ w.inbox ∨ id ∈ w.work →
    (w.stage.lookup id).isSome = true ∨
      ∃ p ∈ w.ledger, p.id = id ∧ p.posted = none
  apart : ∀ id ∈ w.inbox, id ∉ w.work
  unfiled : ∀ id ∈ w.inbox, w.out.lookup id = none
  verified : ∀ id r, w.out.lookup id = some r → r.phase.terminal = false →
    id ∈ w.work
  record : ∀ id, w.record = some id → id ∈ w.work
  posted : ∀ p ∈ w.ledger, ∀ t, p.posted = some t → t ≤ w.clock
  free : w.lock = none → AllPosted w

-- ====== the moves

/-- What handler `n` ever does. -/
inductive HandlerMove (n : Nat) (w : Tree) : Tree → Prop
  | stay : HandlerMove n w w
  | lock (h : w.lock = none) :
      HandlerMove n w { w with lock := some (.handler n) }
  | drop (id : Bytes) (hlock : w.lock = some (.handler n))
      (hin : w.inbox = []) (hwork : id ∉ w.work)
      (hstage : w.stage.lookup id = none) (hout : w.out.lookup id = none)
      (hposted : AllPosted w) (hexc : ∀ p ∈ w.ledger, Excused w p) :
      HandlerMove n w (w.drop id)
  | mark (id : Bytes) (posted : Nat) (hlock : w.lock = some (.handler n))
      (htime : posted ≤ w.clock)
      (hpushes : ∀ p ∈ w.ledger, p.posted = none ∧ p.id = id ∨
        p.posted ≠ none ∧ Excused w p) :
      HandlerMove n w (w.mark id posted)
  | unlock (hlock : w.lock = some (.handler n)) (hposted : AllPosted w) :
      HandlerMove n w { w with lock := none }

/-- What root ever does. -/
inductive RootMove (w : Tree) : Tree → Prop
  | stay : RootMove w w
  | take (id : Bytes) (h : id ∈ w.inbox) : RootMove w (w.take id)
  | file (id : Bytes) (phase : Phase) (hid : id ∈ w.work ∨
        (w.stage.lookup id).isSome = true ∧ id ∉ w.inbox)
      (hphase : phase.terminal = true ∨ id ∈ w.work ∧ w.terminal id = false) :
      RootMove w (w.file id phase)
  | record (id : Bytes) (h : id ∈ w.work) :
      RootMove w { w with record := some id }
  | unrecord : RootMove w { w with record := none }
  | removeEntry (id : Bytes) (hterm : w.terminal id = true)
      (hrec : w.record ≠ some id) :
      RootMove w { w with work := w.work.erase id }
  | unmark (id : Bytes) (hwork : w.work = []) (hin : id ∉ w.inbox)
      (hexc : ∀ p ∈ w.ledger, p.id = id → Excused w p) :
      RootMove w { w with stage := w.stage.erase id }
  | unfile (id : Bytes) (hterm : w.terminal id = true) :
      RootMove w (w.unfile id)

/-- Each thread's guarantee. -/
def Moves : Thread → Tree → Tree → Prop
  | .handler n => HandlerMove n
  | .applier => RootMove

-- ------ what becomes of a push

section Pushes

variable {w : Tree} {id : Bytes} {phase : Phase} {p : Push}

/-- A result that is filed decides whether its push has ended. -/
theorem terminal_file_self :
    (w.file id phase).terminal id = phase.terminal := by
  simp [Tree.terminal, Tree.file]

/-- It is nothing to the other pushes. -/
theorem terminal_file_ne {other : Bytes} (h : other ≠ id) :
    (w.file id phase).terminal other = w.terminal other := by
  simp [Tree.terminal, Tree.file, AList.lookup_insert_ne h]

theorem terminal_unfile_ne {other : Bytes} (h : other ≠ id) :
    (w.unfile id).terminal other = w.terminal other := by
  simp [Tree.terminal, Tree.unfile, AList.lookup_erase_ne h]

/-- A marker gives a push its time and nothing else. -/
@[simp] theorem Push.mark_id (posted : Nat) : (p.mark id posted).id = p.id := by
  unfold Push.mark
  split <;> rfl

@[simp] theorem Push.mark_swept (posted : Nat) :
    (p.mark id posted).swept = p.swept := by
  unfold Push.mark
  split <;> rfl

/-- A sweep notes that the result was seen and nothing else. -/
@[simp] theorem Push.sweep_id (b : Bool) : (p.sweep id b).id = p.id := by
  unfold Push.sweep
  split <;> rfl

@[simp] theorem Push.sweep_posted (b : Bool) :
    (p.sweep id b).posted = p.posted := by
  unfold Push.sweep
  split <;> rfl

/-- A result of another phase than a terminal one is only written where
there was no terminal one. -/
theorem Excused.file (h : Excused w p)
    (hphase : phase.terminal = true ∨ w.terminal id = false) :
    Excused (w.file id phase) p := by
  rcases h with hterm | hrest
  · refine .inl ?_
    by_cases hid : p.id = id
    · rw [hid, terminal_file_self]
      refine hphase.resolve_right fun hno => ?_
      rw [hid, hno] at hterm
      cases hterm
    · rwa [terminal_file_ne hid]
  · exact .inr hrest

/-- A terminal result that goes is remembered. -/
theorem Excused.unfile (h : Excused w p) :
    Excused (w.unfile id) (p.sweep id (w.terminal id)) := by
  rcases h with hterm | hswept | ⟨t, ht, hold⟩
  · by_cases hid : p.id = id
    · refine .inr (.inl ?_)
      rw [Push.sweep, if_pos ⟨hid, hid ▸ hterm⟩]
    · refine .inl ?_
      rw [Push.sweep_id, terminal_unfile_ne hid]
      exact hterm
  · refine .inr (.inl ?_)
    unfold Push.sweep
    split
    · rfl
    · exact hswept
  · exact .inr (.inr ⟨t, by rw [Push.sweep_posted]; exact ht, hold⟩)

/-- A marker written takes no excuse away. -/
theorem Excused.mark {posted : Nat} (h : Excused w p) :
    Excused (w.mark id posted) (p.mark id posted) := by
  rcases h with hterm | hswept | ⟨t, ht, hold⟩
  · exact .inl (by rw [Push.mark_id]; exact hterm)
  · exact .inr (.inl (by rw [Push.mark_swept]; exact hswept))
  · refine .inr (.inr ⟨t, ?_, hold⟩)
    rw [Push.mark, if_neg (by simp [ht])]
    exact ht

/-- Excuses last while the clock goes on. -/
theorem Excused.tick (h : Excused w p) (n : Nat) :
    Excused { w with clock := w.clock + n } p := by
  rcases h with hterm | hswept | ⟨t, ht, hold⟩
  · exact .inl hterm
  · exact .inr (.inl hswept)
  · exact .inr (.inr ⟨t, ht, Nat.le_trans hold (Nat.le_add_right _ _)⟩)

end Pushes

-- ------ the invariant is kept

section Tidy

variable {w w' : Tree} {n : Nat}

/-- A new tree is tidy. -/
theorem tidy_fresh (clock : Nat) : Tidy (Tree.fresh clock) where
  one := Nat.zero_le _
  tracked := nofun
  marked := nofun
  entries := by rintro id (h | h) <;> cases h
  apart := nofun
  unfiled := nofun
  verified := by
    intro id r h
    simp [Tree.fresh] at h
  record := nofun
  posted := nofun
  free _ := nofun

/-- The clock goes on. -/
theorem Tidy.tick (h : Tidy w) (n : Nat) :
    Tidy { w with clock := w.clock + n } :=
  { h with
    tracked p hp := (h.tracked p hp).imp_left (·.tick n)
    marked p hp := (h.marked p hp).imp_left (·.tick n)
    posted p hp t ht := Nat.le_add_right_of_le (h.posted p hp t ht) }

variable {id : Bytes}

/-- A bundle is dropped in an empty in/, under an id that is new. -/
theorem Tidy.drop (h : Tidy w)
    (hlock : w.lock = some (.handler n)) (hin : w.inbox = [])
    (hwork : id ∉ w.work) (hout : w.out.lookup id = none) :
    Tidy (w.drop id) where
  one := by simp [Tree.drop, hin]
  tracked p hp := by
    rcases List.mem_cons.mp hp with rfl | hp
    · exact .inr (.inl (.head _))
    · exact (h.tracked p hp).imp_right (·.imp_left (List.mem_cons_of_mem _))
  marked p hp := by
    rcases List.mem_cons.mp hp with rfl | hp
    · exact .inr (.inl rfl)
    · exact h.marked p hp
  entries other hother := by
    by_cases hid : other = id
    · exact .inr ⟨_, .head _, hid.symm, rfl⟩
    · have hold : other ∈ w.inbox ∨ other ∈ w.work := by
        simpa [Tree.drop, hid] using hother
      refine (h.entries other hold).imp_right ?_
      rintro ⟨p, hp, hrest⟩
      exact ⟨p, .tail _ hp, hrest⟩
  apart other hother := by
    have heq : other = id := by simpa [Tree.drop, hin] using hother
    exact heq ▸ hwork
  unfiled other hother := by
    have heq : other = id := by simpa [Tree.drop, hin] using hother
    exact heq ▸ hout
  verified := h.verified
  record := h.record
  posted p hp t ht := by
    rcases List.mem_cons.mp hp with rfl | hp
    · cases ht
    · exact h.posted p hp t ht
  free hfree := absurd (hlock.symm.trans hfree) nofun

/-- Its marker is written, with a time that has come. -/
theorem Tidy.mark {posted : Nat} (h : Tidy w)
    (hlock : w.lock = some (.handler n)) (htime : posted ≤ w.clock)
    (hpushes : ∀ p ∈ w.ledger, p.posted = none ∧ p.id = id ∨
      p.posted ≠ none ∧ Excused w p) : Tidy (w.mark id posted) :=
  { h with
    tracked p' hp' := by
      obtain ⟨p, hp, rfl⟩ := List.mem_map.mp hp'
      rw [Push.mark_id]
      exact (h.tracked p hp).imp_left Excused.mark
    marked p' hp' := by
      obtain ⟨p, hp, rfl⟩ := List.mem_map.mp hp'
      rcases hpushes p hp with ⟨hnone, hid⟩ | ⟨-, hexc⟩
      · refine .inr (.inr ?_)
        rw [Push.mark_id, Push.mark, if_pos ⟨hid, hnone⟩, hid]
        exact AList.lookup_insert w.stage
      · exact .inl hexc.mark
    entries other hother := by
      refine .inl ?_
      by_cases hid : other = id
      · subst hid
        simp [Tree.mark]
      · change ((w.stage.insert id posted).lookup other).isSome = true
        rw [AList.lookup_insert_ne hid]
        refine (h.entries other hother).resolve_right ?_
        rintro ⟨p, hp, rfl, hnone⟩
        rcases hpushes p hp with ⟨-, heq⟩ | ⟨hsome, -⟩
        · exact hid heq
        · exact hsome hnone
    posted p' hp' t ht := by
      obtain ⟨p, hp, rfl⟩ := List.mem_map.mp hp'
      rw [Push.mark] at ht
      split at ht
      · cases ht
        exact htime
      · exact h.posted p hp t ht
    free hfree := absurd (hlock.symm.trans hfree) nofun }

/-- No handler makes the tree untidy. -/
theorem HandlerMove.tidy (hm : HandlerMove n w w') (h : Tidy w) : Tidy w' := by
  cases hm with
  | stay => exact h
  | lock => exact { h with free := nofun }
  | drop id hlock hin hwork hstage hout => exact h.drop hlock hin hwork hout
  | mark id posted hlock htime hpushes => exact h.mark hlock htime hpushes
  | unlock hlock hposted => exact { h with free := fun _ => hposted }

section

variable (h : Tidy w)
include h

/-- Root takes the one bundle of in/ to work/. -/
theorem Tidy.take (hid : id ∈ w.inbox) : Tidy (w.take id) := by
  -- in/ held this bundle only
  have hin : w.inbox = [id] := by
    obtain ⟨x, hx⟩ := List.length_eq_one_iff.mp
      (Nat.le_antisymm h.one (List.length_pos_of_mem hid))
    rw [hx] at hid ⊢
    rw [List.mem_singleton.mp hid]
  have hempty : (w.take id).inbox = [] := by simp [Tree.take, hin]
  have hin' : ∀ other, other ∉ (w.take id).inbox := by simp [hempty]
  exact {
    one := by simp [hempty]
    tracked := fun p hp => by
      refine (h.tracked p hp).imp_right fun hwhere => .inr ?_
      rcases hwhere with hbox | hwork
      · rw [hin, List.mem_singleton] at hbox
        exact hbox ▸ (.head _)
      · exact .tail _ hwork
    marked := h.marked
    entries := fun other hother => by
      refine h.entries other ?_
      rcases List.mem_cons.mp (hother.resolve_left (hin' other)) with rfl | hw
      · exact .inl hid
      · exact .inr hw
    apart := fun other hother => absurd hother (hin' other)
    unfiled := fun other hother => absurd hother (hin' other)
    verified := fun other r hr hno =>
      .tail _ (h.verified other r hr hno)
    record := fun other hrec => .tail _ (h.record other hrec)
    posted := h.posted
    free := h.free }

/-- A result is filed: of an entry of work/ or, for a marker whose bundle
is gone, a terminal one. -/
theorem Tidy.file {phase : Phase}
    (hid : id ∈ w.work ∨ (w.stage.lookup id).isSome = true ∧ id ∉ w.inbox)
    (hphase : phase.terminal = true ∨ id ∈ w.work ∧ w.terminal id = false) :
    Tidy (w.file id phase) :=
  { h with
    tracked p hp := (h.tracked p hp).imp_left
      (·.file (hphase.imp_right And.right))
    marked p hp := (h.marked p hp).imp_left
      (·.file (hphase.imp_right And.right))
    unfiled other hother := by
      have hne : other ≠ id := by
        rintro rfl
        rcases hid with hwork | ⟨-, hin⟩
        · exact h.apart other hother hwork
        · exact hin hother
      exact (AList.lookup_insert_ne hne).trans (h.unfiled other hother)
    verified other r hr hno := by
      by_cases hne : other = id
      · subst hne
        have hr' : some ⟨phase, w.clock⟩ = some r :=
          (AList.lookup_insert w.out).symm.trans hr
        cases hr'
        rcases hphase with hterm | ⟨hwork, -⟩
        · exact absurd (hterm.symm.trans hno) (by decide)
        · exact hwork
      · exact h.verified other r
          ((AList.lookup_insert_ne hne).symm.trans hr) hno }

/-- An entry goes once its result is terminal. -/
theorem Tidy.removeEntry
    (hterm : w.terminal id = true) (hrec : w.record ≠ some id) :
    Tidy { w with work := w.work.erase id } :=
  { h with
    tracked p hp := by
      by_cases hid : p.id = id
      · exact .inl (.inl (hid ▸ hterm))
      · exact (h.tracked p hp).imp_right
          (·.imp_right (List.mem_erase_of_ne hid).mpr)
    entries other hother :=
      h.entries other (hother.imp_right List.mem_of_mem_erase)
    apart other hother hwork :=
      h.apart other hother (List.mem_of_mem_erase hwork)
    verified other r hr hno := by
      refine (List.mem_erase_of_ne ?_).mpr (h.verified other r hr hno)
      rintro rfl
      have hno' : w.terminal other = false := by simp [Tree.terminal, hr, hno]
      exact absurd (hterm.symm.trans hno') (by decide)
    record other hother := by
      refine (List.mem_erase_of_ne ?_).mpr (h.record other hother)
      rintro rfl
      exact hrec hother }

/-- A marker goes once every push of its id is accounted for. -/
theorem Tidy.unmark (hwork : w.work = [])
    (hin : id ∉ w.inbox) (hexc : ∀ p ∈ w.ledger, p.id = id → Excused w p) :
    Tidy { w with stage := w.stage.erase id } :=
  { h with
    marked p hp := by
      by_cases hid : p.id = id
      · exact .inl (hexc p hp hid)
      · refine (h.marked p hp).imp_right (·.imp_right fun hlook => ?_)
        exact (AList.lookup_erase_ne hid).trans hlook
    entries other hother := by
      have hne : other ≠ id := by
        rintro rfl
        rcases hother with hbox | hw
        · exact hin hbox
        · change other ∈ w.work at hw
          rw [hwork] at hw
          cases hw
      refine (h.entries other hother).imp_left fun hsome => ?_
      change ((w.stage.erase id).lookup other).isSome = true
      rwa [AList.lookup_erase_ne hne] }

/-- A result goes; its pushes remember a terminal one. -/
theorem Tidy.unfile : Tidy (w.unfile id) :=
  { h with
    tracked p' hp' := by
      obtain ⟨p, hp, rfl⟩ := List.mem_map.mp hp'
      rw [Push.sweep_id]
      exact (h.tracked p hp).imp_left Excused.unfile
    marked p' hp' := by
      obtain ⟨p, hp, rfl⟩ := List.mem_map.mp hp'
      rw [Push.sweep_id, Push.sweep_posted]
      exact (h.marked p hp).imp_left Excused.unfile
    entries other hother := by
      refine (h.entries other hother).imp_right ?_
      rintro ⟨p, hp, hid, hnone⟩
      exact ⟨_, List.mem_map_of_mem hp, by simpa using hid,
        by simpa using hnone⟩
    unfiled other hother := by
      change (w.out.erase id).lookup other = none
      by_cases hne : other = id
      · exact hne ▸ AList.lookup_erase id w.out
      · exact (AList.lookup_erase_ne hne).trans (h.unfiled other hother)
    verified other r hr hno := by
      change (w.out.erase id).lookup other = some r at hr
      by_cases hne : other = id
      · rw [hne, AList.lookup_erase] at hr
        cases hr
      · exact h.verified other r ((AList.lookup_erase_ne hne).symm.trans hr) hno
    posted p' hp' t ht := by
      obtain ⟨p, hp, rfl⟩ := List.mem_map.mp hp'
      rw [Push.sweep_posted] at ht
      exact h.posted p hp t ht
    free hfree p' hp' := by
      obtain ⟨p, hp, rfl⟩ := List.mem_map.mp hp'
      rw [Push.sweep_posted]
      exact h.free hfree p hp }

end

/-- Nor does root. -/
theorem RootMove.tidy (hm : RootMove w w') (h : Tidy w) : Tidy w' := by
  cases hm with
  | stay => exact h
  | take id hid => exact h.take hid
  | file id phase hid hphase => exact h.file hid hphase
  | record id hid =>
    exact { h with record := fun _ heq => by cases heq; exact hid }
  | unrecord => exact { h with record := nofun }
  | removeEntry id hterm hrec => exact h.removeEntry hterm hrec
  | unmark id hwork hin hexc => exact h.unmark hwork hin hexc
  | unfile id hterm => exact h.unfile

/-- Every thread keeps the invariant. -/
theorem Moves.tidy {t : Thread} (hm : Moves t w w') (h : Tidy w) : Tidy w' := by
  cases t with
  | handler n => exact HandlerMove.tidy hm h
  | applier => exact RootMove.tidy hm h

end Tidy

end Hotserve.Box.Exchange
