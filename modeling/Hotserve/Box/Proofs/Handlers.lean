/-
A handler's side of the exchange tree: what it can count on while it
holds the admission lock, and that it drops only when every earlier push
is accounted for.
-/
import Hotserve.Box.Proofs.Admission

namespace Hotserve.Box.Exchange

open Effect (Prog Pool Obeys)

-- ====== what others do under the lock

/-- What may have happened to the tree while a handler held the lock:
bundles left in/, markers and results went, and what was nowhere is still
nowhere. -/
structure Held (w w' : Tree) : Prop where
  lock : w'.lock = w.lock
  inbox : ∀ id ∈ w'.inbox, id ∈ w.inbox
  work : ∀ id ∈ w'.work, id ∈ w.inbox ∨ id ∈ w.work
  stage : ∀ id, w.stage.lookup id = none → w'.stage.lookup id = none
  out : ∀ id, w.stage.lookup id = none → id ∉ w.inbox → id ∉ w.work →
    w.out.lookup id = none → w'.out.lookup id = none
  ledger : ∀ p' ∈ w'.ledger, ∃ p ∈ w.ledger, p'.id = p.id ∧
    p'.posted = p.posted ∧ (Excused w p → Excused w' p')
  clock : w.clock ≤ w'.clock

section Held

variable {w w' w'' : Tree} {n : Nat}

theorem Held.refl (w : Tree) : Held w w where
  lock := rfl
  inbox _ h := h
  work _ h := .inr h
  stage _ h := h
  out _ _ _ _ h := h
  ledger p hp := ⟨p, hp, rfl, rfl, id⟩
  clock := Nat.le_refl _

theorem Held.trans (h : Held w w') (h' : Held w' w'') : Held w w'' where
  lock := h'.lock.trans h.lock
  inbox id hid := h.inbox id (h'.inbox id hid)
  work id hid := by
    rcases h'.work id hid with hin | hwork
    · exact .inl (h.inbox id hin)
    · exact h.work id hwork
  stage id hid := h'.stage id (h.stage id hid)
  out id hstage hin hwork hout := by
    refine h'.out id (h.stage id hstage) (fun hin' => hin (h.inbox id hin'))
      (fun hwork' => ?_) (h.out id hstage hin hwork hout)
    exact (h.work id hwork').elim hin hwork
  ledger p'' hp'' := by
    obtain ⟨p', hp', hid', hposted', hexc'⟩ := h'.ledger p'' hp''
    obtain ⟨p, hp, hid, hposted, hexc⟩ := h.ledger p' hp'
    exact ⟨p, hp, hid'.trans hid, hposted'.trans hposted,
      fun hp => hexc' (hexc hp)⟩
  clock := Nat.le_trans h.clock h'.clock

theorem Held.tick (w : Tree) (n : Nat) :
    Held w { w with clock := w.clock + n } :=
  { Held.refl w with
    ledger := fun p hp => ⟨p, hp, rfl, rfl, fun h => h.tick n⟩
    clock := Nat.le_add_right _ _ }

/-- Another handler can do nothing without the lock. -/
theorem HandlerMove.held {m : Nat} (hm : HandlerMove m w w')
    (hlock : w.lock = some (.handler n)) (hne : m ≠ n) : Held w w' := by
  have hother : w.lock ≠ some (.handler m) := by
    rw [hlock]
    rintro heq
    cases heq
    exact hne rfl
  cases hm with
  | stay => exact Held.refl w
  | lock hfree => exact absurd (hlock.symm.trans hfree) nofun
  | drop id h => exact absurd h hother
  | mark id posted h => exact absurd h hother
  | unlock h => exact absurd h hother

theorem RootMove.held (hm : RootMove w w') : Held w w' := by
  cases hm with
  | stay => exact Held.refl w
  | take id hid =>
    exact { Held.refl w with
      inbox := fun other h => List.mem_of_mem_erase h
      work := fun other h => by
        rcases List.mem_cons.mp h with rfl | h
        · exact .inl hid
        · exact .inr h }
  | file id phase hid hphase =>
    exact { Held.refl w with
      out := fun other hstage hin hwork hout => by
        have hne : other ≠ id := by
          rintro rfl
          rcases hid with h | ⟨h, -⟩
          · exact hwork h
          · rw [hstage] at h
            cases h
        exact (AList.lookup_insert_ne hne).trans hout
      ledger := fun p hp => ⟨p, hp, rfl, rfl,
        fun h => h.file (hphase.imp_right And.right)⟩ }
  | record id hid => exact { Held.refl w with lock := rfl }
  | unrecord => exact { Held.refl w with lock := rfl }
  | removeEntry id hterm hrec =>
    exact { Held.refl w with
      work := fun other h => .inr (List.mem_of_mem_erase h) }
  | unmark id hwork hin hexc =>
    exact { Held.refl w with
      stage := fun other h => by
        change (w.stage.erase id).lookup other = none
        by_cases hne : other = id
        · exact hne ▸ AList.lookup_erase id w.stage
        · exact (AList.lookup_erase_ne hne).trans h }
  | unfile id hterm =>
    exact { Held.refl w with
      out := fun other _ _ _ h => by
        change (w.out.erase id).lookup other = none
        by_cases hne : other = id
        · exact hne ▸ AList.lookup_erase id w.out
        · exact (AList.lookup_erase_ne hne).trans h
      ledger := fun p' hp' => by
        obtain ⟨p, hp, rfl⟩ := List.mem_map.mp hp'
        exact ⟨p, hp, Push.sweep_id _, Push.sweep_posted _, Excused.unfile⟩ }

/-- The tree as handler `n` sees it. -/
abbrev handlerView (n : Nat) := exchange.view Tidy Moves (.handler n)

theorem held_drift (hlock : w.lock = some (.handler n))
    (hd : (handlerView n).Drift w w') : Held w w' := by
  refine hd.keeps (F := Held w) ?_ (Held.refl w)
  rintro v v' hv ⟨-, ⟨m, rfl⟩ | ⟨t, hne, hm⟩⟩
  · exact hv.trans (Held.tick v m)
  · refine hv.trans ?_
    cases t with
    | applier => exact RootMove.held hm
    | handler m =>
      refine HandlerMove.held (n := n) hm (hv.lock.trans hlock) ?_
      rintro rfl
      exact hne rfl

end Held

-- ====== admission

section Admission

variable {w w' : Tree} {n : Nat} {id : Bytes}

/-- A handler's program, run among the others. -/
abbrev HandlerRuns {α : Type} (n : Nat) (p : Act α) (Q : α → Tree → Prop)
    (w : Tree) : Prop :=
  Obeys (handlerView n) (HandlerMove n) p Q w

/-- A read under the lock: what it answered, and what is left to do after
anything the others do. -/
theorem handler_read {α : Type} {e : Call} {k : e.Answer → Act α}
    {Q : α → Tree → Prop} (hlock : w.lock = some (.handler n))
    (h : ∀ c r w', Tidy w → apply (.handler n) e c w = some (r, w') →
      w' = w ∧ ∀ w'', Held w w'' → HandlerRuns n (k r) Q w'') :
    HandlerRuns n (.call e k) Q w := by
  intro c r w' htidy happ
  obtain ⟨rfl, hk⟩ := h c r w' htidy happ
  exact ⟨.stay, fun w'' hd => hk w'' (held_drift hlock hd)⟩

/-- The lock is held and every push has its marker. -/
structure Holds (n : Nat) (w : Tree) : Prop where
  lock : w.lock = some (.handler n)
  posted : AllPosted w

theorem Holds.mono (h : Holds n w) (hh : Held w w') : Holds n w' := by
  refine ⟨hh.lock.trans h.lock, fun p' hp' => ?_⟩
  obtain ⟨p, hp, -, hposted, -⟩ := hh.ledger p' hp'
  rw [hposted]
  exact h.posted p hp

/-- The id is nowhere in the tree but, perhaps, in out/. -/
structure Unused (id : Bytes) (w : Tree) : Prop where
  stage : w.stage.lookup id = none
  inbox : id ∉ w.inbox
  work : id ∉ w.work

theorem Unused.mono (h : Unused id w) (hh : Held w w') : Unused id w' where
  stage := hh.stage id h.stage
  inbox hin := h.inbox (hh.inbox id hin)
  work hwork := (hh.work id hwork).elim h.inbox h.work

/-- The id is nowhere in the tree. -/
structure Fresh (id : Bytes) (w : Tree) : Prop where
  unused : Unused id w
  out : w.out.lookup id = none

theorem Fresh.mono (h : Fresh id w) (hh : Held w w') : Fresh id w' where
  unused := h.unused.mono hh
  out := hh.out id h.unused.stage h.unused.inbox h.unused.work h.out

/-- An entry has its marker, once every push has. -/
theorem Tidy.unused (h : Tidy w) (hposted : AllPosted w)
    (hstage : w.stage.lookup id = none) : Unused id w := by
  have hno : ¬ (id ∈ w.inbox ∨ id ∈ w.work) := by
    intro hentry
    rcases h.entries id hentry with hsome | ⟨p, hp, -, hnone⟩
    · rw [hstage] at hsome
      cases hsome
    · exact hposted p hp hnone
  exact ⟨hstage, fun hin => hno (.inl hin), fun hwork => hno (.inr hwork)⟩

theorem known_runs (h : Holds n w) : HandlerRuns n (known id)
      (fun found w' => Held w w' ∧ (found = false → Fresh id w')) w := by
  refine handler_read h.lock fun c r w' htidy happ => ?_
  cases happ
  refine ⟨rfl, fun w₁ hh₁ => ?_⟩
  cases hstage : (w.stage.lookup id).isSome with
  | true => exact ⟨hh₁, nofun⟩
  | false =>
    have hunused : Unused id w₁ :=
      (htidy.unused h.posted (Option.isNone_iff_eq_none.mp
        (by simpa using hstage))).mono hh₁
    refine handler_read (h.mono hh₁).lock fun c r w' _ happ => ?_
    cases happ
    refine ⟨rfl, fun w₂ hh₂ => ?_⟩
    have hh := hh₁.trans hh₂
    by_cases hin : id ∈ w₁.inbox
    · simp only [hin, decide_true]
      exact ⟨hh, nofun⟩
    · simp only [hin, decide_false]
      refine handler_read (h.mono hh).lock fun c r w' _ happ => ?_
      cases happ
      refine ⟨rfl, fun w₃ hh₃ => ⟨hh.trans hh₃, fun hnone => ?_⟩⟩
      refine Fresh.mono ⟨hunused.mono hh₂, ?_⟩ hh₃
      simpa using hnone

/-- Nothing is in in/ and every push is accounted for. -/
structure Clear (w : Tree) : Prop where
  inbox : w.inbox = []
  pushes : ∀ p ∈ w.ledger, Excused w p

theorem Held.inbox_nil (hh : Held w w') (h : w.inbox = []) : w'.inbox = [] := by
  refine List.eq_nil_iff_forall_not_mem.mpr fun other hin => ?_
  have hbefore := hh.inbox other hin
  rw [h] at hbefore
  cases hbefore

theorem Clear.mono (h : Clear w) (hh : Held w w') : Clear w' := by
  refine ⟨hh.inbox_nil h.inbox, fun p' hp' => ?_⟩
  obtain ⟨p, hp, -, -, hexc⟩ := hh.ledger p' hp'
  exact hexc (h.pushes p hp)

/-- Where `pending`'s loop stands with the markers `ids` to come: in/ was
empty, and every push not accounted for has its marker among them. -/
structure Scan (n now : Nat) (ids : List Bytes) (w : Tree) : Prop where
  holds : Holds n w
  inbox : w.inbox = []
  clock : now ≤ w.clock
  posted : ∀ p ∈ w.ledger, ∀ t, p.posted = some t → t ≤ now
  todo : ∀ p ∈ w.ledger, Excused w p ∨ p.id ∈ ids

variable {now : Nat} {ids : List Bytes}

theorem Scan.mono (h : Scan n now ids w)
    (hh : Held w w') : Scan n now ids w' where
  holds := h.holds.mono hh
  inbox := hh.inbox_nil h.inbox
  clock := Nat.le_trans h.clock hh.clock
  posted p' hp' t ht := by
    obtain ⟨p, hp, -, hposted, -⟩ := hh.ledger p' hp'
    exact h.posted p hp t (hposted ▸ ht)
  todo p' hp' := by
    obtain ⟨p, hp, hid, -, hexc⟩ := hh.ledger p' hp'
    rw [hid]
    exact (h.todo p hp).imp_left hexc

/-- The first marker's pushes are accounted for. -/
theorem Scan.tail (h : Scan n now (id :: ids) w)
    (hid : ∀ p ∈ w.ledger, p.id = id → Excused w p) : Scan n now ids w :=
  { h with
    todo := fun p hp => by
      rcases h.todo p hp with hexc | hin
      · exact .inl hexc
      · rcases List.mem_cons.mp hin with heq | hin
        · exact .inl (hid p hp heq)
        · exact .inr hin }

/-- A push that is not accounted for has the marker its ledger says. -/
theorem Scan.marked (h : Scan n now ids w)
    (htidy : Tidy w) {p : Push} (hp : p ∈ w.ledger) :
    Excused w p ∨ w.stage.lookup p.id = p.posted :=
  (htidy.marked p hp).imp_right (·.resolve_left (h.holds.posted p hp))

/-- The pushes of an id whose marker has expired are accounted for. -/
theorem Scan.expired {posted : Nat} (h : Scan n now ids w) (htidy : Tidy w)
    (hmarker : w.stage.lookup id = some posted)
    (hage : expired now posted = true) :
    ∀ p ∈ w.ledger, p.id = id → Excused w p := by
  intro p hp hid
  rcases h.marked htidy hp with hexc | hlook
  · exact hexc
  · have hposted : p.posted = some posted := by rw [← hlook, hid, hmarker]
    refine .inr (.inr ⟨posted, hposted, ?_⟩)
    have hpast := h.posted p hp posted hposted
    rw [Exchange.expired, Bool.or_eq_true, decide_eq_true_eq,
      decide_eq_true_eq] at hage
    rcases hage with hold | hahead
    · exact Nat.le_trans hold h.clock
    · omega

/-- The pushes of an id whose marker went are accounted for. -/
theorem Scan.unmarked (h : Scan n now ids w)
    (htidy : Tidy w) (hmarker : w.stage.lookup id = none) :
    ∀ p ∈ w.ledger, p.id = id → Excused w p := by
  intro p hp hid
  refine (h.marked htidy hp).resolve_right fun hlook => ?_
  rw [hid, hmarker] at hlook
  exact h.holds.posted p hp hlook.symm

theorem answered_runs (hlock : w.lock = some (.handler n)) :
    HandlerRuns n (answered id) (fun found w' => Held w w' ∧
      (found = true → ∀ p ∈ w'.ledger, p.id = id → Excused w' p)) w := by
  refine handler_read hlock fun c r w' _ happ => ?_
  cases happ
  refine ⟨rfl, fun w' hh => ⟨hh, fun hfound p' hp' hid' => ?_⟩⟩
  obtain ⟨p, hp, hid, -, hexc⟩ := hh.ledger p' hp'
  refine hexc (.inl ?_)
  rw [← hid, hid']
  simpa [Tree.terminal, Option.any_map] using hfound

/-- A marker that does not block leaves no push of its id to wait for. -/
theorem blocks_runs {marker : Option Nat} (hlock : w.lock = some (.handler n))
    (hmarker : marker = none ∨
        (∃ posted, marker = some posted ∧ expired now posted = true) →
      ∀ p ∈ w.ledger, p.id = id → Excused w p) (h : Scan n now (id :: ids) w) :
    HandlerRuns n (blocks now id marker) (fun found w' => Held w w' ∧
      (found = false → Scan n now ids w')) w := by
  cases marker with
  | none => exact ⟨Held.refl w, fun _ => h.tail (hmarker (.inl rfl))⟩
  | some posted =>
    rw [blocks]
    cases hage : expired now posted with
    | true =>
      exact ⟨Held.refl w, fun _ => h.tail (hmarker (.inr ⟨posted, rfl, hage⟩))⟩
    | false =>
      refine (answered_runs hlock).andThen ?_
      rintro found w' ⟨hh, hfound⟩
      refine ⟨hh, fun hnot => (h.mono hh).tail (hfound ?_)⟩
      simpa using hnot

theorem pendingMarker_runs :
    ∀ {w : Tree}, Scan n now ids w → HandlerRuns n (pendingMarker now ids)
        (fun found w' => Held w w' ∧ (found = none → Scan n now [] w')) w := by
  induction ids with
  | nil => exact fun h => ⟨Held.refl _, fun _ => h⟩
  | cons id ids ih =>
    intro w h
    refine handler_read h.holds.lock fun c r w' htidy happ => ?_
    cases happ
    refine ⟨rfl, fun w₁ hh₁ => ?_⟩
    have h₁ := h.mono hh₁
    -- what the read says of the marker's pushes still holds
    have hmarker : w.stage.lookup id = none ∨ (∃ posted,
        w.stage.lookup id = some posted ∧ expired now posted = true) →
        ∀ p ∈ w₁.ledger, p.id = id → Excused w₁ p := by
      intro hread p' hp' hid'
      obtain ⟨p, hp, hid, -, hexc⟩ := hh₁.ledger p' hp'
      refine hexc ?_
      rcases hread with hnone | ⟨posted, hsome, hage⟩
      · exact h.unmarked htidy hnone p hp (hid.symm.trans hid')
      · exact h.expired htidy hsome hage p hp (hid.symm.trans hid')
    refine (blocks_runs h₁.holds.lock hmarker h₁).andThen ?_
    rintro found w₂ ⟨hh₂, hscan⟩
    have hh := hh₁.trans hh₂
    cases found with
    | true => exact ⟨hh, nofun⟩
    | false =>
      exact (ih (hscan rfl)).post fun _ w₃ h₃ => ⟨hh.trans h₃.1, h₃.2⟩

theorem pending_runs (h : Holds n w) : HandlerRuns n pending
      (fun found w' => Held w w' ∧ (found = none → Clear w')) w := by
  refine handler_read h.lock fun c r w' htidy happ => ?_
  cases happ
  refine ⟨rfl, fun w₁ hh₁ => ?_⟩
  have h₁ := h.mono hh₁
  have hpast : ∀ p ∈ w₁.ledger, ∀ t, p.posted = some t → t ≤ w.clock := by
    intro p' hp' t ht
    obtain ⟨p, hp, -, hposted, -⟩ := hh₁.ledger p' hp'
    exact htidy.posted p hp t (hposted ▸ ht)
  refine handler_read h₁.lock fun c r w' htidy₁ happ => ?_
  cases happ
  refine ⟨rfl, fun w₂ hh₂ => ?_⟩
  have h₂ := h₁.mono hh₂
  cases hin : w₁.inbox with
  | cons id rest => exact ⟨hh₁.trans hh₂, nofun⟩
  | nil =>
    -- every push is in work/ or accounted for, and has its marker
    have hscan : Scan n w.clock (w₂.ledger.map Push.id) w₂ := by
      have hscan₁ : Scan n w.clock (w₁.ledger.map Push.id) w₁ :=
        ⟨h₁, hin, hh₁.clock, hpast, fun p hp => .inr (List.mem_map_of_mem hp)⟩
      have hscan₂ := hscan₁.mono hh₂
      exact { hscan₂ with todo := fun p hp => .inr (List.mem_map_of_mem hp) }
    refine handler_read h₂.lock fun c r w' htidy₂ happ => ?_
    cases happ
    refine ⟨rfl, fun w₃ hh₃ => ?_⟩
    have hkeys : Scan n w.clock w₂.stage.keys w₂ := by
      refine { hscan with todo := fun p hp => ?_ }
      refine (hscan.marked htidy₂ hp).imp_right fun hlook => ?_
      rw [← AList.mem_keys, ← AList.lookup_isSome, hlook,
        Option.isSome_iff_ne_none]
      exact h₂.posted p hp
    refine (pendingMarker_runs (hkeys.mono hh₃)).post ?_
    rintro found w₄ ⟨hh₄, hnone⟩
    refine ⟨((hh₁.trans hh₂).trans hh₃).trans hh₄, fun hfound =>
      ⟨(hnone hfound).inbox, fun p hp => ?_⟩⟩
    exact ((hnone hfound).todo p hp).resolve_right nofun

/-- Between the bundle and its marker: every push but this one has its
own and is accounted for. -/
structure Dropping (n : Nat) (id : Bytes) (w : Tree) : Prop where
  lock : w.lock = some (.handler n)
  pushes : ∀ p ∈ w.ledger, p.posted = none ∧ p.id = id ∨
    p.posted ≠ none ∧ Excused w p

theorem Dropping.mono (h : Dropping n id w) (hh : Held w w') :
    Dropping n id w' := by
  refine ⟨hh.lock.trans h.lock, fun p' hp' => ?_⟩
  obtain ⟨p, hp, hid, hposted, hexc⟩ := hh.ledger p' hp'
  rw [hposted, hid]
  exact (h.pushes p hp).imp_right fun hrest => ⟨hrest.1, hexc hrest.2⟩

/-- The marker is what was missing. -/
theorem Dropping.mark (h : Dropping n id w) (posted : Nat) :
    Holds n (w.mark id posted) := by
  refine ⟨h.lock, fun p' hp' => ?_⟩
  obtain ⟨p, hp, rfl⟩ := List.mem_map.mp hp'
  rcases h.pushes p hp with ⟨hnone, hid⟩ | ⟨hsome, -⟩
  · rw [Push.mark, if_pos ⟨hid, hnone⟩]
    exact Option.some_ne_none posted
  · rw [Push.mark, if_neg fun hboth => hsome hboth.2]
    exact hsome

theorem drop_runs (h : Holds n w) (hfresh : Fresh id w) (hclear : Clear w) :
    HandlerRuns n (drop id) (fun _ => Holds n) w := by
  intro c r w' _ happ
  cases happ
  refine ⟨.drop id h.lock hclear.inbox hfresh.unused.work
    hfresh.unused.stage hfresh.out h.posted hclear.pushes, fun w₁ hd₁ => ?_⟩
  have hdropping : Dropping n id (w.drop id) := by
    refine ⟨h.lock, fun p hp => ?_⟩
    rcases List.mem_cons.mp hp with rfl | hp
    · exact .inl ⟨rfl, rfl⟩
    · exact .inr ⟨h.posted p hp, hclear.pushes p hp⟩
  have h₁ := hdropping.mono (held_drift hdropping.lock hd₁)
  refine handler_read h₁.lock fun c r w' _ happ => ?_
  cases happ
  refine ⟨rfl, fun w₂ hh₂ => ?_⟩
  have h₂ := h₁.mono hh₂
  intro c r w' _ happ
  cases happ
  refine ⟨.mark id _ h₂.lock hh₂.clock h₂.pushes, fun w₃ hd₃ => ?_⟩
  have hmarked := h₂.mark w₁.clock
  exact hmarked.mono (held_drift hmarked.lock hd₃)

theorem admitHeld_runs (h : Holds n w) :
    HandlerRuns n (admitHeld id) (fun _ => Holds n) w := by
  refine (known_runs h).andThen ?_
  rintro found w₁ ⟨hh₁, hfresh⟩
  have h₁ := h.mono hh₁
  cases found with
  | true => exact h₁
  | false =>
    refine (pending_runs h₁).andThen ?_
    rintro found w₂ ⟨hh₂, hclear⟩
    have h₂ := h₁.mono hh₂
    cases found with
    | some id => exact h₂
    | none =>
      refine handler_read h₂.lock fun c r w' _ happ => ?_
      cases happ
      refine ⟨rfl, fun w₃ hh₃ => ?_⟩
      have h₃ := h₂.mono hh₃
      cases c.accepted with
      | false => exact h₃
      | true =>
        have hfresh₃ := ((hfresh rfl).mono hh₂).mono hh₃
        exact drop_runs h₃ hfresh₃ ((hclear rfl).mono hh₃)

/-- A request, from the lock to its release. -/
theorem admit_runs (id : Bytes) (w : Tree) :
    HandlerRuns n (admitPush id) (fun _ _ => True) w := by
  intro c r w' htidy happ
  change apply (.handler n) .lockAdmission c w = some (r, w') at happ
  simp only [apply] at happ
  split at happ
  next hfree =>
    cases happ
    refine ⟨.lock hfree, fun w₁ hd₁ => ?_⟩
    have hholds : Holds n { w with lock := some (.handler n) } :=
      ⟨rfl, htidy.free hfree⟩
    have h₁ := hholds.mono (held_drift hholds.lock hd₁)
    refine (admitHeld_runs h₁).andThen ?_
    intro _ w₂ h₂ c r w' _ happ
    cases happ
    exact ⟨.unlock h₂.lock h₂.posted, fun _ _ => trivial⟩
  next =>
    cases happ
    exact ⟨.stay, fun _ _ => trivial⟩

end Admission

end Hotserve.Box.Exchange
