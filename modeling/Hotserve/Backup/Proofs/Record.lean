/-
What each command leaves in the record.

Shape of the argument. A command leaves in an app's entry names the entry
before had, and names of snapshots it saw for itself, at a clock reading
of its own (`Follows`, one lemma for each way an entry is written). The
first keep what was known of them (`gone` compares their `Seen` with the
listing before); the second are seen after every listing before
(`Good.follow`). A listing that is believed then judges every name by what
it held and by whether the command saw it (`Good.listing`). `Good.run`,
`Good.restore` and `Good.drill` put these together.

A name is judged by its own `Seen`, so a snapshot has to be seen under
every name it has. A drill sees to that, and an upload's id is new; the
answer of the repository about an app that has no data is recorded under
one name only, which `Turn.Apart` is about.
-/
import Hotserve.Backup.Proofs.Engine
import Hotserve.Backup.Status

namespace Hotserve.Backup

open Bytes

-- ====== one app's backup

/-- What `run.app` leaves of snapshots: nothing, what the upload made, or
what the repository answered where the record has none. -/
inductive Made (env : Env) (app : App) : Prop
  | nothing (hs : app.snapshot = none) (hl : app.lastSnapshot = none)
  | uploaded (binds : List Bind) (masked : List Bytes) (o : Outcome)
      (out : Except Bytes Bytes) (hran : env.upload binds masked = .ok (o, out))
      (hid : summaryID env.json out ≠ [])
      (hs : app.snapshot =
        some ⟨summaryID env.json out, env.now, some env.now⟩)
      (hl : app.lastSnapshot = none)
  | answered (last : Snapshot) (hprev : env.prev = none)
      (hasked : env.lastInRepository = .ok (some last))
      (hs : app.snapshot = none) (hl : app.lastSnapshot = some last)

variable {env : Env} {name root : Bytes} {decl : Config} {a b : App}

theorem Made.of_eq (h : Made env a) (hs : b.snapshot = a.snapshot)
    (hl : b.lastSnapshot = a.lastSnapshot) : Made env b := by
  cases h with
  | nothing h₁ h₂ => exact .nothing (hs.trans h₁) (hl.trans h₂)
  | uploaded binds masked o out hran hid h₁ h₂ =>
    exact .uploaded binds masked o out hran hid (hs.trans h₁) (hl.trans h₂)
  | answered last hprev hasked h₁ h₂ =>
    exact .answered last hprev hasked (hs.trans h₁) (hl.trans h₂)

theorem foldl_lacks_snapshots (fmt : Fmt) (id : Bytes) (items : List Item) :
    (items.foldl (lacks fmt id) a).snapshot = a.snapshot ∧
      (items.foldl (lacks fmt id) a).lastSnapshot = a.lastSnapshot := by
  induction items generalizing a with
  | nil => exact ⟨rfl, rfl⟩
  | cons it items ih =>
    have hone : (lacks fmt id a it).snapshot = a.snapshot ∧
        (lacks fmt id a it).lastSnapshot = a.lastSnapshot := by
      unfold lacks
      split
      · exact ⟨rfl, rfl⟩
      · exact ⟨rfl, rfl⟩
    rw [List.foldl_cons, ih.1, ih.2]
    exact hone

/-- An upload that names a snapshot ran, and its summary names it. -/
theorem upload_made {binds : List Bind} {masked : List Bytes}
    (h : (upload env name binds masked).id ≠ []) :
    ∃ o out, env.upload binds masked = .ok (o, out) ∧
      (upload env name binds masked).id = summaryID env.json out := by
  unfold upload at h ⊢
  split at h
  · exact absurd rfl h
  rename_i o out hran
  refine ⟨o, out, hran, ?_⟩
  dsimp only at h ⊢
  split at h
  next hok => rw [if_pos hok]
  next hno =>
    rw [if_neg hno]
    split at h
    · exact absurd rfl h
    rename_i hno'
    rw [if_neg hno']
    split at h
    next hthree => rw [if_pos hthree]
    · exact absurd rfl h

theorem verified_made {binds : List Bind} {masked : List Bytes}
    {given : List (Bytes × Identity)} (hs : a.snapshot = none)
    (hl : a.lastSnapshot = none) :
    Made env (verified env name (upload env name binds masked) given a).1 := by
  unfold verified
  dsimp only
  split
  · exact .nothing hs hl
  next hid =>
    obtain ⟨o, out, hran, heq⟩ := upload_made hid
    let snap : Snapshot :=
      ⟨(upload env name binds masked).id, env.now, some env.now⟩
    have hmade : Made env { a with snapshot := some snap } := by
      refine .uploaded binds masked o out hran (heq ▸ hid) ?_ hl
      rw [← heq]
    split
    · exact hmade.of_eq rfl rfl
    · obtain ⟨h₁, h₂⟩ := foldl_lacks_snapshots env.fmt snap.id _
      exact hmade.of_eq h₁ h₂

theorem backUp_made {staging : Bytes} (hs : a.snapshot = none)
    (hl : a.lastSnapshot = none) :
    Made env (backUp env name staging decl a).1 := by
  unfold backUp
  dsimp only
  split
  · exact .nothing hs hl
  · exact .nothing hs hl
  · exact .nothing hs hl
  split
  · exact .nothing hs hl
  split
  · exact .nothing hs hl
  split
  · exact .nothing hs hl
  · exact verified_made hs hl

theorem absent_made (hs : a.snapshot = none) (hl : a.lastSnapshot = none) :
    Made env (absent env a).1 := by
  unfold absent
  dsimp only
  split
  · exact .nothing hs hl
  next hprev =>
    split
    · exact .nothing hs hl
    next last hasked => exact .answered last hprev hasked hs rfl
    · exact .nothing hs hl

theorem cleaned_made {staging : Bytes} {r : App × Bool}
    (h : Made env r.1) : Made env (cleaned env staging r).1 := by
  unfold cleaned
  split
  · exact h
  · exact h.of_eq rfl rfl

theorem app_made : Made env (app env root name decl).1 := by
  have hblank : Made env (blankApp (Path.join [root, name, str "shared"])) :=
    .nothing rfl rfl
  unfold app
  dsimp only
  split
  · exact hblank.of_eq rfl rfl
  split
  · exact hblank.of_eq rfl rfl
  split
  · exact hblank.of_eq rfl rfl
  · exact absent_made rfl rfl
  · exact hblank.of_eq rfl rfl
  · exact hblank.of_eq rfl rfl
  split
  · exact hblank.of_eq rfl rfl
  split
  · exact hblank.of_eq rfl rfl
  · exact cleaned_made (backUp_made rfl rfl)

variable {fmt : Fmt} {q : Asked} {snaps : List Listed} {snap s : Snapshot}
  {o : Entry} {n id : Bytes} {apps : Table Bytes (Option Entry)}
  {names : List Bytes} {left : Bytes → Bool}

-- ====== the answers

/-- What the repository answered has an id, and was seen as it was read. -/
theorem snapshots_ok {every : Bool} (h : snapshots fmt every q = .ok snaps) :
    ∀ l ∈ snaps, isSnapshotID l.snapshot.id = true ∧
      l.snapshot.seen = some q.time := by
  unfold snapshots at h
  split at h
  · cases h
  obtain ⟨-, h⟩ := passed h
  split at h
  · cases h
  split at h
  · cases h
  rename_i said hsaid
  split at h
  · cases h
  rename_i hids
  split at h
  · cases h
  · cases h
    intro l hl
    obtain ⟨s, hs, rfl⟩ :=
      List.mem_map.mp ((List.mergeSort_perm _ _).mem_iff.mp hl)
    have hid : isSnapshotID s.id = true := by
      simpa using List.find?_eq_none.mp hids s hs
    exact ⟨hid, rfl⟩

theorem lastInRepository_ok {last : Snapshot}
    (h : lastInRepository fmt q = .ok (some last)) :
    isSnapshotID last.id = true ∧ last.seen = some q.time := by
  unfold lastInRepository at h
  split at h
  · cases h
  next snaps hsnaps =>
    obtain ⟨l, hl, rfl⟩ := Option.map_eq_some_iff.mp (Except.ok.inj h)
    exact snapshots_ok hsnaps l (List.mem_of_getLast? hl)

theorem newest_ok {every : Bool} (h : snapshots fmt every q = .ok snaps)
    (hnew : newest snaps = some snap) : isSnapshotID snap.id = true := by
  obtain ⟨l, hl, rfl⟩ := Option.map_eq_some_iff.mp hnew
  have hmem := List.mem_reverse.mp (List.mem_of_find?_eq_some hl)
  exact (snapshots_ok h l hmem).1

-- ====== the entries

/-- An entry with no last snapshot has none at all, but for a proven
restore's. -/
def Entry.Bare (e : Entry) : Prop :=
  e.lastSnapshot = none → e.snapshot = none ∧ e.lastOK = none

/-- Every name is a snapshot's. -/
def Entry.Ids (e : Entry) : Prop :=
  ∀ s ∈ e.named, isSnapshotID s.id = true

theorem mem_named {e : Entry} : s ∈ e.named ↔
    e.snapshot = some s ∨ e.lastOK = some s ∨ e.lastSnapshot = some s ∨
      ∃ d, e.restoreProven = some d ∧ d.snapshot = s := by
  simp [Entry.named, eq_comm]

/-- `e` is what a command leaves of `old`, that saw the ids of `saw` for
itself from `lo` to `hi`. -/
structure Follows (old : Option Entry) (lo hi : Nat) (saw : Bytes → Prop)
    (e : Entry) : Prop where
  ids : e.Ids
  bare : e.Bare
  named : ∀ s ∈ e.named, (¬ saw s.id ∧ ∃ o, old = some o ∧ s ∈ o.named) ∨
      (saw s.id ∧ ∃ n, s.seen = some n ∧ lo ≤ n ∧ n ≤ hi)

variable {old : Option Entry} {lo hi : Nat} {saw saw' : Bytes → Prop}
  {e e' : Entry}

theorem Follows.congr (h : Follows old lo hi saw e)
    (hsaw : ∀ id, saw id ↔ saw' id) : Follows old lo hi saw' e where
  ids := h.ids
  bare := h.bare
  named := fun s hs => by
    rw [← hsaw]
    exact h.named s hs

/-- What holds of every entry of a record. -/
def Sane (old : Option Entry) : Prop := ∀ e, old = some e → e.Ids ∧ e.Bare

/-- One of the record before that was not seen, or one that was. -/
def Known (old : Option Entry) (lo hi : Nat) (saw : Bytes → Prop)
    (s : Snapshot) : Prop :=
  (¬ saw s.id ∧ ∃ o, old = some o ∧ s ∈ o.named) ∨
    isSnapshotID s.id = true ∧ saw s.id ∧
      ∃ n, s.seen = some n ∧ lo ≤ n ∧ n ≤ hi

/-- Name by name: one of the record before has an id already. -/
theorem Follows.of_named (hold : Sane old) (hbare : e.Bare)
    (h : ∀ s ∈ e.named, Known old lo hi saw s) : Follows old lo hi saw e := by
  refine ⟨fun s hs => ?_, hbare, fun s hs => (h s hs).imp_right And.right⟩
  rcases h s hs with ⟨-, o, ho, hmem⟩ | ⟨hid, -⟩
  · exact (hold o ho).1 s hmem
  · exact hid

/-- An entry left as it was. -/
theorem Follows.refl (hids : e.Ids) (hbare : e.Bare) :
    Follows (some e) lo hi (fun _ => False) e where
  ids := hids
  bare := hbare
  named := fun _ hs => .inl ⟨not_false, e, rfl, hs⟩

/-- Fewer names, or another drill that proved nothing. -/
theorem Follows.subset (h : Follows old lo hi saw e)
    (hsub : ∀ s ∈ e'.named, s ∈ e.named) (hbare : e'.Bare) :
    Follows old lo hi saw e' where
  ids := fun s hs => h.ids s (hsub s hs)
  bare := hbare
  named := fun s hs => h.named s (hsub s hs)

/-- What a second step leaves of the first's. -/
theorem Follows.trans (h : Follows old lo hi saw e)
    (h' : Follows (some e) lo hi saw' e') :
    Follows old lo hi (fun id => saw id ∨ saw' id) e' where
  ids := h'.ids
  bare := h'.bare
  named := fun s hs => by
    rcases h'.named s hs with ⟨hno, o, ho, hmem⟩ | ⟨hsaw, hseen⟩
    · cases ho
      rcases h.named s hmem with ⟨hno', hold⟩ | ⟨hsaw, hseen⟩
      · exact .inl ⟨not_or.mpr ⟨hno', hno⟩, hold⟩
      · exact .inr ⟨.inl hsaw, hseen⟩
    · exact .inr ⟨.inr hsaw, hseen⟩

/-- A drill leaves what it fetched whole seen under every name. -/
theorem drillApp_follows {br : Brought} {time : Nat} (hids : e.Ids)
    (hbare : e.Bare) (hsnap : isSnapshotID snap.id = true) (hlo : lo ≤ time)
    (hhi : time ≤ hi) :
    Follows (some e) lo hi (fun id => br.isWhole = true ∧ id = snap.id)
      (drillApp fmt snap br time e).1 := by
  cases br with
  | interrupted =>
    exact (Follows.refl hids hbare).congr fun _ => by simp [Brought.isWhole]
  | upgraded why =>
    exact (Follows.refl hids hbare).congr fun _ => by simp [Brought.isWhole]
  | failed why wide =>
    refine ((Follows.refl hids hbare).congr fun _ => by
      simp [Brought.isWhole]).subset (fun s hs => hs) hbare
  | whole =>
    -- each name but the proven restore's is an old one, seen now where it
    -- is the snapshot that was fetched
    have hsee (x : Option Snapshot) (hx : ∀ o, x = some o → o ∈ e.named)
        (s : Snapshot) (hs : x.map (fun o : Snapshot => if o.id = snap.id then
          { o with seen := some time } else o) = some s) :
        Known (some e) lo hi
          (fun id => Brought.whole.isWhole = true ∧ id = snap.id) s := by
      obtain ⟨o, rfl, rfl⟩ := Option.map_eq_some_iff.mp hs
      have ho := hx o rfl
      split
      next heq => exact .inr ⟨hids o ho, ⟨rfl, heq⟩, time, rfl, hlo, hhi⟩
      next hne => exact .inl ⟨fun h => hne h.2, e, rfl, ho⟩
    refine Follows.of_named (fun _ ho => by cases ho; exact ⟨hids, hbare⟩)
      (fun hnone => ?_) fun s hs => ?_
    · obtain ⟨h₁, h₂⟩ := hbare (Option.map_eq_none_iff.mp hnone)
      exact ⟨by simp [drillApp, h₁], by simp [drillApp, h₂]⟩
    · rcases mem_named.mp hs with h | h | h | ⟨d, hd, rfl⟩
      · exact hsee e.snapshot (fun o ho => mem_named.mpr (.inl ho)) s h
      · exact hsee e.lastOK (fun o ho => mem_named.mpr (.inr (.inl ho))) s h
      · exact hsee e.lastSnapshot
          (fun o ho => mem_named.mpr (.inr (.inr (.inl ho)))) s h
      · cases hd
        exact .inr ⟨hsnap, ⟨rfl, rfl⟩, time, rfl, hlo, hhi⟩

/-- The clock readings of a turn. -/
def Turn.readings (t : Turn) : List Nat :=
  [t.env.now, t.asked.time, t.drill.time]

/-- An upload's id is new to the app: restic's are. -/
def Turn.Fresh (t : Turn) (old : Option Entry) : Prop :=
  ∀ binds masked o out, t.env.upload binds masked = .ok (o, out) →
    ∀ e, old = some e → ∀ s ∈ e.named, s.id ≠ summaryID t.env.json out

/-- Where the record has no snapshot of the app but a proven restore's,
the repository does not answer with that one. -/
def Turn.Apart (t : Turn) (old : Option Entry) : Prop :=
  ∀ e d last, old = some e → e.lastSnapshot = none → e.restoreProven = some d →
    lastInRepository t.env.fmt t.asked = .ok (some last) →
    last.id ≠ d.snapshot.id

theorem carryLastOK_snapshot : (carryLastOK old a).snapshot = a.snapshot := by
  obtain ⟨class_, detail, looked, snapshot, items, last⟩ := a
  cases old with
  | none =>
    cases snapshot with
    | none => rfl
    | some snap => rfl
  | some o =>
    cases snapshot with
    | none => rfl
    | some snap => rfl

theorem carryLastOK_none (hs : a.snapshot = none) : carryLastOK none a =
    ⟨a, none, none, none⟩ := by
  simp only [carryLastOK, hs]

theorem carryLastOK_some (hs : a.snapshot = none) : carryLastOK (some o) a =
      { toApp := { a with lastSnapshot := a.lastSnapshot.or o.lastSnapshot }
        lastOK := o.lastOK
        restoreProven := o.restoreProven
        restoreDrill := o.restoreDrill } := by
  simp only [carryLastOK, hs]

theorem carry_nothing (hold : Sane old) (hs : a.snapshot = none)
    (hl : a.lastSnapshot = none) :
    Follows old lo hi (fun _ => False) (carryLastOK old a) := by
  cases old with
  | none =>
    rw [carryLastOK_none hs]
    refine Follows.of_named hold (fun _ => ⟨hs, rfl⟩) fun s h => ?_
    simp [Entry.named, hs, hl] at h
  | some o =>
    obtain ⟨hids, hbare⟩ := hold o rfl
    rw [carryLastOK_some hs]
    refine (Follows.refl hids hbare).subset (fun s h => ?_) fun hnone => ?_
    · rcases mem_named.mp h with h | h | h | h
      · exact absurd h (by simp [hs])
      · exact mem_named.mpr (.inr (.inl h))
      · rw [hl, Option.none_or] at h
        exact mem_named.mpr (.inr (.inr (.inl h)))
      · exact mem_named.mpr (.inr (.inr (.inr h)))
    · rw [hl, Option.none_or] at hnone
      exact ⟨hs, (hbare hnone).2⟩

theorem carry_uploaded (hold : Sane old) (hs : a.snapshot = some snap)
    (hid : isSnapshotID snap.id = true)
    (hnew : ∀ e, old = some e → ∀ s ∈ e.named, s.id ≠ snap.id) {n : Nat}
    (hseen : snap.seen = some n) (hlo : lo ≤ n) (hhi : n ≤ hi) :
    Follows old lo hi (fun id => id = snap.id) (carryLastOK old a) := by
  have hup : Known old lo hi (· = snap.id) snap :=
    .inr ⟨hid, rfl, n, hseen, hlo, hhi⟩
  have hkept (o) (ho : old = some o) (s) (hmem : s ∈ o.named) :
      Known old lo hi (· = snap.id) s := .inl ⟨hnew o ho s hmem, o, ho, hmem⟩
  refine Follows.of_named hold (fun hnone => ?_) fun s h => ?_
  · simp only [carryLastOK, hs] at hnone
    cases hnone
  simp only [carryLastOK, hs] at h
  rcases mem_named.mp h with h | h | h | ⟨d, hd, rfl⟩
  · cases old with
    | none => exact Option.some.inj (hs.symm.trans h) ▸ hup
    | some o => exact Option.some.inj h ▸ hup
  · dsimp only at h
    split at h
    · exact Option.some.inj h ▸ hup
    · cases old with
      | none => cases h
      | some o => exact hkept o rfl s (mem_named.mpr (.inr (.inl h)))
  · exact Option.some.inj h ▸ hup
  · cases old with
    | none => cases hd
    | some o =>
      exact hkept o rfl _ (mem_named.mpr (.inr (.inr (.inr ⟨d, hd, rfl⟩))))

theorem carry_answered {last : Snapshot} (hold : Sane old)
    (hs : a.snapshot = none) (hl : a.lastSnapshot = some last)
    (hid : isSnapshotID last.id = true)
    (hnone : ∀ o, old = some o → o.lastSnapshot = none)
    (hapart : ∀ o d, old = some o → o.restoreProven = some d →
      last.id ≠ d.snapshot.id) {n : Nat} (hseen : last.seen = some n)
    (hlo : lo ≤ n) (hhi : n ≤ hi) :
    Follows old lo hi (fun id => id = last.id) (carryLastOK old a) := by
  have hans : Known old lo hi (· = last.id) last :=
    .inr ⟨hid, rfl, n, hseen, hlo, hhi⟩
  cases old with
  | none =>
    rw [carryLastOK_none hs]
    refine Follows.of_named hold (fun hno => ?_) fun s h => ?_
    · exact absurd (hl.symm.trans hno) (by simp)
    rcases mem_named.mp h with h | h | h | ⟨d, hd, -⟩
    · exact absurd (hs.symm.trans h) (by simp)
    · cases h
    · exact Option.some.inj (hl.symm.trans h) ▸ hans
    · cases hd
  | some o =>
    obtain ⟨-, hok⟩ := (hold o rfl).2 (hnone o rfl)
    rw [carryLastOK_some hs]
    refine Follows.of_named hold (fun hno => ?_) fun s h => ?_
    · rw [hl, Option.some_or] at hno
      cases hno
    rcases mem_named.mp h with h | h | h | ⟨d, hd, rfl⟩
    · exact absurd (hs.symm.trans h) (by simp)
    · exact absurd (hok.symm.trans h) (by simp)
    · rw [hl, Option.some_or] at h
      exact Option.some.inj h ▸ hans
    · exact .inl ⟨(hapart o d rfl hd).symm, o, rfl,
        mem_named.mpr (.inr (.inr (.inr ⟨d, hd, rfl⟩)))⟩

-- ====== the turns

/-- Every reading of a turn is the command's. -/
def Turn.Timed (t : Turn) (lo hi : Nat) : Prop :=
  ∀ r ∈ t.readings, lo ≤ r ∧ r ≤ hi

/-- What a command asks of one app's turn. -/
structure Turn.Sound (t : Turn) (old : Option Entry) (lo hi : Nat) : Prop where
  sane : Sane old
  timed : t.Timed lo hi
  fresh : t.Fresh old
  apart : t.Apart old

variable {t : Turn}

/-- What an app's backup leaves of its entry. -/
theorem app_follows (root name : Bytes) (ht : t.Sound old lo hi) :
    Follows old lo hi (fun id => id ∈ (t.app old root name).1.saw)
      (carryLastOK old (t.app old root name).1) := by
  have hnow := ht.timed t.env.now (by simp [Turn.readings])
  have hasked := ht.timed t.asked.time (by simp [Turn.readings])
  have hmade : Made { t.env with
        prev := old.bind fun e => e.lastSnapshot
        lastInRepository := lastInRepository t.env.fmt t.asked }
      (t.app old root name).1 := app_made
  cases hmade with
  | nothing hs hl =>
    exact (carry_nothing ht.sane hs hl).congr fun _ => by
      simp [App.saw, hs, hl]
  | uploaded binds masked o out hran hid hs hl =>
    refine (carry_uploaded ht.sane hs (summaryID_isSnapshotID hid)
      (ht.fresh binds masked o out hran) rfl hnow.1 hnow.2).congr fun _ => ?_
    simp [App.saw, hs, hl]
  | answered last hprev hasked' hs hl =>
    obtain ⟨hid, hseen⟩ := lastInRepository_ok hasked'
    have hnone : ∀ o, old = some o → o.lastSnapshot = none := by
      rintro o rfl
      exact hprev
    refine (carry_answered ht.sane hs hl hid hnone (fun o d ho hd =>
      ht.apart o d last ho (hnone o ho) hd hasked') hseen hasked.1
      hasked.2).congr fun _ => ?_
    simp [App.saw, hs, hl]

/-- What a turn leaves: as the app's backup does, whether or not the first
drill is made. -/
theorem backup_follows (root name : Bytes) (stop : Option Bytes)
    (ht : t.Sound old lo hi) :
    Follows old lo hi (fun id => id ∈ (t.backup old root name stop).1.saw)
      (carryLastOK old (t.backup old root name stop).1) := by
  cases stop with
  | none => exact app_follows root name ht
  | some detail =>
    exact (carry_nothing ht.sane rfl rfl).congr fun _ => by
      simp [Turn.backup, App.saw, blankApp]

theorem firstDrill_follows {d : FirstDrill} (h : Follows old lo hi saw e)
    (hsaw : saw snap.id) (hsnap : snap ∈ e.named) (hlo : lo ≤ d.time)
    (hhi : d.time ≤ hi) :
    Follows old lo hi saw (firstDrill fmt snap d e).1 := by
  unfold firstDrill
  split
  · split
    · exact h
    · exact h.subset (fun _ hs => hs) h.bare
  split
  · exact h.subset (fun _ hs => hs) h.bare
  · refine (h.trans (drillApp_follows h.ids h.bare (h.ids snap hsnap) hlo
      hhi)).congr fun id => ⟨?_, Or.inl⟩
    rintro (hid | ⟨-, rfl⟩)
    · exact hid
    · exact hsaw

/-- The entry a turn sets. -/
theorem take_get
    (l : Loop) : ∃ e, (t.take old root name l).apps = l.apps.set name (some e) ∧
    (t.take old root name l).seen = l.seen ++
      (t.backup old root name l.stop).1.saw.map (fun id => (name, id)) ∧
    (e = carryLastOK old (t.backup old root name l.stop).1 ∨
      ∃ snap, (carryLastOK old (t.backup old root name l.stop).1).snapshot =
          some snap ∧ e = (firstDrill t.env.fmt snap t.drill
          (carryLastOK old (t.backup old root name l.stop).1)).1) := by
  simp only [Turn.take]
  split
  next snap hdrills hsnap =>
    split
    · exact ⟨_, rfl, trivial, .inr ⟨snap, hsnap, rfl⟩⟩
    · exact ⟨_, rfl, trivial, .inr ⟨snap, hsnap, rfl⟩⟩
  · exact ⟨_, rfl, trivial, .inl rfl⟩

theorem take_follows (l : Loop) (ht : t.Sound old lo hi) :
    ∃ (e : Entry) (saw : List Bytes),
      (t.take old root name l).apps = l.apps.set name (some e) ∧
      (t.take old root name l).seen = l.seen ++ saw.map (fun id => (name, id)) ∧
      Follows old lo hi (fun id => id ∈ saw) e := by
  obtain ⟨e, happs, hseen, he⟩ := take_get l
  have hbackup := backup_follows root name l.stop ht
  refine ⟨e, _, happs, hseen, ?_⟩
  rcases he with rfl | ⟨snap, hsnap, rfl⟩
  · exact hbackup
  · have hdrill := ht.timed t.drill.time (by simp [Turn.readings])
    have hmem : snap ∈
        (carryLastOK old (t.backup old root name l.stop).1).named :=
      mem_named.mpr (.inl hsnap)
    refine firstDrill_follows hbackup ?_ hmem hdrill.1 hdrill.2
    have happ : (t.backup old root name l.stop).1.snapshot = some snap := by
      rw [← hsnap]
      exact carryLastOK_snapshot.symm
    simp [App.saw, happ]

-- ====== a run's entries

/-- Every entry of a table is what a command that saw `seen` leaves of the
record before. -/
def Entries (prev : Status) (lo hi : Nat) (seen : List (Bytes × Bytes))
    (apps : Table Bytes (Option Entry)) : Prop :=
  ∀ n eo, apps.get n = some eo → ∃ e, eo = some e ∧
    Follows (prev.app n) lo hi (fun id => (n, id) ∈ seen) e

/-- The loop of a run so far: an app it has not come to, it has seen
nothing of. -/
structure Running (prev : Status) (lo hi : Nat) (l : Loop) : Prop where
  entries : Entries prev lo hi l.seen l.apps
  absent : ∀ n, l.apps.get n = none → ∀ id, (n, id) ∉ l.seen

variable {prev st : Status} {l : Loop} {turn : Bytes → Turn}

theorem mem_seen {xs : List (Bytes × Bytes)} {ids : List Bytes} :
    (n, id) ∈ xs ++ ids.map (fun i => (name, i)) ↔
      (n, id) ∈ xs ∨ n = name ∧ id ∈ ids := by
  rw [List.mem_append, List.mem_map]
  refine or_congr_right ⟨?_, ?_⟩
  · rintro ⟨i, hi, heq⟩
    cases heq
    exact ⟨rfl, hi⟩
  · rintro ⟨rfl, hi⟩
    exact ⟨id, hi, rfl⟩

/-- One app's entry written, by a step that saw `saw` of it. -/
theorem Entries.set {seen : List (Bytes × Bytes)}
    (h : Entries prev lo hi seen apps) (saw : List Bytes)
    (he : Follows (prev.app name) lo hi
      (fun id => (name, id) ∈ seen ∨ id ∈ saw) e) :
    Entries prev lo hi (seen ++ saw.map fun id => (name, id))
      (apps.set name (some e)) := by
  intro n eo hn
  rw [Table.get_set] at hn
  split at hn
  next heq =>
    subst heq
    cases hn
    refine ⟨e, rfl, he.congr fun id => ?_⟩
    rw [mem_seen]
    simp
  next hne =>
    obtain ⟨e', rfl, hf⟩ := h n eo hn
    refine ⟨e', rfl, hf.congr fun id => ?_⟩
    rw [mem_seen]
    simp [hne]

theorem Running.take (h : Running prev lo hi l)
    (hnew : l.apps.get name = none) (ht : t.Sound (prev.app name) lo hi) :
    Running prev lo hi (t.take (prev.app name) root name l) := by
  obtain ⟨e, saw, happs, hseen, hfollows⟩ := take_follows l ht
  refine ⟨?_, fun n hn id hid => ?_⟩
  · rw [happs, hseen]
    refine h.entries.set _ (hfollows.congr fun id => ?_)
    simp [h.absent name hnew id]
  · rw [happs, Table.get_set] at hn
    rw [hseen, mem_seen] at hid
    obtain ⟨hne, hn⟩ := passedNone hn
    rcases hid with hid | ⟨heq, -⟩
    · exact h.absent n hn id hid
    · exact hne heq

theorem take_get_ne (hne : n ≠ name) :
    (t.take old root name l).apps.get n = l.apps.get n := by
  obtain ⟨e, happs, -, -⟩ := take_get l
  rw [happs, Table.get_set, if_neg hne]

theorem turns_running (hnodup : names.Nodup)
    (hnew : ∀ n ∈ names, l.apps.get n = none) (h : Running prev lo hi l)
    (hturn : ∀ n ∈ names, (turn n).Sound (prev.app n) lo hi) :
    Running prev lo hi (turns prev root turn names l) := by
  induction names generalizing l with
  | nil => exact h
  | cons n names ih =>
    rw [List.nodup_cons] at hnodup
    rw [turns]
    split
    · exact ⟨h.entries, h.absent⟩
    · refine ih hnodup.2 (fun m hm => ?_)
        (h.take (hnew n (.head _)) (hturn n (.head _)))
        fun m hm => hturn m (.tail _ hm)
      have hne : m ≠ n := fun heq => hnodup.1 (heq ▸ hm)
      rw [take_get_ne hne]
      exact hnew m (.tail _ hm)

/-- A loop that was not left has come to every app. -/
theorem turns_reached (hleft : (turns prev root turn names l).left = false)
    (hn : n ∈ names ∨ l.apps.get n ≠ none) :
    (turns prev root turn names l).apps.get n ≠ none := by
  induction names generalizing l with
  | nil =>
    rcases hn with hn | hn
    · cases hn
    · exact hn
  | cons m names ih =>
    rw [turns] at hleft ⊢
    split at hleft
    · cases hleft
    rename_i hint
    rw [if_neg hint]
    refine ih hleft ?_
    by_cases heq : n = m
    · right
      obtain ⟨e, happs, -, -⟩ := take_get l
      rw [happs, Table.get_set, if_pos heq]
      simp
    · rcases hn with hn | hn
      · exact .inl ((List.mem_cons.mp hn).resolve_left heq)
      · right
        rw [take_get_ne heq]
        exact hn

theorem order_perm (prev : Status) (names : List Bytes) :
    (order prev names).Perm names := by
  unfold order
  dsimp only
  have hperm := List.filter_append_perm
    (fun n => (prev.app n).any fun e => e.class_ == .failed) names
  exact List.perm_append_comm.trans hperm

/-- The apps a run that ended early did not come to. -/
theorem unreached_get {eo : Option Entry}
    (h : (unreached left prev apps).get n = some eo) :
    apps.get n = some eo ∨ apps.get n = none ∧
      ∃ o, prev.app n = some o ∧ eo = some (notReached o) := by
  unfold unreached at h
  -- the fold over the entries of the record before, each in it
  have hmem : ∀ p ∈ prev.apps.entries, prev.apps.get p.1 = some p.2 :=
    fun p hp => Table.get_eq_some_iff.mpr hp
  generalize prev.apps.entries = entries at h hmem
  induction entries generalizing apps with
  | nil => exact .inl h
  | cons p entries ih =>
    obtain ⟨m, o⟩ := p
    have hrest : ∀ q ∈ entries, prev.apps.get q.1 = some q.2 := fun q hq =>
      hmem q (.tail _ hq)
    rw [List.foldl_cons] at h
    cases o with
    | none => exact ih h hrest
    | some o =>
      dsimp only at h
      split at h
      next hcond =>
        rw [Bool.and_eq_true, Option.isNone_iff_eq_none] at hcond
        rcases ih h hrest with hset | ⟨hset, hold⟩
        · rw [Table.get_set] at hset
          split at hset
          next heq =>
            subst heq
            right
            refine ⟨hcond.1, o, ?_, (Option.some.inj hset).symm⟩
            rw [Status.app, hmem _ List.mem_cons_self]
            rfl
          · exact .inl hset
        · rw [Table.get_set] at hset
          obtain ⟨-, hset⟩ := passedNone hset
          exact .inr ⟨hset, hold⟩
      · exact ih h hrest

/-- Where every app was reached or has left the plan, there is none. -/
theorem unreached_eq
    (h : ∀ n, left n = false → apps.get n = none → prev.app n = none) :
    unreached left prev apps = apps := by
  unfold unreached
  have hmem : ∀ p ∈ prev.apps.entries, prev.apps.get p.1 = some p.2 :=
    fun p hp => Table.get_eq_some_iff.mpr hp
  generalize prev.apps.entries = entries at hmem
  induction entries with
  | nil => rfl
  | cons p entries ih =>
    obtain ⟨m, o⟩ := p
    have hrest := ih fun q hq => hmem q (.tail _ hq)
    rw [List.foldl_cons]
    cases o with
    | none => exact hrest
    | some o =>
      have hcond : ¬ ((apps.get m).isNone && !left m) = true := by
        intro hcond
        rw [Bool.and_eq_true, Option.isNone_iff_eq_none,
          Bool.not_eq_true'] at hcond
        have hnone := h m hcond.2 hcond.1
        rw [Status.app, hmem _ List.mem_cons_self] at hnone
        cases hnone
      dsimp only
      rw [if_neg hcond]
      exact hrest

-- ====== what a listing says

/-- A listing holds a snapshot under an app's tag. -/
def Holds (snaps : List Listed) (name id : Bytes) : Prop :=
  ∃ l ∈ snaps, l.snapshot.id = id ∧ name ∈ l.apps

theorem heldKey_inj {n' id' : Bytes} (hid : isSnapshotID id = true)
    (hid' : isSnapshotID id' = true) (h : heldKey n id = heldKey n' id') :
    n = n' ∧ id = id' := by
  have hlen : id.length = id'.length := by
    simp only [isSnapshotID, Bool.and_eq_true, beq_iff_eq] at hid hid'
    rw [hid.1, hid'.1]
  obtain ⟨hpre, hsame⟩ := List.append_inj' h hlen
  exact ⟨List.append_cancel_right hpre, hsame⟩

theorem mem_held (name : Bytes)
    (hsnaps : ∀ l ∈ snaps, isSnapshotID l.snapshot.id = true)
    (hid : isSnapshotID id = true) :
    heldKey name id ∈ held snaps ↔ Holds snaps name id := by
  simp only [held, List.mem_flatMap, List.mem_map, Holds]
  constructor
  · rintro ⟨l, hl, n, hn, hkey⟩
    obtain ⟨rfl, rfl⟩ := heldKey_inj (hsnaps l hl) hid hkey
    exact ⟨l, hl, rfl, hn⟩
  · rintro ⟨l, hl, rfl, hn⟩
    exact ⟨l, hl, name, hn, rfl⟩

/-- A record in which the names of every app are judged by `missed`, and
every reading is `t` or before. -/
structure Good (st : Status) (t : Nat) (missed : Bytes → Bytes → Prop) :
    Prop where
  entry : ∀ n eo, st.apps.get n = some eo → ∃ e, eo = some e ∧ e.Ids ∧
    e.Bare ∧ ∀ s ∈ e.named, (st.gone s = true ↔ missed n s.id) ∧
      ∃ k, s.seen = some k ∧ k ≤ t
  listed : ∀ k, st.listed = some k → k ≤ t

variable {τ : Nat} {missed missed' : Bytes → Bytes → Prop}
  {seen : List (Bytes × Bytes)} {st' : Status}

theorem Good.congr (h : Good st τ missed)
    (hsame : ∀ n id, missed n id ↔ missed' n id) : Good st τ missed' where
  entry := fun n eo hn => by
    obtain ⟨e, heo, hids, hbare, hnamed⟩ := h.entry n eo hn
    refine ⟨e, heo, hids, hbare, fun s hs => ?_⟩
    rw [← hsame]
    exact hnamed s hs
  listed := h.listed

theorem Good.sane (h : Good st τ missed) (n : Bytes) : Sane (st.app n) := by
  intro e he
  rw [Status.app, Option.join_eq_some_iff] at he
  obtain ⟨e', heq, hids, hbare, -⟩ := h.entry n _ he
  cases heq
  exact ⟨hids, hbare⟩

theorem Good.named (h : Good st τ missed) (he : st.app n = some e)
    (hs : s ∈ e.named) : (st.gone s = true ↔ missed n s.id) ∧
      ∃ k, s.seen = some k ∧ k ≤ τ := by
  rw [Status.app, Option.join_eq_some_iff] at he
  obtain ⟨e', heq, -, -, hnamed⟩ := h.entry n _ he
  cases heq
  exact hnamed s hs

/-- A command that makes no listing that is believed: what it did not see
is as it was, and what it saw is not gone. -/
theorem Good.follow (h : Good prev τ missed)
    (hentries : Entries prev lo hi seen st.apps)
    (hlisted : st.listed = prev.listed) (hlo : τ < lo) (hhi : τ ≤ hi) :
    Good st hi fun n id => missed n id ∧ (n, id) ∉ seen where
  entry := fun n eo hn => by
    obtain ⟨e, rfl, hf⟩ := hentries n eo hn
    refine ⟨e, rfl, hf.ids, hf.bare, fun s hs => ?_⟩
    rcases hf.named s hs with ⟨hno, o, ho, hmem⟩ | ⟨hsaw, k, hk, hklo, hkhi⟩
    · obtain ⟨hgone, k, hk, hkt⟩ := h.named ho hmem
      have hsame : st.gone s = prev.gone s := by
        rw [Status.gone, Status.gone, hlisted]
      rw [hsame, hgone]
      exact ⟨⟨fun hm => ⟨hm, hno⟩, fun hm => hm.1⟩, k, hk, hkt.trans hhi⟩
    · refine ⟨⟨fun hgone => ?_, fun hm => absurd hsaw hm.2⟩, k, hk, hkhi⟩
      rw [Status.gone, Option.any_eq_true] at hgone
      obtain ⟨at_, hat, hbefore⟩ := hgone
      rw [hk, Option.all_some, decide_eq_true_eq] at hbefore
      have := h.listed at_ (hlisted ▸ hat)
      omega
  listed := fun k hk => (h.listed k (hlisted ▸ hk)).trans hhi

theorem mem_named_mapNamed {f : Snapshot → Snapshot} :
    s ∈ (e.mapNamed f).named ↔ ∃ o ∈ e.named, f o = s := by
  have hnamed : (e.mapNamed f).named = e.named.map f := by
    obtain ⟨⟨_, _, _, snap, _, last⟩, ok, proven, _⟩ := e
    cases snap <;> cases ok <;> cases last <;> cases proven <;> rfl
  rw [hnamed, List.mem_map]

/-- A listing that is believed judges every name by what it held and by
what the run saw. -/
theorem Good.listing {now : Nat} (h : Good prev τ missed)
    (hentries : Entries prev st.started hi seen st.apps)
    (hsnaps : ∀ l ∈ snaps, isSnapshotID l.snapshot.id = true)
    (hlo : τ < st.started) (hnow : st.started ≤ now) (hhi : now ≤ hi) :
    Good { st with
        unlisted := none
        apps := listedApps st snaps now
        listed := some now } hi
      fun n id => ¬ Holds snaps n id ∧ (n, id) ∉ seen where
  entry := fun n eo hn => by
    obtain ⟨eo', hget, rfl⟩ := Option.map_eq_some_iff.mp
      ((Table.get_mapValues _).symm.trans hn)
    obtain ⟨e, rfl, hf⟩ := hentries n eo' hget
    refine ⟨_, rfl, fun s hs => ?_, fun hnone => ?_, fun s hs => ?_⟩
    · obtain ⟨o, ho, rfl⟩ := mem_named_mapNamed.mp hs
      have hid := hf.ids o ho
      unfold listedSnapshot
      dsimp only
      split
      · exact hid
      · exact hid
    · obtain ⟨h₁, h₂⟩ := hf.bare (Option.map_eq_none_iff.mp hnone)
      exact ⟨by simp [Entry.mapNamed, h₁], by simp [Entry.mapNamed, h₂]⟩
    · obtain ⟨o, ho, rfl⟩ := mem_named_mapNamed.mp hs
      have hheld := mem_held n hsnaps (hf.ids o ho)
      -- the run saw it, exactly where this name says so
      have hsaw : (n, o.id) ∈ seen ↔
          o.seen.any (fun k => st.started ≤ k) = true := by
        rcases hf.named o ho with ⟨hno, p, hp, hmem⟩ | ⟨hyes, k, hk, hklo, -⟩
        · obtain ⟨-, k, hk, hkt⟩ := h.named hp hmem
          have hlt : ¬ st.started ≤ k := by omega
          simp [hno, hk, hlt]
        · simp [hyes, hk, hklo]
      unfold listedSnapshot
      dsimp only
      split
      next hcond =>
        refine ⟨⟨fun hgone => ?_, fun hm => ?_⟩, now, rfl, hhi⟩
        · simp [Status.gone] at hgone
        · rw [Bool.or_eq_true, List.contains_iff_mem, hheld, ← hsaw] at hcond
          rcases hcond with hcond | hcond
          · exact absurd hcond hm.1
          · exact absurd hcond hm.2
      next hcond =>
        rw [Bool.or_eq_true, List.contains_iff_mem, hheld, ← hsaw,
          not_or] at hcond
        obtain ⟨k, hk, hkt⟩ : ∃ k, o.seen = some k ∧ k ≤ τ := by
          rcases hf.named o ho with ⟨-, p, hp, hmem⟩ | ⟨hyes, -⟩
          · exact (h.named hp hmem).2
          · exact absurd hyes hcond.2
        refine ⟨⟨fun _ => hcond, fun _ => ?_⟩, k, hk, by omega⟩
        have hlt : k < now := by omega
        simp [Status.gone, hk, hlt]
  listed := fun k hk => by
    cases hk
    exact hhi

-- ====== the commands

/-- A command's clock readings come after `τ`, in order as far as the
record keeps them, and `hi` at the latest. -/
def Command.Within (τ hi : Nat) : Command → Prop
  | run i => τ < i.started ∧ i.started ≤ i.listing.now ∧
      i.listing.now ≤ hi ∧ ∀ p, i.plan = .ok p → ∀ n ∈ p.names,
        (i.turn n).Timed i.started hi
  | restore i => τ < i.started ∧ i.started ≤ hi ∧ i.turn.Timed i.started hi
  | drill i => τ < i.started ∧ i.started ≤ hi ∧
      ∀ p, i.start = .planned p → ∀ n ∈ p.names,
        i.started ≤ (i.turn n).time ∧ (i.turn n).time ≤ hi

/-- Every upload's id is new to its app. -/
def Command.Fresh (prev : Status) : Command → Prop
  | run i => ∀ p, i.plan = .ok p → ∀ n ∈ p.names, (i.turn n).Fresh (prev.app n)
  | restore i => i.turn.Fresh (prev.app i.app)
  | drill _ => True

/-- The repository answers of no app with the snapshot of its proven
restore, where the record has no other. -/
def Command.Apart (prev : Status) : Command → Prop
  | run i => ∀ p, i.plan = .ok p → ∀ n ∈ p.names, (i.turn n).Apart (prev.app n)
  | restore i => i.turn.Apart (prev.app i.app)
  | drill _ => True

/-- What is missed after a command. -/
def Command.misses (prev : Status) (missed : Bytes → Bytes → Prop)
    (c : Command) (n id : Bytes) : Prop :=
  (n, id) ∉ c.seen prev ∧
    match c.trusted prev with
    | some snaps => ¬ Holds snaps n id
    | none => missed n id

theorem Good.of_eq (h : Good st τ missed) (happs : st'.apps = st.apps)
    (hlisted : st'.listed = st.listed) : Good st' τ missed where
  entry := fun n eo hn => by
    obtain ⟨e, heo, hids, hbare, hnamed⟩ := h.entry n eo (happs ▸ hn)
    refine ⟨e, heo, hids, hbare, fun s hs => ?_⟩
    have hsame : st'.gone s = st.gone s := by
      rw [Status.gone, Status.gone, hlisted]
    rw [hsame]
    exact hnamed s hs
  listed := fun k hk => h.listed k (hlisted ▸ hk)

theorem notReached_follows (hids : o.Ids) (hbare : o.Bare) :
    Follows (some o) lo hi (fun _ => False) (notReached o) := by
  refine (Follows.refl hids hbare).subset (fun s hs => ?_) fun hnone =>
    ⟨rfl, (hbare hnone).2⟩
  rcases mem_named.mp hs with h | h | h | h
  · cases h
  · exact mem_named.mpr (.inr (.inl h))
  · exact mem_named.mpr (.inr (.inr (.inl h)))
  · exact mem_named.mpr (.inr (.inr (.inr h)))

/-- The entries of a run that ended early. -/
theorem unreached_entries (h : Good prev τ missed)
    (hentries : Entries prev lo hi seen apps)
    (habsent : ∀ n, apps.get n = none → ∀ id, (n, id) ∉ seen) :
    Entries prev lo hi seen (unreached left prev apps) := by
  intro n eo hn
  rcases unreached_get hn with hn | ⟨hnone, o, ho, rfl⟩
  · exact hentries n eo hn
  · obtain ⟨hids, hbare⟩ := h.sane n o ho
    refine ⟨_, rfl, ho ▸ (notReached_follows hids hbare).congr fun id => ?_⟩
    exact ⟨False.elim, habsent n hnone id⟩

theorem entries_empty : Entries prev lo hi seen Table.empty := by
  intro n eo hn
  cases hn

variable {i : RunInput} {p : Planned}

/-- A run that ended before its loop. -/
theorem Good.unstarted (h : Good prev τ missed) (hlo : τ < i.started)
    (hhi : i.started ≤ hi) (e : Bytes) :
    Good (i.finish prev (opened prev i.started) (some e)) hi missed := by
  have hentries : Entries prev i.started hi []
      (i.finish prev (opened prev i.started) (some e)).apps :=
    unreached_entries h entries_empty fun _ _ _ hid => by cases hid
  exact (h.follow hentries rfl hlo (by omega)).congr fun n id => by simp

theorem running_loop (h : Good prev τ missed) (hplan : i.plan = .ok p)
    (hw : (Command.run i).Within τ hi) (hfresh : (Command.run i).Fresh prev)
    (hapart : (Command.run i).Apart prev) :
    Running prev i.started hi (i.loop prev p) := by
  have hperm := order_perm prev p.names
  refine turns_running (hperm.nodup_iff.mpr p.nodup) (fun n _ => rfl)
    ⟨entries_empty, fun _ _ _ hid => by cases hid⟩ fun n hn => ?_
  have hmem := hperm.mem_iff.mp hn
  exact ⟨h.sane n, hw.2.2.2 p hplan n hmem, hfresh p hplan n hmem,
    hapart p hplan n hmem⟩

/-- A listing that is not made or not believed changes no entry. -/
theorem list_untrusted {ls : RunListing}
    (h : st.nothing = true ∨ ls.interrupted = true ∨
      (snapshots fmt true ls.asked).toOption = none) :
    (list fmt ls st).apps = st.apps ∧ (list fmt ls st).listed = st.listed := by
  unfold list
  split
  · exact ⟨rfl, rfl⟩
  next hsome =>
    split
    · exact ⟨rfl, rfl⟩
    next hint =>
      split
      · exact ⟨rfl, rfl⟩
      next snaps hok =>
        rw [hok] at h
        rcases h with h | h | h
        · exact absurd h hsome
        · exact absurd h hint
        · cases h

theorem list_trusted {ls : RunListing} (hsome : st.nothing = false)
    (hint : ls.interrupted = false)
    (hok : snapshots fmt true ls.asked = .ok snaps) : list fmt ls st =
      { st with
        unlisted := none
        apps := listedApps st snaps ls.now
        listed := some ls.now } := by
  unfold list
  rw [hsome, hint, hok]
  rfl

/-- Ending a run, early or not, keeps what its loop left. -/
theorem finish_entries (i : RunInput) (err : Option Bytes)
    (h : Good prev τ missed) (hentries : Entries prev lo hi seen st.apps)
    (habsent : ∀ n, st.apps.get n = none → ∀ id, (n, id) ∉ seen) :
    Entries prev lo hi seen (i.finish prev st err).apps := by
  cases err with
  | none => exact hentries
  | some e => exact unreached_entries h hentries habsent

theorem finish_listed (err : Option Bytes) :
    (i.finish prev st err).listed = st.listed := by
  cases err with
  | none => rfl
  | some e => rfl

/-- A run that came to its listing has come to every app of the plan. -/
theorem finish_apps {err : Option Bytes} (hbegun : i.begun = none)
    (hplan : i.plan = .ok p) (hleft : (i.loop prev p).left = false)
    (hsame : ∀ n, st.apps.get n = none → (i.loop prev p).apps.get n = none) :
    (i.finish prev st err).apps = st.apps := by
  cases err with
  | none => rfl
  | some e =>
    change unreached (fun n => i.begun.isNone && i.leftPlan n) prev st.apps =
      st.apps
    refine unreached_eq fun n hno hnone => ?_
    have hn : n ∈ p.names := by
      simpa [hbegun, RunInput.leftPlan, hplan] using hno
    have hmem := (order_perm prev p.names).mem_iff.mpr hn
    exact absurd (hsame n hnone) (turns_reached hleft (.inl hmem))

/-- The record a run comes to its end with. -/
abbrev RunInput.listedBy (i : RunInput) (prev : Status) (p : Planned) :
    Status :=
  if i.lists prev p then list i.fmt i.listing (i.reached prev p)
  else i.reached prev p

theorem Good.run (h : Good prev τ missed) (hw : (Command.run i).Within τ hi)
    (hfresh : (Command.run i).Fresh prev)
    (hapart : (Command.run i).Apart prev) :
    Good (i.run prev) hi ((Command.run i).misses prev missed) := by
  obtain ⟨hlo, hnow, hhi, -⟩ := id hw
  cases hbegun : i.begun with
  | some e =>
    have hrun :
        i.run prev = i.finish prev (opened prev i.started) (some e) := by
      simp only [RunInput.run, hbegun]
    rw [hrun]
    refine (h.unstarted hlo (hnow.trans hhi) e).congr fun n id => ?_
    simp [Command.misses, Command.seen, Command.trusted, hbegun]
  | none =>
    cases hplan : i.plan with
    | error e =>
      have hrun : i.run prev =
          i.finish prev (opened prev i.started) (some e) := by
        simp only [RunInput.run, hbegun, RunInput.apps, hplan]
      rw [hrun]
      refine (h.unstarted hlo (hnow.trans hhi) e).congr fun n id => ?_
      simp [Command.misses, Command.seen, Command.trusted, hbegun, hplan]
    | ok p =>
      obtain ⟨err, hrun⟩ : ∃ err, i.run prev =
          i.finish prev (i.listedBy prev p) err := by
        simp only [RunInput.run, hbegun, RunInput.apps, hplan]
        exact ⟨_, rfl⟩
      have hloop := running_loop h hplan hw hfresh hapart
      have hseen : (Command.run i).seen prev = (i.loop prev p).seen := by
        simp only [Command.seen, hbegun, hplan]
      have htrusted : (Command.run i).trusted prev =
          if i.lists prev p && !(i.reached prev p).nothing &&
              !i.listing.interrupted then
            (snapshots i.fmt true i.listing.asked).toOption
          else none := by
        simp only [Command.trusted, hbegun, hplan]
      rw [hrun]
      cases htr : (Command.run i).trusted prev with
      | none =>
        -- no listing, or one that is not believed
        have hst : (i.listedBy prev p).apps = (i.loop prev p).apps ∧
            (i.listedBy prev p).listed = prev.listed := by
          unfold RunInput.listedBy
          split
          next hlists =>
            refine list_untrusted ?_
            rw [htrusted, hlists] at htr
            by_cases hno : (i.reached prev p).nothing = true
            · exact .inl hno
            by_cases hint : i.listing.interrupted = true
            · exact .inr (.inl hint)
            · rw [Bool.not_eq_true] at hno hint
              rw [hno, hint] at htr
              exact .inr (.inr htr)
          next => exact ⟨rfl, rfl⟩
        have hentries := finish_entries i err h
          (hst.1.symm ▸ hloop.entries) (hst.1.symm ▸ hloop.absent)
        refine (h.follow hentries ((finish_listed err).trans hst.2) hlo
          (by omega)).congr fun n id => ?_
        simp only [Command.misses, hseen, htr]
        exact and_comm
      | some snaps =>
        rw [htrusted] at htr
        split at htr
        next hcond =>
          simp only [Bool.and_eq_true, Bool.not_eq_true'] at hcond
          obtain ⟨⟨hlists, hno⟩, hint⟩ := hcond
          have hok := Except.toOption_eq_some.mp htr
          have hgood := Good.listing h
            (show Entries prev (i.reached prev p).started hi
              (i.loop prev p).seen (i.reached prev p).apps from
              hloop.entries) (fun l hl => (snapshots_ok hok l hl).1) hlo
            hnow hhi
          rw [RunInput.listedBy, if_pos hlists, list_trusted hno hint hok]
          have hleft : (i.loop prev p).left = false := by
            simp only [RunInput.lists, Bool.and_eq_true,
              Bool.not_eq_true'] at hlists
            exact hlists.1.1
          refine (hgood.of_eq (finish_apps hbegun hplan hleft
            fun n hn => ?_) (finish_listed err)).congr fun n id => ?_
          · exact Option.map_eq_none_iff.mp
              ((Table.get_mapValues _).symm.trans hn)
          · simp only [Command.misses, hseen, htrusted, hlists, hno, hint, hok]
            exact and_comm
        · cases htr

/-- What an app's backup saw is not its last complete backup before. -/
theorem lastOK_not_seen (hbare : o.Bare) (hfresh : t.Fresh (some o))
    (hok : o.lastOK = some s) : s.id ∉ (t.app (some o) root name).1.saw := by
  have hmade : Made { t.env with
        prev := (some o).bind fun e => e.lastSnapshot
        lastInRepository := lastInRepository t.env.fmt t.asked }
      (t.app (some o) root name).1 := app_made
  cases hmade with
  | nothing hs hl => simp [App.saw, hs, hl]
  | uploaded binds masked out' out hran hid hs hl =>
    have hne := hfresh binds masked out' out hran o rfl s
      (mem_named.mpr (.inr (.inl hok)))
    simpa [App.saw, hs, hl] using hne
  | answered last hprev hasked hs hl =>
    have hnone := (hbare hprev).2
    rw [hok] at hnone
    cases hnone

theorem restore_follows {r : RestoreInput}
    (ht : r.turn.Sound (prev.app r.app) lo hi) :
    Follows (prev.app r.app) lo hi (fun id =>
        id ∈ (r.turn.app (prev.app r.app) r.root r.app).1.saw)
      (r.entry prev) := by
  have h := app_follows r.root r.app ht
  -- the last complete backup is put back to the one before
  have hok : ∀ s, (r.entry prev).lastOK = some s →
      ∃ o, prev.app r.app = some o ∧ o.lastOK = some s := fun s hs =>
    Option.bind_eq_some_iff.mp hs
  have hknown (s) (hs : s ∈ (carryLastOK (prev.app r.app)
      (r.turn.app (prev.app r.app) r.root r.app).1).named) :
      Known (prev.app r.app) lo hi
        (· ∈ (r.turn.app (prev.app r.app) r.root r.app).1.saw) s :=
    (h.named s hs).imp_right fun hsaw => ⟨h.ids s hs, hsaw⟩
  refine Follows.of_named ht.sane (fun hnone => ?_) fun s hs => ?_
  · obtain ⟨hsnap, hlast⟩ := h.bare hnone
    refine ⟨hsnap, ?_⟩
    rw [Option.eq_none_iff_forall_not_mem]
    intro s hs
    obtain ⟨o, ho, hs⟩ := hok s hs
    -- with no snapshot this time, the last complete backup was carried
    rw [carryLastOK_snapshot, ho] at hsnap
    rw [ho, carryLastOK_some hsnap] at hlast
    rw [hs] at hlast
    cases hlast
  · rcases mem_named.mp hs with hs | hs | hs | hs
    · exact hknown s (mem_named.mpr (.inl hs))
    · obtain ⟨o, ho, hs⟩ := hok s hs
      refine .inl ⟨?_, o, ho, mem_named.mpr (.inr (.inl hs))⟩
      rw [ho]
      exact lastOK_not_seen (ht.sane o ho).2 (ho ▸ ht.fresh) hs
    · exact hknown s (mem_named.mpr (.inr (.inr (.inl hs))))
    · exact hknown s (mem_named.mpr (.inr (.inr (.inr hs))))

/-- The record before, to which a command adds nothing. -/
theorem Good.entries (h : Good prev τ missed) :
    Entries prev lo hi [] prev.apps := by
  intro n eo hn
  obtain ⟨e, rfl, hids, hbare, -⟩ := h.entry n eo hn
  have happ : prev.app n = some e := by
    rw [Status.app, hn]
    rfl
  exact ⟨e, rfl, happ ▸ (Follows.refl hids hbare).congr fun id => by simp⟩

theorem Good.restore {r : RestoreInput} (h : Good prev τ missed)
    (hw : (Command.restore r).Within τ hi)
    (hfresh : (Command.restore r).Fresh prev)
    (hapart : (Command.restore r).Apart prev) :
    Good (r.restore prev) hi ((Command.restore r).misses prev missed) := by
  obtain ⟨hlo, hhi, htime⟩ := hw
  have hfollows := restore_follows ⟨h.sane r.app, htime, hfresh, hapart⟩
  have hentries : Entries prev r.started hi
      ((Command.restore r).seen prev) (r.restore prev).apps :=
    h.entries.set _ (hfollows.congr fun id => by simp)
  exact (h.follow hentries rfl hlo (by omega)).congr fun n id => and_comm

-- ====== the drills

variable {apps : Table Bytes (Option Entry)}

/-- The entry a drill begins with, of an app it may be the first to write. -/
theorem drilled_follows (root name : Bytes) (h : Entries prev lo hi seen apps) :
    Follows (prev.app name) lo hi (fun id => (name, id) ∈ seen)
      (drilled root name (apps.get name).join) := by
  cases hget : apps.get name with
  | none =>
    refine ⟨fun s hs => ?_, fun _ => ⟨rfl, rfl⟩, fun s hs => ?_⟩
    · cases hs
    · cases hs
  | some eo =>
    obtain ⟨e, rfl, hf⟩ := h name eo hget
    exact hf

/-- One app of a drill, which changes no name but by what it fetched
whole. -/
theorem drillTake_entries {t : DrillTurn} {l : DrillLoop}
    (h : Entries prev lo hi l.seen l.apps) (hlo : lo ≤ t.time)
    (hhi : t.time ≤ hi) : Entries prev lo hi (t.take fmt root name l).seen
      (t.take fmt root name l).apps := by
  have hbase := drilled_follows root name h
  -- a drill that proved nothing, or one fewer
  have hdrill : ∀ d, Entries prev lo hi l.seen (l.apps.set name (some
      { drilled root name (l.apps.get name).join with
        restoreDrill := d })) := by
    intro d
    have hfollows : Follows (prev.app name) lo hi
        (fun id => (name, id) ∈ l.seen)
        { drilled root name (l.apps.get name).join with restoreDrill := d } :=
      hbase.subset (fun s hs => hs) hbase.bare
    simpa using h.set [] (hfollows.congr fun id => by simp)
  unfold DrillTurn.take
  dsimp only
  split
  · exact hdrill _
  split
  · simpa using hdrill _
  next snaps hsnaps =>
    split
    · split
      · exact hdrill _
      · exact h
    next snap hnew =>
      have hid := newest_ok hsnaps hnew
      refine h.set _ ((hbase.trans (drillApp_follows hbase.ids hbase.bare hid
        hlo hhi)).congr fun id => or_congr_right ?_)
      split
      next hwhole => simp [hwhole]
      next hwhole => simp [hwhole]

theorem drillTurns_entries {turn : Bytes → DrillTurn} {l : DrillLoop}
    (h : Entries prev lo hi l.seen l.apps)
    (htime : ∀ n ∈ names, lo ≤ (turn n).time ∧ (turn n).time ≤ hi) :
    Entries prev lo hi (drillTurns fmt root turn names l).seen
      (drillTurns fmt root turn names l).apps := by
  induction names generalizing l with
  | nil => exact h
  | cons n names ih =>
    rw [drillTurns]
    split
    · exact h
    · obtain ⟨hlo, hhi⟩ := htime n (.head _)
      exact ih (drillTake_entries h hlo hhi) fun m hm =>
        htime m (.tail _ hm)

theorem undrilled_entries (h : Entries prev lo hi seen apps) :
    Entries prev lo hi seen (undrilled p apps) := by
  intro n eo hn
  obtain ⟨eo', hget, rfl⟩ := Option.map_eq_some_iff.mp
    ((Table.get_mapValues _).symm.trans hn)
  obtain ⟨e, rfl, hf⟩ := h n eo' hget
  split
  · exact ⟨e, rfl, hf⟩
  · exact ⟨_, rfl, hf.subset (fun s hs => hs) hf.bare⟩

theorem checked_apps (c : Option (Check × Bytes)) :
    (st.checked c).apps = st.apps ∧ (st.checked c).listed = st.listed := by
  cases c with
  | none => exact ⟨rfl, rfl⟩
  | some c => exact ⟨rfl, rfl⟩

theorem Good.drill {d : DrillInput} (h : Good prev τ missed)
    (hw : (Command.drill d).Within τ hi) :
    Good (d.drill prev) hi ((Command.drill d).misses prev missed) := by
  obtain ⟨hlo, hhi, htime⟩ := hw
  -- a drill makes no listing
  have hstep : ∀ seen, (Command.drill d).seen prev = seen →
      Entries prev d.started hi seen (d.drill prev).apps →
      (d.drill prev).listed = prev.listed →
      Good (d.drill prev) hi ((Command.drill d).misses prev missed) := by
    rintro seen rfl hentries hlisted
    exact (h.follow hentries hlisted hlo (by omega)).congr fun n id => and_comm
  cases hstart : d.start with
  | interrupted =>
    have hsame : d.drill prev = prev := by
      simp only [DrillInput.drill, hstart]
    refine hstep [] (by simp only [Command.seen, hstart]) ?_ ?_
    · rw [hsame]
      exact h.entries
    · rw [hsame]
  | couldNot why upgraded =>
    have hsame : (d.drill prev).apps = prev.apps ∧
        (d.drill prev).listed = prev.listed := by
      simp only [DrillInput.drill, hstart]
      split
      · exact ⟨rfl, rfl⟩
      · exact checked_apps _
    refine hstep [] (by simp only [Command.seen, hstart]) ?_ hsame.2
    rw [hsame.1]
    exact h.entries
  | planned p =>
    have hsame : (d.drill prev).apps = (d.loop prev p).apps ∧
        (d.drill prev).listed = prev.listed := by
      simp only [DrillInput.drill, hstart]
      split
      · exact ⟨trivial, rfl⟩
      · exact ⟨trivial, (checked_apps _).2⟩
    refine hstep (d.loop prev p).seen (by simp only [Command.seen, hstart])
      ?_ hsame.2
    rw [hsame.1]
    exact drillTurns_entries (undrilled_entries h.entries) (htime p hstart)

end Hotserve.Backup
