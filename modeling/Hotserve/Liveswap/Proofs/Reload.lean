/-
After every config change, each app runs under the serving config's
definition.

# Shape of the argument

A config change is, for one name, a change of its cell (`each_apply`). So
what is shown is what becomes of one cell: under a rejected candidate a
cell the serving config holds is as it was, its definition given back
(`Holds.rejected`); under an accepted one it holds the new definition, and
the old config's cleanup finds another owner and only lets go
(`Holds.accepted`); and a cell nobody holds has its app destructed
(`Tidy.delete`).

That the rollback cannot take a definition of its own to be the
candidate's rests on the configs' numbers: the one installed last is never
one to come (`Holds.owner`).
-/
import Hotserve.Liveswap.Reload

namespace Hotserve.Liveswap.Reload

variable {K : Kinds}

-- ====== the loops

/-- A loop over distinct names visits each cell of theirs once. -/
theorem each_apply [DecidableEq K.Name] {names : List K.Name}
    (hnodup : names.Nodup)
    (f : K.Name → Cell K →
      Cell K)
    (cells : K.Name → Cell K) (n : K.Name) :
    World.each names f cells n =
      if n ∈ names then f n (cells n) else cells n := by
  induction names generalizing cells with
  | nil => simp [World.each]
  | cons name names ih =>
    obtain ⟨hname, hrest⟩ := List.nodup_cons.mp hnodup
    change World.each names f (Function.update cells name _) n = _
    rw [ih hrest]
    by_cases hn : n = name
    · subst hn
      rw [if_neg hname, Function.update_self, if_pos List.mem_cons_self]
    · rw [Function.update_of_ne hn]
      simp [List.mem_cons, hn]

-- ====== one cell

/-- The apps of a name are destructed once each, except the one in its
slot. -/
structure Tidy (c : Cell K) : Prop where
  nodup : (c.destructed.map Destruction.gen).Nodup
  gone : ∀ g, g ∈ c.destructed.map Destruction.gen ↔
    g < c.made ∧ c.slot.map Slot.gen ≠ some g
  placed : ∀ slot, c.slot = some slot → slot.gen < c.made

variable {c : Cell K}

theorem tidy_fresh : Tidy (Cell.fresh : Cell K) where
  nodup := List.nodup_nil
  gone := by simp [Cell.fresh]
  placed := by simp [Cell.fresh]

/-- References do not matter, only the app. -/
theorem Tidy.refs (h : Tidy c) {slot : Slot} (hslot : c.slot = some slot)
    (refs : Nat) : Tidy { c with slot := some ⟨refs, slot.gen⟩ } where
  nodup := h.nodup
  gone := by
    intro g
    rw [h.gone g, hslot]
    rfl
  placed := by
    intro slot' hslot'
    cases hslot'
    exact h.placed slot hslot

theorem Tidy.loadOrStore (h : Tidy c) : Tidy c.loadOrStore.2 := by
  unfold Cell.loadOrStore
  cases hslot : c.slot with
  | some slot => exact h.refs hslot _
  | none =>
    refine ⟨h.nodup, ?_, ?_⟩
    · intro g
      rw [h.gone g, hslot]
      simp only [Option.map_none, Option.map_some, ne_eq, Option.some_inj]
      constructor
      · rintro ⟨hg, -⟩
        exact ⟨Nat.lt_succ_of_lt hg, by omega⟩
      · rintro ⟨hg, hne⟩
        exact ⟨by omega, by simp⟩
    · intro slot' hslot'
      cases hslot'
      exact Nat.lt_succ_self c.made

theorem Tidy.modify (h : Tidy c) (gen : Nat) (f : Managed K →
      Managed K) : Tidy (c.modify gen f) :=
  ⟨h.nodup, h.gone, h.placed⟩

theorem Tidy.delete (h : Tidy c) (live : Bool) : Tidy (c.delete live) := by
  unfold Cell.delete
  cases hslot : c.slot with
  | none => exact h
  | some slot =>
    change Tidy (if _ then _ else _)
    split
    · have hgone := h.gone
      rw [hslot] at hgone
      refine ⟨?_, ?_, ?_⟩
      · rw [List.map_cons, List.nodup_cons]
        refine ⟨fun hmem => ?_, h.nodup⟩
        exact ((hgone slot.gen).mp hmem).2 rfl
      · intro g
        rw [List.map_cons, List.mem_cons, hgone g]
        simp only [Option.map_some, Option.map_none, ne_eq,
          Option.some_inj, reduceCtorEq, not_false_eq_true, and_true]
        constructor
        · rintro (rfl | ⟨hg, -⟩)
          · exact h.placed slot hslot
          · exact hg
        · intro hg
          by_cases heq : g = slot.gen
          · exact .inl heq
          · exact .inr ⟨hg, fun hc => heq hc.symm⟩
      · intro slot' hslot'
        cases hslot'
    · exact h.refs hslot _

/-- A cell the serving config holds, with the definition installed; no
config yet to be loaded installed it. -/
structure Holds (loaded gen : Nat) (d : Definition K) (c : Cell K) : Prop where
  slot : c.slot = some ⟨1, gen⟩
  installed : (c.apps gen).current = some d
  runner : (c.apps gen).runner = some d.logger
  owner : ∀ o, (c.apps gen).configuredBy = some o → o < loaded

variable {loaded gen : Nat} {d d' : Definition K}

/-- A held cell gets a second reference, to the same app. -/
theorem Holds.load (h : Holds loaded gen d c) :
    c.loadOrStore = (gen, { c with slot := some ⟨2, gen⟩ }) := by
  rw [Cell.loadOrStore, h.slot]

/-- A free one gets a new app. -/
theorem load_free (hfree : c.slot = none) : c.loadOrStore = (c.made, { c with
      slot := some ⟨1, c.made⟩
      apps := Function.update c.apps c.made .fresh
      made := c.made + 1 }) := by
  rw [Cell.loadOrStore, hfree]

theorem delete_two {slot : Slot} (hslot : c.slot = some slot)
    (hrefs : slot.refs = 2) (live : Bool) :
    c.delete live = { c with slot := some ⟨1, slot.gen⟩ } := by
  rw [Cell.delete, hslot]
  change (if slot.refs ≤ 1 then _ else _) = _
  rw [hrefs, if_neg (by decide)]

theorem delete_one {slot : Slot} (hslot : c.slot = some slot)
    (hrefs : slot.refs = 1) (live : Bool) : (c.delete live).slot = none := by
  rw [Cell.delete, hslot]
  change Cell.slot (if slot.refs ≤ 1 then _ else _) = _
  rw [hrefs, if_pos (Nat.le_refl 1)]

/-- The rollback of one cell. -/
def rolledBack (c : Cell K) (gen number : Nat) : Cell K :=
  if 1 < c.refs then c.modify gen fun m => m.rollbackConfig number else c

theorem rolledBack_slot (number : Nat) :
    (rolledBack c gen number).slot = c.slot := by
  unfold rolledBack
  split
  · rfl
  · rfl

theorem rolledBack_two (hslot : c.slot = some ⟨2, gen⟩) (number : Nat) :
    rolledBack c gen number =
      c.modify gen fun m => m.rollbackConfig number := by
  rw [rolledBack, Cell.refs, hslot]
  exact if_pos (Nat.lt_succ_self 1)

-- ------ a candidate

/-- Rejected before its start: a held cell is as it was. -/
theorem Holds.rejected_before (h : Holds loaded gen d c) (live : Bool) :
    Holds (loaded + 1) gen d (c.loadOrStore.2.delete live) := by
  rw [h.load, delete_two rfl rfl]
  exact ⟨rfl, h.installed, h.runner, fun o ho =>
    Nat.lt_succ_of_lt (h.owner o ho)⟩

theorem free_rejected_before (hfree : c.slot = none) (live : Bool) :
    (c.loadOrStore.2.delete live).slot = none := by
  rw [load_free hfree]
  exact delete_one rfl rfl live

/-- The cell a started candidate leaves: its definition installed on the
app it was given. -/
def startedCell (c : Cell K) (number : Nat) (d : Definition K) : Cell K :=
  c.loadOrStore.2.modify c.loadOrStore.1 fun m => m.installSpec number d

/-- A held cell with a candidate's definition over its own. -/
theorem Holds.started (h : Holds loaded gen d c) (number : Nat) :
    startedCell c number d' = { c with
      slot := some ⟨2, gen⟩
      apps := Function.update c.apps gen
        ⟨some d', some d'.logger, some number, some d⟩ } := by
  rw [startedCell, h.load]
  change Cell.modify _ gen _ = _
  rw [Cell.modify]
  congr 1
  rw [Managed.installSpec, h.installed]
  rfl

/-- Rejected after its start: the definition is given back. -/
theorem Holds.rejected_after (h : Holds loaded gen d c) (number : Nat)
    (live : Bool) : Holds (loaded + 1) gen d
      ((rolledBack (startedCell c number d') gen number).delete live) := by
  rw [h.started, rolledBack_two rfl, delete_two rfl rfl]
  constructor <;> simp [Cell.modify, Managed.rollbackConfig]

theorem free_rejected_after (hfree : c.slot = none) (number : Nat)
    (live : Bool) :
    ((rolledBack (startedCell c number d') c.loadOrStore.1 number).delete
      live).slot = none := by
  have hslot : (rolledBack (startedCell c number d') c.loadOrStore.1
      number).slot = some ⟨1, c.made⟩ := by
    rw [rolledBack_slot, startedCell, load_free hfree]
    rfl
  exact delete_one hslot rfl live

/-- Accepted over a config that holds the cell: the old one's cleanup
finds the new owner and lets go of its reference. -/
theorem Holds.accepted (h : Holds loaded gen d c) {old : Nat}
    (hold : old < loaded) (live : Bool) : Holds (loaded + 1) gen d'
      ((rolledBack (startedCell c loaded d') gen old).delete live) := by
  have hne : ¬ loaded = old := by omega
  rw [h.started, rolledBack_two rfl, delete_two rfl rfl]
  constructor <;> simp [Cell.modify, Managed.rollbackConfig, hne]

/-- Accepted over a free cell. -/
theorem free_accepted (hfree : c.slot = none) :
    Holds (loaded + 1) c.loadOrStore.1 d' (startedCell c loaded d') := by
  rw [startedCell, load_free hfree]
  constructor <;> simp [Cell.modify, Managed.installSpec]

/-- A cell the accepted config does not name. -/
theorem Holds.dropped (h : Holds loaded gen d c) (old : Nat) (live : Bool) :
    ((rolledBack c gen old).delete live).slot = none := by
  have hslot : (rolledBack c gen old).slot = some ⟨1, gen⟩ := by
    rw [rolledBack_slot, h.slot]
  exact delete_one hslot rfl live

-- ====== a change

variable {w : World K}

/-- The process between two changes. -/
structure Settled (w : World K) : Prop where
  tidy : ∀ n, Tidy (w.cells n)
  free : ∀ n, (∀ cfg, w.serving = some cfg → n ∉ cfg.cand.names) →
    (w.cells n).slot = none
  held : ∀ cfg, w.serving = some cfg → ∀ n ∈ cfg.cand.names,
    Holds w.loaded (cfg.managed n) (cfg.cand.definition n) (w.cells n)
  serves : ∀ cfg, w.serving = some cfg →
    cfg.started = true ∧ cfg.number < w.loaded

/-- A cell is held by the serving config, or free. -/
theorem Settled.cases (h : Settled w) (n : K.Name) :
    (∃ cfg, w.serving = some cfg ∧ n ∈ cfg.cand.names ∧
      Holds w.loaded (cfg.managed n) (cfg.cand.definition n) (w.cells n)) ∨
    ((∀ cfg, w.serving = some cfg → n ∉ cfg.cand.names) ∧
      (w.cells n).slot = none) := by
  cases hs : w.serving with
  | none =>
    refine .inr ⟨fun cfg hcfg => ?_, h.free n fun cfg hcfg => ?_⟩
    · cases hcfg
    · rw [hs] at hcfg
      cases hcfg
  | some cfg =>
    by_cases hn : n ∈ cfg.cand.names
    · exact .inl ⟨cfg, rfl, hn, h.held cfg hs n hn⟩
    · have hnot : ∀ cfg', some cfg = some cfg' → n ∉ cfg'.cand.names := by
        intro cfg' hcfg'
        rw [← Option.some.inj hcfg']
        exact hn
      exact .inr ⟨hnot, h.free n (hs ▸ hnot)⟩

/-- A change that leaves the serving config in place. -/
theorem Settled.same (h : Settled w) {w' : World K}
    (hserving : w'.serving = w.serving) (hloaded : w'.loaded = w.loaded + 1)
    (htidy : ∀ n, Tidy (w'.cells n))
    (hfree : ∀ n, (w.cells n).slot = none → (w'.cells n).slot = none)
    (hheld : ∀ n gen d, Holds w.loaded gen d (w.cells n) →
      Holds (w.loaded + 1) gen d (w'.cells n)) : Settled w' where
  tidy := htidy
  free := by
    rw [hserving]
    exact fun n hn => hfree n (h.free n hn)
  held := by
    rw [hserving, hloaded]
    exact fun cfg hcfg n hn => hheld n _ _ (h.held cfg hcfg n hn)
  serves := by
    rw [hserving, hloaded]
    exact fun cfg hcfg => ⟨(h.serves cfg hcfg).1,
      Nat.lt_succ_of_lt (h.serves cfg hcfg).2⟩

theorem Holds.mono (h : Holds loaded gen d c) : Holds (loaded + 1) gen d c :=
  { h with owner := fun o ho => Nat.lt_succ_of_lt (h.owner o ho) }

theorem settled_fresh : Settled (World.fresh : World K) where
  tidy := fun _ => tidy_fresh
  free := fun _ _ => rfl
  held := by
    intro cfg hcfg
    cases hcfg
  serves := by
    intro cfg hcfg
    cases hcfg

variable [DecidableEq K.Name] (w : World K)
  (cfg : Config K)
  (cand : Candidate K)

/-- The cleanup, cell by cell: the rollback is of a config that was
started. -/
theorem cleanup_cells : ∃ live, ∀ n, (w.cleanup cfg).cells n =
    if n ∈ cfg.cand.names then
      (if cfg.started then rolledBack (w.cells n) (cfg.managed n) cfg.number
        else w.cells n).delete live
    else w.cells n := by
  have hrollback (n : K.Name) : (w.rollback cfg).cells n =
      if n ∈ cfg.cand.names ∧ cfg.started then
        rolledBack (w.cells n) (cfg.managed n) cfg.number
      else w.cells n := by
    cases hs : cfg.started with
    | false => simp [World.rollback, hs]
    | true =>
      simp only [World.rollback, hs, if_true, and_true]
      exact each_apply cfg.cand.nodup _ _ n
  have hcells : (w.cleanup cfg).cells = World.each cfg.cand.names
      (fun _ c => c.delete ((w.rollback cfg).live != 0))
      (w.rollback cfg).cells := rfl
  refine ⟨(w.rollback cfg).live != 0, fun n => ?_⟩
  rw [hcells, each_apply cfg.cand.nodup, hrollback]
  by_cases hn : n ∈ cfg.cand.names
  · simp [hn]
  · simp [hn]

theorem cleanup_serving : (w.cleanup cfg).serving = w.serving ∧
    (w.cleanup cfg).loaded = w.loaded := by
  have hrollback : (w.rollback cfg).serving = w.serving ∧
      (w.rollback cfg).loaded = w.loaded := by
    unfold World.rollback
    split
    · exact ⟨rfl, rfl⟩
    · exact ⟨rfl, rfl⟩
  exact hrollback

theorem provision_cells (n : K.Name) : (w.provision cand).2.cells n =
    if n ∈ cand.names then (w.cells n).loadOrStore.2 else w.cells n := by
  have hcells : (w.provision cand).2.cells =
      World.each cand.names (fun _ c => c.loadOrStore.2) w.cells := rfl
  rw [hcells, each_apply cand.nodup]

/-- A candidate provisioned and started. -/
abbrev started : Config K × World K :=
  (w.provision cand).2.start (w.provision cand).1

theorem started_cells (n : K.Name) :
    (started w cand).2.cells n = if n ∈ cand.names then
      startedCell (w.cells n) w.loaded (cand.definition n)
    else w.cells n := by
  have hcells : (started w cand).2.cells = World.each cand.names
      (fun name c => c.modify ((w.cells name).loadOrStore.1) fun m =>
        m.installSpec w.loaded (cand.definition name))
      (w.provision cand).2.cells := rfl
  rw [hcells, each_apply cand.nodup, provision_cells]
  split
  · rfl
  · rfl

omit [DecidableEq K.Name] in
theorem tidy_startedCell (h : Tidy c) (number : Nat) :
    Tidy (startedCell c number d') := h.loadOrStore.modify _ _

omit [DecidableEq K.Name] in
theorem tidy_rolledBack (h : Tidy c) (number : Nat) :
    Tidy (rolledBack c gen number) := by
  unfold rolledBack
  split
  · exact h.modify _ _
  · exact h

variable {w}

/-- A candidate that is rejected, from what becomes of a cell it names. -/
theorem Settled.rejected (h : Settled w)
    {w' : World K}
    {f : K.Name → Cell K}
    (hserving : w'.serving = w.serving) (hloaded : w'.loaded = w.loaded + 1)
    (hcells : ∀ n, w'.cells n = if n ∈ cand.names then f n else w.cells n)
    (htidy : ∀ n, Tidy (f n))
    (hfree : ∀ n, (w.cells n).slot = none → (f n).slot = none)
    (hheld : ∀ n gen d, Holds w.loaded gen d (w.cells n) →
      Holds (w.loaded + 1) gen d (f n)) : Settled w' := by
  refine h.same hserving hloaded (fun n => ?_) (fun n hn => ?_)
    fun n gen d hn => ?_
  · rw [hcells]
    split
    · exact htidy n
    · exact h.tidy n
  · rw [hcells]
    split
    · exact hfree n hn
    · exact hn
  · rw [hcells]
    split
    · exact hheld n gen d hn
    · exact hn.mono

theorem Settled.rejected_before (h : Settled w) :
    Settled ((w.provision cand).2.cleanup (w.provision cand).1) := by
  obtain ⟨live, hcleanup⟩ :=
    cleanup_cells (w.provision cand).2 (w.provision cand).1
  obtain ⟨hserving, hloaded⟩ :=
    cleanup_serving (w.provision cand).2 (w.provision cand).1
  refine h.rejected cand hserving hloaded (fun n => ?_)
    (fun n => (h.tidy n).loadOrStore.delete live)
    (fun n hn => free_rejected_before hn live)
    fun n gen d hn => hn.rejected_before live
  rw [hcleanup, provision_cells]
  change (if n ∈ cand.names then _ else _) = _
  split
  · rfl
  · rfl

theorem Settled.rejected_after (h : Settled w) : Settled
      ((started w cand).2.cleanup (started w cand).1) := by
  obtain ⟨live, hcleanup⟩ := cleanup_cells (started w cand).2
    (started w cand).1
  obtain ⟨hserving, hloaded⟩ := cleanup_serving (started w cand).2
    (started w cand).1
  refine h.rejected cand hserving hloaded (f := fun n =>
    (rolledBack (startedCell (w.cells n) w.loaded (cand.definition n))
      (w.cells n).loadOrStore.1 w.loaded).delete live) (fun n => ?_)
    (fun n => (tidy_rolledBack (tidy_startedCell (h.tidy n) _) _).delete _)
    (fun n hn => free_rejected_after hn _ _) fun n gen d hn => ?_
  · rw [hcleanup, started_cells]
    change (if n ∈ cand.names then _ else _) = _
    split
    · rfl
    · rfl
  · have hgen : (w.cells n).loadOrStore.1 = gen := by rw [hn.load]
    rw [hgen]
    exact hn.rejected_after _ _

variable (w)

/-- A cell after an accepted change: the old config cleaned up, where it
named it. -/
theorem accepted_cells (h : Settled w) (n : K.Name) :
    let cell := (w.change ⟨cand, .accepted⟩).cells n
    let c := if n ∈ cand.names then
        startedCell (w.cells n) w.loaded (cand.definition n)
      else w.cells n
    (∃ old live, w.serving = some old ∧ n ∈ old.cand.names ∧
      cell = (rolledBack c (old.managed n) old.number).delete live) ∨
    ((w.cells n).slot = none ∧ cell = c) := by
  intro cell c
  have hstarted : (started w cand).2.cells n = c :=
    started_cells w cand n
  have hcell : cell = (w.change ⟨cand, .accepted⟩).cells n := rfl
  unfold World.change at hcell
  cases hs : w.serving with
  | none =>
    rw [hs] at hcell
    refine .inr ⟨h.free n fun cfg hcfg => ?_, hcell.trans hstarted⟩
    rw [hs] at hcfg
    cases hcfg
  | some old =>
    rw [hs] at hcell
    obtain ⟨live, hcleanup⟩ := cleanup_cells { (started w cand).2 with
        serving := some (started w cand).1 } old
    replace hcell := hcell.trans (hcleanup n)
    rw [(h.serves old hs).1] at hcell
    dsimp only at hcell
    rw [hstarted] at hcell
    by_cases hold : n ∈ old.cand.names
    · rw [if_pos hold] at hcell
      exact .inl ⟨old, live, rfl, hold, hcell⟩
    · rw [if_neg hold] at hcell
      refine .inr ⟨h.free n fun cfg hcfg => ?_, hcell⟩
      rw [← Option.some.inj (hs.symm.trans hcfg)]
      exact hold

/-- What the accepted config is, once it serves. -/
theorem accepted_serving :
    (w.change ⟨cand, .accepted⟩).serving = some ⟨w.loaded, cand,
        fun n => (w.cells n).loadOrStore.1, true⟩ ∧
      (w.change ⟨cand, .accepted⟩).loaded = w.loaded + 1 := by
  unfold World.change
  cases w.serving with
  | none => exact ⟨rfl, rfl⟩
  | some old => exact cleanup_serving _ old

variable {w}

theorem Settled.accepted (h : Settled w) :
    Settled (w.change ⟨cand, .accepted⟩) := by
  have hcells := accepted_cells w cand h
  obtain ⟨hserving, hloaded⟩ := accepted_serving w cand
  -- a cell of a name the config has, and one of a name it has not
  have hnamed (n : K.Name) (hn : n ∈ cand.names) :
      Holds (w.loaded + 1) (w.cells n).loadOrStore.1 (cand.definition n)
        ((w.change ⟨cand, .accepted⟩).cells n) := by
    obtain ⟨old, live, hs, hold, hcell⟩ | ⟨hfree, hcell⟩ := hcells n
    · have hholds := h.held old hs n hold
      have hgen : (w.cells n).loadOrStore.1 = old.managed n := by
        rw [hholds.load]
      rw [hcell, if_pos hn, hgen]
      exact hholds.accepted (h.serves old hs).2 live
    · rw [hcell, if_pos hn]
      exact free_accepted hfree
  have hother (n : K.Name) (hn : n ∉ cand.names) :
      ((w.change ⟨cand, .accepted⟩).cells n).slot = none := by
    obtain ⟨old, live, hs, hold, hcell⟩ | ⟨hfree, hcell⟩ := hcells n
    · rw [hcell, if_neg hn]
      exact (h.held old hs n hold).dropped _ _
    · rw [hcell, if_neg hn]
      exact hfree
  have htidy (n : K.Name) :
      Tidy ((w.change ⟨cand, .accepted⟩).cells n) := by
    have hstart : Tidy (if n ∈ cand.names then
        startedCell (w.cells n) w.loaded (cand.definition n)
          else w.cells n) := by
      split
      · exact tidy_startedCell (h.tidy n) _
      · exact h.tidy n
    obtain ⟨old, live, -, -, hcell⟩ | ⟨-, hcell⟩ := hcells n
    · rw [hcell]
      exact (tidy_rolledBack hstart _).delete _
    · rw [hcell]
      exact hstart
  refine ⟨htidy, ?_, ?_, ?_⟩
  · intro n hn
    exact hother n (hn _ hserving)
  · intro cfg hcfg n hn
    rw [hserving] at hcfg
    cases hcfg
    rw [hloaded]
    exact hnamed n hn
  · intro cfg hcfg
    rw [hserving] at hcfg
    cases hcfg
    rw [hloaded]
    exact ⟨rfl, Nat.lt_succ_self _⟩

-- ====== the runs

theorem Settled.change (h : Settled w) (ch : Change K) :
    Settled (w.change ch) := by
  obtain ⟨cand, outcome⟩ := ch
  cases outcome with
  | accepted => exact h.accepted cand
  | rejectedBeforeStart => exact h.rejected_before cand
  | rejectedAfterStart => exact h.rejected_after cand

/-- The config the changes leave serving. -/
def lastAccepted : List (Change K) →
    Option (Candidate K)
  | [] => none
  | ch :: changes =>
    (lastAccepted changes).or
      (if ch.outcome = .accepted then some ch.cand else none)

theorem change_serving
    (ch : Change K) :
    (w.change ch).serving.map Config.cand =
      (if ch.outcome = .accepted then some ch.cand else none).or
        (w.serving.map Config.cand) := by
  obtain ⟨cand, outcome⟩ := ch
  cases outcome with
  | accepted => rw [(accepted_serving w cand).1]; rfl
  | rejectedBeforeStart =>
    exact congrArg (Option.map Config.cand)
      (cleanup_serving (w.provision cand).2 (w.provision cand).1).1
  | rejectedAfterStart =>
    exact congrArg (Option.map Config.cand)
      (cleanup_serving (started w cand).2 (started w cand).1).1

theorem run_settled (changes : List (Change K)) (h : Settled w) :
    Settled (changes.foldl World.change w) ∧
      (changes.foldl World.change w).serving.map Config.cand =
        (lastAccepted changes).or (w.serving.map Config.cand) := by
  induction changes generalizing w with
  | nil => exact ⟨h, rfl⟩
  | cons ch changes ih =>
    obtain ⟨hsettled, hserving⟩ := ih (h.change ch)
    refine ⟨hsettled, hserving.trans ?_⟩
    rw [change_serving, lastAccepted, Option.or_assoc]

/-- After every sequence of accepted and rejected candidates: the serving
config is the last one accepted; on each app it names, exactly its spec,
verifiers, logger and state path are installed; and of all the apps there
have been, those not destructed are the ones it was given, each other one
destructed once. -/
theorem serving_definition_installed
    (changes : List (Change K)) :
    let w := World.run changes
    w.serving.map Config.cand = lastAccepted changes ∧
      (∀ cfg, w.serving = some cfg → ∀ n ∈ cfg.cand.names,
        ((w.cells n).apps (cfg.managed n)).current =
            some (cfg.cand.definition n) ∧
          ((w.cells n).apps (cfg.managed n)).runner =
            some (cfg.cand.logger n)) ∧
      ∀ n, ((w.cells n).destructed.map Destruction.gen).Nodup ∧
        ∀ g < (w.cells n).made,
          g ∈ (w.cells n).destructed.map Destruction.gen ↔
            ¬ ∃ cfg, w.serving = some cfg ∧ n ∈ cfg.cand.names ∧
              cfg.managed n = g := by
  intro w
  obtain ⟨hsettled, hserving⟩ := run_settled changes (settled_fresh)
  have h : Settled w := hsettled
  refine ⟨hserving.trans Option.or_none, ?_, ?_⟩
  · intro cfg hcfg n hn
    have hholds := h.held cfg hcfg n hn
    exact ⟨hholds.installed, hholds.runner⟩
  · intro n
    refine ⟨(h.tidy n).nodup, fun g hg => ?_⟩
    rw [(h.tidy n).gone g]
    obtain ⟨cfg, hs, hn, hholds⟩ | ⟨hnot, hfree⟩ := h.cases n
    · rw [hholds.slot]
      constructor
      · rintro ⟨-, hne⟩ ⟨cfg', hs', -, hg'⟩
        rw [hs] at hs'
        cases hs'
        exact hne (congrArg some hg')
      · intro hno
        refine ⟨hg, fun hgen => hno ⟨cfg, hs, hn, ?_⟩⟩
        exact Option.some.inj hgen
    · rw [hfree]
      constructor
      · rintro - ⟨cfg, hs, hn, -⟩
        exact hnot cfg hs hn
      · intro _
        exact ⟨hg, by simp⟩

/-- After any changes the pool has one reference for each name the serving
config has, to the app it manages, and none for another: no config replaced
or rejected leaves one behind. -/
theorem references_exact
    (changes : List (Change K)) (n : K.Name) :
    let w := World.run changes
    (∀ cfg, w.serving = some cfg → n ∈ cfg.cand.names →
        (w.cells n).slot = some ⟨1, cfg.managed n⟩) ∧
      ((∀ cfg, w.serving = some cfg → n ∉ cfg.cand.names) →
        (w.cells n).slot = none) := by
  intro w
  have h : Settled w := (run_settled changes (settled_fresh)).1
  exact ⟨fun cfg hcfg hn => (h.held cfg hcfg n hn).slot, h.free n⟩

end Hotserve.Liveswap.Reload
