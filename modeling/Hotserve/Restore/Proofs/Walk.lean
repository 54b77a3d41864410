/-
What an open finds in a directory tree, and what the walk over the
snapshot lists: every entry under a declared path that no excluded place
is on the way to, each as the snapshot has it, and nothing else.
-/
import Hotserve.Restore.Check
import Mathlib.Data.List.Induction

namespace Hotserve.Restore

open Bytes Fs
open Backup (OpenErr lookAt)

/-- Of a list and one more. -/
theorem forall_mem_concat {α : Type} {p : α → Prop} {l : List α} {a : α}
    (hl : ∀ b ∈ l, p b) (ha : p a) : ∀ b ∈ l ++ [a], p b :=
  List.forall_mem_append.mpr ⟨hl, List.forall_mem_singleton.mpr ha⟩

-- ====== opening

/-- A directory stands there. -/
def IsDir (t : Tree) (rel : Rel) : Prop :=
  ∃ st, t.stat rel = some st ∧ st.kind = .dir

variable {t : Tree} {rel : Rel} {st : Stat} {dirOnly : Bool}

theorem IsDir.kind (h : IsDir t rel) (hst : t.stat rel = some st) :
    st.kind = .dir := by
  obtain ⟨d, hd, hkind⟩ := h
  rw [hst] at hd
  cases hd
  exact hkind

theorem dropLast_concat_getLast (h : rel ≠ []) :
    ∃ dir name, rel = dir ++ [name] ∧ rel.dropLast = dir :=
  ⟨rel.dropLast, rel.getLast h, (List.dropLast_append_getLast h).symm, rfl⟩

/-- What is there is in a directory. -/
theorem Rooted.up (ht : Rooted t) (hst : t.stat rel = some st) :
    IsDir t rel.dropLast := by
  by_cases hne : rel = []
  · subst hne
    exact ht.root
  · obtain ⟨dir, name, rfl, hlast⟩ := dropLast_concat_getLast hne
    rw [hlast]
    exact ht.parent dir name st hst

/-- Everything on the way to what is there is a directory. -/
theorem Rooted.isDir_of_pre (ht : Rooted t) :
    ∀ {rest dir : Rel} {st : Stat}, t.stat (dir ++ rest) = some st →
      rest ≠ [] → IsDir t dir := by
  intro rest
  induction rest using List.reverseRecOn with
  | nil => exact fun _ h => absurd rfl h
  | append_singleton rest name ih =>
    intro dir st hst _
    rw [← List.append_assoc] at hst
    obtain ⟨d, hd, hkind⟩ := ht.parent _ _ _ hst
    by_cases hrest : rest = []
    · rw [hrest, List.append_nil] at hd
      exact ⟨d, hd, hkind⟩
    · exact ih hd hrest

/-- A descent through directories is the look at its end. -/
theorem descend_eq : ∀ {rest cur : Rel}, rest ≠ [] →
    (∀ pre suf, pre ≠ [] → suf ≠ [] → rest = pre ++ suf →
      IsDir t (cur ++ pre)) →
    descend t dirOnly cur rest = lookAt (t.stat (cur ++ rest)) true dirOnly
  | [], _, hne, _ => absurd rfl hne
  | [part], cur, _, _ => by
    rw [descend, List.isEmpty_nil]
    cases lookAt (t.stat (cur ++ [part])) true dirOnly with
    | error e => rfl
    | ok _ => rfl
  | part :: next :: rest, cur, _, hdirs => by
    obtain ⟨st, hst, hkind⟩ := hdirs [part] (next :: rest) (by simp) (by simp)
      rfl
    have hlook : lookAt (t.stat (cur ++ [part])) false dirOnly = .ok () := by
      rw [hst]
      simp [lookAt, hkind]
    rw [descend, List.isEmpty_cons, hlook]
    change descend t dirOnly (cur ++ [part]) (next :: rest) = _
    rw [descend_eq (by simp)]
    · simp
    · intro pre suf hpre hsuf heq
      have := hdirs (part :: pre) suf (by simp) hsuf (by rw [heq]; rfl)
      simpa using this

/-- An open beneath a directory that is there is the look at its end. -/
theorem openAt_of_parent (ht : Rooted t)
    (hdir : rel ≠ [] → IsDir t rel.dropLast) :
    openAt t rel dirOnly = lookAt (t.stat rel) true dirOnly := by
  cases rel with
  | nil => rfl
  | cons c rel =>
    have hne : c :: rel ≠ [] := by simp
    change descend t dirOnly [] (c :: rel) = _
    rw [descend_eq hne]
    · rfl
    · intro pre suf hpre hsuf heq
      rw [List.nil_append]
      obtain ⟨st, hst, hkind⟩ := hdir hne
      obtain ⟨suf', name, rfl, -⟩ := dropLast_concat_getLast hsuf
      rw [heq, ← List.append_assoc, List.dropLast_concat] at hst
      by_cases hsuf' : suf' = []
      · rw [hsuf', List.append_nil] at hst
        exact ⟨st, hst, hkind⟩
      · exact ht.isDir_of_pre hst hsuf'

/-- An open of what is there. -/
theorem openAt_of_stat (ht : Rooted t) (hst : t.stat rel = some st) :
    openAt t rel dirOnly = lookAt (some st) true dirOnly := by
  rw [openAt_of_parent ht fun _ => ht.up hst, hst]

theorem openAt_dir (ht : Rooted t) (h : IsDir t rel) (dirOnly : Bool) :
    openAt t rel dirOnly = .ok () := by
  obtain ⟨st, hst, hkind⟩ := h
  rw [openAt_of_stat ht hst]
  simp [lookAt, hkind]

/-- What a descent comes to is there. -/
theorem stat_of_descend : ∀ {rest cur : Rel},
    rest ≠ [] → descend t dirOnly cur rest = .ok () →
    ∃ st, t.stat (cur ++ rest) = some st
  | [], _, hne, _ => absurd rfl hne
  | part :: rest, cur, _, h => by
    rw [descend] at h
    split at h
    · cases h
    rename_i hlook
    by_cases hrest : rest = []
    · subst hrest
      cases hst : t.stat (cur ++ [part]) with
      | none =>
        rw [hst] at hlook
        cases hlook
      | some st => exact ⟨st, rfl⟩
    · have := stat_of_descend hrest h
      simpa using this

theorem stat_of_openAt (h : openAt t rel dirOnly = .ok ()) :
    ∃ st, t.stat rel = some st := by
  cases rel with
  | nil =>
    change lookAt (t.stat []) true dirOnly = .ok () at h
    cases hst : t.stat [] with
    | none =>
      rw [hst] at h
      cases h
    | some st => exact ⟨st, rfl⟩
  | cons c rel => exact stat_of_descend (by simp) h

/-- What stands at a place, which a walk can reach if anything does. -/
theorem statAt_eq (ht : Rooted t) : statAt t rel = t.stat rel := by
  cases rel with
  | nil => rfl
  | cons c rel =>
    unfold statAt
    dsimp only
    cases hst : t.stat (c :: rel) with
    | none => split <;> rfl
    | some st => rw [openAt_dir ht (ht.up hst)]

-- ====== permission

variable {env : Env} {bits : Nat}

/-- What is answered is answered as if nothing were denied. -/
theorem Env.openAt_eq {r : Except OpenErr Unit}
    (h : env.openAt t rel dirOnly = r) (hr : r ≠ .error denied) :
    Restore.openAt t rel dirOnly = r := by
  unfold Env.openAt at h
  split at h
  · exact h
  · exact absurd h.symm hr

/-- A directory tree that can be passed through everywhere. -/
structure Passable (env : Env) (t : Tree) : Prop extends Rooted t where
  pass : ∀ q, env.letsAt t 0o100 q = true

theorem Passable.openAt (ht : Passable env t) :
    env.openAt t rel dirOnly = Restore.openAt t rel dirOnly :=
  if_pos (List.all_eq_true.mpr fun q _ => ht.pass q)

theorem Passable.statAt (ht : Passable env t) (rel : Rel) :
    env.statAt t rel = t.stat rel :=
  (if_pos (List.all_eq_true.mpr fun q _ => ht.pass q)).trans
    (statAt_eq ht.toRooted)

/-- No call is denied. -/
class Env.Free (env : Env) : Prop where
  lets : ∀ bits mode, env.lets bits mode = true

theorem letsAt_free [env.Free] (q : Rel) : env.letsAt t bits q = true := by
  unfold Env.letsAt
  cases t.stat q with
  | none => rfl
  | some st => simp [Env.Free.lets]

theorem Rooted.passable [env.Free] (ht : Rooted t) : Passable env t :=
  ⟨ht, letsAt_free⟩

theorem openDir_free [env.Free] (ht : Rooted t) (h : IsDir t rel) :
    env.openDir t rel = .ok () := by
  have hpass : Passable env t := ht.passable
  rw [Env.openDir, if_pos (letsAt_free rel), hpass.openAt]
  exact openAt_dir ht h true

-- ====== the snapshot

namespace Snapshot

variable {s : Snapshot}

theorem mem_of_stat (h : s.tree.stat rel = some st) :
    (rel, st) ∈ s.entries := by
  obtain ⟨before, after, heq, -⟩ := List.lookup_eq_some_iff.mp h
  simp [heq]

theorem stat_of_mem (h : (rel, st) ∈ s.entries) :
    ∃ st', s.tree.stat rel = some st' := by
  exact Option.isSome_iff_exists.mp
    (List.lookup_isSome_iff.mpr ⟨_, h, beq_self_eq_true rel⟩)

theorem rooted (s : Snapshot) : Rooted s.tree where
  root := s.root
  parent := by
    intro rel name st hst
    have hdir := s.parent _ (mem_of_stat hst) (by simp)
    rw [List.dropLast_concat] at hdir
    exact hdir

theorem mem_names {name : Bytes} :
    name ∈ s.names rel ↔ ∃ st, s.tree.stat (rel ++ [name]) = some st := by
  rw [names, List.mem_insertionSort, List.mem_filterMap]
  constructor
  · rintro ⟨⟨q, st⟩, hmem, hname⟩
    split at hname
    next hdir =>
      obtain ⟨q', hq⟩ := List.getLast?_eq_some_iff.mp hname
      rw [hq, List.dropLast_concat] at hdir
      have hq : q = rel ++ [name] := by rw [hdir] at hq; exact hq
      exact stat_of_mem (hq ▸ hmem)
    · cases hname
  · rintro ⟨st, hst⟩
    exact ⟨(rel ++ [name], st), mem_of_stat hst, by simp⟩

theorem length_le_depth (h : s.tree.stat rel = some st) :
    rel.length ≤ s.depth := by
  have hmem := mem_of_stat h
  rw [depth]
  generalize s.entries = es at hmem
  induction es with
  | nil => cases hmem
  | cons e es ih =>
    rw [List.map_cons, List.foldr_cons]
    rcases List.mem_cons.mp hmem with rfl | hmem
    · exact Nat.le_max_left _ _
    · exact (ih hmem).trans (Nat.le_max_right _ _)

end Snapshot

-- ====== the walk

/-- `q` is `p` or beneath it, and nothing excluded is on the way. -/
structure Under (ex : Rel → Bool) (p q : Rel) : Prop where
  pre : p <+: q
  clear : ∀ r, p <+: r → r ≠ p → r <+: q → ex r = false

variable {env : Env} {snap : Snapshot} {ex : Rel → Bool} {p q r : Rel}
  {f g : Found} {name : Bytes}

theorem Under.refl (ex : Rel → Bool) (p : Rel) : Under ex p p where
  pre := List.prefix_rfl
  clear := fun _ hpr hne hrp => absurd
    (hrp.eq_of_length (le_antisymm hrp.length_le hpr.length_le)) hne

theorem Under.child (h : Under ex p q) (hex : ex (q ++ [name]) = false) :
    Under ex p (q ++ [name]) where
  pre := h.pre.trans (List.prefix_append _ _)
  clear := by
    intro r hpr hne hr
    rcases List.prefix_concat_iff.mp hr with rfl | hr
    · exact hex
    · exact h.clear r hpr hne hr

/-- From a directory on the way. -/
theorem Under.from_ (h : Under ex p q) (hpr : p <+: r) (hr : r <+: q) :
    Under ex r q where
  pre := hr
  clear := by
    intro s hrs hne hs
    refine h.clear s (hpr.trans hrs) ?_ hs
    rintro rfl
    exact hne (hpr.eq_of_length (le_antisymm hpr.length_le hrs.length_le))

/-- Each entry is the snapshot's, in its place. -/
structure Found.Sound (snap : Snapshot) (ex : Rel → Bool) (p : Rel)
    (f : Found) : Prop where
  dirs : ∀ d ∈ f.dirs, Under ex p d.rel ∧ ∃ st,
    snap.tree.stat (staged d.rel) = some st ∧ st.kind = .dir ∧
      permOf st = d.perm
  files : ∀ e ∈ f.files, Under ex p e.rel ∧ ∃ st,
    snap.tree.stat (staged e.rel) = some st ∧ st.kind = .file ∧
      e = entryOf e.rel st
  links : ∀ l ∈ f.links, Under ex p l.rel ∧ ∃ st,
    snap.tree.stat (staged l.rel) = some st ∧ st.kind = .link ∧
      l.target = snap.data st.ino

/-- An entry of that kind at `q` is listed; what is no file, directory or
link is not. -/
def Found.Has (f : Found) (kind : Fs.Kind) (q : Rel) : Prop :=
  match kind with
  | .dir => ∃ d ∈ f.dirs, d.rel = q
  | .file => ∃ e ∈ f.files, e.rel = q
  | .link => ∃ l ∈ f.links, l.rel = q
  | _ => True

/-- What the snapshot has at `q` is listed. -/
def Found.Lists (snap : Snapshot) (f : Found) (q : Rel) : Prop :=
  ∀ st, snap.tree.stat (staged q) = some st → f.Has st.kind q

/-- The lists only grow. -/
structure Found.Le (f g : Found) : Prop where
  dirs : f.dirs ⊆ g.dirs
  files : f.files ⊆ g.files
  links : f.links ⊆ g.links

theorem Found.Le.refl (f : Found) : f.Le f :=
  ⟨List.Subset.refl _, List.Subset.refl _, List.Subset.refl _⟩

theorem Found.Le.trans {h : Found} (hfg : f.Le g) (hgh : g.Le h) : f.Le h :=
  ⟨List.Subset.trans hfg.dirs hgh.dirs, List.Subset.trans hfg.files hgh.files,
    List.Subset.trans hfg.links hgh.links⟩

theorem Found.Lists.mono (h : f.Lists snap q) (hle : f.Le g) :
    g.Lists snap q := by
  intro st hst
  have hf := h st hst
  cases hkind : st.kind with
  | dir =>
    rw [hkind] at hf
    exact hf.imp fun _ hd => ⟨hle.dirs hd.1, hd.2⟩
  | file =>
    rw [hkind] at hf
    exact hf.imp fun _ he => ⟨hle.files he.1, he.2⟩
  | link =>
    rw [hkind] at hf
    exact hf.imp fun _ hl => ⟨hle.links hl.1, hl.2⟩
  | fifo => trivial
  | socket => trivial
  | device => trivial
  | special => trivial

/-- What a walk of `rel` adds, to `d` components deeper. -/
structure Walked (snap : Snapshot) (ex : Rel → Bool) (p rel : Rel) (d : Nat)
    (f g : Found) : Prop where
  sound : g.Sound snap ex p
  le : f.Le g
  single : g.single = f.single
  lists : ∀ q, Under ex rel q → q ≠ rel → q.length ≤ rel.length + d →
    g.Lists snap q

/-- What one name of `rel` adds. -/
structure Named (snap : Snapshot) (ex : Rel → Bool) (p rel : Rel) (d : Nat)
    (name : Bytes) (f g : Found) : Prop where
  sound : g.Sound snap ex p
  le : f.Le g
  single : g.single = f.single
  lists : ∀ q, Under ex rel q → rel ++ [name] <+: q →
    q.length ≤ rel.length + (d + 1) → g.Lists snap q

/-- Nothing is beneath what is not a directory. -/
theorem eq_of_pre {st' : Stat}
    (hst : snap.tree.stat (staged r) = some st) (hkind : st.kind ≠ .dir)
    (hq : snap.tree.stat (staged q) = some st') (hr : r <+: q) : q = r := by
  obtain ⟨rest, rfl⟩ := hr
  by_cases hrest : rest = []
  · simp [hrest]
  · have hq : snap.tree.stat (staged r ++ rest) = some st' := hq
    exact absurd ((snap.rooted.isDir_of_pre hq hrest).kind hst) hkind

theorem walkName_ok {deeper : Rel → Found → Except Bytes Found} {d : Nat}
    (hrel : Under ex p rel)
    (hdeeper : ∀ r f g, Under ex p r → f.Sound snap ex p → deeper r f = .ok g →
      Walked snap ex p r d f g) (hf : f.Sound snap ex p)
    (h : walkName env snap true ex deeper rel f name = .ok g) :
    Named snap ex p rel d name f g := by
  unfold walkName at h
  dsimp only at h
  split at h
  next hex =>
    cases h
    refine ⟨hf, Found.Le.refl _, rfl, fun q hq hpre _ => ?_⟩
    have := hq.clear _ (List.prefix_append _ _) (by simp) hpre
    rw [hex] at this
    cases this
  next hex =>
    have hchild := hrel.child (Bool.eq_false_iff.mpr hex)
    split at h
    · cases h
    rename_i st hst
    -- what is not a directory has nothing beneath it to list
    have hleaf : st.kind ≠ .dir → ∀ {g : Found}, g.Has st.kind (rel ++ [name]) →
        ∀ q, rel ++ [name] <+: q → g.Lists snap q := by
      intro hkind g hg q hpre st' hst'
      obtain rfl := eq_of_pre hst hkind hst' hpre
      rw [hst] at hst'
      cases hst'
      exact hg
    split at h
    next hkind =>
      cases h
      refine ⟨⟨hf.dirs, forall_mem_concat hf.files
          ⟨hchild, st, hst, hkind, rfl⟩, hf.links⟩,
        ⟨List.Subset.refl _, List.subset_append_left _ _,
          List.Subset.refl _⟩, rfl,
        fun q _ hpre _ => hleaf (by rw [hkind]; decide) ?_ q hpre⟩
      rw [hkind]
      exact ⟨_, List.mem_append_right _ (.head _), rfl⟩
    next hkind =>
      have hf' : Found.Sound snap ex p
          { f with dirs := f.dirs ++ [⟨rel ++ [name], permOf st, 0⟩] } :=
        ⟨forall_mem_concat hf.dirs ⟨hchild, st, hst, hkind, rfl⟩, hf.files,
          hf.links⟩
      have hle : f.Le
          { f with dirs := f.dirs ++ [⟨rel ++ [name], permOf st, 0⟩] } :=
        ⟨List.subset_append_left _ _, List.Subset.refl _, List.Subset.refl _⟩
      have hw := hdeeper _ _ _ hchild hf' h
      refine ⟨hw.sound, hle.trans hw.le, hw.single, fun q hq hpre hlen => ?_⟩
      by_cases hself : q = rel ++ [name]
      · intro st' hst'
        rw [hself, hst] at hst'
        cases hst'
        rw [hkind]
        exact ⟨_, hw.le.dirs (List.mem_append_right _ (.head _)),
          hself.symm⟩
      · refine hw.lists q (hq.from_ (List.prefix_append _ _) hpre) hself ?_
        rw [List.length_append, List.length_singleton]
        omega
    next hkind =>
      cases h
      refine ⟨⟨hf.dirs, hf.files, forall_mem_concat hf.links
          ⟨hchild, st, hst, hkind, rfl⟩⟩,
        ⟨List.Subset.refl _, List.Subset.refl _,
          List.subset_append_left _ _⟩, rfl,
        fun q _ hpre _ => hleaf (by rw [hkind]; decide) ?_ q hpre⟩
      rw [hkind]
      exact ⟨_, List.mem_append_right _ (.head _), rfl⟩
    next hfile hdir hlink =>
      cases h
      refine ⟨hf, Found.Le.refl _, rfl,
        fun q _ hpre _ => hleaf hdir ?_ q hpre⟩
      cases hkind : st.kind <;> trivial

theorem walk_ok : ∀ {fuel : Nat} {rel : Rel} {f g : Found}, Under ex p rel →
      f.Sound snap ex p → walk env snap true ex fuel rel f = .ok g →
      Walked snap ex p rel fuel f g
  | 0, rel, f, g, _, hf, h => by
    cases h
    refine ⟨hf, Found.Le.refl _, rfl, fun q hq hne hlen => ?_⟩
    exact absurd (hq.pre.eq_of_length
      (le_antisymm hq.pre.length_le hlen)).symm hne
  | fuel + 1, rel, f, g, hrel, hf, h => by
    rw [walk] at h
    split at h
    · cases h
    -- by the names taken so far
    have hinv := Except.foldlM_inv (fun seen g => g.Sound snap ex p ∧
        f.Le g ∧ g.single = f.single ∧ ∀ name ∈ seen, ∀ q, Under ex rel q →
          rel ++ [name] <+: q → q.length ≤ rel.length + (fuel + 1) →
          g.Lists snap q) ?_ [] ⟨hf, Found.Le.refl _, rfl, by simp⟩ h
    · obtain ⟨hsound, hle, hsingle, hall⟩ := hinv
      refine ⟨hsound, hle, hsingle, fun q hq hne hlen st hst => ?_⟩
      obtain ⟨rest, rfl⟩ := hq.pre
      cases rest with
      | nil => simp at hne
      | cons name rest =>
        have hpre : rel ++ [name] <+: rel ++ name :: rest :=
          ⟨rest, by simp⟩
        refine hall name ?_ _ hq hpre hlen st hst
        rw [List.nil_append, Snapshot.mem_names]
        by_cases hrest : rest = []
        · exact ⟨st, by rw [hrest] at hst; exact hst⟩
        · have hst : snap.tree.stat ((staged rel ++ [name]) ++ rest) =
              some st := by
            simpa [staged] using hst
          obtain ⟨d, hd, -⟩ := snap.rooted.isDir_of_pre hst hrest
          exact ⟨d, hd⟩
    · rintro seen g₁ name g₂ ⟨hsound, hle, hsingle, hall⟩ hname
      have hn := walkName_ok hrel
        (fun r f g hr hf hw => walk_ok hr hf hw) hsound hname
      refine ⟨hn.sound, hle.trans hn.le, hn.single.trans hsingle,
        fun m hm q hq hpre hlen => ?_⟩
      rcases List.mem_append.mp hm with hm | hm
      · exact (hall m hm q hq hpre hlen).mono hn.le
      · rw [List.mem_singleton.mp hm] at hpre
        exact hn.lists q hq hpre hlen

/-- The names a tree places something at. -/
def Found.names (f : Found) : List Rel :=
  f.files.map (·.rel) ++ f.links.map (·.rel)

/-- What the snapshot holds at a declared path, once it is found. -/
structure Complete (snap : Snapshot) (ex : Rel → Bool) (p : Rel) (f : Found) :
    Prop where
  sound : f.Sound snap ex p
  lists : ∀ q, Under ex p q → f.Lists snap q
  /-- A file or link alone is at the path itself. -/
  single : f.single = true → p ∈ f.names ∧ ∀ e ∈ f.files, e.rel = p
  /-- Else the path is a directory. -/
  dir : f.single = false → IsDir snap.tree (staged p)

theorem findFiles_ok (h : findFiles env snap true ex p = .ok f) :
    Complete snap ex p f := by
  -- what is at `p` and no directory is all there is under it
  have halone : ∀ {st : Stat}, snap.tree.stat (staged p) = some st →
      st.kind ≠ .dir → ∀ {g : Found}, g.Has st.kind p →
      ∀ q, Under ex p q → g.Lists snap q := by
    intro st hst hkind g hg q hq st' hst'
    obtain rfl := eq_of_pre hst hkind hst' hq.pre
    rw [hst] at hst'
    cases hst'
    exact hg
  unfold findFiles at h
  dsimp only at h
  split at h
  · cases h
  next hopen =>
    split at h
    · cases h
    rename_i hparent
    split at h
    · cases h
    rename_i st hst
    cases h
    have hkind : st.kind = .link := by
      have hopen := env.openAt_eq hopen (by simp [denied])
      rw [openAt_of_stat snap.rooted hst] at hopen
      by_contra hne
      simp [lookAt, hne] at hopen
    refine ⟨⟨by simp, by simp, ?_⟩, ?_, fun _ => ?_, by simp⟩
    · intro l hl
      rw [List.mem_singleton.mp hl]
      exact ⟨Under.refl ex p, st, hst, hkind, rfl⟩
    · refine halone hst (by rw [hkind]; decide) ?_
      rw [hkind]
      exact ⟨_, .head _, rfl⟩
    · simp [Found.names]
  · cases h
  next hopen =>
    split at h
    · cases h
    rename_i st hst
    split at h
    next hkind =>
      cases h
      refine ⟨⟨by simp, ?_, by simp⟩, ?_, fun _ => ?_, by simp⟩
      · intro e he
        rw [List.mem_singleton.mp he]
        exact ⟨Under.refl ex p, st, hst, hkind, rfl⟩
      · refine halone hst (by rw [hkind]; decide) ?_
        rw [hkind]
        exact ⟨_, .head _, rfl⟩
      · simp [Found.names, entryOf]
    next hkind =>
      split at h
      · cases h
      rename_i g hwalk
      cases h
      have hstart : Found.Sound snap ex p
          ⟨false, [⟨p, permOf st, 0⟩], [], []⟩ := by
        refine ⟨fun d hd => ?_, by simp, by simp⟩
        rw [List.mem_singleton.mp hd]
        exact ⟨Under.refl ex p, st, hst, hkind, rfl⟩
      have hw := walk_ok (Under.refl ex p) hstart hwalk
      refine ⟨hw.sound, fun q hq st' hst' => ?_, fun hs => ?_,
        fun _ => ⟨st, hst, hkind⟩⟩
      · by_cases hself : q = p
        · rw [hself, hst] at hst'
          cases hst'
          rw [hkind]
          exact ⟨_, hw.le.dirs (.head _), hself.symm⟩
        · have hlen := Snapshot.length_le_depth hst'
          rw [staged, List.length_cons] at hlen
          exact hw.lists q hq hself (by omega) st' hst'
      · rw [hw.single] at hs
        cases hs
    next => cases h

end Hotserve.Restore
