/-
What each step of an install does, when nothing it needs is in its way.

A restore needs some places as directories and places names at others,
and no place is both. Whatever was installed before, a place of the
first kind is then free or a directory, and one of the second is free or
what a rename replaces: a directory is made only where one is needed and
a name is placed only where one is placed. So every step goes through,
and a step changes only the places that are its own.
-/
import Hotserve.Effect.Runs
import Hotserve.Restore.Proofs.Check

namespace Hotserve.Restore

open Bytes Fs Effect
open Backup (OpenErr lookAt sidecars)

/-- The places a restore needs as directories, and those it places names
at. -/
structure Plan where
  dir : Rel → Prop
  name : Rel → Prop
  dir_up : ∀ q n, dir (q ++ [n]) → dir q
  apart : ∀ q, dir q → ¬ name q

-- ====== the tree

theorem put_self (t : Tree) (rel : Rel) (o : Option Stat) :
    (put t rel o).stat rel = o :=
  Function.update_self ..

variable {rel q : Rel} {j₁ j₂ j' : Job} {perm : Nat} {st : Stat} {t : Tree}
  {o : Option Stat}

theorem put_ne (t : Tree) (o : Option Stat) (h : q ≠ rel) :
    (put t rel o).stat q = t.stat q :=
  Function.update_of_ne h ..

/-- What stands in a tree after a put was put there, or stood there before.
-/
theorem put_eq_some (h : (put t rel o).stat q = some st) :
    (q = rel ∧ o = some st) ∨ t.stat q = some st := by
  by_cases hq : q = rel
  · rw [hq, put_self] at h
    exact .inl ⟨hq, h⟩
  · rw [put_ne _ _ hq] at h
    exact .inr h

/-- A directory is still one after a put that replaces a directory, if at
all, by another. -/
theorem isDir_put (hq : IsDir t q)
    (hkeep : IsDir t rel → ∃ st, o = some st ∧ st.kind = .dir) :
    IsDir (put t rel o) q := by
  by_cases heq : q = rel
  · subst heq
    obtain ⟨st, rfl, hkind⟩ := hkeep hq
    exact ⟨st, put_self .., hkind⟩
  · obtain ⟨st, hst, hkind⟩ := hq
    exact ⟨st, by rw [put_ne t o heq, hst], hkind⟩

/-- A tree stays one when a directory is kept, and something is put only
in a directory. -/
theorem Rooted.put (ht : Rooted t) (hdir : rel ≠ [] → IsDir t rel.dropLast)
    (hkeep : IsDir t rel → ∃ st, o = some st ∧ st.kind = .dir) :
    Rooted (put t rel o) where
  root := isDir_put ht.root hkeep
  parent := by
    intro q n st hst
    refine isDir_put ?_ hkeep
    rcases put_eq_some hst with ⟨rfl, -⟩ | hst
    · have := hdir (by simp)
      rwa [List.dropLast_concat] at this
    · exact ht.parent q n st hst

-- ====== the invariant

/-- What stands at a place of the target. -/
abbrev Job.stat (j : Job) : Rel → Option Stat := j.place.tree.stat

/-- The bytes of the target's inodes. -/
abbrev Job.data (j : Job) : Nat → Bytes := j.place.tree.data

/-- Nothing needed is in the way. -/
structure Inv (P : Plan) (j : Job) : Prop where
  rooted : Rooted j.place.tree
  fresh : ∀ q st, j.stat q = some st → st.ino < j.place.next
  dirs : ∀ q st, P.dir q → j.stat q = some st → st.kind = .dir
  names : ∀ q st, P.name q → j.stat q = some st → st.kind ≠ .dir
  made : ∀ d ∈ j.made, IsDir j.place.tree d.1

/-- What was looked at as a directory is one. -/
def SeenOk (j : Job) : Prop := ∀ q ∈ j.seen, IsDir j.place.tree q

/-- Directories were made, or their modes changed, and nothing else. -/
structure Grew (P : Plan) (j j' : Job) : Prop where
  data : j'.data = j.data
  next : j.place.next ≤ j'.place.next
  placed : j'.placed = j.placed
  other : ∀ q, ¬ P.dir q → j'.stat q = j.stat q
  dir : ∀ q, IsDir j.place.tree q → IsDir j'.place.tree q
  seen : ∀ q ∈ j'.seen, q ∈ j.seen ∨ IsDir j'.place.tree q

theorem Grew.refl (P : Plan) (j : Job) : Grew P j j :=
  ⟨rfl, le_rfl, rfl, fun _ _ => rfl, fun _ h => h, fun _ h => .inl h⟩

variable {P : Plan} {j : Job} {env : Env}

/-- So of two steps, one after the other. -/
theorem Grew.trans {j₃ : Job} (h : Grew P j₁ j₂)
    (h' : Grew P j₂ j₃) : Grew P j₁ j₃ where
  data := h'.data.trans h.data
  next := h.next.trans h'.next
  placed := h'.placed.trans h.placed
  other := fun q hq => (h'.other q hq).trans (h.other q hq)
  dir := fun q hq => h'.dir q (h.dir q hq)
  seen := by
    intro q hq
    rcases h'.seen q hq with hq | hq
    · exact (h.seen q hq).imp id (h'.dir q)
    · exact .inr hq

/-- Such a step has seen no more than directories, if none before it had.
-/
theorem Grew.seenOk (h : Grew P j j') (hs : SeenOk j) : SeenOk j' := by
  intro q hq
  rcases h.seen q hq with hq | hq
  · exact h.dir q (hs q hq)
  · exact hq

/-- What counts as seen before it is a directory, and is one after. -/
theorem Grew.see (h : Grew P { j with seen := rel :: j.seen } j')
    (hdir : IsDir j'.place.tree rel) : Grew P j j' := by
  refine ⟨h.data, h.next, h.placed, h.other, h.dir, fun q hq => ?_⟩
  rcases h.seen q hq with hq | hq
  · rcases List.mem_cons.mp hq with rfl | hq
    · exact .inr hdir
    · exact .inl hq
  · exact .inr hq

theorem Inv.see (hj : Inv P j) : Inv P { j with seen := rel :: j.seen } :=
  ⟨hj.rooted, hj.fresh, hj.dirs, hj.names, hj.made⟩

-- ====== directories

variable [env.Free]

/-- With the permissions granted, every path of the target can be walked.
-/
theorem Inv.passable (hj : Inv P j) : Passable env j.place.tree :=
  hj.rooted.passable

/-- A directory that is there is opened, and nothing changes. -/
theorem runs_openTarget {dirOnly : Bool} (hj : Inv P j)
    (hdir : IsDir j.place.tree rel) :
    Runs (openTarget env rel dirOnly) j fun _ j' => j = j' := by
  unfold Runs Leaves openTarget
  rw [hj.passable.openAt, openAt_dir hj.rooted hdir]

/-- What a call needs is granted. -/
theorem runs_needs {α : Type} {bits : Nat} {dir : Rel} {x : M α}
    {Q : α → Job → Prop} (h : Runs x j Q) :
    Runs (do needs env bits dir; x) j Q := by
  refine Leaves.bind (P := fun _ j' => j' = j) ?_ ?_
  · unfold Leaves needs
    rw [if_pos (letsAt_free dir)]
  · rintro _ _ rfl
    exact h

omit [env.Free] in
/-- What the plan has for a place, put there in a directory. -/
theorem Inv.put (hj : Inv P j)
    (hparent : rel ≠ [] → IsDir j.place.tree rel.dropLast) {o : Option Stat}
    (hkeep : IsDir j.place.tree rel → ∃ st, o = some st ∧ st.kind = .dir)
    {next : Nat} (hnext : j.place.next ≤ next)
    (ho : ∀ st, o = some st → st.ino < next ∧
      (P.dir rel → st.kind = .dir) ∧ (P.name rel → st.kind ≠ .dir)) :
    Inv P { j with place := ⟨Restore.put j.place.tree rel o, next⟩ } := by
  refine ⟨hj.rooted.put hparent hkeep, fun q s hs => ?_, fun q s hq hs => ?_,
    fun q s hq hs => ?_, fun d hd => isDir_put (hj.made d hd) hkeep⟩ <;>
    rcases put_eq_some hs with ⟨rfl, hnew⟩ | hs
  · exact (ho s hnew).1
  · exact (hj.fresh q s hs).trans_le hnext
  · exact (ho s hnew).2.1 hq
  · exact hj.dirs q s hq hs
  · exact (ho s hnew).2.2 hq
  · exact hj.names q s hq hs

omit [env.Free] in
/-- A directory put where one is needed. -/
theorem Inv.putDir (hj : Inv P j) (hrel : P.dir rel)
    (hparent : rel ≠ [] → IsDir j.place.tree rel.dropLast) (st : Stat)
    (hkind : st.kind = .dir) {next : Nat} (hnext : j.place.next ≤ next)
    (hino : st.ino < next) :
    Inv P { j with place := ⟨Restore.put j.place.tree rel (some st), next⟩ } ∧
      Grew P j { j with
        place := ⟨Restore.put j.place.tree rel (some st), next⟩ } := by
  have hkeep : IsDir j.place.tree rel →
      ∃ s, some st = some s ∧ s.kind = .dir := fun _ => ⟨st, rfl, hkind⟩
  refine ⟨hj.put hparent hkeep hnext ?_, rfl, hnext, rfl, fun q hq => ?_,
    fun q hq => isDir_put hq hkeep, fun q hq => .inl hq⟩
  · rintro _ ⟨⟩
    exact ⟨hino, fun _ => hkind, fun hname => absurd hname (P.apart rel hrel)⟩
  · exact put_ne _ _ fun heq => hq (heq ▸ hrel)

/-- A directory is recorded once, with the mode of the last to ask. -/
theorem runs_record (hj : Inv P j) (hdir : IsDir j.place.tree rel) :
    Runs (record rel perm) j fun _ j' => Inv P j' ∧ Grew P j j' := by
  have hmade {made : List (Rel × Nat)}
      (h : ∀ d ∈ made, IsDir j.place.tree d.1) :
      Inv P { j with made := made } ∧ Grew P j { j with made := made } :=
    ⟨⟨hj.rooted, hj.fresh, hj.dirs, hj.names, h⟩,
      ⟨rfl, le_rfl, rfl, fun _ _ => rfl, fun _ h => h, fun _ h => .inl h⟩⟩
  refine leaves_modify ?_
  split
  · refine hmade (List.forall_mem_map.mpr fun e he => ?_)
    split
    · exact hdir
    · exact hj.made e he
  · exact hmade (forall_mem_concat hj.made hdir)

/-- The mode of a directory in place is changed, and nothing else. -/
theorem runs_chmod (hj : Inv P j) (hrel : P.dir rel)
    (hdir : IsDir j.place.tree rel) :
    Runs (chmod rel perm) j fun _ j' => Inv P j' ∧ Grew P j j' := by
  obtain ⟨st, hst, hkind⟩ := hdir
  refine leaves_get ?_
  rw [hst]
  exact leaves_modify (hj.putDir hrel (fun _ => hj.rooted.up hst)
    { st with perm := perm } hkind le_rfl (hj.fresh rel st hst))

/-- A directory in place is made writable and recorded, as needed. -/
theorem runs_inPlace {perm : Option Nat} (hj : Inv P j) (hrel : P.dir rel)
    (hdir : IsDir j.place.tree rel) :
    Runs (inPlace env rel perm) j fun _ j' => Inv P j' ∧ Grew P j j' := by
  refine leaves_get ?_
  rw [openDir_free hj.rooted hdir]
  obtain ⟨st, hst, -⟩ := id hdir
  rw [hst]
  refine Leaves.bind (P := fun _ j' => Inv P j' ∧ Grew P j j') ?_ ?_
  · exact leaves_ite (fun _ => runs_chmod hj hrel hdir)
      fun _ => leaves_pure ⟨hj, Grew.refl P j⟩
  · rintro _ j₁ ⟨hj₁, hg₁⟩
    refine leaves_ite (fun _ => ?_) fun _ => leaves_pure ⟨hj₁, hg₁⟩
    exact (runs_record hj₁ (hg₁.dir rel hdir)).mono
      fun _ j₂ h => ⟨h.1, hg₁.trans h.2⟩

/-- The last element of a path is made in its directory, or found there. -/
theorem runs_mkdirat {perm : Option Nat} (hj : Inv P j) (hrel : P.dir rel)
    (hparent : IsDir j.place.tree rel.dropLast) :
    Runs (mkdirat env rel perm) j fun _ j' =>
      Inv P j' ∧ Grew P j j' ∧ IsDir j'.place.tree rel := by
  refine runs_needs (leaves_get ?_)
  have hkind : (j.place.tree.stat rel.dropLast).map (·.kind) = some .dir := by
    obtain ⟨st, hst, hkind⟩ := hparent
    rw [hst, Option.map_some, hkind]
  rw [if_neg (not_not.mpr hkind)]
  cases hst : j.place.tree.stat rel with
  | none =>
    obtain ⟨hj₁, hg₁⟩ := hj.putDir hrel (fun _ => hparent)
      (newStat .dir j.place.next 0o700) rfl (Nat.le_succ _)
      (Nat.lt_succ_self _)
    have hdir₁ : IsDir (put j.place.tree rel
        (some (newStat .dir j.place.next 0o700))) rel :=
      ⟨_, put_self .., rfl⟩
    refine runs_needs
      (Leaves.bind (P := fun _ j' => j' = _) (leaves_set rfl) ?_)
    rintro _ j₁ rfl
    refine (runs_record hj₁ hdir₁).mono fun _ j₂ h => ?_
    exact ⟨h.1, hg₁.trans h.2, h.2.dir rel hdir₁⟩
  | some st =>
    have hdir : IsDir j.place.tree rel := ⟨st, hst, hj.dirs rel st hrel hst⟩
    have hdone : Runs (inPlace env rel perm) j fun _ j' =>
        Inv P j' ∧ Grew P j j' ∧ IsDir j'.place.tree rel :=
      (runs_inPlace hj hrel hdir).mono
        fun _ j' h => ⟨h.1, h.2, h.2.dir rel hdir⟩
    dsimp only
    split
    · cases perm with
      | none => exact leaves_pure ⟨hj, Grew.refl P j, hdir⟩
      | some perm =>
        exact (runs_record hj hdir).mono
          fun _ j' h => ⟨h.1, h.2, h.2.dir rel hdir⟩
    · exact hdone

/-- So it is when the directory is opened first, and the new one after. -/
theorem runs_mkdirLast {perm : Option Nat} (hj : Inv P j) (hs : SeenOk j)
    (hrel : P.dir rel) (hparent : IsDir j.place.tree rel.dropLast) :
    Runs (mkdirLast env rel perm) j fun _ j' =>
      Inv P j' ∧ SeenOk j' ∧ Grew P j j' ∧ IsDir j'.place.tree rel := by
  refine Leaves.bind (runs_openTarget hj hparent) ?_
  rintro _ _ rfl
  -- it counts as seen from here, and is a directory only after
  refine Leaves.bind (P := fun _ j' => j' = { j with seen := rel :: j.seen })
    (leaves_modify rfl) ?_
  rintro _ _ rfl
  refine Leaves.bind (runs_mkdirat hj.see hrel hparent) ?_
  rintro _ j₂ ⟨hj₂, hg₂, hdir₂⟩
  refine (runs_openTarget hj₂ hdir₂).mono ?_
  rintro _ _ rfl
  have hg := hg₂.see hdir₂
  exact ⟨hj₂, hg.seenOk hs, hg, hdir₂⟩

/-- A path that the plan needs as a directory becomes one, by induction on
its length: the directory above it is made first. -/
theorem runs_mkdir {rel : Rel} {perm : Option Nat} {j : Job} (hj : Inv P j)
    (hs : SeenOk j) (hrel : P.dir rel) : Runs (mkdir env rel perm) j fun _ j' =>
      Inv P j' ∧ SeenOk j' ∧ Grew P j j' ∧ IsDir j'.place.tree rel := by
  rw [mkdir]
  refine leaves_get (leaves_ite (fun hseen => ?_) fun _ => ?_)
  · exact leaves_pure ⟨hj, hs, Grew.refl P j, hs rel hseen.1⟩
  refine leaves_ite (fun hnil => ?_) fun hne => ?_
  · subst hnil
    refine Leaves.bind (P := fun _ j' => j' = { j with seen := [] :: j.seen })
      (leaves_modify rfl) ?_
    rintro _ _ rfl
    refine (runs_inPlace hj.see hrel hj.rooted.root).mono ?_
    rintro _ j₂ ⟨hj₂, hg₂⟩
    have hroot := hg₂.dir [] hj.rooted.root
    have hg := hg₂.see hroot
    exact ⟨hj₂, hg.seenOk hs, hg, hroot⟩
  · obtain ⟨d, name, heq, hlast⟩ := dropLast_concat_getLast hne
    have hup : P.dir rel.dropLast := by
      rw [hlast]
      exact P.dir_up d name (heq ▸ hrel)
    split
    next hlen =>
      refine Leaves.bind (runs_mkdir hj hs hup) ?_
      rintro _ j₁ ⟨hj₁, hs₁, hg₁, hdir₁⟩
      refine (runs_mkdirLast hj₁ hs₁ hrel hdir₁).mono ?_
      rintro _ j₂ ⟨hj₂, hs₂, hg₂, hdir₂⟩
      exact ⟨hj₂, hs₂, hg₁.trans hg₂, hdir₂⟩
    next hlen =>
      have hroot : rel.dropLast = [] :=
        List.length_eq_zero_iff.mp (by rw [List.length_dropLast]; omega)
      exact runs_mkdirLast hj hs hrel (hroot ▸ hj.rooted.root)
termination_by rel.length
decreasing_by
  rw [List.length_dropLast]
  omega

-- ====== names

/-- What stands at the names of `own` may have changed, and directories
were made; no inode's bytes did. -/
structure Frame (P : Plan) (own : Rel → Prop) (j j' : Job) : Prop where
  other : ∀ q, P.name q → ¬ own q → j'.stat q = j.stat q
  dir : ∀ q, IsDir j.place.tree q → IsDir j'.place.tree q
  data : ∀ ino, ino < j.place.next → j'.data ino = j.data ino
  next : j.place.next ≤ j'.place.next
  placed : j'.placed = j.placed

/-- So of two steps at the same names. -/
theorem Frame.trans {own : Rel → Prop} {j₃ : Job} (h : Frame P own j₁ j₂)
    (h' : Frame P own j₂ j₃) : Frame P own j₁ j₃ where
  other := fun q hq hne => (h'.other q hq hne).trans (h.other q hq hne)
  dir := fun q hq => h'.dir q (h.dir q hq)
  data := fun ino hino =>
    (h'.data ino (hino.trans_le h.next)).trans (h.data ino hino)
  next := h.next.trans h'.next
  placed := h'.placed.trans h.placed

/-- A step at some names is one at more. -/
theorem Frame.mono {own own' : Rel → Prop} (h : Frame P own j₁ j₂)
    (hsub : ∀ q, own q → own' q) : Frame P own' j₁ j₂ :=
  ⟨fun q hq hne => h.other q hq fun ho => hne (hsub q ho), h.dir, h.data,
    h.next, h.placed⟩

/-- Nothing is put at a name by the making of directories. -/
theorem Grew.name (h : Grew P j j') (hq : P.name q) :
    j'.place.tree.stat q = j.place.tree.stat q :=
  h.other q fun hd => P.apart q hd hq

/-- The making of directories is a step at no names. -/
theorem Grew.frame (h : Grew P j j') (own : Rel → Prop) : Frame P own j j' :=
  ⟨fun _ hq _ => h.name hq, h.dir, fun ino _ => congrFun h.data ino,
    h.next, h.placed⟩

/-- What a step that places one name leaves. -/
abbrev Placed (P : Plan) (rel : Rel) (j j' : Job) : Prop :=
  Inv P j' ∧ SeenOk j' ∧ Frame P (· = rel) j j'

omit [env.Free] in
/-- Something that is no directory, or nothing, put where a name goes. -/
theorem Inv.putName (hj : Inv P j) (hs : SeenOk j) (hrel : P.name rel)
    (hparent : rel ≠ [] → IsDir j.place.tree rel.dropLast) {o : Option Stat}
    (ho : ∀ st, o = some st → st.ino < j.place.next ∧ st.kind ≠ .dir) :
    Placed P rel j
      { j with
        place := { j.place with tree := Restore.put j.place.tree rel o } } := by
  have hkeep : IsDir j.place.tree rel → ∃ s, o = some s ∧ s.kind = .dir := by
    rintro ⟨st, hst, hkind⟩
    exact absurd hkind (hj.names rel st hrel hst)
  refine ⟨hj.put hparent hkeep le_rfl fun st hst => ⟨(ho st hst).1,
      fun hdir => absurd hrel (P.apart rel hdir), fun _ => (ho st hst).2⟩,
    fun q hq => isDir_put (hs q hq) hkeep, fun q _ hq => put_ne _ _ hq,
    fun q hq => isDir_put hq hkeep, fun _ _ => rfl, le_rfl, rfl⟩

/-- A sidecar stands in the directory of its database. -/
theorem dropLast_beside (hne : rel ≠ []) (s : Bytes) :
    (beside rel s).dropLast = rel.dropLast := by
  cases rel with
  | nil => exact absurd rfl hne
  | cons c rel => simp [beside]

variable (hj : Inv P j) (hs : SeenOk j)
include hj hs

omit [env.Free] in
/-- A rename puts at a name what it was given, and leaves every byte. -/
theorem runs_renameOnto (hrel : P.name rel)
    (hparent : rel ≠ [] → IsDir j.place.tree rel.dropLast)
    (hkind : st.kind ≠ .dir) (hino : st.ino < j.place.next) :
    Runs (renameOnto env rel st) j fun _ j' => Placed P rel j j' ∧
      j'.data = j.data ∧ j'.stat rel = some st := by
  have hnot : ¬ (j.place.tree.stat rel).map (·.kind) = some .dir := by
    intro hdir
    obtain ⟨s, hst, hd⟩ := Option.map_eq_some_iff.mp hdir
    exact hj.names rel s hrel hst hd
  refine leaves_get ?_
  rw [if_neg hnot]
  refine leaves_modify ⟨hj.putName hs hrel hparent ?_, rfl, put_self ..⟩
  rintro _ ⟨⟩
  exact ⟨hino, hkind⟩

/-- A temporary file takes an inode nothing has, and no name. -/
theorem runs_newInode {bytes : Bytes} :
    Runs (newInode bytes) j fun ino j' => ino = j.place.next ∧ Inv P j' ∧
      SeenOk j' ∧ Frame P (fun _ => False) j j' ∧ ino < j'.place.next ∧
      j'.data ino = bytes := by
  refine leaves_get (Leaves.bind (P := fun _ j' => j' = { j with
    place := ⟨write j.place.tree j.place.next bytes, j.place.next + 1⟩ })
    (leaves_set rfl) ?_)
  rintro _ _ rfl
  refine leaves_pure ⟨rfl, ⟨⟨hj.rooted.root, hj.rooted.parent⟩,
    fun q st hst => (hj.fresh q st hst).trans (Nat.lt_succ_self _), hj.dirs,
    hj.names, hj.made⟩, hs, ⟨fun _ _ _ => rfl, fun _ h => h, ?_,
    Nat.le_succ _, rfl⟩, Nat.lt_succ_self _, ?_⟩
  · exact fun ino hino => Function.update_of_ne (Nat.ne_of_lt hino) ..
  · exact Function.update_self ..

omit [env.Free] in
/-- A new inode at a name. -/
theorem runs_place {kind : Fs.Kind} {bytes : Bytes} (hrel : P.name rel)
    (hkind : kind ≠ .dir)
    (hparent : IsDir j.place.tree rel.dropLast) : Runs (do
      let ino ← newInode bytes
      renameOnto env rel (newStat kind ino perm)) j fun _ j' =>
      Placed P rel j j' ∧ j'.stat rel = some (newStat kind j.place.next perm) ∧
        j'.data j.place.next = bytes := by
  refine Leaves.bind (runs_newInode hj hs) ?_
  rintro ino j₁ ⟨rfl, hj₁, hs₁, hf₁, hlt, hbytes⟩
  refine (runs_renameOnto hj₁ hs₁ hrel (fun _ => hf₁.dir _ hparent) hkind
    hlt).mono ?_
  rintro _ j₂ ⟨⟨hj₂, hs₂, hf₂⟩, hdata, hat⟩
  exact ⟨⟨hj₂, hs₂, (hf₁.mono fun _ => False.elim).trans hf₂⟩, hat,
    by rw [hdata, hbytes]⟩

/-- A regular file of the snapshot, copied: a new inode with its bytes. -/
theorem runs_copyFile {snap : Snapshot} {src : Rel} (hrel : P.name rel)
    (hparent : IsDir j.place.tree rel.dropLast)
    (hst : snap.tree.stat src = some st) (hkind : st.kind = .file) :
    Runs (copyFile env snap src rel perm) j fun _ j' => Placed P rel j j' ∧
        j'.stat rel = some (newStat .file j.place.next perm) ∧
        j'.data j.place.next = snap.data st.ino := by
  have hopen : openAt snap.tree src false = .ok () := by
    rw [openAt_of_stat snap.rooted hst]
    simp [lookAt, hkind]
  rw [copyFile, hopen]
  dsimp only
  rw [hst]
  dsimp only
  rw [if_neg (not_not.mpr hkind)]
  refine Leaves.bind (runs_openTarget hj hparent) ?_
  rintro _ _ rfl
  exact runs_needs (runs_place hj hs hrel (by decide) hparent)

/-- A symlink, with its text as the bytes of its inode. -/
theorem runs_symlink {text : Bytes} (hrel : P.name rel)
    (hdir : P.dir rel.dropLast) :
    Runs (symlink env rel text) j fun _ j' => Placed P rel j j' ∧
      ∃ st, j'.stat rel = some st ∧ st.kind = .link ∧
        j'.data st.ino = text := by
  refine Leaves.bind (runs_mkdir hj hs hdir) ?_
  rintro _ j₁ ⟨hj₁, hs₁, hg₁, hdir₁⟩
  refine Leaves.bind (runs_openTarget hj₁ hdir₁) ?_
  rintro _ _ rfl
  refine runs_needs ((runs_place hj₁ hs₁ hrel (by decide) hdir₁).mono ?_)
  rintro _ j₂ ⟨⟨hj₂, hs₂, hf₂⟩, hat, hbytes⟩
  exact ⟨⟨hj₂, hs₂, (hg₁.frame _).trans hf₂⟩, _, hat, rfl, hbytes⟩

/-- A second name for an inode that was installed. -/
theorem runs_hardlink {first : Rel} (hrel : P.name rel)
    (hdir : P.dir rel.dropLast) (hfirst : P.name first)
    (hst : j.stat first = some st) : Runs (hardlink env first rel) j fun _ j' =>
      Placed P rel j j' ∧ j'.stat rel = some st := by
  refine Leaves.bind (runs_mkdir hj hs hdir) ?_
  rintro _ j₁ ⟨hj₁, hs₁, hg₁, hdir₁⟩
  have hst₁ : j₁.place.tree.stat first = some st := by
    rw [hg₁.name hfirst]
    exact hst
  refine Leaves.bind (runs_openTarget hj₁ (hj₁.rooted.up hst₁)) ?_
  rintro _ _ rfl
  refine Leaves.bind (runs_openTarget hj₁ hdir₁) ?_
  rintro _ _ rfl
  refine runs_needs (runs_needs (leaves_get ?_))
  rw [hst₁]
  have hkind := hj₁.names first st hfirst hst₁
  refine leaves_ite (fun hdir => absurd hdir hkind) fun _ => ?_
  refine (runs_renameOnto hj₁ hs₁ hrel (fun _ => hdir₁) hkind
    (hj₁.fresh first st hst₁)).mono ?_
  rintro _ j₂ ⟨⟨hj₂, hs₂, hf₂⟩, -, hat⟩
  exact ⟨⟨hj₂, hs₂, (hg₁.frame _).trans hf₂⟩, hat⟩

-- ====== a database

/-- A name that is no directory is removed, if it is there. -/
theorem runs_unlink (hrel : P.name rel)
    (hparent : IsDir j.place.tree rel.dropLast) :
    Runs (unlink env rel) j fun _ j' => Placed P rel j j' := by
  refine runs_needs (leaves_get ?_)
  cases hst : j.place.tree.stat rel with
  | none =>
    exact leaves_pure ⟨hj, hs, fun _ _ _ => rfl, fun _ h => h, fun _ _ => rfl,
      le_rfl, rfl⟩
  | some st =>
    have hkind := hj.names rel st hrel hst
    refine runs_needs (leaves_ite (fun h => absurd h hkind) fun _ => ?_)
    exact leaves_modify (hj.putName hs hrel (fun _ => hparent) (by simp))

/-- What the install of a database may change besides directories: its
place, what is beside it, and the bytes of the inode `live` if there is
one. -/
structure DbFrame (P : Plan) (db : Rel) (live : Option Nat) (j j' : Job) :
    Prop where
  other : ∀ q, P.name q → q ≠ db → (∀ s ∈ sidecars, q ≠ beside db s) →
    j'.stat q = j.stat q
  data : ∀ ino, ino < j.place.next → some ino ≠ live → j'.data ino = j.data ino
  next : j.place.next ≤ j'.place.next
  placed : j'.placed = j.placed

variable {snap : Snapshot} {db : Rel}

/-- A database that is not there: its copy, as a new file. -/
theorem runs_installDatabase_new (hname : P.name db) (hdir : P.dir db.dropLast)
    (hne : db ≠ []) (hside : ∀ s ∈ sidecars, P.name (beside db s))
    (hcopy : snap.tree.stat (str "sqlite" :: db) = some st)
    (hfile : st.kind = .file) (hgone : j.stat db = none) :
    Runs (installDatabase env snap db) j fun _ j' =>
      Inv P j' ∧ SeenOk j' ∧ DbFrame P db none j j' ∧
        ∃ st', j'.stat db = some st' ∧ st'.kind = .file ∧
          j.place.next ≤ st'.ino ∧ j'.data st'.ino = copyContent snap db := by
  refine Leaves.bind (runs_mkdir hj hs hdir) ?_
  rintro _ j₁ ⟨hj₁, hs₁, hg₁, hdir₁⟩
  have hgone₁ : j₁.place.tree.stat db = none := by
    rw [hg₁.name hname]
    exact hgone
  have hopen : env.openAt j₁.place.tree db false = .error .notExist := by
    rw [hj₁.passable.openAt, openAt_of_parent hj₁.rooted fun _ => hdir₁, hgone₁]
    rfl
  refine leaves_get ?_
  rw [hopen]
  refine Leaves.bind (runs_openTarget hj₁ hdir₁) ?_
  rintro _ _ rfl
  let own : Rel → Prop := fun q => ∃ s ∈ sidecars, q = beside db s
  have hloop := leaves_forM (f := fun suffix => unlink env (beside db suffix))
    (l := sidecars)
    (fun _ j' => Inv P j' ∧ SeenOk j' ∧ Frame P own j₁ j') [] (s := j₁)
    ⟨hj₁, hs₁, fun _ _ _ => rfl, fun _ h => h, fun _ _ => rfl, le_rfl, rfl⟩
    (by
      rintro _ s j₂ hmem ⟨hj₂, hs₂, hf₂⟩
      refine (runs_unlink hj₂ hs₂ (hside s hmem) ?_).mono ?_
      · rw [dropLast_beside hne]
        exact hf₂.dir _ hdir₁
      · rintro _ j₃ ⟨hj₃, hs₃, hf₃⟩
        exact ⟨hj₃, hs₃, hf₂.trans (hf₃.mono fun q hq => ⟨s, hmem, hq⟩)⟩)
  refine Leaves.bind hloop ?_
  rintro _ j₂ ⟨hj₂, hs₂, hf₂⟩
  refine (runs_copyFile hj₂ hs₂ hname (hf₂.dir _ hdir₁) hcopy hfile).mono ?_
  rintro _ j₃ ⟨⟨hj₃, hs₃, hf₃⟩, hat, hbytes⟩
  have hf₁ := hg₁.frame fun q => q = db ∨ own q
  have hf := (hf₁.trans (hf₂.mono fun _ => .inr)).trans (hf₃.mono fun _ => .inl)
  refine ⟨hj₃, hs₃, ⟨?_, fun ino h _ => hf.data ino h, hf.next, hf.placed⟩,
    _, hat, rfl, hf₁.next.trans hf₂.next, ?_⟩
  · intro q hq hdb hside
    refine hf.other q hq ?_
    rintro (h | ⟨s, hmem, h⟩)
    · exact hdb h
    · exact hside s hmem h
  · rw [copyContent, hcopy]
    exact hbytes

/-- A database in place: its bytes, in the inode it has. -/
theorem runs_installDatabase_live
    (hname : P.name db) (hdir : P.dir db.dropLast) (hst : j.stat db = some st)
    (hfile : st.kind = .file)
    (hover : env.restoreOver (j.data st.ino) (copyContent snap db) =
      .ok (copyContent snap db)) :
    Runs (installDatabase env snap db) j fun _ j' =>
      Inv P j' ∧ SeenOk j' ∧ DbFrame P db (some st.ino) j j' ∧
        j'.stat db = some st ∧ j'.data st.ino = copyContent snap db := by
  refine Leaves.bind (runs_mkdir hj hs hdir) ?_
  rintro _ j₁ ⟨hj₁, hs₁, hg₁, hdir₁⟩
  have hst₁ : j₁.place.tree.stat db = some st := by
    rw [hg₁.name hname]
    exact hst
  have hopen : env.openAt j₁.place.tree db false = .ok () := by
    rw [hj₁.passable.openAt, openAt_of_stat hj₁.rooted hst₁]
    simp [lookAt, hfile]
  have hdata : j₁.place.tree.data = j.data := hg₁.data
  refine leaves_get ?_
  rw [hopen]
  dsimp only
  rw [hst₁]
  dsimp only
  rw [if_neg (not_not.mpr hfile), hdata, hover]
  refine leaves_modify ⟨⟨⟨hj₁.rooted.root, hj₁.rooted.parent⟩, hj₁.fresh,
    hj₁.dirs, hj₁.names, hj₁.made⟩, hs₁, ⟨?_, ?_, hg₁.next, hg₁.placed⟩, hst₁,
    Function.update_self ..⟩
  · exact fun q hq _ _ => hg₁.name hq
  · intro ino _ hlive
    have hne : ino ≠ st.ino := fun h => hlive (congrArg some h)
    exact (Function.update_of_ne hne ..).trans (congrFun hdata ino)

end Hotserve.Restore
