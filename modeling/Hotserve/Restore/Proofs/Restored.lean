/-
A restore that passed its checks puts everything back.

The checks look at the target as it was, and each install changes it, so
what one item leaves must be what the next one's check saw. It is: the
snapshot is one tree, so a place that is a directory in it is no file's;
a declared database and its sidecars are left out of every files tree;
and no file of one stands where a database needs a directory. The places
a restore needs as directories and those it puts names at are therefore
apart, whatever item they come from, which is all `Inv` asks.
-/
import Hotserve.Restore.Proofs.Install

namespace Hotserve.Restore

open Bytes Fs Effect
open Backup (OpenErr lookAt Config sidecars)

variable {db p q n : Rel} {f : Entry} {st : Stat} {l : Link} {x : Rel × Found}

/-- What every check passing makes sure of, of the databases and of each
files path with its tree. -/
structure Ready (env : Env) (snap : Snapshot) (ex : Rel → Bool)
    (dbs files : List Rel) (t : Tree) (finds : List (Rel × Found)) : Prop where
  rooted : Rooted t
  apart : Apart dbs files
  leftOut : ∀ db ∈ dbs, ex db = true ∧ ∀ s ∈ sidecars, ex (beside db s) = true
  db : ∀ db ∈ dbs, DbReady env snap t db
  find : ∀ x ∈ finds, x.1 ∈ files ∧ FilesReady snap ex dbs t x.1 x.2

section

variable {env : Env} {snap : Snapshot} {ex : Rel → Bool} {dbs files : List Rel}
  {t : Tree} {finds : List (Rel × Found)}

-- ====== the plan

/-- A place that is a database's, or beside one. -/
structure OfDatabase (ex : Rel → Bool) (dbs files : List Rel) (q : Rel) :
    Prop where
  leftOut : ex q = true
  file : ∀ p ∈ files, ¬ q <+: p
  db : ∀ db ∈ dbs, q <+: db → q = db

/-- Nothing a files tree lists is at or beneath a database's place. -/
theorem OfDatabase.not_pre {m : Rel} (h : OfDatabase ex dbs files q)
    (hp : p ∈ files) (hm : Under ex p m) : ¬ q <+: m := by
  intro hqm
  have hqp := h.file p hp
  have hpq : p <+: q :=
    (List.prefix_or_prefix_of_prefix hm.pre hqm).resolve_right hqp
  have hne : q ≠ p := by
    rintro rfl
    exact hqp List.prefix_rfl
  have := hm.clear q hpq hne hqm
  rw [h.leftOut] at this
  cases this

theorem Found.Sound.name {f : Found} (h : f.Sound snap ex p)
    (hn : n ∈ f.names) : Under ex p n ∧ ∃ st,
      snap.tree.stat (staged n) = some st ∧ st.kind ≠ .dir := by
  rcases List.mem_append.mp hn with hn | hn
  · obtain ⟨e, he, rfl⟩ := List.mem_map.mp hn
    obtain ⟨hunder, st, hst, hkind, -⟩ := h.files e he
    exact ⟨hunder, st, hst, by rw [hkind]; decide⟩
  · obtain ⟨l, hl, rfl⟩ := List.mem_map.mp hn
    obtain ⟨hunder, st, hst, hkind, -⟩ := h.links l hl
    exact ⟨hunder, st, hst, by rw [hkind]; decide⟩

theorem not_concat_pre {n : Bytes} : ¬ q ++ [n] <+: q := by
  intro h
  have := h.length_le
  rw [List.length_append, List.length_singleton] at this
  omega

/-- A directory a files tree needs. -/
def NeedsDir (finds : List (Rel × Found)) (q : Rel) : Prop :=
  ∃ x ∈ finds, (∃ d ∈ x.2.dirs, q <+: d.rel) ∨ ∃ n ∈ x.2.names, q <+: n ∧ q ≠ n

theorem NeedsDir.up {n : Bytes} (h : NeedsDir finds (q ++ [n])) :
    NeedsDir finds q := by
  have hpre : q <+: q ++ [n] := List.prefix_append _ _
  obtain ⟨x, hx, ⟨d, hd, hq⟩ | ⟨m, hm, hq, -⟩⟩ := h
  · exact ⟨x, hx, .inl ⟨d, hd, hpre.trans hq⟩⟩
  · refine ⟨x, hx, .inr ⟨m, hm, hpre.trans hq, ?_⟩⟩
    rintro rfl
    exact not_concat_pre hq

variable (h : Ready env snap ex dbs files t finds)

section

include h

theorem Ready.ofDatabase (hdb : db ∈ dbs) : OfDatabase ex dbs files db :=
  ⟨(h.leftOut db hdb).1, h.apart.db_file db hdb, h.apart.db_db db hdb⟩

theorem Ready.ofSidecar (hdb : db ∈ dbs) {s : Bytes} (hs : s ∈ sidecars) :
    OfDatabase ex dbs files (beside db s) where
  leftOut := (h.leftOut db hdb).2 s hs
  file := fun p hp => h.apart.side db hdb s hs p (List.mem_append_right _ hp)
  db := fun q hq hpre =>
    absurd hpre (h.apart.side db hdb s hs q (List.mem_append_left _ hq))

/-- It is one in the snapshot. -/
theorem Ready.needsDir (hq : NeedsDir finds q) :
    IsDir snap.tree (staged q) := by
  obtain ⟨x, hx, ⟨d, hd, rest, hrest⟩ | ⟨n, hn, ⟨rest, rfl⟩, hne⟩⟩ := hq
  · obtain ⟨-, st, hst, hkind, -⟩ := (h.find x hx).2.complete.sound.dirs d hd
    by_cases hnil : rest = []
    · rw [hnil, List.append_nil] at hrest
      exact ⟨st, hrest ▸ hst, hkind⟩
    · rw [← hrest] at hst
      exact snap.rooted.isDir_of_pre (show snap.tree.stat (staged q ++ rest)
        = some st from hst) hnil
  · obtain ⟨-, st, hst, -⟩ := (h.find x hx).2.complete.sound.name hn
    exact snap.rooted.isDir_of_pre (show snap.tree.stat (staged q ++ rest)
      = some st from hst) (by rintro rfl; simp at hne)

/-- It is no database's place. -/
theorem Ready.not_needsDir (hq : OfDatabase ex dbs files q) :
    ¬ NeedsDir finds q := by
  rintro ⟨x, hx, ⟨d, hd, hpre⟩ | ⟨n, hn, hpre, -⟩⟩
  · exact hq.not_pre (h.find x hx).1
      ((h.find x hx).2.complete.sound.dirs d hd).1 hpre
  · exact hq.not_pre (h.find x hx).1
      ((h.find x hx).2.complete.sound.name hn).1 hpre

end

/-- The places of one restore. -/
def Ready.plan (h : Ready env snap ex dbs files t finds) : Plan where
  dir := fun q => NeedsDir finds q ∨ ∃ db ∈ dbs, q <+: db ∧ q ≠ db
  name := fun q => (∃ x ∈ finds, q ∈ x.2.names) ∨ q ∈ dbs ∨
    ∃ db ∈ dbs, t.stat db = none ∧ ∃ s ∈ sidecars, q = beside db s
  dir_up := by
    rintro q n (hq | ⟨db, hdb, hpre, -⟩)
    · exact .inl hq.up
    · refine .inr ⟨db, hdb, (List.prefix_append _ _).trans hpre, ?_⟩
      rintro rfl
      exact not_concat_pre hpre
  apart := by
    -- a name of a files tree is no directory of the snapshot; any other
    -- is a database's place
    have hof : ∀ q, OfDatabase ex dbs files q →
        ¬ (NeedsDir finds q ∨ ∃ db ∈ dbs, q <+: db ∧ q ≠ db) := by
      rintro q hq (hdir | ⟨db, hdb, hpre, hne⟩)
      · exact h.not_needsDir hq hdir
      · exact hne (hq.db db hdb hpre)
    rintro q hdir (⟨x, hx, hn⟩ | hdb | ⟨db, hdb, -, s, hs, rfl⟩)
    · rcases hdir with hdir | ⟨db, hdb, hpre, hne⟩
      · obtain ⟨-, st, hst, hnot⟩ := (h.find x hx).2.complete.sound.name hn
        exact hnot ((h.needsDir hdir).kind hst)
      · exact hne ((h.find x hx).2.clash q hn db hdb hpre)
    · exact hof q (h.ofDatabase hdb) hdir
    · exact hof _ (h.ofSidecar hdb hs) hdir

variable {h} in
theorem Ready.dropLast_dir (hne : n ≠ [])
    (hn : n ∈ dbs ∨ ∃ x ∈ finds, n ∈ x.2.names) : h.plan.dir n.dropLast := by
  have hpre : n.dropLast <+: n := List.dropLast_prefix n
  have hlt : n.dropLast ≠ n := by
    intro heq
    have := congrArg List.length heq
    have hpos := List.length_pos_of_ne_nil hne
    rw [List.length_dropLast] at this
    omega
  rcases hn with hn | ⟨x, hx, hn⟩
  · exact .inr ⟨n, hn, hpre, hlt⟩
  · exact .inl ⟨x, hx, .inr ⟨n, hn, hpre, hlt⟩⟩

/-- The target, as the checks found it. -/
theorem Ready.inv {next : Nat}
    (hfresh : ∀ q st, t.stat q = some st → st.ino < next) :
    Inv h.plan ⟨⟨t, next⟩, [], [], []⟩ where
  rooted := h.rooted
  fresh := hfresh
  dirs := by
    rintro q st (⟨x, hx, ⟨d, hd, hpre⟩ | ⟨n, hn, hpre, hne⟩⟩ |
      ⟨db, hdb, hpre, hne⟩) hst
    · exact (h.find x hx).2.dirs d hd q st hpre hst
    · exact ((h.find x hx).2.names n hn).way q st hpre hne hst
    · exact (h.db db hdb).way q st hpre hne hst
  names := by
    rintro q st (⟨x, hx, hn⟩ | hdb | ⟨db, hdb, hgone, s, hs, rfl⟩) hst
    · exact ((h.find x hx).2.names q hn).place st hst
    · rw [((h.db q hdb).place st hst).1]
      decide
    · exact (h.db db hdb).side hgone s hs st hst
  made := by simp

-- ====== the databases

/-- The databases of `done` are in place, and the others still as their
checks found them. -/
structure DbInv (snap : Snapshot) (P : Plan) (dbs : List Rel) (t : Tree)
    (done : List Rel) (j : Job) : Prop where
  inv : Inv P j
  seen : SeenOk j
  placed : j.placed = []
  live : ∀ db ∈ dbs, ∀ st, j.stat db = some st →
    st.kind = .file ∧ Opens (j.data st.ino)
  gone : ∀ db ∈ dbs, j.stat db = none → t.stat db = none
  inodes : ∀ db ∈ dbs, ∀ db' ∈ dbs, ∀ st st', j.stat db = some st →
    j.stat db' = some st' → st.ino = st'.ino → db = db'
  done : ∀ db ∈ done, ∃ st, j.stat db = some st ∧
    j.data st.ino = copyContent snap db

variable {h}

/-- One database more. -/
theorem DbInv.step {done : List Rel} {live : Option Nat} {j j' : Job}
    {st' : Stat} (hj : DbInv snap h.plan dbs t done j) (hdone : done ⊆ dbs)
    (hdb : db ∈ dbs)
    (hlive : ∀ ino, live = some ino → ∃ st, j.stat db = some st ∧ st.ino = ino)
    (hinv : Inv h.plan j') (hseen : SeenOk j')
    (hf : DbFrame h.plan db live j j') (hst' : j'.stat db = some st')
    (hkind : st'.kind = .file)
    (hino : j.place.next ≤ st'.ino ∨ j.stat db = some st')
    (hbytes : j'.data st'.ino = copyContent snap db) :
    DbInv snap h.plan dbs t (done ++ [db]) j' := by
  -- the other databases: the same inodes, with the same bytes
  have hother : ∀ q ∈ dbs, q ≠ db → j'.stat q = j.stat q := by
    intro q hq hne
    refine hf.other q (.inr (.inl hq)) hne fun s hs heq => ?_
    exact h.apart.side db hdb s hs q (List.mem_append_left _ hq)
      (heq ▸ List.prefix_rfl)
  have hdata : ∀ q ∈ dbs, q ≠ db → ∀ st, j.stat q = some st →
      j'.data st.ino = j.data st.ino := by
    intro q hq hne st hst
    refine hf.data _ (hj.inv.fresh q st hst) fun heq => ?_
    obtain ⟨s, hs, hsame⟩ := hlive _ heq.symm
    exact hne (hj.inodes q hq db hdb st s hst hs hsame.symm)
  have hnew : ∀ q ∈ dbs, q ≠ db → ∀ st, j.stat q = some st →
      st.ino ≠ st'.ino := by
    intro q hq hne st hst heq
    rcases hino with hlt | hsame
    · exact absurd (hj.inv.fresh q st hst) (not_lt.mpr (heq ▸ hlt))
    · exact hne (hj.inodes q hq db hdb st st' hst hsame heq)
  constructor
  · exact hinv
  · exact hseen
  · exact hf.placed.trans hj.placed
  · intro q hq st hst
    by_cases hne : q = db
    · subst hne
      rw [hst'] at hst
      cases hst
      exact ⟨hkind, .inl (hbytes ▸ (h.db q hq).copy.head)⟩
    · rw [hother q hq hne] at hst
      rw [hdata q hq hne st hst]
      exact hj.live q hq st hst
  · intro q hq hst
    by_cases hne : q = db
    · subst hne
      rw [hst'] at hst
      cases hst
    · exact hj.gone q hq (hother q hq hne ▸ hst)
  · intro q hq r hr st₁ st₂ h₁ h₂ heq
    by_cases hqd : q = db <;> by_cases hrd : r = db
    · rw [hqd, hrd]
    · rw [hqd, hst'] at h₁
      cases h₁
      exact absurd heq.symm (hnew r hr hrd st₂ (hother r hr hrd ▸ h₂))
    · rw [hrd, hst'] at h₂
      cases h₂
      exact absurd heq (hnew q hq hqd st₁ (hother q hq hqd ▸ h₁))
    · exact hj.inodes q hq r hr st₁ st₂ (hother q hq hqd ▸ h₁)
        (hother r hr hrd ▸ h₂) heq
  · intro q hq
    by_cases hne : q = db
    · exact ⟨st', hne ▸ hst', by rw [hne, hbytes]⟩
    · have hq : q ∈ done := by
        rcases List.mem_append.mp hq with hq | hq
        · exact hq
        · exact absurd (List.mem_singleton.mp hq) hne
      obtain ⟨st, hst, hcopy⟩ := hj.done q hq
      exact ⟨st, (hother q (hdone hq) hne).trans hst,
        (hdata q (hdone hq) hne st hst).trans hcopy⟩

theorem runs_installDatabase [env.Free] {done : List Rel} {j : Job}
    (hsqlite : ∀ live copy, Opens live → header.isPrefixOf copy →
      (env.checkCopy copy).1 = true → env.restoreOver live copy = .ok copy)
    (hj : DbInv snap h.plan dbs t done j) (hdone : done ⊆ dbs)
    (hdb : db ∈ dbs) : Runs (installDatabase env snap db) j fun _ j' =>
      DbInv snap h.plan dbs t (done ++ [db]) j' := by
  have hne := h.apart.db_ne db hdb
  have hname : h.plan.name db := .inr (.inl hdb)
  have hdir := Ready.dropLast_dir (h := h) hne (.inl hdb)
  obtain ⟨⟨st, hst, hkind⟩, hhead, hwhole⟩ := (h.db db hdb).copy
  cases hat : j.stat db with
  | none =>
    have hside : ∀ s ∈ sidecars, h.plan.name (beside db s) := fun s hs =>
      .inr (.inr ⟨db, hdb, hj.gone db hdb hat, s, hs, rfl⟩)
    refine (runs_installDatabase_new hj.inv hj.seen hname hdir hne hside hst
      hkind hat).mono ?_
    rintro _ j' ⟨hinv, hseen, hf, st', hst', hkind', hino, hbytes⟩
    exact hj.step hdone hdb (by simp) hinv hseen hf hst' hkind' (.inl hino)
      hbytes
  | some live =>
    obtain ⟨hfile, hopens⟩ := hj.live db hdb live hat
    refine (runs_installDatabase_live hj.inv hj.seen hname hdir hat hfile
      (hsqlite _ _ hopens hhead hwhole)).mono ?_
    rintro _ j' ⟨hinv, hseen, hf, hst', hbytes⟩
    refine hj.step hdone hdb ?_ hinv hseen hf hst' hfile (.inr hat) hbytes
    rintro ino ⟨⟩
    exact ⟨live, hat, rfl⟩

-- ====== the files

/-- The snapshot's file for `q`, if it has several names, is known by
`ino`. -/
def Noted (snap : Snapshot) (ino : Nat) (q : Rel) : Prop :=
  ino ≠ 0 ∧ ∃ st, snap.tree.stat (staged q) = some st ∧ st.kind = .file ∧
    (entryOf q st).ino = ino

/-- What the snapshot has for `q` is in place, and is one file with the
first name placed of its inode. -/
structure Back (snap : Snapshot) (j : Job) (q : Rel) : Prop where
  same : ∃ st st', snap.tree.stat (staged q) = some st ∧
    j.stat q = some st' ∧ st'.kind = st.kind ∧
    j.data st'.ino = snap.data st.ino
  first : ∀ ino, Noted snap ino q → ∃ first,
    j.placed.lookup ino = some first ∧ j.stat first = j.stat q

/-- A database's place holds its copy. -/
def DbAt (snap : Snapshot) (j : Job) (db : Rel) : Prop :=
  ∃ st, j.stat db = some st ∧ st.kind = .file ∧
    j.data st.ino = copyContent snap db

/-- The databases, and the directories and names done. -/
structure FilesInv (snap : Snapshot) (P : Plan) (dbs ds qs : List Rel)
    (j : Job) : Prop where
  inv : Inv P j
  seen : SeenOk j
  dbs : ∀ db ∈ dbs, P.name db ∧ DbAt snap j db
  dirs : ∀ d ∈ ds, IsDir j.place.tree d
  names : ∀ q ∈ qs, P.name q ∧ Back snap j q
  /-- The first name of an inode is a file's that is done. -/
  placed : ∀ x ∈ j.placed, x.2 ∈ qs ∧ Noted snap x.1 x.2

theorem Noted.ino_eq {ino ino' : Nat} (h : Noted snap ino q)
    (h' : Noted snap ino' q) : ino = ino' := by
  obtain ⟨-, st, hst, -, hino⟩ := h
  obtain ⟨-, st', hst', -, hino'⟩ := h'
  rw [hst] at hst'
  cases hst'
  rw [← hino, hino']

/-- A file known by an inode has it. -/
theorem Noted.stat {ino : Nat} (h : Noted snap ino q) :
    ∃ st, snap.tree.stat (staged q) = some st ∧ st.kind = .file ∧
      st.ino = ino := by
  obtain ⟨hne, st, hst, hkind, hino⟩ := h
  refine ⟨st, hst, hkind, ?_⟩
  rw [entryOf] at hino
  dsimp only at hino
  split at hino
  · exact hino
  · exact absurd hino.symm hne

section

variable {P : Plan} {ds qs : List Rel} {j j' : Job}

/-- A name stays done while it and the first names are left alone. -/
theorem Back.keep (h : Back snap j q) (hstat : j'.stat q = j.stat q)
    (hdata : ∀ st, j.stat q = some st → j'.data st.ino = j.data st.ino)
    (hfirst : ∀ ino first, j.placed.lookup ino = some first →
      j'.placed.lookup ino = some first ∧ j'.stat first = j.stat first) :
    Back snap j' q where
  same := by
    obtain ⟨st, st', hst, hst', hkind, hbytes⟩ := h.same
    exact ⟨st, st', hst, hstat.trans hst', hkind,
      (hdata st' hst').trans hbytes⟩
  first := by
    intro ino hnoted
    obtain ⟨first, hlook, hat⟩ := h.first ino hnoted
    obtain ⟨hlook', hat'⟩ := hfirst ino first hlook
    exact ⟨first, hlook', by rw [hat', hat, hstat]⟩

theorem lookup_mem {ino : Nat} {first : Rel} {placed : List (Nat × Rel)}
    (h : placed.lookup ino = some first) : (ino, first) ∈ placed := by
  obtain ⟨l₁, l₂, rfl, -⟩ := List.lookup_eq_some_iff.mp h
  simp

section

variable (hj : FilesInv snap P dbs ds qs j)
include hj

/-- Directories more: nothing else changes. -/
theorem FilesInv.grew {ds' : List Rel} (hinv : Inv P j') (hseen : SeenOk j')
    (hg : Grew P j j') (hds : ∀ d ∈ ds', d ∈ ds ∨ IsDir j'.place.tree d) :
    FilesInv snap P dbs ds' qs j' where
  inv := hinv
  seen := hseen
  dbs := by
    intro db hdb
    obtain ⟨hname, st, hst, hkind, hbytes⟩ := hj.dbs db hdb
    exact ⟨hname, st, (hg.name hname).trans hst, hkind,
      (congrFun hg.data _).trans hbytes⟩
  dirs := fun d hd => (hds d hd).elim (fun h => hg.dir d (hj.dirs d h)) id
  names := by
    intro q hq
    refine ⟨(hj.names q hq).1, (hj.names q hq).2.keep
      (hg.name (hj.names q hq).1) (fun st _ => congrFun hg.data _) ?_⟩
    intro ino first hlook
    obtain ⟨hfirst, -⟩ := hj.placed _ (lookup_mem hlook)
    exact ⟨hg.placed ▸ hlook, hg.name (hj.names first hfirst).1⟩
  placed := hg.placed ▸ hj.placed

/-- A name more, or one placed again, and its inode noted if it is the
first of it. -/
theorem FilesInv.add (noted : List (Nat × Rel)) (hp : Placed P n j j')
    (hname : P.name n) (hdb : n ∉ dbs)
    (hfirst : ∀ ino, (ino, n) ∈ j.placed → j'.stat n = j.stat n)
    (hnoted : ∀ x ∈ noted, x.2 = n ∧ Noted snap x.1 n ∧
      j.placed.lookup x.1 = none)
    (hback : Back snap { j' with placed := noted ++ j.placed } n) :
    FilesInv snap P dbs ds (qs ++ [n])
      { j' with placed := noted ++ j.placed } := by
  obtain ⟨hinv, hseen, hf⟩ := hp
  refine ⟨⟨hinv.rooted, hinv.fresh, hinv.dirs, hinv.names, hinv.made⟩, hseen,
    fun db hmem => ?_, fun d hd => hf.dir d (hj.dirs d hd), fun q hq => ?_,
    fun x hx => ?_⟩
  · obtain ⟨hdbname, st, hst, hkind, hbytes⟩ := hj.dbs db hmem
    refine ⟨hdbname, st, (hf.other db hdbname ?_).trans hst, hkind,
      (hf.data _ (hj.inv.fresh db st hst)).trans hbytes⟩
    rintro rfl
    exact hdb hmem
  · by_cases heq : q = n
    · rw [heq]
      exact ⟨hname, hback⟩
    have hq : q ∈ qs := (List.mem_append.mp hq).resolve_right fun h =>
      heq (List.mem_singleton.mp h)
    refine ⟨(hj.names q hq).1, (hj.names q hq).2.keep
      (hf.other q (hj.names q hq).1 heq)
      (fun st hst => hf.data _ (hj.inv.fresh q st hst)) ?_⟩
    intro ino first hlook
    obtain ⟨hmem, -⟩ := hj.placed _ (lookup_mem hlook)
    constructor
    · -- an inode that is noted now had no name before
      have hnone : noted.lookup ino = none := by
        refine List.lookup_eq_none_iff.mpr fun x hx => ?_
        rw [bne_iff_ne]
        rintro rfl
        rw [(hnoted x hx).2.2] at hlook
        cases hlook
      rw [List.lookup_append, hnone, Option.none_or, hlook]
    · by_cases hsame : first = n
      · subst hsame
        exact hfirst ino (lookup_mem hlook)
      · exact hf.other first (hj.names first hmem).1 hsame
  · rcases List.mem_append.mp hx with hx | hx
    · obtain ⟨hrel, hino, -⟩ := hnoted x hx
      rw [hrel]
      exact ⟨by simp, hino⟩
    · exact ⟨List.mem_append_left _ (hj.placed x hx).1, (hj.placed x hx).2⟩

/-- A name more, and no inode noted. -/
theorem FilesInv.addName (hp : Placed P n j j') (hname : P.name n)
    (hdb : n ∉ dbs) (hfirst : ∀ ino, (ino, n) ∈ j.placed → j'.stat n = j.stat n)
    (hback : Back snap j' n) : FilesInv snap P dbs ds (qs ++ [n]) j' := by
  have hplaced := hp.2.2.placed
  have hsame : { j' with placed := [] ++ j.placed } = j' := by
    rw [List.nil_append, ← hplaced]
  have hadd := hj.add [] hp hname hdb hfirst (by simp) (hsame ▸ hback)
  rwa [hsame] at hadd

end

end

section

variable {ds qs : List Rel} {j : Job}

section

variable (h)
include h

section

variable (hx : x ∈ finds)
include hx

theorem Ready.file (hf : f ∈ x.2.files) :
    ∃ st, snap.tree.stat (staged f.rel) = some st ∧
      st.kind = .file ∧ f = entryOf f.rel st :=
  ((h.find x hx).2.complete.sound.files f hf).2

theorem Ready.link (hl : l ∈ x.2.links) :
    ∃ st, snap.tree.stat (staged l.rel) = some st ∧
      st.kind = .link ∧ l.target = snap.data st.ino :=
  ((h.find x hx).2.complete.sound.links l hl).2

theorem Ready.not_db (hn : n ∈ x.2.names) : n ∉ dbs := by
  intro hdb
  exact (h.ofDatabase hdb).not_pre (h.find x hx).1
    ((h.find x hx).2.complete.sound.name hn).1 List.prefix_rfl

theorem Ready.name_dir (hn : n ∈ x.2.names) : h.plan.dir n.dropLast :=
  Ready.dropLast_dir ((h.find x hx).2.names n hn).ne (.inr ⟨x, hx, hn⟩)

end

end

/-- The way to each file is there once the tree's directories are. -/
theorem Complete.parent {f : Found} (hc : Complete snap ex p f) {e : Entry}
    (he : e ∈ f.files) (hsingle : f.single = false) :
    ∃ d ∈ f.dirs, d.rel = e.rel.dropLast := by
  obtain ⟨hunder, st, hst, hkind, -⟩ := hc.sound.files e he
  obtain ⟨top, htop, hdir⟩ := hc.dir hsingle
  -- the declared path is a directory, so the file is beneath it
  have hne : e.rel ≠ p := by
    intro heq
    rw [heq, htop] at hst
    cases hst
    rw [hkind] at hdir
    cases hdir
  have hnil : e.rel ≠ [] := by
    intro heq
    have := hunder.pre
    rw [heq, List.prefix_nil] at this
    exact hne (heq.trans this.symm)
  obtain ⟨d, name, heq, hlast⟩ := dropLast_concat_getLast hnil
  rw [hlast]
  have hpd : p <+: d := by
    have hpre := hunder.pre
    rw [heq] at hpre
    exact (List.prefix_concat_iff.mp hpre).resolve_left
      fun h => hne (heq.trans h.symm)
  have hd : Under ex p d := by
    refine ⟨hpd, fun r hpr hrp hrd => hunder.clear r hpr hrp ?_⟩
    rw [heq]
    exact hrd.trans (List.prefix_append _ _)
  rw [heq] at hst
  obtain ⟨sd, hsd, hdirkind⟩ := snap.rooted.parent (staged d) name st hst
  have := hc.lists d hd sd hsd
  rw [hdirkind] at this
  exact this

section

variable [env.Free] (hj : FilesInv snap h.plan dbs ds qs j)
include hj

theorem runs_mkdir_files {perm : Option Nat} (hq : h.plan.dir q) :
    Runs (mkdir env q perm) j fun _ j' =>
      FilesInv snap h.plan dbs (ds ++ [q]) qs j' := by
  refine (runs_mkdir hj.inv hj.seen hq).mono ?_
  rintro _ j' ⟨hinv, hseen, hg, hdir⟩
  exact hj.grew hinv hseen hg (forall_mem_concat (fun _ => .inl) (.inr hdir))

variable (hx : x ∈ finds)
include hx

/-- Another name of a file in place. -/
theorem runs_hardlink_files {first : Rel} (hf : f ∈ x.2.files)
    (hlook : j.placed.lookup f.ino = some first) :
    Runs (hardlink env first f.rel) j fun _ j' =>
      FilesInv snap h.plan dbs ds (qs ++ [f.rel]) j' := by
  have hn : f.rel ∈ x.2.names :=
    List.mem_append_left _ (List.mem_map_of_mem hf)
  obtain ⟨hmem, hfirst⟩ := hj.placed _ (lookup_mem hlook)
  obtain ⟨hname, hback⟩ := hj.names first hmem
  obtain ⟨s, st, hs, hst, hkind, hbytes⟩ := hback.same
  -- one inode of the snapshot: one content
  obtain ⟨sf, hsf, hsfile, hfe⟩ := h.file hx hf
  have hnoted : Noted snap f.ino f.rel :=
    ⟨hfirst.1, sf, hsf, hsfile, congrArg Entry.ino hfe.symm⟩
  obtain ⟨s', hs', hsfile', hino⟩ := hfirst.stat
  obtain ⟨sf', hsf', -, hino'⟩ := hnoted.stat
  rw [hs] at hs'
  cases hs'
  rw [hsf] at hsf'
  cases hsf'
  refine (runs_hardlink hj.inv hj.seen (.inl ⟨x, hx, hn⟩) (h.name_dir hx hn)
    hname hst).mono ?_
  rintro _ j' ⟨hp, hat⟩
  have hplaced := hp.2.2.placed
  -- done before, it is the first name's inode already
  have hstay : ∀ ino, (ino, f.rel) ∈ j.placed → j.stat f.rel = some st := by
    intro ino hmem
    obtain ⟨first', hlook', hat'⟩ :=
      (hj.names f.rel (hj.placed _ hmem).1).2.first _ hnoted
    rw [hlook] at hlook'
    cases hlook'
    rw [← hat', hst]
  refine hj.addName hp (.inl ⟨x, hx, hn⟩) (h.not_db hx hn)
    (fun ino hmem => hat.trans (hstay ino hmem).symm)
    ⟨⟨sf, st, hsf, hat, ?_, ?_⟩, ?_⟩
  · rw [hkind, hsfile, hsfile']
  · rw [hp.2.2.data _ (hj.inv.fresh first st hst), hbytes, hino, hino']
  · intro ino hino
    obtain rfl := hino.ino_eq hnoted
    refine ⟨first, hplaced ▸ hlook, ?_⟩
    by_cases hsame : first = f.rel
    · rw [hsame]
    · rw [hat, hp.2.2.other first hname hsame, hst]

/-- A file of its own, noted if it is the first of its inode. -/
theorem runs_copyFile_files (hf : f ∈ x.2.files) (hdir : f.rel.dropLast ∈ ds)
    (hnone : f.ino ≠ 0 → j.placed.lookup f.ino = none) :
    Runs (do
      copyFile env snap (staged f.rel) f.rel f.perm
      if f.ino ≠ 0 then
        modify fun j => { j with placed := (f.ino, f.rel) :: j.placed }) j
      fun _ j' => FilesInv snap h.plan dbs ds (qs ++ [f.rel]) j' := by
  have hn : f.rel ∈ x.2.names :=
    List.mem_append_left _ (List.mem_map_of_mem hf)
  obtain ⟨st, hst, hkind, hfe⟩ := h.file hx hf
  have hino : ∀ ino, Noted snap ino f.rel → ino = f.ino := by
    rintro ino ⟨-, s, hs, -, rfl⟩
    rw [hst] at hs
    cases hs
    exact congrArg Entry.ino hfe.symm
  refine Leaves.bind (runs_copyFile hj.inv hj.seen (.inl ⟨x, hx, hn⟩)
    (hj.dirs _ hdir) hst hkind) ?_
  rintro _ j' ⟨hp, hat, hbytes⟩
  -- a first name at its place would be its own, and noted
  have hfirst : ∀ ino, (ino, f.rel) ∈ j.placed →
      j'.stat f.rel = j.stat f.rel := by
    intro ino hmem
    have hnoted := (hj.placed _ hmem).2
    obtain rfl := hino ino hnoted
    have := List.lookup_eq_none_iff.mp (hnone hnoted.1) _ hmem
    simp at this
  refine leaves_ite (fun hne => leaves_modify ?_) fun hzero => leaves_pure ?_
  · rw [hp.2.2.placed]
    refine hj.add [(f.ino, f.rel)] hp (.inl ⟨x, hx, hn⟩) (h.not_db hx hn) hfirst
      ?_ ⟨⟨st, _, hst, hat, hkind.symm, hbytes⟩, fun ino hnoted => ?_⟩
    · rintro y hy
      rw [List.mem_singleton.mp hy]
      exact ⟨rfl, ⟨hne, st, hst, hkind, congrArg Entry.ino hfe.symm⟩, hnone hne⟩
    · rw [hino ino hnoted]
      exact ⟨f.rel, by simp, rfl⟩
  · refine hj.addName hp (.inl ⟨x, hx, hn⟩) (h.not_db hx hn) hfirst
      ⟨⟨st, _, hst, hat, hkind.symm, hbytes⟩, fun ino hnoted => ?_⟩
    exact absurd (hino ino hnoted ▸ hnoted.1) hzero

theorem runs_installFile (hf : f ∈ x.2.files) (hdir : f.rel.dropLast ∈ ds) :
    Runs (installFile env snap f) j fun _ j' =>
      FilesInv snap h.plan dbs ds (qs ++ [f.rel]) j' := by
  refine leaves_get ?_
  by_cases hino : f.ino = 0
  · rw [if_pos hino]
    exact runs_copyFile_files hj hx hf hdir fun hne => absurd hino hne
  · rw [if_neg hino]
    cases hlook : j.placed.lookup f.ino with
    | some first => exact runs_hardlink_files hj hx hf hlook
    | none => exact runs_copyFile_files hj hx hf hdir fun _ => hlook

theorem runs_symlink_files (hl : l ∈ x.2.links) :
    Runs (symlink env l.rel l.target) j fun _ j' =>
      FilesInv snap h.plan dbs ds (qs ++ [l.rel]) j' := by
  have hn : l.rel ∈ x.2.names :=
    List.mem_append_right _ (List.mem_map_of_mem hl)
  obtain ⟨st, hst, hkind, htext⟩ := h.link hx hl
  -- a link is no file
  have hnot : ∀ ino, ¬ Noted snap ino l.rel := by
    rintro ino ⟨-, s, hs, hfile, -⟩
    rw [hst] at hs
    cases hs
    rw [hkind] at hfile
    cases hfile
  refine (runs_symlink hj.inv hj.seen (.inl ⟨x, hx, hn⟩)
    (h.name_dir hx hn)).mono ?_
  rintro _ j' ⟨hp, st', hst', hkind', hbytes⟩
  exact hj.addName hp (.inl ⟨x, hx, hn⟩) (h.not_db hx hn)
    (fun ino hmem => absurd (hj.placed _ hmem).2 (hnot ino))
    ⟨⟨st, st', hst, hst', hkind'.trans hkind.symm, hbytes.trans htext⟩,
      fun ino hnoted => absurd hnoted (hnot ino)⟩

/-- The directory a declared file or link goes to. -/
theorem runs_above :
    Runs (if x.2.single then mkdir env x.1.dropLast none else pure ()) j
      fun _ j' => ∃ ds', ds ⊆ ds' ∧ (x.2.single → x.1.dropLast ∈ ds') ∧
        FilesInv snap h.plan dbs ds' qs j' := by
  refine leaves_ite (fun hs => ?_) fun hs => ?_
  · have hname := ((h.find x hx).2.complete.single hs).1
    refine (runs_mkdir_files hj (h.name_dir hx hname)).mono fun _ j' hj' => ?_
    exact ⟨_, List.subset_append_left _ _, fun _ => by simp, hj'⟩
  · exact leaves_pure ⟨ds, List.Subset.refl _, fun h => absurd h hs, hj⟩

/-- The directories of a tree. -/
theorem runs_dirs :
    Runs (x.2.dirs.forM fun d => mkdir env d.rel (some d.perm)) j fun _ j' =>
      FilesInv snap h.plan dbs (ds ++ x.2.dirs.map (·.rel)) qs j' := by
  refine leaves_forM (fun done : List Entry => FilesInv snap h.plan dbs
    (ds ++ done.map Entry.rel) qs) [] (by simpa using hj) ?_
  intro done d j₁ hd hj₁
  have hdir : h.plan.dir d.rel :=
    .inl ⟨x, hx, .inl ⟨d, hd, List.prefix_rfl⟩⟩
  refine (runs_mkdir_files hj₁ hdir).mono fun _ j₂ hj₂ => ?_
  simpa using hj₂

/-- The files of a tree, whose directories are there. -/
theorem runs_files (hparent : ∀ e ∈ x.2.files, e.rel.dropLast ∈ ds) :
    Runs (x.2.files.forM (installFile env snap)) j fun _ j' =>
      FilesInv snap h.plan dbs ds (qs ++ x.2.files.map (·.rel)) j' := by
  refine leaves_forM (fun done : List Entry => FilesInv snap h.plan dbs ds
    (qs ++ done.map Entry.rel)) [] (by simpa using hj) ?_
  intro done f j₁ hf hj₁
  refine (runs_installFile hj₁ hx hf (hparent f hf)).mono fun _ j₂ hj₂ => ?_
  simpa using hj₂

/-- The links of a tree. -/
theorem runs_links :
    Runs (x.2.links.forM fun l => symlink env l.rel l.target) j fun _ j' =>
      FilesInv snap h.plan dbs ds (qs ++ x.2.links.map (·.rel)) j' := by
  refine leaves_forM (fun done : List Link => FilesInv snap h.plan dbs ds
    (qs ++ done.map Link.rel)) [] (by simpa using hj) ?_
  intro done l j₁ hl hj₁
  refine (runs_symlink_files hj₁ hx hl).mono fun _ j₂ hj₂ => ?_
  simpa using hj₂

/-- One files path. -/
theorem runs_installFiles :
    Runs (installFiles env snap x.1 x.2) j fun _ j' => ∃ ds', ds ⊆ ds' ∧
      (∀ d ∈ x.2.dirs, d.rel ∈ ds') ∧
      FilesInv snap h.plan dbs ds' (qs ++ x.2.names) j' := by
  have hc := (h.find x hx).2.complete
  refine Leaves.bind (runs_above hj hx) ?_
  rintro _ j₁ ⟨ds₁, hsub, hsingle, hj₁⟩
  refine Leaves.bind (runs_dirs hj₁ hx) fun _ j₂ hj₂ => ?_
  have hparent : ∀ e ∈ x.2.files,
      e.rel.dropLast ∈ ds₁ ++ x.2.dirs.map (·.rel) := by
    intro e he
    cases hs : x.2.single with
    | true =>
      rw [(hc.single hs).2 e he]
      exact List.mem_append_left _ (hsingle hs)
    | false =>
      obtain ⟨d, hd, heq⟩ := hc.parent he hs
      exact List.mem_append_right _ (heq ▸ List.mem_map_of_mem hd)
  refine Leaves.bind (runs_files hj₂ hx hparent) fun _ j₃ hj₃ => ?_
  refine (runs_links hj₃ hx).mono fun _ j₄ hj₄ => ?_
  rw [List.append_assoc] at hj₄
  exact ⟨_, List.Subset.trans hsub (List.subset_append_left _ _),
    fun d hd => List.mem_append_right _ (List.mem_map_of_mem hd), hj₄⟩

end

-- ====== both phases

/-- Every database. -/
theorem runs_databases [env.Free]
    (hsqlite : ∀ live copy, Opens live → header.isPrefixOf copy →
      (env.checkCopy copy).1 = true → env.restoreOver live copy = .ok copy)
    (hj : DbInv snap h.plan dbs t [] j) :
    Runs (dbs.forM (installDatabase env snap)) j fun _ j' =>
      FilesInv snap h.plan dbs [] [] j' := by
  refine (leaves_forM
    (fun done j => done ⊆ dbs ∧ DbInv snap h.plan dbs t done j) []
    ⟨by simp, hj⟩ ?_).mono ?_
  · rintro done db j₁ hdb ⟨hdone, hj₁⟩
    refine (runs_installDatabase hsqlite hj₁ hdone hdb).mono fun _ j₂ hj₂ => ?_
    exact ⟨forall_mem_concat (fun q hq => hdone hq) hdb, hj₂⟩
  · rintro _ j' ⟨-, hj'⟩
    rw [List.nil_append] at hj'
    refine ⟨hj'.inv, hj'.seen, fun db hdb => ?_, by simp, by simp,
      by simp [hj'.placed]⟩
    obtain ⟨st, hst, hbytes⟩ := hj'.done db hdb
    exact ⟨.inr (.inl hdb), st, hst, (hj'.live db hdb st hst).1, hbytes⟩

/-- Every files path, after the databases. -/
theorem runs_finds [env.Free] (hj : FilesInv snap h.plan dbs [] [] j) :
    Runs (finds.forM fun x => installFiles env snap x.1 x.2) j fun _ j' =>
      ∃ ds, (∀ x ∈ finds, ∀ d ∈ x.2.dirs, d.rel ∈ ds) ∧
        FilesInv snap h.plan dbs ds (finds.flatMap (·.2.names)) j' := by
  refine leaves_forM (f := fun x : Rel × Found => installFiles env snap x.1 x.2)
    (fun done j => ∃ ds, (∀ x ∈ done, ∀ d ∈ x.2.dirs, d.rel ∈ ds) ∧
      FilesInv snap h.plan dbs ds (done.flatMap (·.2.names)) j) []
    ⟨[], by simp, hj⟩ ?_
  rintro done x j₁ hx ⟨ds, hds, hj₁⟩
  refine (runs_installFiles hj₁ hx).mono ?_
  rintro _ j₂ ⟨ds', hsub, hdirs, hj₂⟩
  exact ⟨ds', forall_mem_concat (fun y hy d hd => hsub (hds y hy d hd)) hdirs,
    by simpa using hj₂⟩

end

end

end Hotserve.Restore
