/-
A whole run of a restore: the checks all pass or nothing is changed, and
when they pass every item is put back (`restore_all_or_nothing`).
-/
import Hotserve.Restore.Proofs.Restored

namespace Hotserve.Restore

open Bytes Fs Effect
open Backup (OpenErr lookAt Config sidecars)

-- ====== the last modes

/-- Only modes changed. -/
structure Moded (j j' : Job) : Prop where
  stat : ∀ q st, j.stat q = some st → ∃ st', j'.stat q = some st' ∧
    st'.kind = st.kind ∧ st'.ino = st.ino
  data : j'.data = j.data

theorem Moded.refl (j : Job) : Moded j j :=
  ⟨fun _ st hst => ⟨st, hst, rfl, rfl⟩, rfl⟩

theorem Moded.trans {j₁ j₂ j₃ : Job} (h : Moded j₁ j₂) (h' : Moded j₂ j₃) :
    Moded j₁ j₃ where
  stat := by
    intro q st hst
    obtain ⟨st₂, hst₂, hkind₂, hino₂⟩ := h.stat q st hst
    obtain ⟨st₃, hst₃, hkind₃, hino₃⟩ := h'.stat q st₂ hst₂
    exact ⟨st₃, hst₃, hkind₃.trans hkind₂, hino₃.trans hino₂⟩
  data := h'.data.trans h.data

variable {j : Job} {q : Rel} {st : Stat}

theorem Moded.isDir {j' : Job} (h : Moded j j') (hq : IsDir j.place.tree q) :
    IsDir j'.place.tree q := by
  obtain ⟨st, hst, hkind⟩ := hq
  obtain ⟨st', hst', hkind', -⟩ := h.stat q st hst
  exact ⟨st', hst', hkind'.trans hkind⟩

/-- A directory's mode, set. -/
theorem runs_chmod_dir {d : Rel × Nat} (hj : Rooted j.place.tree)
    (hd : IsDir j.place.tree d.1) :
    Runs (chmod d.1 d.2) j fun _ j' => Rooted j'.place.tree ∧ Moded j j' := by
  obtain ⟨st, hst, hkind⟩ := hd
  have hkeep : IsDir j.place.tree d.1 →
      ∃ s, some { st with perm := d.2 } = some s ∧ s.kind = .dir :=
    fun _ => ⟨_, rfl, hkind⟩
  refine leaves_get ?_
  rw [hst]
  refine leaves_modify
    ⟨hj.put (fun _ => hj.up hst) hkeep, fun q s hs => ?_, rfl⟩
  by_cases hq : q = d.1
  · subst hq
    have : j.place.tree.stat d.1 = some s := hs
    rw [hst] at this
    cases this
    exact ⟨_, put_self .., rfl, rfl⟩
  · exact ⟨s, (put_ne _ _ hq).trans hs, rfl, rfl⟩

/-- The modes go through: what was made is there, and a directory. -/
theorem runs_closeDirs (env : Env) [env.Free] (hj : Rooted j.place.tree)
    (hmade : ∀ d ∈ j.made, IsDir j.place.tree d.1) :
    Runs (closeDirs env) j fun errs j' =>
      errs = [] ∧ Rooted j'.place.tree ∧ Moded j j' := by
  refine leaves_get ?_
  refine Leaves.bind (leaves_mapM (fun j' => Rooted j'.place.tree ∧ Moded j j')
    (fun errs => errs = []) ⟨hj, Moded.refl j⟩ ?_) ?_
  · rintro d j₁ hd ⟨hj₁, hm₁⟩
    have hdir := hm₁.isDir (hmade d ((List.mem_insertionSort _).mp hd))
    refine leaves_get ?_
    rw [openDir_free hj₁ hdir]
    refine Leaves.bind (runs_chmod_dir hj₁ hdir) ?_
    rintro _ j₂ ⟨hj₂, hm₂⟩
    exact leaves_pure ⟨rfl, hj₂, hm₁.trans hm₂⟩
  rintro errs j' ⟨herrs, hj', hm⟩
  refine Leaves.bind (P := fun _ j'' => Rooted j''.place.tree ∧ Moded j j'')
    (leaves_modify ⟨hj', hm.stat, hm.data⟩) fun _ j'' hm'' => ?_
  exact leaves_pure ⟨List.flatten_eq_nil_iff.mpr herrs, hm''⟩

-- ====== the items

variable {env : Env} {snap : Snapshot}

theorem installAll_of_forM : ∀ {l : List (Item × Option Found)} {j j' : Job},
      (∀ it ∈ l, it.1.cls = .ok) →
      l.forM (installItem env snap) j = .ok ⟨⟩ j' →
      installAll env snap l j = (l.map Prod.fst, j')
  | [], j, j', _, h => by
    cases h
    rfl
  | it :: l, j, j', hok, h => by
    have hit := hok it (.head _)
    change EStateM.bind (installItem env snap it)
      (fun _ => l.forM (installItem env snap)) j = _ at h
    rw [EStateM.bind] at h
    rw [installAll, if_neg (not_not.mpr hit)]
    split at h
    next u j₁ heq =>
      cases u
      have ih := installAll_of_forM
        (fun x hx => hok x (.tail _ hx)) h
      rw [heq]
      dsimp only
      rw [ih]
      rfl
    next => cases h

theorem installItem_database {target : Option Tree} (db : Rel) :
    installItem env snap (checkDatabase env snap target db, none) =
      installDatabase env snap db := by
  unfold installItem checkDatabase
  rcases (checkCopyOf env snap db >>= fun _ => _ : Except Fault Unit) with e | u
  · rfl
  · rfl

/-- The trees of items that passed. -/
def findsOf (items : List (Item × Option Found)) : List (Rel × Found) :=
  items.filterMap fun it => it.2.map fun f => (it.1.path, f)

theorem forM_installItem_files : ∀ {items : List (Item × Option Found)},
      (∀ it ∈ items, ∃ p f, it = (⟨.files, p, .ok, []⟩, some f)) →
      items.forM (installItem env snap) =
        (findsOf items).forM fun x => installFiles env snap x.1 x.2
  | [], _ => rfl
  | it :: items, h => by
    obtain ⟨p, f, rfl⟩ := h it (.head _)
    have ih : items.forM (installItem env snap) = _ :=
      forM_installItem_files fun x hx => h x (.tail _ hx)
    change (installFiles env snap p f >>= fun _ =>
      items.forM (installItem env snap)) = _
    rw [ih]
    rfl

theorem readPlan_valid {decl : Config}
    (h : readPlan env snap = .ok decl) : decl.validate env.quote = .ok () := by
  unfold readPlan at h
  split at h
  · cases h
  · cases h
  · split at h
    · cases h
    · dsimp only at h
      obtain ⟨-, h⟩ := passed h
      obtain ⟨d, -, h⟩ := Except.bind_eq_ok.mp h
      obtain ⟨u, hv, h⟩ := Except.bind_eq_ok.mp h
      cases h
      exact hv

section

variable {env : Env} {snap : Snapshot} {decl : Config} {target : Place}

/-- Every item's check, and what it says. -/
def checked (env : Env) (snap : Snapshot) (target : Place) (decl : Config) :
    List Item :=
  (checks env snap (some target.tree) decl).map Prod.fst

/-- The check of each declared files path. -/
def fileChecks (env : Env) (snap : Snapshot) (target : Place) (decl : Config) :
    List (Item × Option Found) :=
  (decl.files.map Path.comps).map
    (checkFiles env snap (some target.tree) (excluded decl) (databases decl))

-- ====== the spec

/-- The snapshot has `st` at `q`, for a declared files path, and neither
`q` nor anything above it is a declared database or a sidecar of one. -/
def Holds (snap : Snapshot) (decl : Config) (q : Rel) (st : Stat) : Prop :=
  snap.tree.stat (staged q) = some st ∧
    (∃ p ∈ decl.files.map Path.comps, p <+: q) ∧
    ∀ r, r <+: q → excluded decl r = false

/-- What a restore is for. -/
structure Restored (snap : Snapshot) (decl : Config) (t : Tree) : Prop where
  /-- Files, directories and links are in their places. -/
  entry : ∀ q st, Holds snap decl q st →
    st.kind = .file ∨ st.kind = .dir ∨ st.kind = .link →
    ∃ st', t.stat q = some st' ∧ st'.kind = st.kind ∧
      (st.kind ≠ .dir → t.data st'.ino = snap.data st.ino)
  /-- Names of one file are again. -/
  inode : ∀ q q' st st', Holds snap decl q st → Holds snap decl q' st' →
    st.kind = .file → st.ino = st'.ino →
    ∃ at_, t.stat q = some at_ ∧ ∃ at', t.stat q' = some at' ∧
      at_.ino = at'.ino
  database : ∀ db ∈ databases decl, ∃ st, t.stat db = some st ∧
    st.kind = .file ∧ t.data st.ino = copyContent snap db

theorem Restored.moded {j' : Job} (h : Restored snap decl j.place.tree)
    (hm : Moded j j') : Restored snap decl j'.place.tree where
  entry := by
    intro q st hq hkind
    obtain ⟨st₁, hst₁, hkind₁, hbytes⟩ := h.entry q st hq hkind
    obtain ⟨st₂, hst₂, hkind₂, hino⟩ := hm.stat q st₁ hst₁
    refine ⟨st₂, hst₂, hkind₂.trans hkind₁, fun hne => ?_⟩
    rw [hino, ← hbytes hne]
    exact congrFun hm.data st₁.ino
  inode := by
    intro q q' st st' hq hq' hkind hino
    obtain ⟨a, ha, b, hb, hab⟩ := h.inode q q' st st' hq hq' hkind hino
    obtain ⟨a', ha', -, haino⟩ := hm.stat q a ha
    obtain ⟨b', hb', -, hbino⟩ := hm.stat q' b hb
    exact ⟨a', ha', b', hb', by rw [haino, hbino, hab]⟩
  database := by
    intro db hdb
    obtain ⟨st₁, hst₁, hkind₁, hbytes⟩ := h.database db hdb
    obtain ⟨st₂, hst₂, hkind₂, hino⟩ := hm.stat db st₁ hst₁
    refine ⟨st₂, hst₂, hkind₂.trans hkind₁, ?_⟩
    rw [hino, ← hbytes]
    exact congrFun hm.data st₁.ino

-- ====== the checks

section

variable (ht : Passable env target.tree)
  (hall : ∀ it ∈ checked env snap target decl, it.cls = .ok)
include ht hall

theorem fileCheck_ok {p : Rel} (hp : p ∈ decl.files.map Path.comps) :
    ∃ f, checkFiles env snap (some target.tree) (excluded decl)
        (databases decl) p = (⟨.files, p, .ok, []⟩, some f) ∧
      FilesReady snap (excluded decl) (databases decl) target.tree p f := by
  refine checkFiles_ok ht (hall _ (List.mem_map_of_mem ?_))
  exact List.mem_append_right _ (List.mem_map_of_mem hp)

/-- Every check passing is all a restore needs. -/
theorem ready_of_checked (hv : decl.validate env.quote = .ok ()) :
    Ready env snap (excluded decl) (databases decl)
      (decl.files.map Path.comps) target.tree
      (findsOf (fileChecks env snap target decl)) where
  rooted := ht.toRooted
  apart := apart hv
  leftOut := by
    intro db hdb
    have hany : ∀ q, q = db ∨ q ∈ sidecars.map (beside db) →
        excluded decl q = true := by
      intro q hq
      refine List.any_eq_true.mpr ⟨db, hdb, ?_⟩
      simpa using hq
    exact ⟨hany db (.inl rfl),
      fun s hs => hany _ (.inr (List.mem_map_of_mem hs))⟩
  db := by
    intro db hdb
    refine checkDatabase_ok ht (hall _ ?_)
    exact List.mem_map_of_mem (List.mem_append_left _ (List.mem_map_of_mem hdb))
  find := by
    intro x hx
    obtain ⟨it, hit, hsome⟩ := List.mem_filterMap.mp hx
    obtain ⟨p, hp, rfl⟩ := List.mem_map.mp hit
    obtain ⟨f, heq, hready⟩ := fileCheck_ok ht hall hp
    rw [heq] at hsome
    cases hsome
    exact ⟨hp, hready⟩

theorem find_of_path {p : Rel} (hp : p ∈ decl.files.map Path.comps) :
    ∃ f, (p, f) ∈ findsOf (fileChecks env snap target decl) ∧
      FilesReady snap (excluded decl) (databases decl) target.tree p f := by
  obtain ⟨f, heq, hready⟩ := fileCheck_ok ht hall hp
  refine ⟨f, List.mem_filterMap.mpr ⟨_, List.mem_map_of_mem hp, ?_⟩, hready⟩
  rw [heq]
  rfl

/-- The installs are the databases', then the trees'. -/
theorem forM_checks :
    (checks env snap (some target.tree) decl).forM (installItem env snap) =
      (do
        (databases decl).forM (installDatabase env snap)
        (findsOf (fileChecks env snap target decl)).forM fun x =>
          installFiles env snap x.1 x.2) := by
  have hfiles : ∀ it ∈ fileChecks env snap target decl,
      ∃ p f, it = (⟨.files, p, .ok, []⟩, some f) := by
    intro it hit
    obtain ⟨p, hp, rfl⟩ := List.mem_map.mp hit
    obtain ⟨f, heq, -⟩ := fileCheck_ok ht hall hp
    exact ⟨p, f, heq⟩
  have hdbs : ∀ dbs : List Rel,
      (dbs.map fun db => (checkDatabase env snap (some target.tree) db,
        (none : Option Found))).forM (installItem env snap) =
        dbs.forM (installDatabase env snap) := by
    intro dbs
    rw [List.forM_eq_forM, List.forM_eq_forM, List.forM_map]
    congr 1
    funext db
    exact installItem_database db
  rw [← forM_installItem_files hfiles, ← hdbs, checks, List.forM_eq_forM,
    List.forM_append]
  rfl

/-- Whatever the snapshot holds for a declared path is in its lists. -/
theorem Holds.listed (hq : Holds snap decl q st) :
    ∃ x ∈ findsOf (fileChecks env snap target decl), x.2.Has st.kind q := by
  obtain ⟨hst, ⟨p, hp, hpre⟩, hclear⟩ := hq
  obtain ⟨f, hf, hready⟩ := find_of_path ht hall hp
  exact ⟨(p, f), hf, hready.complete.lists q
    ⟨hpre, fun r _ _ hr => hclear r hr⟩ st hst⟩

variable {h : Ready env snap (excluded decl) (databases decl)
    (decl.files.map Path.comps) target.tree
    (findsOf (fileChecks env snap target decl))}
  {ds : List Rel} {j : Job}

theorem Holds.back (hq : Holds snap decl q st)
    (hkind : st.kind = .file ∨ st.kind = .link)
    (hj : FilesInv snap h.plan (databases decl) ds
      ((findsOf (fileChecks env snap target decl)).flatMap (·.2.names)) j) :
    Back snap j q := by
  obtain ⟨x, hx, hhas⟩ := hq.listed ht hall
  refine (hj.names q (List.mem_flatMap.mpr ⟨x, hx, ?_⟩)).2
  rcases hkind with hkind | hkind <;> rw [hkind] at hhas
  · obtain ⟨e, he, rfl⟩ := hhas
    exact List.mem_append_left _ (List.mem_map_of_mem he)
  · obtain ⟨l, hl, rfl⟩ := hhas
    exact List.mem_append_right _ (List.mem_map_of_mem hl)

/-- Both phases done, the snapshot is back. -/
theorem FilesInv.restored
    (hds : ∀ x ∈ findsOf (fileChecks env snap target decl), ∀ d ∈ x.2.dirs,
      d.rel ∈ ds) (hj : FilesInv snap h.plan (databases decl) ds
      ((findsOf (fileChecks env snap target decl)).flatMap (·.2.names)) j) :
    Restored snap decl j.place.tree where
  entry := by
    intro q st hq hkind
    by_cases hdir : st.kind = .dir
    · obtain ⟨x, hx, hhas⟩ := hq.listed ht hall
      rw [hdir] at hhas
      obtain ⟨d, hd, rfl⟩ := hhas
      obtain ⟨at_, hat, hdir'⟩ := hj.dirs _ (hds x hx d hd)
      exact ⟨at_, hat, hdir'.trans hdir.symm, fun hne => absurd hdir hne⟩
    · have hkind : st.kind = .file ∨ st.kind = .link :=
        hkind.imp_right fun h => h.resolve_left hdir
      obtain ⟨st', at_, hst', hat, hsame, hbytes⟩ :=
        (hq.back ht hall hkind hj).same
      rw [hq.1] at hst'
      cases hst'
      exact ⟨at_, hat, hsame, fun _ => hbytes⟩
  inode := by
    intro q q' st st' hq hq' hkind hino
    have hmem := Snapshot.mem_of_stat hq.1
    have hmem' := Snapshot.mem_of_stat hq'.1
    obtain ⟨rfl, hlinks⟩ := snap.inode _ hmem _ hmem' hino
    have hback := hq.back ht hall (.inl hkind) hj
    have hback' := hq'.back ht hall (.inl hkind) hj
    obtain ⟨-, a, -, ha, -⟩ := hback.same
    obtain ⟨-, b, -, hb, -⟩ := hback'.same
    refine ⟨a, ha, b, hb, ?_⟩
    suffices hsame : j.stat q = j.stat q' by
      rw [ha, hb] at hsame
      rw [Option.some.inj hsame]
    by_cases heq : q = q'
    · rw [heq]
    · -- several names: both are linked to the first one placed
      have hmany : 1 < st.nlink := hlinks fun h => heq (by
        simpa [staged] using h)
      have hnoted : ∀ r, snap.tree.stat (staged r) = some st →
          Noted snap st.ino r :=
        fun r hr => ⟨snap.ino_ne _ hmem, st, hr, hkind, if_pos hmany⟩
      obtain ⟨first, hlook, hat⟩ := hback.first _ (hnoted q hq.1)
      obtain ⟨first', hlook', hat'⟩ := hback'.first _ (hnoted q' hq'.1)
      rw [hlook] at hlook'
      cases hlook'
      rw [← hat, hat']
  database := fun db hdb => (hj.dbs db hdb).2

-- ====== the run

theorem runs_checks [env.Free] (hv : decl.validate env.quote = .ok ())
    (hfresh : ∀ q st, target.tree.stat q = some st → st.ino < target.next)
    (hsqlite : ∀ live copy, Opens live → header.isPrefixOf copy →
      (env.checkCopy copy).1 = true → env.restoreOver live copy = .ok copy)
    (hinodes : ∀ db ∈ databases decl, ∀ db' ∈ databases decl, ∀ st st',
      target.tree.stat db = some st → target.tree.stat db' = some st' →
      st.ino = st'.ino → db = db') :
    Runs ((checks env snap (some target.tree) decl).forM
      (installItem env snap)) ⟨target, [], [], []⟩ fun _ j' =>
      Restored snap decl j'.place.tree ∧ Rooted j'.place.tree ∧
        ∀ d ∈ j'.made, IsDir j'.place.tree d.1 := by
  have h := ready_of_checked ht hall hv
  have hstart : DbInv snap h.plan (databases decl) target.tree []
      ⟨target, [], [], []⟩ :=
    ⟨h.inv hfresh, by simp [SeenOk], rfl, fun db hdb => (h.db db hdb).place,
      fun _ _ hgone => hgone, hinodes, by simp⟩
  rw [forM_checks ht hall]
  refine Leaves.bind (runs_databases hsqlite hstart) fun _ j₁ hj₁ => ?_
  refine (runs_finds hj₁).mono ?_
  rintro _ j₂ ⟨ds, hds, hj₂⟩
  exact ⟨hj₂.restored ht hall hds, hj₂.inv.rooted, hj₂.inv.made⟩

end

/-- A restore of everything or nothing: it changes nothing, or puts back
all the snapshot holds. -/
theorem restore_all_or_nothing (hplan : readPlan env snap = .ok decl)
    (ht : Rooted target.tree) (hlets : ∀ bits mode, env.lets bits mode = true)
    (hfresh : ∀ q st, target.tree.stat q = some st → st.ino < target.next)
    (hsqlite : ∀ live copy, Opens live → header.isPrefixOf copy →
      (env.checkCopy copy).1 = true → env.restoreOver live copy = .ok copy)
    (hinodes : ∀ db ∈ databases decl, ∀ db' ∈ databases decl, ∀ st st',
      target.tree.stat db = some st → target.tree.stat db' = some st' →
      st.ino = st'.ino → db = db') :
    ((∃ it ∈ checked env snap target decl, it.cls ≠ .ok) →
      (run env snap target .allOrNothing).2 = target ∧
        (run env snap target .allOrNothing).1.changed = false) ∧
    ((∀ it ∈ checked env snap target decl, it.cls = .ok) →
      (run env snap target .allOrNothing).1.items =
          checked env snap target decl ∧
        Restored snap decl (run env snap target .allOrNothing).2.tree) := by
  have hmode : ¬ Mode.allOrNothing = Mode.checkOnly := by decide
  constructor
  · rintro ⟨it, hit, hbad⟩
    have hfail :
        (!(checked env snap target decl).all (·.cls == .ok)) = true := by
      rw [Bool.not_eq_true', List.all_eq_false]
      exact ⟨it, hit, by simpa using hbad⟩
    unfold run
    rw [hplan]
    dsimp only
    rw [if_neg hmode, if_neg hmode, if_pos ⟨hfail, rfl⟩]
    exact ⟨rfl, rfl⟩
  · intro hall
    have hpass :
        ¬ ((!(checked env snap target decl).all (·.cls == .ok)) = true ∧
        Mode.allOrNothing = Mode.allOrNothing) := by
      rw [Bool.not_eq_true', List.all_eq_false]
      rintro ⟨⟨it, hit, hbad⟩, -⟩
      exact hbad (by simp [hall it hit])
    have hfree : env.Free := ⟨hlets⟩
    obtain ⟨_, j, hj, hrest, hrooted, hmade⟩ := (runs_checks ht.passable hall
      (readPlan_valid hplan) hfresh hsqlite hinodes).ok
    obtain ⟨errs, j', hclose, rfl, hrooted', hm⟩ :=
      (runs_closeDirs env hrooted hmade).ok
    have hdone := installAll_of_forM
      (fun it hit => hall it.1 (List.mem_map_of_mem hit)) hj
    unfold run
    rw [hplan]
    dsimp only
    rw [checked] at hpass
    rw [if_neg hmode, if_neg hmode, if_neg hpass, hdone]
    simp only [close, hclose, flush, openDir_free hrooted' hrooted'.root]
    exact ⟨rfl, hrest.moded hm⟩

end

-- ====== an instance

def exampleEnv : Env where
  quote := id
  errText := fun _ => []
  typeText := fun _ => []
  decode := fun _ => .ok ⟨[str "x.db"], [str "."]⟩
  checkCopy := fun _ => (true, [])
  restoreOver := fun _ copy => .ok copy
  lets := fun _ _ => true

/-- A file with two names, a link, and a directory where the database
would have its log. -/
def exampleSnapshot : Snapshot where
  entries := [([], ⟨.dir, 1, 1, 0, 0, 0o700⟩),
    ([str "plan.json"], ⟨.file, 2, 1, 0, 0, 0o600⟩),
    ([str "sqlite"], ⟨.dir, 3, 1, 0, 0, 0o700⟩),
    ([str "sqlite", str "x.db"], ⟨.file, 4, 1, 0, 0, 0o600⟩),
    ([str "files"], ⟨.dir, 5, 1, 0, 0, 0o750⟩),
    ([str "files", str "a"], ⟨.file, 6, 2, 0, 0, 0o640⟩),
    ([str "files", str "b"], ⟨.file, 6, 2, 0, 0, 0o640⟩),
    ([str "files", str "l"], ⟨.link, 7, 1, 0, 0, 0o777⟩),
    ([str "files", str "x.db-wal"], ⟨.dir, 8, 1, 0, 0, 0o700⟩),
    ([str "files", str "x.db-wal", str "f"], ⟨.file, 9, 1, 0, 0, 0o600⟩)]
  data := fun ino =>
    if ino = 4 then header else if ino = 6 then str "hi" else str "a"
  root := ⟨_, rfl, rfl⟩
  parent := by decide +kernel
  nodup := by decide +kernel
  inode := by decide +kernel
  ino_ne := by decide +kernel

/-- An empty directory. -/
def exampleTarget : Place where
  tree := ⟨fun rel => if rel = [] then some ⟨.dir, 1, 1, 0, 0, 0o700⟩ else none,
    fun _ => []⟩
  next := 2

theorem exampleTarget_rooted : Rooted exampleTarget.tree where
  root := ⟨_, rfl, rfl⟩
  parent := by
    intro rel name st hst
    simp [exampleTarget] at hst

theorem exampleTarget_stat (h : exampleTarget.tree.stat q = some st) :
    q = [] ∧ st = ⟨.dir, 1, 1, 0, 0, 0o700⟩ := by
  have h : (if q = [] then some ⟨.dir, 1, 1, 0, 0, 0o700⟩ else none) =
      some st := h
  split at h
  next hq =>
    cases h
    exact ⟨hq, rfl⟩
  next => cases h

/-- Everything passes, and is put back. -/
theorem restore_all_or_nothing_example :
    (∀ it ∈ checked exampleEnv exampleSnapshot exampleTarget
        ⟨[str "x.db"], [str "."]⟩, it.cls = .ok) ∧
      Restored exampleSnapshot ⟨[str "x.db"], [str "."]⟩
        (run exampleEnv exampleSnapshot exampleTarget
          .allOrNothing).2.tree := by
  have hall : ∀ it ∈ checked exampleEnv exampleSnapshot exampleTarget
      ⟨[str "x.db"], [str "."]⟩, it.cls = .ok := by decide +kernel
  have hplan : readPlan exampleEnv exampleSnapshot =
      .ok ⟨[str "x.db"], [str "."]⟩ := by decide +kernel
  refine ⟨hall, ((restore_all_or_nothing hplan exampleTarget_rooted
    (fun _ _ => rfl) ?_ ?_ ?_).2 hall).2⟩
  · intro q st hst
    rw [(exampleTarget_stat hst).2]
    decide
  · exact fun _ _ _ _ _ => rfl
  · intro db hdb db' hdb' st st' hst
    have hroot : ([] : Rel) ∉ databases ⟨[str "x.db"], [str "."]⟩ := by
      decide +kernel
    rw [(exampleTarget_stat hst).1] at hdb
    exact absurd hdb hroot

/-- A file beneath a directory of the snapshot that has a sidecar's name
is neither a database nor a sidecar, and is not put back. -/
theorem beneath_sidecar_left_out :
    (∀ it ∈ (run exampleEnv exampleSnapshot exampleTarget
        .allOrNothing).1.items, it.cls = .ok) ∧
      (exampleSnapshot.tree.stat (staged [str "x.db-wal", str "f"])).map
        (·.kind) = some .file ∧
      excluded ⟨[str "x.db"], [str "."]⟩ [str "x.db-wal", str "f"] = false ∧
      (run exampleEnv exampleSnapshot exampleTarget .allOrNothing).2.tree.stat
        [str "x.db-wal", str "f"] = none := by
  decide +kernel

/-- Two databases that are one file in place. -/
def linkedTarget : Place where
  tree := ⟨fun rel => if rel = [] then some ⟨.dir, 1, 1, 0, 0, 0o700⟩ else
      if rel = [str "x.db"] ∨ rel = [str "y.db"] then
        some ⟨.file, 2, 2, 0, 0, 0o600⟩ else none,
    fun _ => header⟩
  next := 3

def linkedSnapshot : Snapshot where
  entries := [([], ⟨.dir, 1, 1, 0, 0, 0o700⟩),
    ([str "plan.json"], ⟨.file, 2, 1, 0, 0, 0o600⟩),
    ([str "sqlite"], ⟨.dir, 3, 1, 0, 0, 0o700⟩),
    ([str "sqlite", str "x.db"], ⟨.file, 4, 1, 0, 0, 0o600⟩),
    ([str "sqlite", str "y.db"], ⟨.file, 5, 1, 0, 0, 0o600⟩)]
  data := fun ino => header ++ [UInt8.ofNat ino]
  root := ⟨_, rfl, rfl⟩
  parent := by decide +kernel
  nodup := by decide +kernel
  inode := by decide +kernel
  ino_ne := by decide +kernel

/-- Each copy is restored over the one before, so of two such databases
the first ends with the second's. -/
theorem one_inode_restored_over :
    let env := { exampleEnv with
      decode := fun _ => .ok ⟨[str "x.db", str "y.db"], []⟩ }
    let ran := run env linkedSnapshot linkedTarget .allOrNothing
    (∀ it ∈ ran.1.items, it.cls = .ok) ∧
      (ran.2.tree.stat [str "x.db"]).map (ran.2.tree.data ·.ino) =
        some (copyContent linkedSnapshot [str "y.db"]) ∧
      copyContent linkedSnapshot [str "y.db"] ≠
        copyContent linkedSnapshot [str "x.db"] := by
  decide +kernel

end Hotserve.Restore
