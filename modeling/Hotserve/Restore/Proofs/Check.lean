/-
What the checks establish before anything is changed: the declared paths
do not stand in each other's way, and in the target every directory a
restore needs is one or is not there, and every name it places something
at is free, or holds what a rename replaces.
-/
import Hotserve.Restore.Install
import Hotserve.Restore.Proofs.Walk
import Hotserve.Backup.Proofs.Decl
import Mathlib.Data.List.Pairwise

namespace Hotserve.Restore

open Bytes Fs
open Backup (OpenErr lookAt Config Declared within collide collideDatabase
  sidecars)

-- ====== the declaration's paths

theorem glue_append {a b : List Bytes} (ha : a ≠ []) (hb : b ≠ []) :
    Path.glue (a ++ b) = Path.glue a ++ 47 :: Path.glue b := by
  induction a with
  | nil => exact absurd rfl ha
  | cons c a ih =>
    cases a with
    | nil => exact Path.glue_cons hb
    | cons d a =>
      have hda : d :: a ≠ [] := by simp
      rw [List.cons_append, Path.glue_cons (show (d :: a) ++ b ≠ [] by simp),
        ih hda, Path.glue_cons hda, List.append_assoc, List.cons_append]

variable {a b : Declared} {p s : Bytes} {db rel n : Rel} {env : Env}
  {t : Tree} {snap : Snapshot} {quote : Bytes → Bytes}

/-- A path whose components continue another's lies beneath it. -/
theorem within_of_pre {dir : Bytes} (h : Path.comps dir <+: Path.comps p)
    (hne : p ≠ dir) : within p dir = true := by
  rw [within, Bool.and_eq_true]
  refine ⟨by simpa using hne, ?_⟩
  by_cases hdot : dir = str "."
  · simp [hdot]
  rw [Bool.or_eq_true]
  right
  have hdir : Path.comps dir = split 47 dir := if_neg hdot
  rw [hdir] at h
  have hp : Path.comps p = split 47 p := by
    by_cases hp : p = str "."
    · rw [Path.comps, if_pos hp, List.prefix_nil] at h
      exact absurd h (split_ne_nil dir)
    · exact if_neg hp
  rw [hp] at h
  obtain ⟨rest, hrest⟩ := h
  have hrest' : rest ≠ [] := by
    rintro rfl
    rw [List.append_nil] at hrest
    exact hne (by rw [← Path.glue_split p, ← hrest, Path.glue_split])
  rw [← Path.glue_split p, ← hrest,
    glue_append (split_ne_nil dir) hrest', Path.glue_split,
    List.isPrefixOf_iff_prefix]
  have hslash : str "/" = [47] := by decide
  exact ⟨Path.glue rest, by rw [hslash]; simp⟩

/-- A suffix is the last component's. -/
theorem split_append_suffix {suffix : Bytes} (hs : (47 : UInt8) ∉ suffix) :
    split 47 (p ++ suffix) =
      (split 47 p).dropLast ++ [(split 47 p).getLastD [] ++ suffix] := by
  induction p with
  | nil => simp [split, split_of_not_mem hs]
  | cons c p ih =>
    rw [List.cons_append, split, split, ih]
    cases hsp : split 47 p with
    | nil => exact absurd hsp (split_ne_nil p)
    | cons d ds =>
      split
      · simp
      · cases ds <;> simp

/-- A sidecar's path is its database's with the suffix on the last part. -/
theorem comps_beside {suffix : Bytes} (hs : (47 : UInt8) ∉ suffix)
    (hlen : 2 ≤ suffix.length) :
    Path.comps (p ++ suffix) = beside (Path.comps p) suffix := by
  have hne : p ++ suffix ≠ str "." := by
    intro heq
    have := congrArg List.length heq
    rw [List.length_append] at this
    have hone : (str ".").length = 1 := by decide
    omega
  rw [Path.comps, if_neg hne, Path.comps]
  split
  next hdot =>
    rw [hdot]
    exact split_of_not_mem (by
      rw [List.mem_append, not_or]
      exact ⟨by decide, hs⟩)
  next hdot =>
    rw [split_append_suffix hs]
    cases hsp : split 47 p with
    | nil => exact absurd hsp (split_ne_nil p)
    | cons d ds => rfl

/-- What `collide` lets stand side by side. -/
structure Fit (a b : Declared) : Prop where
  ne : a.path ≠ b.path
  db : a.kind = .sqlite → within b.path a.path = false ∧ ∀ s ∈ sidecars,
    b.path ≠ a.path ++ s ∧ within b.path (a.path ++ s) = false
  db' : b.kind = .sqlite → within a.path b.path = false ∧ ∀ s ∈ sidecars,
    a.path ≠ b.path ++ s ∧ within a.path (b.path ++ s) = false
  files : a.kind = .files → b.kind = .files →
    within b.path a.path = false ∧ within a.path b.path = false

theorem Fit.symm (h : Fit a b) : Fit b a :=
  ⟨h.ne.symm, h.db', h.db, fun hb ha => (h.files ha hb).symm⟩

instance : Std.Symm Fit := ⟨fun _ _ => Fit.symm⟩

/-- Nor does one lie beneath the other that has nothing within it. -/
theorem Fit.not_pre (h : Fit a b) (hw : within b.path a.path = false) :
    ¬ Path.comps a.path <+: Path.comps b.path := by
  intro hpre
  rw [within_of_pre hpre h.ne.symm] at hw
  cases hw

theorem collideDatabase_ok {db other : Declared}
    (h : collideDatabase quote db other = .ok ()) (hdb : db.kind = .sqlite) :
    within other.path db.path = false ∧ ∀ s ∈ sidecars,
      other.path ≠ db.path ++ s ∧ within other.path (db.path ++ s) = false := by
  rw [collideDatabase, if_neg (not_not.mpr hdb), Except.check_eq_ok,
    Except.forM_eq_ok, failIf_eq_ok] at h
  refine ⟨h.2, fun s hs => ?_⟩
  have hside := h.1 s hs
  rw [failIf_eq_ok, Bool.or_eq_false_iff, beq_eq_false_iff_ne] at hside
  exact hside

/-- Two declared paths that do not collide fit. -/
theorem collide_fit (h : collide quote a b = .ok ()) : Fit a b := by
  have hne := Backup.collide_path_ne h
  rw [collide, if_neg hne] at h
  simp only [Except.check_eq_ok, failIf_eq_ok] at h
  obtain ⟨hab, hba, hf, hf'⟩ := h
  refine ⟨hne, collideDatabase_ok hab, collideDatabase_ok hba, ?_⟩
  intro ha hb
  simpa [ha, hb] using And.intro hf hf'

/-- The declared paths, by their components. -/
structure Apart (dbs files : List Rel) : Prop where
  db_ne : ∀ db ∈ dbs, db ≠ []
  db_db : ∀ db ∈ dbs, ∀ q ∈ dbs, db <+: q → db = q
  db_file : ∀ db ∈ dbs, ∀ p ∈ files, ¬ db <+: p
  side : ∀ db ∈ dbs, ∀ s ∈ sidecars, ∀ q ∈ dbs ++ files, ¬ beside db s <+: q
  file_file : ∀ p ∈ files, ∀ q ∈ files, p <+: q → p = q

theorem sidecars_plain (hs : s ∈ sidecars) :
    (47 : UInt8) ∉ s ∧ 2 ≤ s.length := by
  simp only [sidecars, List.mem_cons, List.not_mem_nil, or_false] at hs
  rcases hs with rfl | rfl | rfl <;> decide

theorem length_beside (hne : rel ≠ []) :
    (beside rel s).length = rel.length := by
  cases rel with
  | nil => exact absurd rfl hne
  | cons c rel => simp [beside]

/-- A path beside another is not it. -/
theorem beside_ne (hne : rel ≠ []) (hs : s ≠ []) : beside rel s ≠ rel := by
  cases rel with
  | nil => exact absurd rfl hne
  | cons c rel =>
    intro heq
    have hlast := congrArg (fun r => (r.getLastD []).length) heq
    simp only [beside, List.getLastD_concat, List.length_append] at hlast
    exact hs (List.length_eq_zero_iff.mp (by omega))

section

variable {decl : Config}

/-- So do any two of a declaration that was validated. -/
theorem declared_fit (hv : decl.validate quote = .ok ())
    (ha : a ∈ decl.declared) (hb : b ∈ decl.declared) (hne : a ≠ b) :
    Fit a b := by
  have hpair : decl.declared.Pairwise Fit :=
    (decl.collide_pairwise hv).imp collide_fit
  exact hpair.forall ha hb hne

theorem mem_declared_db (h : p ∈ decl.sqlite) :
    (⟨.sqlite, p⟩ : Declared) ∈ decl.declared :=
  List.mem_append_left _ (List.mem_map.mpr ⟨p, h, rfl⟩)

theorem mem_declared_files (h : p ∈ decl.files) :
    (⟨.files, p⟩ : Declared) ∈ decl.declared :=
  List.mem_append_right _ (List.mem_map.mpr ⟨p, h, rfl⟩)

/-- A declared path beneath a sidecar, or that is one. -/
theorem not_beside_pre (hv : decl.validate quote = .ok ()) {db q : Bytes}
    {k : Backup.Kind} (hdb : db ∈ decl.sqlite)
    (hq : (⟨k, q⟩ : Declared) ∈ decl.declared) (hs : s ∈ sidecars)
    (hne : Path.comps db ≠ []) :
    ¬ beside (Path.comps db) s <+: Path.comps q := by
  obtain ⟨hslash, hlen⟩ := sidecars_plain hs
  intro hpre
  by_cases hself : (⟨.sqlite, db⟩ : Declared) = ⟨k, q⟩
  · cases hself
    refine beside_ne hne ?_ (hpre.eq_of_length (length_beside hne))
    rintro rfl
    simp at hlen
  · have hfit := (declared_fit hv (mem_declared_db hdb) hq hself).db rfl
    obtain ⟨hside, hin⟩ := hfit.2 s hs
    rw [← comps_beside hslash hlen] at hpre
    rw [within_of_pre hpre hside] at hin
    cases hin

/-- A declaration's paths do not stand in each other's way. -/
theorem apart (hv : decl.validate quote = .ok ()) :
    Apart (databases decl) (decl.files.map Path.comps) := by
  have hne : ∀ db ∈ decl.sqlite, Path.comps db ≠ [] := by
    intro db hdb
    have hval := decl.validate_each hv _ (mem_declared_db hdb)
    simp only [Declared.validate, Except.check_eq_ok, failIf_eq_ok] at hval
    have hdot : db ≠ str "." := by simpa using hval.2.2.2.2.2.2.2.2
    rw [Path.comps, if_neg hdot]
    exact split_ne_nil db
  constructor
  · intro db hdb
    obtain ⟨p, hp, rfl⟩ := List.mem_map.mp hdb
    exact hne p hp
  · intro db hdb q hq hpre
    obtain ⟨a, ha, rfl⟩ := List.mem_map.mp hdb
    obtain ⟨b, hb, rfl⟩ := List.mem_map.mp hq
    by_contra hdiff
    have hfit := declared_fit hv (mem_declared_db ha) (mem_declared_db hb)
      (by rintro ⟨⟩; exact hdiff rfl)
    exact hfit.not_pre (hfit.db rfl).1 hpre
  · intro db hdb q hq
    obtain ⟨a, ha, rfl⟩ := List.mem_map.mp hdb
    obtain ⟨b, hb, rfl⟩ := List.mem_map.mp hq
    have hfit := declared_fit hv (mem_declared_db ha) (mem_declared_files hb)
      (by rintro ⟨⟩)
    exact hfit.not_pre (hfit.db rfl).1
  · intro db hdb s hs q hq
    obtain ⟨a, ha, rfl⟩ := List.mem_map.mp hdb
    rcases List.mem_append.mp hq with hq | hq
    · obtain ⟨b, hb, rfl⟩ := List.mem_map.mp hq
      exact not_beside_pre hv ha (mem_declared_db hb) hs (hne a ha)
    · obtain ⟨b, hb, rfl⟩ := List.mem_map.mp hq
      exact not_beside_pre hv ha (mem_declared_files hb) hs (hne a ha)
  · intro p hp q hq hpre
    obtain ⟨a, ha, rfl⟩ := List.mem_map.mp hp
    obtain ⟨b, hb, rfl⟩ := List.mem_map.mp hq
    by_contra hdiff
    have hfit := declared_fit hv (mem_declared_files ha) (mem_declared_files hb)
      (by rintro ⟨⟩; exact hdiff rfl)
    exact hfit.not_pre (hfit.files rfl rfl).1 hpre

end

-- ====== the target

/-- What a check of a place makes sure of. -/
theorem checkTarget_ok (ht : Passable env t) {rel : Rel} {dir : Bool}
    (h : checkTarget env t rel dir = .ok ()) :
    (∀ q st, q <+: rel → q ≠ rel → t.stat q = some st → st.kind = .dir) ∧
      ∀ st, t.stat rel = some st → st.kind = if dir then .dir else .file := by
  have hway : ∀ st', t.stat rel = some st' → ∀ q st, q <+: rel → q ≠ rel →
      t.stat q = some st → st.kind = .dir := by
    rintro st' hst' q st ⟨rest, rfl⟩ hne hst
    exact (ht.isDir_of_pre hst' (by rintro rfl; simp at hne)).kind hst
  rw [checkTarget] at h
  split at h
  next hopen =>
    have hnone : t.stat rel = none := by
      by_contra hsome
      obtain ⟨st, hst⟩ := Option.ne_none_iff_exists'.mp hsome
      rw [ht.openAt, openAt_of_stat ht.toRooted hst] at hopen
      simp only [lookAt] at hopen
      split at hopen
      · cases hopen
      split at hopen
      · cases hopen
      split at hopen <;> cases hopen
    refine ⟨fun q st hpre hne hst => ?_, by simp [hnone]⟩
    split at h
    next hlen =>
      obtain ⟨ihway, ihlast⟩ := checkTarget_ok ht h
      have hrel : rel ≠ [] := by rintro rfl; simp at hlen
      obtain ⟨d, name, heq, hlast⟩ := dropLast_concat_getLast hrel
      rw [hlast] at ihway ihlast
      rw [heq, List.prefix_concat_iff] at hpre
      rcases hpre with hq | hpre
      · exact absurd (hq.trans heq.symm) hne
      · by_cases hd : q = d
        · exact (ihlast st (hd ▸ hst)).trans (by simp)
        · exact ihway q st hpre hd hst
    next hlen =>
      -- the root is all there is above
      have hq : q = [] := by
        have := hpre.length_le
        have hlt : q.length < rel.length := lt_of_le_of_ne this
          fun heq => hne (hpre.eq_of_length heq)
        exact List.length_eq_zero_iff.mp (by omega)
      exact IsDir.kind ht.root (hq ▸ hst)
  · cases h
  · cases h
  · cases h
  next hopen =>
    split at h
    next hnone =>
      rw [ht.openAt] at hopen
      obtain ⟨st, hst⟩ := stat_of_openAt hopen
      rw [hnone] at hst
      cases hst
    next st hst =>
      refine ⟨hway st hst, fun st' hst' => ?_⟩
      rw [hst] at hst'
      cases hst'
      cases dir with
      | true => simpa using h
      | false => simpa using h
termination_by rel.length
decreasing_by
  rw [List.length_dropLast]
  omega

-- ====== the databases

/-- Only nought begins with a nought. -/
theorem decimal_head (n : Nat) :
    ∃ c rest, decimal n = c :: rest ∧ (c = 48 → n = 0) := by
  rw [decimal]
  split
  next hlt =>
    refine ⟨_, _, rfl, fun hc => ?_⟩
    have := congrArg UInt8.toNat hc
    rw [UInt8.toNat_ofNat_of_lt' (by change 48 + n < 256; omega)] at this
    change 48 + n = 48 at this
    omega
  next hge =>
    obtain ⟨c, rest, heq, hc⟩ := decimal_head (n / 10)
    refine ⟨c, rest ++ [UInt8.ofNat (48 + n % 10)], by rw [heq]; rfl,
      fun h => ?_⟩
    have := hc h
    omega
termination_by n

theorem noHeader_pre {n : Nat} (h : (noHeader 0).isPrefixOf (noHeader n)) :
    n = 0 := by
  rw [List.isPrefixOf_iff_prefix, noHeader, noHeader, List.append_assoc,
    List.append_assoc, List.prefix_append_right_inj] at h
  obtain ⟨c, rest, heq, hc⟩ := decimal_head n
  have hzero : decimal 0 = [48] := by decide +kernel
  rw [hzero, heq] at h
  exact hc (List.cons_prefix_cons.mp h).1.symm

/-- What sqlite3 opens as a database: an empty file is an empty one. -/
def Opens (bytes : Bytes) : Prop := header.isPrefixOf bytes ∨ bytes = []

/-- A copy the checks find sound. -/
structure CopySound (env : Env) (snap : Snapshot) (db : Rel) : Prop where
  file : ∃ st, snap.tree.stat (str "sqlite" :: db) = some st ∧ st.kind = .file
  head : header.isPrefixOf (copyContent snap db)
  whole : (env.checkCopy (copyContent snap db)).1 = true

/-- What the checks of a database make sure of. -/
structure DbReady (env : Env) (snap : Snapshot) (t : Tree) (db : Rel) :
    Prop where
  copy : CopySound env snap db
  way : ∀ q st, q <+: db → q ≠ db → t.stat q = some st → st.kind = .dir
  place : ∀ st, t.stat db = some st → st.kind = .file ∧ Opens (t.data st.ino)
  side : t.stat db = none → ∀ s ∈ sidecars, ∀ st,
    t.stat (beside db s) = some st → st.kind ≠ .dir

/-- A file that passes begins as a database does. -/
theorem inspect_ok (h : inspect env t rel = .ok) :
    ∃ st, t.stat rel = some st ∧ st.kind = .file ∧
      header.isPrefixOf (t.data st.ino) := by
  unfold inspect at h
  split at h
  · cases h
  · cases h
  · cases h
  split at h
  · cases h
  rename_i st hst
  split at h
  · cases h
  rename_i hkind
  split at h
  · cases h
  next hhead =>
    exact ⟨st, hst, not_not.mp hkind, by simpa using hhead⟩

/-- A copy that passes is one a database can be made of. -/
theorem checkCopyOf_ok (h : checkCopyOf env snap db = .ok ()) :
    CopySound env snap db := by
  unfold checkCopyOf at h
  dsimp only at h
  obtain ⟨-, h⟩ := passed h
  have hlook : inspect env snap.tree (str "sqlite" :: db) = .ok := by
    cases hins : inspect env snap.tree (str "sqlite" :: db) with
    | ok => rfl
    | missing => simp only [hins] at h; split at h <;> cases h
    | notADatabase detail => simp only [hins] at h; split at h <;> cases h
    | failed detail => simp only [hins] at h; split at h <;> cases h
  obtain ⟨st, hst, hkind, hhead⟩ := inspect_ok hlook
  refine ⟨⟨st, hst, hkind⟩, by rwa [copyContent, hst], ?_⟩
  cases hsaid : (env.checkCopy (copyContent snap db)).1 with
  | true => rfl
  | false => simp only [hlook, hsaid] at h; split at h <;> cases h

theorem kind_ne_dir_of_replaceable (ht : Passable env t) {st : Stat}
    (h : replaceable (kindAt env t rel) = true) (hst : t.stat rel = some st) :
    st.kind ≠ .dir := by
  intro hdir
  rw [kindAt, ht.statAt, hst, Option.map_some, hdir] at h
  cases h

/-- No sidecar of a database that is missing is a directory. -/
theorem stuckSidecar_none (ht : Passable env t)
    (h : stuckSidecar env t db = none) (hdb : t.stat db = none) :
    ∀ s ∈ sidecars, ∀ st, t.stat (beside db s) = some st → st.kind ≠ .dir := by
  intro s hs st hst
  have hgone : exists_ env t db = false := by
    rw [exists_, kindAt, ht.statAt, hdb]
    rfl
  rw [stuckSidecar, hgone, if_neg (by simp), List.find?_eq_none] at h
  have := h (beside db s) (List.mem_map_of_mem hs)
  exact kind_ne_dir_of_replaceable ht (by simpa using this) hst

/-- A database can go where its check says: over directories, and over a
database that opens if any. -/
theorem checkDatabaseTarget_ok (ht : Passable env t)
    (h : checkDatabaseTarget env t db = .ok ()) :
    (∀ q st, q <+: db → q ≠ db → t.stat q = some st → st.kind = .dir) ∧
      (∀ st, t.stat db = some st → st.kind = .file ∧ Opens (t.data st.ino)) ∧
      stuckSidecar env t db = none := by
  unfold checkDatabaseTarget at h
  dsimp only at h
  split at h
  · cases h
  rename_i hcheck
  obtain ⟨hway, hplace⟩ := checkTarget_ok ht hcheck
  have hstuck : stuckSidecar env t db = none := by
    cases hst : stuckSidecar env t db with
    | none => rfl
    | some s =>
      rw [hst] at h
      split at h
      · split at h <;> cases h
      · cases h
  refine ⟨hway, fun st hst => ?_, hstuck⟩
  have hkind : st.kind = .file := by simpa using hplace st hst
  refine ⟨hkind, ?_⟩
  have hopen : env.openAt t db false = .ok () := by
    rw [ht.openAt, openAt_of_stat ht.toRooted hst]
    simp [lookAt, hkind]
  -- a file with no header passes only when it is empty
  by_cases hhead : header.isPrefixOf (t.data st.ino)
  · exact .inl hhead
  · have hins : inspect env t db =
        .notADatabase (noHeader (t.data st.ino).length) := by
      simp [inspect, hopen, hst, hkind, hhead]
    rw [hins] at h
    dsimp only at h
    split at h
    next hzero => exact .inr (List.length_eq_zero_iff.mp (noHeader_pre hzero))
    · cases h

theorem itemOf_ok {kind : Backup.Kind} {x : Except Fault Unit}
    (h : (itemOf kind rel x).cls = .ok) : x = .ok () := by
  cases x with
  | error bad => exact absurd h bad.bad
  | ok _ => rfl

/-- A database with an ok in its report is ready to be installed. -/
theorem checkDatabase_ok (ht : Passable env t)
    (h : (checkDatabase env snap (some t) db).cls = .ok) :
    DbReady env snap t db := by
  have hboth := itemOf_ok h
  rw [Except.check_eq_ok] at hboth
  obtain ⟨hcopy, htarget⟩ := hboth
  obtain ⟨hway, hplace, hstuck⟩ := checkDatabaseTarget_ok ht htarget
  exact ⟨checkCopyOf_ok hcopy, hway, hplace, stuckSidecar_none ht hstuck⟩

-- ====== the files

/-- A place where a rename can put something. -/
structure Free (t : Tree) (n : Rel) : Prop where
  ne : n ≠ []
  way : ∀ q st, q <+: n → q ≠ n → t.stat q = some st → st.kind = .dir
  place : ∀ st, t.stat n = some st → st.kind ≠ .dir

/-- What the checks of a files path make sure of. -/
structure FilesReady (snap : Snapshot) (ex : Rel → Bool) (dbs : List Rel)
    (t : Tree) (p : Rel) (f : Found) : Prop where
  complete : Complete snap ex p f
  dirs : ∀ d ∈ f.dirs, ∀ q st, q <+: d.rel → t.stat q = some st →
    st.kind = .dir
  names : ∀ n ∈ f.names, Free t n
  clash : ∀ n ∈ f.names, ∀ db ∈ dbs, n <+: db → n = db

section

variable (ht : Passable env t)
include ht

/-- What stands on the way to a directory is one. -/
theorem checkTarget_dir (h : checkTarget env t rel true = .ok ()) :
    ∀ q st, q <+: rel → t.stat q = some st → st.kind = .dir := by
  obtain ⟨hway, hplace⟩ := checkTarget_ok ht h
  intro q st hpre hst
  by_cases hq : q = rel
  · exact (hplace st (hq ▸ hst)).trans (by simp)
  · exact hway q st hpre hq hst

/-- The root is no place for a file. -/
theorem ne_nil_of_place
    (h : ∀ st, t.stat n = some st → st.kind ≠ .dir) : n ≠ [] := by
  rintro rfl
  obtain ⟨st, hst, hkind⟩ := ht.root
  exact h st hst hkind

theorem checkLinkTarget_ok
    (h : checkLinkTarget env t n = .ok ()) : Free t n := by
  unfold checkLinkTarget at h
  split at h
  · cases h
  rename_i hparent
  obtain ⟨hkind, h⟩ := passed h
  have hplace : ∀ st, t.stat n = some st → st.kind ≠ .dir := fun st hst =>
    kind_ne_dir_of_replaceable ht (by simpa using hkind) hst
  have hne := ne_nil_of_place ht hplace
  refine ⟨hne, fun q st hpre hq hst => ?_, hplace⟩
  obtain ⟨d, name, rfl, hlast⟩ := dropLast_concat_getLast hne
  rw [hlast] at hparent
  rcases List.prefix_concat_iff.mp hpre with heq | hpre
  · exact absurd heq hq
  · exact checkTarget_dir ht hparent q st hpre hst

theorem checkFileTarget_ok
    (h : checkFileTarget env t n = .ok ()) : Free t n := by
  unfold checkFileTarget at h
  dsimp only at h
  split at h
  next hcheck =>
    split at h
    next hlink =>
      -- a link at its own name
      have hst : ∃ st, t.stat n = some st ∧ st.kind = .link := by
        rw [isLinkAt, kindAt, ht.statAt] at hlink
        exact Option.map_eq_some_iff.mp (eq_of_beq hlink)
      obtain ⟨st, hst, hkind⟩ := hst
      have hplace : ∀ st, t.stat n = some st → st.kind ≠ .dir := by
        intro st' hst'
        rw [hst] at hst'
        cases hst'
        rw [hkind]
        decide
      refine ⟨ne_nil_of_place ht hplace, ?_, hplace⟩
      rintro q st' ⟨rest, rfl⟩ hq hst'
      exact (ht.isDir_of_pre hst (by rintro rfl; simp at hq)).kind hst'
    · cases h
  next hcheck =>
    obtain ⟨hway, hplace⟩ := checkTarget_ok ht hcheck
    have hplace : ∀ st, t.stat n = some st → st.kind ≠ .dir := by
      intro st hst
      rw [hplace st hst]
      decide
    exact ⟨ne_nil_of_place ht hplace, hway, hplace⟩

end

/-- No name of the files stands above a database. -/
theorem inTheWay_none {dbs : List Rel} {f : Found} (h : inTheWay dbs f = none) :
    ∀ n ∈ f.names, n ≠ [] → ∀ db ∈ dbs, n <+: db → n = db := by
  intro n hn hne db hdb hpre
  by_contra hdiff
  have hclash := List.findSome?_eq_none_iff.mp h n hn
  rw [Option.map_eq_none_iff, List.getLast?_eq_none_iff,
    List.filter_eq_nil_iff] at hclash
  apply hclash db hdb
  simp [hne, hdiff, List.isPrefixOf_iff_prefix.mpr hpre]

/-- So are files with an ok, which are then found whole. -/
theorem checkFiles_ok (ht : Passable env t) {ex : Rel → Bool} {dbs : List Rel}
    {p : Rel} (h : (checkFiles env snap (some t) ex dbs p).1.cls = .ok) :
    ∃ f, checkFiles env snap (some t) ex dbs p =
        (⟨.files, p, .ok, []⟩, some f) ∧ FilesReady snap ex dbs t p f := by
  cases hfind : findFiles env snap true ex p with
  | error bad =>
    have : checkFiles env snap (some t) ex dbs p =
        (itemOf .files p (.error bad), none) := by
      simp [checkFiles, hfind]
    rw [this] at h
    exact absurd h bad.bad
  | ok f =>
    cases hplace : checkFound env t f with
    | error e => simp [checkFiles, hfind, hplace] at h
    | ok u =>
      cases u
      cases hway : inTheWay dbs f with
      | some clash => simp [checkFiles, hfind, hplace, hway] at h
      | none =>
        refine ⟨f, by simp [checkFiles, hfind, hplace, hway], ?_⟩
        simp only [checkFound, Except.check_eq_ok, Except.forM_eq_ok] at hplace
        obtain ⟨hdirs, hlinks, hfiles⟩ := hplace
        have hnames : ∀ n ∈ f.names, Free t n := by
          intro n hn
          rcases List.mem_append.mp hn with hn | hn
          · obtain ⟨e, he, rfl⟩ := List.mem_map.mp hn
            exact checkFileTarget_ok ht (hfiles e he)
          · obtain ⟨l, hl, rfl⟩ := List.mem_map.mp hn
            exact checkLinkTarget_ok ht (hlinks l hl)
        exact ⟨findFiles_ok hfind,
          fun d hd => checkTarget_dir ht (hdirs d hd), hnames,
          fun n hn => inTheWay_none hway n hn (hnames n hn).ne⟩

end Hotserve.Restore
