/-
What the upload leaves out and what the restore leaves out.

The exclude file, the masks of the view and the names the restore's walk
skips are each brought to one set (`LeftOut`): the declared databases in
a declared files path, with their sidecars, by their paths in the unit's
view. The exclude file reaches it but for white space at the end of a
database's path, which the reading of a line takes off
(`excludes_reads`).
-/
import Hotserve.Backup.Exclude
import Hotserve.Backup.Proofs.Decl
import Hotserve.Box.Names
import Hotserve.Glob
import Hotserve.Restore.Install
import Hotserve.Restore.Proofs.Walk

namespace Hotserve.Backup

open Bytes Path
open Glob (Classes Excludes readLine escape escapeByte trimBack endsInSpace)
open Restore (Rel beside)

variable {quote : Bytes → Bytes} {decl : Config} {app : Bytes}

variable {i : Declared} {db p s path : Bytes} {rel : Rel} {env : Restore.Env}
  {snap : Restore.Snapshot}

-- ====== declared paths

theorem Config.names (hv : decl.validate quote = .ok ())
    (hi : i ∈ decl.declared) : ∀ c ∈ comps i.path, Name c := fun c hc =>
  ⟨decl.comps_plain hv hi c hc, slash_not_mem_comps hc⟩

theorem Config.mem_sqlite (h : db ∈ decl.sqlite) :
    Declared.mk .sqlite db ∈ decl.declared :=
  List.mem_append_left _ (List.mem_map_of_mem h)

theorem Config.mem_files (h : p ∈ decl.files) :
    Declared.mk .files p ∈ decl.declared :=
  List.mem_append_right _ (List.mem_map_of_mem h)

theorem control_of_mem (h : hasControl s = false) : (10 : UInt8) ∉ s := by
  induction s with
  | nil => simp
  | cons c s ih =>
    cases s with
    | nil =>
      rw [hasControl, Bool.or_eq_false_iff] at h
      intro hmem
      rw [← List.mem_singleton.mp hmem] at h
      exact absurd h.1 (by decide)
    | cons d s =>
      rw [hasControl, Bool.or_eq_false_iff, Bool.or_eq_false_iff,
        Bool.or_eq_false_iff] at h
      intro hmem
      rcases List.mem_cons.mp hmem with rfl | hmem
      · exact absurd h.1.1.1 (by decide)
      · exact ih h.2 hmem

/-- What the rules say of a declared database's path. -/
structure Database (db : Bytes) : Prop where
  ne_dot : db ≠ str "."
  names : ∀ c ∈ comps db, Name c
  line : (10 : UInt8) ∉ db

theorem Config.database (hv : decl.validate quote = .ok ())
    (h : db ∈ decl.sqlite) : Database db := by
  have hi := decl.validate_each hv _ (Config.mem_sqlite h)
  simp only [Declared.validate, Except.check_eq_ok, failIf_eq_ok] at hi
  obtain ⟨-, -, hcontrol, -, -, -, -, -, hdot⟩ := hi
  refine ⟨fun heq => ?_, decl.names hv (Config.mem_sqlite h),
    control_of_mem hcontrol⟩
  rw [heq] at hdot
  exact absurd hdot (by decide)

theorem Database.comps_ne_nil (h : Database db) : comps db ≠ [] := by
  rw [comps, if_neg h.ne_dot]
  exact split_ne_nil db

theorem Database.glue_comps (h : Database db) : glue (comps db) = db := by
  rw [comps, if_neg h.ne_dot, glue_split]

-- ====== paths in the view

theorem appName_byte (h : Box.appName app = true) {c : UInt8} (hc : c ∈ app) :
    c ≠ 47 ∧ c ≠ 46 ∧ c ≠ 10 := by
  rw [Box.appName, Bool.and_eq_true, List.all_eq_true] at h
  have hbyte := h.2 c hc
  refine ⟨?_, ?_, ?_⟩
  · rintro rfl
    exact absurd hbyte (by decide)
  · rintro rfl
    exact absurd hbyte (by decide)
  · rintro rfl
    exact absurd hbyte (by decide)

theorem appName_name (h : Box.appName app = true) : Name app := by
  refine ⟨plain_iff.mpr ⟨?_, ?_, ?_⟩, fun hc => (appName_byte h hc).1 rfl⟩
  · rintro rfl
    exact absurd h (by decide)
  · rintro rfl
    exact absurd h (by decide)
  · rintro rfl
    exact absurd h (by decide)

/-- The text of a database's path in the view. -/
theorem itemPath_text (happ : Box.appName app = true) (h : Database db) :
    itemPath (backupBase app) .files db =
      str "/backup/" ++ app ++ str "/files" ++ 47 :: db := by
  have hroot : backupBase app = 47 :: glue [str "backup", app] := rfl
  have hnames : ∀ c ∈ [str "backup", app], Name c := by
    intro c hc
    rcases List.mem_pair.mp hc with rfl | rfl
    · exact ⟨by decide, by decide⟩
    · exact appName_name happ
  rw [itemPath, show Kind.files.word = str "files" from rfl,
    join_rooted rfl (by decide) (by decide) fun c hc => (h.names c hc).1,
    hroot, stack_text hnames, List.reverse_reverse]
  simp only [List.cons_append, List.nil_append]
  rw [glue_cons (by simp), glue_cons (by simp),
    glue_cons h.comps_ne_nil, h.glue_comps,
    show str "/backup/" = 47 :: str "backup" ++ [47] by decide,
    show str "/files" = 47 :: str "files" by decide]
  simp

/-- The paths a declaration means to leave out. -/
def LeftOut (app : Bytes) (decl : Config) (path : Bytes) : Prop :=
  ∃ db ∈ decl.sqlite, (∃ p ∈ decl.files, within db p = true) ∧
    ∃ suffix ∈ [] :: sidecars,
      path = itemPath (backupBase app) .files db ++ suffix

/-- The condition as `excludes` and `view` have it. -/
theorem inside_iff (hv : decl.validate quote = .ok ())
    (hdb : db ∈ decl.sqlite) (hp : p ∈ decl.files) :
    (p == str "." || db == p || (p ++ str "/").isPrefixOf db) = true ↔
      within db p = true := by
  have hne : db ≠ p := fun heq =>
    collide_path_ne (decl.collide_of_ne hv (Config.mem_sqlite hdb)
      (Config.mem_files hp) (by simp)) heq
  simp [within, hne]

theorem mem_maskedIn (hv : decl.validate quote = .ok ()) :
    path ∈ decl.files.flatMap (maskedIn (backupBase app) decl) ↔
      LeftOut app decl path := by
  simp only [List.mem_flatMap, maskedIn, List.mem_filter, List.mem_map]
  constructor
  · rintro ⟨p, hp, db, ⟨hdb, hin⟩, suffix, hs, rfl⟩
    exact ⟨db, hdb, ⟨p, hp, (inside_iff hv hdb hp).mp hin⟩, suffix, hs, rfl⟩
  · rintro ⟨db, hdb, ⟨p, hp, hin⟩, suffix, hs, rfl⟩
    exact ⟨p, hp, db, ⟨hdb, (inside_iff hv hdb hp).mpr hin⟩, suffix, hs, rfl⟩

/-- With every files path there, the masks are those of each. -/
theorem view_masked (env : Env) (staging declFile : Bytes)
    (hall : ∀ p ∈ decl.files, ∃ x, pinned env p = .ok x) :
    (view env app staging declFile decl).masked =
      decl.files.flatMap (maskedIn (backupBase app) decl) := by
  have hfold : ∀ (ps : List Bytes) (v : View),
      (∀ p ∈ ps, ∃ x, pinned env p = .ok x) →
      (ps.foldl (viewOne env (backupBase app) decl) v).masked =
        v.masked ++ ps.flatMap (maskedIn (backupBase app) decl) := by
    intro ps
    induction ps with
    | nil => simp
    | cons p ps ih =>
      intro v hps
      obtain ⟨x, hx⟩ := hps p (.head _)
      rw [List.foldl_cons, ih _ fun q hq => hps q (List.mem_cons_of_mem _ hq),
        viewOne, hx, List.flatMap_cons, List.append_assoc]
  exact hfold decl.files _ hall

-- ====== the exclude file

theorem excludeEscaper_eq : excludeEscaper s = escape s := by
  rw [Glob.escape_eq, excludeEscaper]
  congr 1
  funext c
  unfold escapeByte
  by_cases hslash : c = 92
  · subst hslash
    rfl
  by_cases hstar : c = 42
  · subst hstar
    rfl
  by_cases hany : c = 63
  · subst hany
    rfl
  by_cases hclass : c = 91
  · subst hclass
    rfl
  have hplain : Glob.isSpecial c = false := by
    simp [Glob.isSpecial, hslash, hstar, hany, hclass]
  simp [hslash, hstar, hany, hclass, hplain]

theorem split_lines {lines : List Bytes} (h : ∀ l ∈ lines, (10 : UInt8) ∉ l) :
    split 10 (lines.flatMap fun l => l ++ str "\n") = lines ++ [[]] := by
  induction lines with
  | nil => rfl
  | cons l lines ih =>
    have hcons : (l :: lines).flatMap (fun l => l ++ str "\n") =
        l ++ 10 :: lines.flatMap fun l => l ++ str "\n" := by
      rw [List.flatMap_cons, List.append_assoc]
      rfl
    rw [hcons, split_append, split_of_not_mem (h l List.mem_cons_self),
      ih fun x hx => h x (List.mem_cons_of_mem _ hx)]
    rfl

/-- The lines of the exclude file. -/
theorem excludes_eq : excludes app decl =
    ((decl.files.flatMap (maskedIn (backupBase app) decl)).map escape).flatMap
      fun l => l ++ str "\n" := by
  have hjoin : ∀ db, Path.join [str "/backup", app, str "files", db] =
      itemPath (backupBase app) .files db := fun db => rfl
  have hcond : ∀ p db : Bytes,
      (!(p != str "." && db != p && !(p ++ str "/").isPrefixOf db)) =
        (p == str "." || db == p || (p ++ str "/").isPrefixOf db) := by
    intro p db
    simp [bne]
  rw [List.flatMap_map, List.flatMap_assoc, excludes]
  simp only [maskedIn, List.flatMap_assoc, List.flatMap_map, hjoin, hcond,
    excludeEscaper_eq]

/-- A path that is left out, as a text. -/
theorem LeftOut.text (hv : decl.validate quote = .ok ())
    (happ : Box.appName app = true) (h : LeftOut app decl path) :
    (∃ rest, path = 47 :: rest) ∧ (10 : UInt8) ∉ path := by
  obtain ⟨db, hdb, -, suffix, hs, rfl⟩ := h
  have hd := decl.database hv hdb
  rw [itemPath_text happ hd]
  refine ⟨⟨_, rfl⟩, ?_⟩
  have hsuffix : (10 : UInt8) ∉ suffix := by
    revert hs
    revert suffix
    decide
  simp only [List.mem_append, List.mem_cons, not_or]
  exact ⟨⟨⟨⟨by decide, fun h => (appName_byte happ h).2.2 rfl⟩, by decide⟩,
    by decide, hd.line⟩, hsuffix⟩

theorem not_mem_escape (h : (10 : UInt8) ∉ s) : (10 : UInt8) ∉ escape s := by
  rw [Glob.escape_eq, List.mem_flatMap]
  rintro ⟨c, hc, hmem⟩
  have hne : 10 ≠ c := fun heq => h (heq ▸ hc)
  unfold escapeByte at hmem
  split at hmem
  · simp [hne] at hmem
  · split at hmem
    · simp at hmem
    · simp [hne] at hmem

/-- Which paths the exclude file leaves out: those meant, without the
white space at their ends. -/
theorem excludes_reads {classes : Classes} {vars : Bytes → Bytes}
    (hv : decl.validate quote = .ok ()) (happ : Box.appName app = true) :
    Excludes classes vars (excludes app decl) path ↔
      ∃ q, LeftOut app decl q ∧ path = trimBack q := by
  have hlines : split 10 (excludes app decl) =
      (decl.files.flatMap (maskedIn (backupBase app) decl)).map escape ++
        [[]] := by
    rw [excludes_eq, split_lines]
    intro l hl
    obtain ⟨q, hq, rfl⟩ := List.mem_map.mp hl
    exact not_mem_escape (LeftOut.text hv happ ((mem_maskedIn hv).mp hq)).2
  have hread : ∀ q, LeftOut app decl q →
      ((∃ p, readLine vars (escape q) = some p ∧
        Glob.Matches classes p path) ↔ path = trimBack q) := by
    intro q hq
    obtain ⟨⟨rest, rfl⟩, -⟩ := hq.text hv happ
    exact Glob.read_escaped
  rw [Excludes, hlines]
  constructor
  · rintro ⟨line, hline, hmatch⟩
    rcases List.mem_append.mp hline with hline | hline
    · obtain ⟨q, hq, rfl⟩ := List.mem_map.mp hline
      have hq := (mem_maskedIn hv).mp hq
      exact ⟨q, hq, (hread q hq).mp hmatch⟩
    · -- after the last line's end there is nothing
      rw [List.mem_singleton.mp hline] at hmatch
      obtain ⟨p, hp, -⟩ := hmatch
      rw [readLine, show trimSpace [] = [] by decide +kernel] at hp
      cases hp
  · rintro ⟨q, hq, rfl⟩
    refine ⟨escape q, List.mem_append_left _ (List.mem_map_of_mem
      ((mem_maskedIn hv).mpr hq)), (hread q hq).mpr rfl⟩

-- ====== the restore's skips

/-- What follows the last slash grows. -/
theorem split_concat {a b : Bytes} (hb : (47 : UInt8) ∉ b) : split 47 (a ++ b) =
      (split 47 a).dropLast ++ [(split 47 a).getLastD [] ++ b] := by
  induction a with
  | nil => exact split_of_not_mem hb
  | cons c a ih =>
    have hne : split 47 a ≠ [] := split_ne_nil a
    obtain ⟨x, xs, hx⟩ := List.exists_cons_of_ne_nil hne
    rw [List.cons_append, split, split, ih, hx]
    split
    · simp
    · cases xs with
      | nil => simp
      | cons y ys => simp

theorem suffix_bytes : ∀ suffix ∈ [] :: sidecars,
    (47 : UInt8) ∉ suffix ∧ (10 : UInt8) ∉ suffix ∧
      (suffix = [] ∨ 3 < suffix.length) := by decide

theorem comps_suffix {suffix : Bytes} (h : Database db)
    (hs : suffix ∈ [] :: sidecars) : comps (db ++ suffix) =
      (comps db).dropLast ++ [(comps db).getLastD [] ++ suffix] := by
  obtain ⟨hslash, -, hlen⟩ := suffix_bytes suffix hs
  have hne : db ++ suffix ≠ str "." := by
    intro heq
    rcases hlen with rfl | hlen
    · exact h.ne_dot (by simpa using heq)
    · have hlong := congrArg List.length heq
      rw [List.length_append, show (str ".").length = 1 by decide] at hlong
      omega
  rw [comps, if_neg hne, comps, if_neg h.ne_dot, split_concat hslash]

/-- A sidecar's path is one a database could have. -/
theorem Database.suffix {db suffix : Bytes} (h : Database db)
    (hs : suffix ∈ [] :: sidecars) : Database (db ++ suffix) := by
  obtain ⟨hslash, hline, hlen⟩ := suffix_bytes suffix hs
  rcases hlen with rfl | hlen
  · rwa [List.append_nil]
  have hlast : (comps db).getLastD [] ∈ comps db := by
    rw [List.getLastD_eq_getLast?, List.getLast?_eq_some_getLast h.comps_ne_nil]
    exact List.getLast_mem h.comps_ne_nil
  refine ⟨fun heq => ?_, fun c hc => ?_, ?_⟩
  · have hlong := congrArg List.length heq
    rw [List.length_append, show (str ".").length = 1 by decide] at hlong
    omega
  · rw [comps_suffix h hs] at hc
    rcases List.mem_append.mp hc with hc | hc
    · exact h.names c (List.dropLast_subset _ hc)
    · rw [List.mem_singleton.mp hc]
      refine ⟨plain_iff.mpr ⟨fun heq => ?_, fun heq => ?_, fun heq => ?_⟩, ?_⟩
      all_goals try
        have hlong := congrArg List.length heq
        rw [List.length_append] at hlong
      · rw [List.length_nil] at hlong
        omega
      · rw [show (str ".").length = 1 by decide] at hlong
        omega
      · rw [show (str "..").length = 2 by decide] at hlong
        omega
      · rw [List.mem_append, not_or]
        exact ⟨(h.names _ hlast).2, hslash⟩
  · rw [List.mem_append, not_or]
    exact ⟨h.line, hline⟩

/-- The names the restore leaves to the databases. -/
theorem excluded_iff (hv : decl.validate quote = .ok ()) :
    Restore.excluded decl rel = true ↔ ∃ db ∈ decl.sqlite,
      ∃ suffix ∈ [] :: sidecars, rel = comps (db ++ suffix) := by
  have hbeside : ∀ db ∈ decl.sqlite, ∀ suffix ∈ sidecars,
      beside (comps db) suffix = comps (db ++ suffix) := by
    intro db hdb suffix hs
    have hd := decl.database hv hdb
    rw [comps_suffix hd (List.mem_cons_of_mem _ hs)]
    obtain ⟨c, cs, hc⟩ := List.exists_cons_of_ne_nil hd.comps_ne_nil
    rw [hc]
    rfl
  rw [Restore.excluded, Restore.databases, List.any_map, List.any_eq_true]
  constructor
  · rintro ⟨db, hdb, hrel⟩
    rw [Function.comp, Bool.or_eq_true, beq_iff_eq, List.contains_iff_mem,
      List.mem_map] at hrel
    refine ⟨db, hdb, ?_⟩
    rcases hrel with rfl | ⟨suffix, hs, rfl⟩
    · exact ⟨[], .head _, by rw [List.append_nil]⟩
    · exact ⟨suffix, .tail _ hs, hbeside db hdb suffix hs⟩
  · rintro ⟨db, hdb, suffix, hs, rfl⟩
    refine ⟨db, hdb, ?_⟩
    rw [Function.comp, Bool.or_eq_true, beq_iff_eq, List.contains_iff_mem,
      List.mem_map]
    rcases List.mem_cons.mp hs with rfl | hs
    · exact .inl (by rw [List.append_nil])
    · exact .inr ⟨suffix, hs, hbeside db hdb suffix hs⟩

/-- Beneath, by components. -/
theorem within_iff {q : Bytes} : within q p = true ↔
    comps p <+: comps q ∧ comps p ≠ comps q := by
  have hne : q ≠ p ↔ comps p ≠ comps q :=
    ⟨fun h heq => h (comps_inj heq).symm, fun h heq => h (heq ▸ rfl)⟩
  rw [within, Bool.and_eq_true, bne_iff_ne, hne, and_comm]
  refine and_congr_left fun hpq => ?_
  rw [Bool.or_eq_true, beq_iff_eq, List.isPrefixOf_iff_prefix]
  by_cases hp : p = str "."
  · simp [hp, comps]
  have hcp : comps p = split 47 p := if_neg hp
  have hsep : p ++ str "/" = p ++ [47] := rfl
  rw [hcp, hsep]
  constructor
  · rintro (h | ⟨rest, rfl⟩)
    · exact absurd h hp
    · have hq : p ++ [47] ++ rest ≠ str "." := by
        intro heq
        have hmem : (47 : UInt8) ∈ str "." := heq ▸ by simp
        exact absurd hmem (by decide)
      rw [comps, if_neg hq, List.append_assoc, List.singleton_append,
        split_append]
      exact List.prefix_append _ _
  · rintro ⟨ds, hds⟩
    right
    have hnil : split 47 p ≠ [] := split_ne_nil p
    have hq : q ≠ str "." := by
      rintro rfl
      exact hnil (List.append_eq_nil_iff.mp hds).1
    have hds' : ds ≠ [] := by
      rintro rfl
      rw [List.append_nil, ← hcp] at hds
      exact hpq hds
    rw [comps, if_neg hq] at hds
    refine ⟨glue ds, ?_⟩
    rw [← glue_split q, ← hds, glue_append hnil hds', glue_split]
    simp

/-- The paths, in the view, of the names the restore's walk of a declared
files path skips. -/
def Skipped (app : Bytes) (decl : Config) (path : Bytes) : Prop :=
  ∃ p ∈ decl.files, ∃ rel : Rel, comps p <+: rel ∧ rel ≠ comps p ∧
    Restore.excluded decl rel = true ∧
    path = itemPath (backupBase app) .files (Path.rel rel)

theorem rel_comps (h : Database p) : Path.rel (comps p) = p := by
  rw [Path.rel, if_neg h.comps_ne_nil, h.glue_comps]

/-- A database and its sidecars are beneath the same paths. -/
theorem beneath_suffix {suffix : Bytes} (h : Database db)
    (hs : suffix ∈ [] :: sidecars) (hne : comps p ≠ comps (db ++ suffix))
    (hne' : comps p ≠ comps db) :
    comps p <+: comps (db ++ suffix) ↔ within db p = true := by
  obtain ⟨cs, c, hcs⟩ := (List.eq_nil_or_concat' (comps db)).resolve_left
    h.comps_ne_nil
  have hcs' : comps (db ++ suffix) = cs ++ [c ++ suffix] := by
    rw [comps_suffix h hs, hcs]
    simp
  rw [within_iff, and_iff_left hne', hcs', hcs, List.prefix_concat_iff,
    List.prefix_concat_iff]
  rw [hcs'] at hne
  rw [hcs] at hne'
  simp [hne, hne']

/-- No other declared path is a database's, or a sidecar's of one. -/
theorem Config.apart (hv : decl.validate quote = .ok ())
    (hdb : db ∈ decl.sqlite) (hi : i ∈ decl.declared)
    (hne : i ≠ ⟨.sqlite, db⟩) {suffix : Bytes} (hs : suffix ∈ [] :: sidecars) :
    i.path ≠ db ++ suffix := by
  have hc := decl.collide_of_ne hv (Config.mem_sqlite hdb) hi hne.symm
  have hpath := collide_path_ne hc
  rcases List.mem_cons.mp hs with rfl | hs
  · rw [List.append_nil]
    exact fun heq => hpath heq.symm
  · rw [collide, if_neg hpath, Except.check_eq_ok, collideDatabase,
      if_neg (by simp), Except.check_eq_ok, Except.forM_eq_ok] at hc
    have hside := hc.1.1 suffix hs
    rw [failIf_eq_ok, Bool.or_eq_false_iff, beq_eq_false_iff_ne] at hside
    exact hside.1

theorem skipped_iff (hv : decl.validate quote = .ok ())
    (happ : Box.appName app = true) :
    Skipped app decl path ↔ LeftOut app decl path := by
  have hpath : ∀ db ∈ decl.sqlite, ∀ suffix ∈ [] :: sidecars,
      itemPath (backupBase app) .files (Path.rel (comps (db ++ suffix))) =
        itemPath (backupBase app) .files db ++ suffix := by
    intro db hdb suffix hs
    have hd := decl.database hv hdb
    rw [rel_comps (hd.suffix hs), itemPath_text happ (hd.suffix hs),
      itemPath_text happ hd]
    simp
  have happart : ∀ db ∈ decl.sqlite, ∀ p ∈ decl.files,
      ∀ suffix ∈ [] :: sidecars, comps p ≠ comps (db ++ suffix) := by
    intro db hdb p hp suffix hs heq
    exact decl.apart hv hdb (Config.mem_files hp) (by simp) hs (comps_inj heq)
  constructor
  · rintro ⟨p, hp, rel, hpre, hne, hex, rfl⟩
    obtain ⟨db, hdb, suffix, hs, rfl⟩ := (excluded_iff hv).mp hex
    have hdb' := happart db hdb p hp [] (.head _)
    rw [List.append_nil] at hdb'
    refine ⟨db, hdb, ⟨p, hp, ?_⟩, suffix, hs, hpath db hdb suffix hs⟩
    exact (beneath_suffix (decl.database hv hdb) hs hne.symm hdb').mp hpre
  · rintro ⟨db, hdb, ⟨p, hp, hin⟩, suffix, hs, rfl⟩
    have hdb' := happart db hdb p hp [] (.head _)
    rw [List.append_nil] at hdb'
    have hne := happart db hdb p hp suffix hs
    refine ⟨p, hp, comps (db ++ suffix), ?_, hne.symm,
      (excluded_iff hv).mpr ⟨db, hdb, suffix, hs, rfl⟩,
      (hpath db hdb suffix hs).symm⟩
    exact (beneath_suffix (decl.database hv hdb) hs hne hdb').mpr hin

-- ====== what an item writes

/-- A path one declared item puts in place: a database with its sidecars,
or what the snapshot's walk of a files path lists. -/
def Writes (env : Restore.Env) (snap : Restore.Snapshot) (decl : Config)
    (i : Declared) (rel : Rel) : Prop :=
  match i.kind with
  | .sqlite => ∃ suffix ∈ [] :: sidecars, rel = comps (i.path ++ suffix)
  | .files => ∃ f, Restore.findFiles env snap true (Restore.excluded decl)
      (comps i.path) = .ok f ∧
        ((∃ d ∈ f.dirs, d.rel = rel) ∨ (∃ e ∈ f.files, e.rel = rel) ∨
          ∃ l ∈ f.links, l.rel = rel)

theorem Writes.under (h : Writes env snap decl ⟨.files, p⟩ rel) :
    comps p <+: rel ∧ (rel = comps p ∨ Restore.excluded decl rel = false) := by
  obtain ⟨f, hf, hrel⟩ := h
  have hsound := (Restore.findFiles_ok hf).sound
  have hunder : Restore.Under (Restore.excluded decl) (comps p) rel := by
    rcases hrel with ⟨d, hd, rfl⟩ | ⟨e, he, rfl⟩ | ⟨l, hl, rfl⟩
    · exact (hsound.dirs d hd).1
    · exact (hsound.files e he).1
    · exact (hsound.links l hl).1
  refine ⟨hunder.pre, ?_⟩
  by_cases hne : rel = comps p
  · exact .inl hne
  · exact .inr (hunder.clear rel hunder.pre hne List.prefix_rfl)

/-- Two databases, neither the other nor a sidecar of it, have no path in
common. -/
theorem suffix_apart {a b t : Bytes} (hs : s ∈ [] :: sidecars)
    (ht : t ∈ [] :: sidecars) (hab : a ≠ b) (ha : a ≠ b ++ t)
    (hb : b ≠ a ++ s) : a ++ s ≠ b ++ t := by
  intro heq
  rcases List.mem_cons.mp hs with rfl | hs
  · exact ha (by rwa [List.append_nil] at heq)
  rcases List.mem_cons.mp ht with rfl | ht
  · exact hb (by rw [List.append_nil] at heq; exact heq.symm)
  -- the sidecars differ in their last three bytes
  have hends : ∀ s ∈ sidecars, ∀ t ∈ sidecars,
      s.reverse.take 3 = t.reverse.take 3 → s = t := by decide
  have hlong : ∀ s ∈ sidecars, 3 ≤ s.reverse.length := by decide
  have htake : ∀ a s : Bytes, 3 ≤ s.reverse.length →
      (a ++ s).reverse.take 3 = s.reverse.take 3 := by
    intro a s hlen
    rw [List.reverse_append, List.take_append_of_le_length hlen]
  have hst : s = t := by
    refine hends s hs t ht ?_
    rw [← htake a s (hlong s hs), heq, htake b t (hlong t ht)]
  subst hst
  exact hab (List.append_cancel_right heq)

theorem Config.mem_declared (hi : i ∈ decl.declared) :
    (∃ db ∈ decl.sqlite, i = ⟨.sqlite, db⟩) ∨
      ∃ p ∈ decl.files, i = ⟨.files, p⟩ := by
  rcases List.mem_append.mp hi with hi | hi
  · obtain ⟨db, hdb, rfl⟩ := List.mem_map.mp hi
    exact .inl ⟨db, hdb, rfl⟩
  · obtain ⟨p, hp, rfl⟩ := List.mem_map.mp hi
    exact .inr ⟨p, hp, rfl⟩

/-- A database's paths are none of a files path's. -/
theorem database_files_apart (hv : decl.validate quote = .ok ())
    (hdb : db ∈ decl.sqlite) (hp : p ∈ decl.files)
    (hd : Writes env snap decl ⟨.sqlite, db⟩ rel)
    (hf : Writes env snap decl ⟨.files, p⟩ rel) : False := by
  obtain ⟨suffix, hs, rfl⟩ := hd
  rcases hf.under.2 with heq | hex
  · exact decl.apart hv hdb (Config.mem_files hp) (by simp) hs
      (comps_inj heq).symm
  · rw [(excluded_iff hv).mpr ⟨db, hdb, suffix, hs, rfl⟩] at hex
    cases hex

/-- Every path is written by one declared item at most. -/
theorem writes_once (hv : decl.validate quote = .ok ()) {j : Declared}
    (hi : i ∈ decl.declared) (hj : j ∈ decl.declared)
    (hwi : Writes env snap decl i rel) (hwj : Writes env snap decl j rel) :
    i = j := by
  rcases Config.mem_declared hi with ⟨a, ha, rfl⟩ | ⟨p, hp, rfl⟩
  · rcases Config.mem_declared hj with ⟨b, hb, rfl⟩ | ⟨q, hq, rfl⟩
    · obtain ⟨s, hs, rfl⟩ := hwi
      obtain ⟨t, ht, heq⟩ := hwj
      by_contra hne
      refine suffix_apart hs ht (fun hab => hne ?_) ?_ ?_ (comps_inj heq)
      · exact congrArg (Declared.mk .sqlite) hab
      · exact decl.apart hv hb hi hne ht
      · exact decl.apart hv ha hj (Ne.symm hne) hs
    · exact (database_files_apart hv ha hq hwi hwj).elim
  · rcases Config.mem_declared hj with ⟨b, hb, rfl⟩ | ⟨q, hq, rfl⟩
    · exact (database_files_apart hv hb hp hwj hwi).elim
    · -- one of the two would be beneath the other
      by_contra hne
      have hc := decl.collide_of_ne hv hi hj hne
      have hpq := collide_path_ne hc
      rw [collide, if_neg hpq, Except.check_eq_ok, Except.check_eq_ok,
        Except.check_eq_ok, failIf_eq_ok, failIf_eq_ok] at hc
      have hno : within q p = false := hc.2.2.1
      have hno' : within p q = false := hc.2.2.2
      have hcomps : comps p ≠ comps q := fun h => hpq (comps_inj h)
      rcases List.prefix_or_prefix_of_prefix hwi.under.1 hwj.under.1 with
        hpre | hpre
      · rw [within_iff.mpr ⟨hpre, hcomps⟩] at hno
        cases hno
      · rw [within_iff.mpr ⟨hpre, hcomps.symm⟩] at hno'
        cases hno'

-- ====== together

/-- What is said of an app's declaration: the exclude file, the masks and
the restore's skips are the declared databases in a files path and their
sidecars, and no two declared items write one path. -/
structure Agrees (classes : Classes) (vars : Bytes → Bytes) (app : Bytes)
    (decl : Config) : Prop where
  file : ∀ path, Excludes classes vars (excludes app decl) path ↔
    LeftOut app decl path
  masks : ∀ env staging declFile,
    (∀ p ∈ decl.files, ∃ x, pinned env p = .ok x) →
    ∀ path, path ∈ (view env app staging declFile decl).masked ↔
      LeftOut app decl path
  skips : ∀ path, Skipped app decl path ↔ LeftOut app decl path
  once : ∀ env snap i j rel, i ∈ decl.declared → j ∈ decl.declared →
    Writes env snap decl i rel → Writes env snap decl j rel → i = j

/-- No database in a files path has a path that ends in white space. -/
def NoSpaceAtEnd (decl : Config) : Prop :=
  ∀ db ∈ decl.sqlite, (∃ p ∈ decl.files, within db p = true) →
    endsInSpace db = false

theorem endsInSpace_suffix {suffix : Bytes} (hs : suffix ∈ [] :: sidecars)
    (h : endsInSpace db = false) : endsInSpace (db ++ suffix) = false := by
  rcases List.mem_cons.mp hs with rfl | hs
  · rwa [List.append_nil]
  -- a sidecar's last letter ends no space
  have hlast : ∀ s ∈ sidecars, ∃ a, s.reverse.head? = some a ∧
      0x20 < a ∧ a < 0x80 := by decide
  obtain ⟨a, ha, hsolid⟩ := hlast suffix hs
  rw [endsInSpace, List.any_eq_false]
  intro w hw hsuf
  rw [List.isSuffixOf_iff_suffix, ← List.reverse_prefix] at hsuf
  obtain ⟨-, b, -, hb, -, hnot⟩ := spaces_ends w hw
  have hhead := head_of_pre hsuf hb
  rw [List.reverse_append, List.head?_append, ha] at hhead
  cases hhead
  exact hnot hsolid

/-- Where a path of the view that is left out ends. -/
theorem trimBack_leftOut (hv : decl.validate quote = .ok ())
    (happ : Box.appName app = true) {suffix : Bytes} (hdb : db ∈ decl.sqlite) :
    trimBack (itemPath (backupBase app) .files db ++ suffix) =
        itemPath (backupBase app) .files db ++ suffix ↔
      endsInSpace (db ++ suffix) = false := by
  rw [itemPath_text happ (decl.database hv hdb), List.append_assoc,
    List.cons_append, Glob.trimBack_slash, List.append_cancel_left_eq,
    List.cons.injEq, Glob.trimBack_eq_self_iff]
  simp

theorem agrees_of_noSpace (classes : Classes) (vars : Bytes → Bytes)
    (hv : decl.validate quote = .ok ()) (happ : Box.appName app = true)
    (h : NoSpaceAtEnd decl) : Agrees classes vars app decl where
  file := fun path => by
    have hself : ∀ q, LeftOut app decl q → trimBack q = q := by
      rintro q ⟨db, hdb, hin, suffix, hs, rfl⟩
      exact (trimBack_leftOut hv happ hdb).mpr
        (endsInSpace_suffix hs (h db hdb hin))
    rw [excludes_reads hv happ]
    constructor
    · rintro ⟨q, hq, rfl⟩
      rwa [hself q hq]
    · intro hq
      exact ⟨path, hq, (hself path hq).symm⟩
  masks := fun env staging declFile hall path => by
    rw [view_masked env staging declFile hall, mem_maskedIn hv]
  skips := fun path => skipped_iff hv happ
  once := fun _ _ _ _ _ hi hj hwi hwj => writes_once hv hi hj hwi hwj

theorem noSpace_of_agrees {classes : Classes} {vars : Bytes → Bytes}
    (hv : decl.validate quote = .ok ()) (happ : Box.appName app = true)
    (h : Agrees classes vars app decl) : NoSpaceAtEnd decl := by
  intro db hdb hin
  -- the database's own path is excluded, so it is some path trimmed
  have hleft : LeftOut app decl (itemPath (backupBase app) .files db ++ []) :=
    ⟨db, hdb, hin, [], .head _, rfl⟩
  obtain ⟨q, -, hq⟩ := (excludes_reads hv happ).mp ((h.file _).mpr hleft)
  have hself := Glob.trimBack_trimBack q
  rw [← hq, trimBack_leftOut hv happ hdb, List.append_nil] at hself
  exact hself

/-- The upload leaves out what the restore leaves out, exactly when no
database in a files path has a path that ends in white space; and the
order of declaration is nothing to the rules. -/
theorem exclusions_agree_iff (quote : Bytes → Bytes) (classes : Classes)
    (vars : Bytes → Bytes) (app : Bytes) (happ : Box.appName app = true)
    (decl : Config) : (decl.validate quote = .ok () →
      (Agrees classes vars app decl ↔ NoSpaceAtEnd decl)) ∧
    ∀ decl' : Config, decl.sqlite.Perm decl'.sqlite →
      decl.files.Perm decl'.files →
      (decl.validate quote = .ok () ↔ decl'.validate quote = .ok ()) :=
  ⟨fun hv =>
    ⟨noSpace_of_agrees hv happ, agrees_of_noSpace classes vars hv happ⟩,
    fun _ hs hf => Config.validate_perm hs hf⟩

/-- A database in a directory, and everything declared. -/
theorem exclusions_agree_example :
    Agrees (fun _ => none) (fun _ => []) (str "shop")
      ⟨[str "data/app*.db"], [str "."]⟩ := by
  refine ((exclusions_agree_iff id (fun _ => none) (fun _ => []) (str "shop")
    (by decide) ⟨[str "data/app*.db"], [str "."]⟩).1 (by rfl)).mpr ?_
  intro db hdb _
  rw [List.mem_singleton.mp hdb]
  decide

/-- A database whose name ends in a space: the file beside it that is named
without the space is left out in its place. -/
theorem trailing_space_misread :
    Config.validate id ⟨[str "x "], [str "."]⟩ = .ok () ∧
    Excludes (fun _ => none) (fun _ => [])
      (excludes (str "shop") ⟨[str "x "], [str "."]⟩)
      (str "/backup/shop/files/x") ∧ ¬ Excludes (fun _ => none) (fun _ => [])
      (excludes (str "shop") ⟨[str "x "], [str "."]⟩)
      (str "/backup/shop/files/x ") := by
  have hv : Config.validate id ⟨[str "x "], [str "."]⟩ = .ok () := rfl
  have happ : Box.appName (str "shop") = true := by decide
  refine ⟨hv, (excludes_reads hv happ).mpr
    ⟨str "/backup/shop/files/x ", ?_, by decide +kernel⟩, fun h => ?_⟩
  · exact ⟨str "x ", by simp, ⟨str ".", by simp, by decide⟩, [], by simp, rfl⟩
  · obtain ⟨q, -, hq⟩ := (excludes_reads hv happ).mp h
    have hself := Glob.trimBack_trimBack q
    rw [← hq, Glob.trimBack_eq_self_iff] at hself
    revert hself
    decide

end Hotserve.Backup
