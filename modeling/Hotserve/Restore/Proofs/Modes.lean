/-
The modes of directories, under the owner's permissions.

Shape of the argument. `Kept` says of the tree and of the record of
directories whose mode is set last all that matters here, and every step
keeps it however it ends: a directory that was in place is there and, if
it is not recorded, has the mode it had; one that was not is recorded; a
recorded one is open to its owner, and is recorded with the snapshot's
mode, with the one it had, or with 0700 where it was made and nothing is
said. `told` is what a `mkdir` with the snapshot's mode has settled. So
every directory can be read and passed through until `closeDirs`.

Three things can go wrong from there, and nothing else can. The path of
the target's root has as many slashes as that of a name in it, so the
root is closed before what is recorded after it (`RootLast`). A recorded
mode has no bit above 0777, so a directory in place that carried one has
lost it. And the root is never looked up in the record: what an earlier
item recorded of it stays where the snapshot's mode is the one it was
opened to. `directories_end_with_their_modes` says that the modes are
right just where the record shows none of these.
-/
import Hotserve.Restore.Proofs.Run
import Mathlib.Data.List.Infix

namespace Hotserve.Restore

open Bytes Fs Effect
open Backup (OpenErr Config sidecars)

variable {m bits : Nat} {Q : Unit → Job → Prop} {E : Job → Prop} {x : M Unit}

-- ====== the bits

theorem land_of_le {a b : Nat} (h : m &&& a = a) (hab : a &&& b = b) :
    m &&& b = b := by
  rw [← hab, ← Nat.and_assoc, h]

theorem lor_land_self (m a : Nat) : (m ||| a) &&& a = a := by
  refine Nat.eq_of_testBit_eq fun i => ?_
  simp only [Nat.testBit_and, Nat.testBit_or]
  cases a.testBit i <;> simp

theorem land_lor {a b : Nat} (ha : m &&& a = a) (hb : m &&& b = b) :
    m &&& (a ||| b) = a ||| b := by
  rw [Nat.and_or_distrib_left, ha, hb]

theorem land_lt : m &&& 0o777 < 0o1000 :=
  Nat.and_lt_two_pow _ (by decide : 0o777 < 2 ^ 9)

theorem land_all (hm : m < 0o10000) (h : m &&& 0o7000 = 0) :
    m &&& 0o777 = m := by
  have hall : m &&& 0o7777 = m := by
    rw [show (0o7777 : Nat) = 2 ^ 12 - 1 from rfl,
      Nat.and_two_pow_sub_one_eq_mod]
    exact Nat.mod_eq_of_lt hm
  rw [show (0o7777 : Nat) = 0o7000 ||| 0o777 from rfl, Nat.and_or_distrib_left,
    h, Nat.zero_or] at hall
  exact hall

-- ====== the modes of directories

/-- The mode of the directory at `q`; none where none is. -/
def dirMode (t : Tree) (q : Rel) : Option Nat :=
  (t.stat q).bind fun st => if st.kind = .dir then some st.perm else none

variable {t₀ t t' : Tree} {rel q : Rel} {st : Stat} {p : Nat} {env : Env}

theorem dirMode_of_stat (h : t.stat q = some st) (hdir : st.kind = .dir) :
    dirMode t q = some st.perm := by
  rw [dirMode, h, Option.bind_some, if_pos hdir]

theorem dirMode_eq_some (h : dirMode t q = some m) :
    ∃ st, t.stat q = some st ∧ st.kind = .dir ∧ st.perm = m := by
  obtain ⟨st, hst, hm⟩ := Option.bind_eq_some_iff.mp h
  obtain ⟨hdir, hm⟩ := Option.ite_none_right_eq_some.mp hm
  exact ⟨st, hst, hdir, Option.some.inj hm⟩

theorem dirMode_isDir (h : dirMode t q = some m) : IsDir t q := by
  obtain ⟨st, hst, hdir, -⟩ := dirMode_eq_some h
  exact ⟨st, hst, hdir⟩

theorem IsDir.dirMode (h : IsDir t q) : ∃ m, Restore.dirMode t q = some m := by
  obtain ⟨st, hst, hdir⟩ := h
  exact ⟨_, dirMode_of_stat hst hdir⟩

theorem dirMode_put_self (hdir : st.kind = .dir) :
    dirMode (put t rel (some st)) rel = some st.perm :=
  dirMode_of_stat (put_self ..) hdir

theorem dirMode_put_ne {o : Option Stat} (hne : q ≠ rel) :
    dirMode (put t rel o) q = dirMode t q := by
  rw [dirMode, put_ne _ _ hne, dirMode]

/-- What a directory lets a call do is up to its mode. -/
theorem letsAt_eq :
    env.letsAt t bits q = (dirMode t q).all (env.lets bits) := by
  unfold Env.letsAt dirMode
  cases t.stat q with
  | none => rfl
  | some st => by_cases hdir : st.kind = .dir <;> simp [hdir]

-- ====== the invariant

/-- A directory that was in place carries no bit above 0777. -/
def Plain (t : Tree) (q : Rel) : Prop :=
  ∀ m, dirMode t q = some m → m &&& 0o7000 = 0

/-- The target before: a restore owns it, and can read and pass through
every directory of it. -/
structure Before (env : Env) (t : Tree) : Prop where
  owner : env.lets = ownerLets
  modes : ∀ q m, dirMode t q = some m → m < 0o10000
  reads : ∀ q m, dirMode t q = some m → m &&& 0o500 = 0o500

/-- A directory as it is recorded. -/
structure Recorded (t₀ : Tree) (Said : Rel → Nat → Prop) (t : Tree)
    (d : Rel × Nat) : Prop where
  opened : ∃ m, dirMode t d.1 = some m ∧ m &&& 0o700 = 0o700
  mode : Said d.1 d.2 ∨
    (∃ m, dirMode t₀ d.1 = some m ∧ m &&& 0o777 = d.2) ∨
    dirMode t₀ d.1 = none ∧ d.2 = 0o700

/-- What every step keeps; the modes of `D` are settled. -/
structure Kept (t₀ : Tree) (Said : Rel → Nat → Prop) (D : Rel → Prop)
    (t : Tree) (made : List (Rel × Nat)) : Prop where
  rooted : Rooted t
  same : ∀ q, q ∉ made.map Prod.fst → dirMode t q = dirMode t₀ q
  nodup : (made.map Prod.fst).Nodup
  recorded : ∀ d ∈ made, Recorded t₀ Said t d
  /-- The root is told nothing for sure. -/
  told : ∀ q, D q → q ≠ [] → Plain t₀ q → ∃ p, Said q p ∧ ((q, p) ∈ made ∨
    q ∉ made.map Prod.fst ∧ dirMode t₀ q = some p)

variable {Said : Rel → Nat → Prop} {D D' : Rel → Prop}
  {made : List (Rel × Nat)}

theorem Kept.mono (h : Kept t₀ Said D t made)
    (hD : ∀ q, q ≠ [] → D' q → D q) : Kept t₀ Said D' t made :=
  ⟨h.rooted, h.same, h.nodup, h.recorded,
    fun q hq hne => h.told q (hD q hne hq) hne⟩

theorem Kept.start (ht : Rooted t₀) : Kept t₀ Said (fun _ => False) t₀ [] where
  rooted := ht
  same := fun _ _ => rfl
  nodup := List.nodup_nil
  recorded := by simp
  told := fun q hq => hq.elim

theorem put_same (hst : t.stat rel = some st) : put t rel (some st) = t := by
  obtain ⟨stat, data⟩ := t
  simp only [put, Tree.mk.injEq, and_true]
  exact Function.update_eq_self_iff.mpr hst.symm

theorem nodup_record (hnodup : (made.map Prod.fst).Nodup)
    (hmem : rel ∉ made.map Prod.fst) :
    ((made ++ [(rel, p)]).map Prod.fst).Nodup := by
  rw [List.map_append, List.nodup_append]
  refine ⟨hnodup, by simp, fun a ha b hb => ?_⟩
  rintro rfl
  rw [List.map_singleton, List.mem_singleton] at hb
  exact hmem (by rwa [hb] at ha)

section

variable (h : Kept t₀ Said D t made)
include h

theorem Kept.isDir (hq : q ∈ made.map Prod.fst) : IsDir t q := by
  obtain ⟨d, hd, rfl⟩ := List.mem_map.mp hq
  obtain ⟨m, hm, -⟩ := (h.recorded d hd).opened
  exact dirMode_isDir hm

section

variable (hb : Before env t₀)
include hb

/-- Until the modes are set, every directory is read and passed
through. -/
theorem Kept.reads (hm : dirMode t q = some m) : m &&& 0o500 = 0o500 := by
  by_cases hq : q ∈ made.map Prod.fst
  · obtain ⟨d, hd, rfl⟩ := List.mem_map.mp hq
    obtain ⟨m', hm', hopen⟩ := (h.recorded d hd).opened
    rw [hm] at hm'
    cases hm'
    exact land_of_le hopen (by decide)
  · exact hb.reads q m (h.same q hq ▸ hm)

/-- So nothing that needs no more of a directory is denied. -/
theorem Kept.lets (hbits : 0o500 &&& bits = bits)
    (q : Rel) : env.letsAt t bits q = true := by
  rw [letsAt_eq, hb.owner, Option.all_eq_true]
  intro m hm
  rw [ownerLets, beq_iff_eq]
  exact land_of_le (h.reads hb hm) hbits

theorem Kept.passable : Passable env t :=
  ⟨h.rooted, h.lets hb (by decide)⟩

theorem Kept.openDir (hq : IsDir t q) : env.openDir t q = .ok () := by
  rw [Env.openDir, if_pos (h.lets hb (by decide) q), (h.passable hb).openAt]
  exact openAt_dir h.rooted hq true

end

-- ====== the steps

/-- Where directories stay as they are, nothing else matters. -/
theorem Kept.alike (ht' : Rooted t') (hsame : ∀ q, dirMode t' q = dirMode t q) :
    Kept t₀ Said D t' made where
  rooted := ht'
  same := fun q hq => (hsame q).trans (h.same q hq)
  nodup := h.nodup
  recorded := fun d hd =>
    ⟨hsame d.1 ▸ (h.recorded d hd).opened, (h.recorded d hd).mode⟩
  told := h.told

/-- A name that is no directory, placed or removed where none is. -/
theorem Kept.name {o : Option Stat}
    (hup : IsDir t rel.dropLast) (hat : ¬ IsDir t rel)
    (ho : ∀ st, o = some st → st.kind ≠ .dir) :
    Kept t₀ Said D (put t rel o) made := by
  refine h.alike (h.rooted.put (fun _ => hup) fun hdir => absurd hdir hat)
    fun q => ?_
  by_cases hq : q = rel
  · subst hq
    have hbefore : dirMode t q = none :=
      Option.eq_none_iff_forall_ne_some.mpr fun m hm => hat (dirMode_isDir hm)
    rw [hbefore]
    refine Option.eq_none_iff_forall_ne_some.mpr fun m hm => ?_
    obtain ⟨st, hst, hdir, -⟩ := dirMode_eq_some hm
    rw [put_self] at hst
    exact ho st hst hdir
  · exact dirMode_put_ne hq

theorem Kept.write (ino : Nat) (bytes : Bytes) :
    Kept t₀ Said D (write t ino bytes) made :=
  h.alike ⟨h.rooted.root, h.rooted.parent⟩ fun _ => rfl

/-- A directory recorded that was not: made, or in place. -/
theorem Kept.record
    (hmem : rel ∉ made.map Prod.fst) (hup : rel ≠ [] → IsDir t rel.dropLast)
    (hst : st.kind = .dir)
    (hrec : Recorded t₀ Said (put t rel (some st)) (rel, p))
    (htold : D' rel → rel ≠ [] → Plain t₀ rel → Said rel p)
    (hD : ∀ q, D' q → q ≠ rel → D q) :
    Kept t₀ Said D' (put t rel (some st)) (made ++ [(rel, p)]) where
  rooted := h.rooted.put hup fun _ => ⟨st, rfl, hst⟩
  same := by
    intro q hq
    simp only [List.map_append, List.map_singleton, List.mem_append,
      List.mem_singleton, not_or] at hq
    exact (dirMode_put_ne hq.2).trans (h.same q hq.1)
  nodup := nodup_record h.nodup hmem
  recorded := by
    refine forall_mem_concat (fun d hd => ?_) hrec
    have hne : d.1 ≠ rel := fun heq => hmem (heq ▸ List.mem_map_of_mem hd)
    obtain ⟨hopen, hmode⟩ := h.recorded d hd
    exact ⟨(dirMode_put_ne hne (t := t)).symm ▸ hopen, hmode⟩
  told := by
    intro q hq hroot hplain
    by_cases heq : q = rel
    · subst heq
      exact ⟨p, htold hq hroot hplain, .inl (by simp)⟩
    · obtain ⟨p', hsaid, hwhere⟩ := h.told q (hD q hq heq) hroot hplain
      refine ⟨p', hsaid, hwhere.imp (List.mem_append_left _) ?_⟩
      rintro ⟨hno, hrest⟩
      refine ⟨?_, hrest⟩
      simp only [List.map_append, List.mem_append, not_or]
      exact ⟨hno, by simpa using heq⟩

/-- A recorded directory that is told its mode. -/
theorem Kept.tell (hmem : rel ∈ made.map Prod.fst)
    (hp : Said rel p) (hD : ∀ q, D' q → q ≠ rel → D q) :
    Kept t₀ Said D' t
      (made.map fun d => if d.1 = rel then (rel, p) else d) := by
  have hkeys : (made.map fun d => if d.1 = rel then (rel, p) else d).map
      Prod.fst = made.map Prod.fst := by
    rw [List.map_map]
    refine List.map_congr_left fun d _ => ?_
    by_cases heq : d.1 = rel
    · simp [heq]
    · simp [heq]
  refine ⟨h.rooted, hkeys ▸ h.same, hkeys ▸ h.nodup, ?_, ?_⟩
  · intro d hd
    obtain ⟨d', hd', rfl⟩ := List.mem_map.mp hd
    by_cases heq : d'.1 = rel
    · have hopen := (h.recorded d' hd').opened
      rw [heq] at hopen
      rw [if_pos heq]
      exact ⟨hopen, .inl hp⟩
    · rw [if_neg heq]
      exact h.recorded d' hd'
  · intro q hq hroot hplain
    rw [hkeys]
    by_cases heq : q = rel
    · subst heq
      obtain ⟨d, hd, hfst⟩ := List.mem_map.mp hmem
      exact ⟨p, hp, .inl (List.mem_map.mpr ⟨d, hd, if_pos hfst⟩)⟩
    · obtain ⟨p', hsaid, hwhere⟩ := h.told q (hD q hq heq) hroot hplain
      refine ⟨p', hsaid, hwhere.imp_left fun hin => ?_⟩
      exact List.mem_map.mpr ⟨_, hin, if_neg heq⟩

/-- A directory in place whose mode is the snapshot's already. -/
theorem Kept.settle
    (hmem : rel ∉ made.map Prod.fst) (hm : dirMode t₀ rel = some m)
    (hsaid : Plain t₀ rel → Said rel m)
    (hD : ∀ q, D' q → q ≠ rel → D q) : Kept t₀ Said D' t made := by
  refine ⟨h.rooted, h.same, h.nodup, h.recorded, fun q hq hroot hplain => ?_⟩
  by_cases heq : q = rel
  · subst heq
    exact ⟨m, hsaid hplain, .inr ⟨hmem, hm⟩⟩
  · exact h.told q (hD q hq heq) hroot hplain

end

-- ====== one step at a time

/-- What holds between two steps. -/
abbrev Keeps (t₀ : Tree) (Said : Rel → Nat → Prop) (D : Rel → Prop)
    (j : Job) : Prop :=
  Kept t₀ Said D j.place.tree j.made

/-- A step that keeps it however it ends, and settles more if it does not
fail. -/
abbrev Settles (t₀ : Tree) (Said : Rel → Nat → Prop) (D D' : Rel → Prop)
    (x : M Unit) (j : Job) : Prop :=
  Leaves x j (fun _ => Keeps t₀ Said D') (Keeps t₀ Said D)

/-- A step that only keeps it. -/
abbrev Stays (t₀ : Tree) (Said : Rel → Nat → Prop) (D : Rel → Prop) (x : M Unit)
    (j : Job) : Prop := Settles t₀ Said D D x j

/-- `D`, and `rel` where a mode is said. -/
def Tells (D : Rel → Prop) (rel : Rel) (perm : Option Nat) (q : Rel) : Prop :=
  D q ∨ q = rel ∧ perm ≠ none

variable {snap : Snapshot} {perm : Option Nat} {j : Job}

theorem Kept.untold (h : Kept t₀ Said (Tells D rel perm) t made) :
    Kept t₀ Said D t made :=
  h.mono fun _ _ hq => .inl hq

theorem Kept.tells_none (h : Kept t₀ Said D t made) :
    Kept t₀ Said (Tells D rel none) t made :=
  h.mono fun _ _ hq => hq.resolve_right fun hq => hq.2 rfl

theorem Tells.before (hq : Tells D rel perm q) (hne : q ≠ rel) : D q :=
  hq.resolve_right fun hq => hne hq.1

theorem leaves_record (hmem : rel ∉ j.made.map Prod.fst)
    (h : Q () { j with made := j.made ++ [(rel, p)] }) :
    Leaves (record rel p) j Q E := by
  refine leaves_modify ?_
  rwa [if_neg hmem]

/-- A step that changes nothing, or fails. -/
theorem leaves_openTarget {dirOnly : Bool}
    (h : openAt j.place.tree rel dirOnly = .ok () → Q () j) (he : E j) :
    Leaves (openTarget env rel dirOnly) j Q E := by
  unfold Leaves openTarget
  cases hopen : env.openAt j.place.tree rel dirOnly with
  | error e => exact he
  | ok u => exact h (env.openAt_eq hopen (by simp))

theorem leaves_needs (h : Q () j) (he : E j) :
    Leaves (needs env bits rel) j Q E := by
  unfold Leaves needs
  by_cases hlets : env.letsAt j.place.tree bits rel = true
  · rw [if_pos hlets]
    exact h
  · rw [if_neg hlets]
    exact he

theorem leaves_open_then {dirOnly : Bool} (he : E j)
    (hx : openAt j.place.tree rel dirOnly = .ok () → Leaves x j Q E) :
    Leaves (do openTarget env rel dirOnly; x) j Q E := by
  refine Leaves.bind (P := fun _ j' => j' = j ∧ Leaves x j Q E)
    (leaves_openTarget (fun hopen => ⟨rfl, hx hopen⟩) he) ?_
  rintro _ _ ⟨rfl, hx⟩
  exact hx

theorem leaves_needs_then (he : E j) (hx : Leaves x j Q E) :
    Leaves (do needs env bits rel; x) j Q E := by
  refine Leaves.bind (P := fun _ j' => j' = j) (leaves_needs rfl he) ?_
  rintro _ _ rfl
  exact hx

theorem isDir_of_openAt (ht : Rooted t)
    (h : openAt t rel true = .ok ()) : IsDir t rel := by
  obtain ⟨st, hst⟩ := stat_of_openAt h
  rw [openAt_of_stat ht hst] at h
  refine ⟨st, hst, ?_⟩
  by_contra hkind
  simp [Backup.lookAt, hkind] at h

-- ====== the names

section

variable (hb : Before env t₀) (h : Keeps t₀ Said D j)
include h

/-- A rename of what is no directory, in a directory. -/
theorem leaves_renameOnto
    (hup : IsDir j.place.tree rel.dropLast) (hst : st.kind ≠ .dir) :
    Stays t₀ Said D (renameOnto env rel st) j := by
  refine leaves_get (leaves_ite (fun _ => leaves_throw h) fun hat => ?_)
  refine leaves_modify (h.name hup ?_ ?_)
  · rintro ⟨st', hst', hdir⟩
    exact hat (by rw [hst', Option.map_some, hdir])
  · rintro st' ⟨⟩
    exact hst

/-- A new file or link, renamed onto its name. -/
theorem leaves_place {kind : Fs.Kind} {bytes : Bytes} {mode : Nat}
    (hup : IsDir j.place.tree rel.dropLast) (hkind : kind ≠ .dir) :
    Stays t₀ Said D (do
        let ino ← newInode bytes
        renameOnto env rel (newStat kind ino mode)) j := by
  refine Leaves.bind (P := fun _ j' => Keeps t₀ Said D j' ∧
    IsDir j'.place.tree rel.dropLast) ?_ fun ino j₁ h₁ => ?_
  · exact leaves_get (Leaves.bind (P := fun _ j' => Keeps t₀ Said D j' ∧
      IsDir j'.place.tree rel.dropLast) (leaves_set ⟨h.write _ _, hup⟩)
      fun _ j₁ h₁ => leaves_pure h₁)
  · exact leaves_renameOnto h₁.1 h₁.2 hkind

/-- What is done in the directory of a name, once it is open and may be
written in. -/
theorem leaves_into
    (hx : IsDir j.place.tree rel.dropLast → Stays t₀ Said D x j) :
    Stays t₀ Said D (do
        openTarget env rel.dropLast true
        needs env 0o300 rel.dropLast
        x) j := by
  refine leaves_open_then h fun hopen => leaves_needs_then h ?_
  exact hx (isDir_of_openAt h.rooted hopen)

theorem leaves_copyFile {src : Rel} {mode : Nat} :
    Stays t₀ Said D (copyFile env snap src rel mode) j := by
  unfold copyFile
  split
  next => exact leaves_throw h
  split
  next => exact leaves_throw h
  refine leaves_ite (fun _ => leaves_throw h) fun _ => ?_
  exact leaves_into h fun hup => leaves_place h hup (by decide)

theorem leaves_unlink : Stays t₀ Said D (unlink env rel) j := by
  refine leaves_needs_then h (leaves_get ?_)
  split
  next => exact leaves_pure h
  next st hst =>
    refine leaves_needs_then h ?_
    refine leaves_ite (fun _ => leaves_throw h) fun hkind => ?_
    exact leaves_modify (h.name (h.rooted.up hst)
      (fun hdir => hkind (hdir.kind hst)) (by simp))

-- ====== the directories

include hb

/-- The root, recorded already: it is told its mode, or nothing is
done. -/
theorem leaves_inPlace_root (hmem : [] ∈ j.made.map Prod.fst)
    (hsaid : ∀ p, perm = some p → Said [] p) :
    Settles t₀ Said D (Tells D [] perm) (inPlace env [] perm) j := by
  obtain ⟨d, hd, hnil⟩ := List.mem_map.mp hmem
  obtain ⟨m, hm, hall⟩ := (h.recorded d hd).opened
  obtain ⟨st, hst, hdir, rfl⟩ := dirMode_eq_some (hnil ▸ hm)
  have hshut : st.perm &&& 0o300 = 0o300 := land_of_le hall (by decide)
  refine leaves_get ?_
  rw [h.openDir hb ⟨st, hst, hdir⟩, hst]
  simp only [hshut, ne_eq, not_true_eq_false, if_false, or_false]
  refine leaves_ite (fun hfinal => ?_) fun _ =>
    leaves_pure (h.mono fun q hne hq => hq.before hne)
  split at hfinal
  next hzero =>
    cases perm with
    | none => exact absurd rfl hfinal
    | some p =>
      rw [if_pos hzero, Option.getD_some]
      refine leaves_modify ?_
      rw [if_pos hmem]
      exact h.tell hmem (hsaid p rfl) fun q => Tells.before
  next => exact absurd rfl hfinal

/-- `inPlace`, of a directory that is not recorded. -/
theorem leaves_inPlace (hmem : rel ∉ j.made.map Prod.fst)
    (hdir : IsDir j.place.tree rel) (hsaid : ∀ p, perm = some p → Said rel p) :
    Settles t₀ Said D (Tells D rel perm) (inPlace env rel perm) j := by
  have hopen := h.openDir hb hdir
  obtain ⟨st, hst, hdir⟩ := hdir
  have hup := fun _ : rel ≠ [] => h.rooted.up hst
  have hm : dirMode t₀ rel = some st.perm :=
    h.same rel hmem ▸ dirMode_of_stat hst hdir
  -- a plain directory's own mode is all of its mode
  have hown : st.perm &&& 0o7000 = 0 → st.perm &&& 0o777 = st.perm :=
    land_all (hb.modes rel _ hm)
  -- what was told was told the mode it has
  have htold : D rel → rel ≠ [] → Plain t₀ rel → Said rel st.perm := by
    intro hD hne hplain
    obtain ⟨p, hsaid, hin | ⟨-, hp⟩⟩ := h.told rel hD hne hplain
    · exact absurd (List.mem_map_of_mem hin) hmem
    · rw [hm] at hp
      cases hp
      exact hsaid
  refine leaves_get ?_
  rw [hopen, hst]
  dsimp only
  by_cases hshut : st.perm &&& 0o300 = 0o300
  · have hall : st.perm &&& 0o700 = 0o700 :=
      land_lor (hb.reads rel _ hm) hshut
    simp only [hshut, ne_eq, not_true_eq_false, if_false, or_false]
    refine leaves_ite (fun hfinal => ?_) fun hfinal => leaves_pure ?_
    · -- another mode is said, of a directory that carries no other bit
      split at hfinal
      next hz =>
        cases perm with
        | none => exact absurd rfl hfinal
        | some p =>
          rw [if_pos hz, Option.getD_some]
          refine leaves_record hmem ?_
          have hrec : Recorded t₀ Said (put j.place.tree rel (some st))
              (rel, p) :=
            ⟨⟨_, dirMode_put_self hdir, hall⟩, .inl (hsaid p rfl)⟩
          have hkept : Kept t₀ Said (Tells D rel (some p))
              (put j.place.tree rel (some st)) (j.made ++ [(rel, p)]) :=
            h.record hmem hup hdir hrec (fun _ _ _ => hsaid p rfl)
              fun q => Tells.before
          rwa [put_same hst] at hkept
      next => exact absurd rfl hfinal
    · cases perm with
      | none => exact h.tells_none
      | some p =>
        refine h.settle hmem hm (fun hplain => ?_) fun q => Tells.before
        have hz := hplain _ hm
        rw [if_pos hz, Option.getD_some, hown hz, not_not] at hfinal
        exact hfinal ▸ hsaid p rfl
  · -- closed to its owner: opened, and closed again last
    rw [if_pos hshut]
    refine Leaves.bind (P := fun _ j' => j' = { j with place := { j.place with
      tree :=
        put j.place.tree rel (some { st with perm := st.perm ||| 0o700 }) } })
      ?_ ?_
    · refine leaves_get ?_
      rw [hst]
      exact leaves_modify rfl
    rintro _ j' rfl
    rw [if_pos (.inr hshut)]
    refine leaves_record hmem ?_
    refine h.record hmem hup hdir
      ⟨⟨_, dirMode_put_self hdir, lor_land_self _ _⟩, ?_⟩
        (fun hD hne hplain => ?_)
      fun q => Tells.before
    · split
      · cases perm with
        | none => exact .inr (.inl ⟨_, hm, rfl⟩)
        | some p => exact .inl (hsaid p rfl)
      · exact .inr (.inl ⟨_, hm, rfl⟩)
    · have hz := hplain _ hm
      rw [if_pos hz]
      cases perm with
      | none =>
        rw [Option.getD_none, hown hz]
        exact htold (hD.resolve_right fun hr => hr.2 rfl) hne hplain
      | some p => exact hsaid p rfl

/-- `Mkdirat`: what it comes upon need not be a directory. -/
theorem leaves_mkdirat
    (hne : rel ≠ []) (hsaid : ∀ p, perm = some p → Said rel p) :
    Leaves (mkdirat env rel perm) j
      (fun _ j' => Keeps t₀ Said D j' ∧ (IsDir j'.place.tree rel →
        Keeps t₀ Said (Tells D rel perm) j')) (Keeps t₀ Said D) := by
  have hboth : ∀ {j' : Job}, Keeps t₀ Said (Tells D rel perm) j' →
      Keeps t₀ Said D j' ∧ (IsDir j'.place.tree rel →
        Keeps t₀ Said (Tells D rel perm) j') := fun h' =>
    ⟨h'.untold, fun _ => h'⟩
  refine leaves_needs_then h (leaves_get ?_)
  refine leaves_ite (fun _ => leaves_throw h) fun hup => ?_
  cases hat : j.place.tree.stat rel with
  | none =>
    -- made, and open to its owner
    dsimp only
    have hmem : rel ∉ j.made.map Prod.fst := fun hmem => by
      obtain ⟨st, hst, -⟩ := h.isDir hmem
      rw [hat] at hst
      cases hst
    have hnew : dirMode t₀ rel = none := by
      rw [← h.same rel hmem, dirMode, hat, Option.bind_none]
    have hupdir : IsDir j.place.tree rel.dropLast := by
      rwa [not_not, Option.map_eq_some_iff] at hup
    refine leaves_needs_then h ?_
    refine Leaves.bind (P := fun _ j₁ => j₁ = { j with place :=
      ⟨put j.place.tree rel (some (newStat .dir j.place.next 0o700)),
        j.place.next + 1⟩ }) (leaves_set rfl) ?_
    rintro _ j₁ rfl
    refine leaves_record hmem (hboth ?_)
    refine h.record hmem (fun _ => hupdir) rfl
      ⟨⟨_, dirMode_put_self rfl, Nat.and_self _⟩, ?_⟩ (fun hD _ hplain => ?_)
      fun q => Tells.before
    · cases perm with
      | none => exact .inr (.inr ⟨hnew, rfl⟩)
      | some p => exact .inl (hsaid p rfl)
    · rcases hD with hD | ⟨-, hD⟩
      · -- what was told is there
        obtain ⟨p, -, hin | ⟨-, hp⟩⟩ := h.told rel hD hne hplain
        · exact absurd (List.mem_map_of_mem hin) hmem
        · rw [hnew] at hp
          cases hp
      · obtain ⟨p, rfl⟩ := Option.ne_none_iff_exists'.mp hD
        exact hsaid p rfl
  | some st =>
    refine leaves_ite (fun hmem => ?_) fun hmem => ?_
    · -- made for an earlier item
      cases perm with
      | none => exact leaves_pure ⟨h, fun _ => h.tells_none⟩
      | some p =>
        refine leaves_modify ?_
        rw [if_pos hmem]
        exact hboth (h.tell hmem (hsaid p rfl) fun q => Tells.before)
    · by_cases hdir : IsDir j.place.tree rel
      · exact (leaves_inPlace hb h hmem hdir hsaid).mono fun _ _ => hboth
      · refine leaves_get ?_
        cases hopen : env.openDir j.place.tree rel with
        | error e => exact leaves_pure ⟨h, fun hd => absurd hd hdir⟩
        | ok u =>
          refine absurd (isDir_of_openAt h.rooted ?_) hdir
          unfold Env.openDir at hopen
          split at hopen
          · exact env.openAt_eq hopen (by simp)
          · cases hopen

theorem leaves_mkdirLast
    (hne : rel ≠ []) (hsaid : ∀ p, perm = some p → Said rel p) :
    Settles t₀ Said D (Tells D rel perm) (mkdirLast env rel perm) j := by
  refine leaves_open_then h fun _ => ?_
  refine Leaves.bind (P := fun _ j' => Keeps t₀ Said D j') (leaves_modify h)
    fun _ j₁ h₁ => ?_
  refine Leaves.bind (leaves_mkdirat hb h₁ hne hsaid) fun _ j₂ h₂ => ?_
  exact leaves_openTarget
    (fun hopen => h₂.2 (isDir_of_openAt h₂.1.rooted hopen))
    h₂.1

omit h in
theorem leaves_mkdir {rel : Rel} {perm : Option Nat} {j : Job}
    (h : Keeps t₀ Said D j) (hsaid : ∀ p, perm = some p → Said rel p) :
    Settles t₀ Said D (Tells D rel perm) (mkdir env rel perm) j := by
  unfold mkdir
  refine leaves_get (leaves_ite (fun hseen => ?_) fun _ => ?_)
  · obtain ⟨-, rfl⟩ := hseen
    exact leaves_pure h.tells_none
  refine leaves_ite (fun hroot => ?_) fun hne => ?_
  · subst hroot
    refine Leaves.bind (P := fun _ j' => Keeps t₀ Said D j') (leaves_modify h)
      fun _ j₁ h₁ => ?_
    by_cases hmem : [] ∈ j₁.made.map Prod.fst
    · exact leaves_inPlace_root hb h₁ hmem hsaid
    · exact leaves_inPlace hb h₁ hmem h₁.rooted.root hsaid
  split
  next hlong =>
    refine Leaves.bind (leaves_mkdir h (by simp)) fun _ j₁ h₁ => ?_
    exact leaves_mkdirLast hb h₁.untold hne hsaid
  next => exact leaves_mkdirLast hb h hne hsaid
termination_by rel.length
decreasing_by
  rw [List.length_dropLast]
  omega

/-- `mkdir` on the way to something. -/
theorem leaves_way : Stays t₀ Said D (mkdir env rel none) j :=
  (leaves_mkdir hb h (by simp)).mono fun _ _ h' => h'.untold

-- ====== the items

theorem leaves_symlink {text : Bytes} :
    Stays t₀ Said D (symlink env rel text) j := by
  refine Leaves.bind (leaves_way hb h) fun _ j₁ h₁ => ?_
  exact leaves_into h₁ fun hup => leaves_place h₁ hup (by decide)

theorem leaves_hardlink {first : Rel} :
    Stays t₀ Said D (hardlink env first rel) j := by
  refine Leaves.bind (leaves_way hb h) fun _ j₁ h₁ => ?_
  refine leaves_open_then h₁ fun _ => leaves_open_then h₁ fun hopen => ?_
  refine leaves_needs_then h₁ (leaves_needs_then h₁ (leaves_get ?_))
  split
  next => exact leaves_throw h₁
  next => exact leaves_ite (fun _ => leaves_throw h₁) fun hkind =>
    leaves_renameOnto h₁ (isDir_of_openAt h₁.rooted hopen) hkind

theorem leaves_installDatabase :
    Stays t₀ Said D (installDatabase env snap rel) j := by
  refine Leaves.bind (leaves_way hb h) fun _ j₁ h₁ => leaves_get ?_
  split
  next =>
    refine leaves_open_then h₁ fun _ => ?_
    refine Leaves.bind (leaves_forM (fun _ => Keeps t₀ Said D) [] h₁
      fun _ _ _ _ h => leaves_unlink h) fun _ j₂ h₂ => ?_
    exact leaves_copyFile h₂
  next => exact leaves_throw h₁
  next => exact leaves_throw h₁
  split
  next => exact leaves_throw h₁
  refine leaves_ite (fun _ => leaves_throw h₁) fun _ => ?_
  split
  next => exact leaves_throw h₁
  next => exact leaves_modify (h₁.write _ _)

theorem leaves_installFile {f : Entry} :
    Stays t₀ Said D (installFile env snap f) j := by
  refine leaves_get ?_
  split
  next => exact leaves_hardlink hb h
  next =>
    refine Leaves.bind (leaves_copyFile h) fun _ j₁ h₁ => ?_
    exact leaves_ite (fun _ => leaves_modify h₁) fun _ => leaves_pure h₁

/-- `D`, and the directories of a list of entries. -/
def Lists (D : Rel → Prop) (l : List Entry) (q : Rel) : Prop :=
  D q ∨ ∃ d ∈ l, d.rel = q

/-- A files tree settles the modes of its directories. -/
theorem leaves_installFiles {f : Found}
    (hsaid : ∀ d ∈ f.dirs, Said d.rel d.perm) :
    Settles t₀ Said D (Lists D f.dirs) (installFiles env snap rel f) j := by
  refine Leaves.bind (P := fun _ j' => Keeps t₀ Said D j')
    (leaves_ite (fun _ => leaves_way hb h) fun _ => leaves_pure h)
    fun _ j₁ h₁ => ?_
  have hdirs : Settles t₀ Said D (Lists D f.dirs)
      (f.dirs.forM fun d => mkdir env d.rel (some d.perm)) j₁ := by
    refine leaves_forM (fun done => Keeps t₀ Said (Lists D done)) []
      (h₁.mono fun q _ hq => ?_) ?_
    · exact hq.resolve_right (by simp)
    · intro done d j₂ hd h₂
      refine ((leaves_mkdir hb h₂ ?_).mono fun _ j₃ h₃ => ?_).mono_error
        fun j₃ h₃ => h₃.mono fun q _ hq => .inl hq
      · rintro p ⟨⟩
        exact hsaid d hd
      · refine h₃.mono ?_
        rintro q - (hq | ⟨e, he, rfl⟩)
        · exact .inl (.inl hq)
        · rcases List.mem_append.mp he with he | he
          · exact .inl (.inr ⟨e, he, rfl⟩)
          · rw [List.mem_singleton.mp he]
            exact .inr ⟨rfl, by simp⟩
  refine Leaves.bind hdirs fun _ j₂ h₂ => ?_
  have hrest : Stays t₀ Said (Lists D f.dirs) (do
      f.files.forM (installFile env snap)
      f.links.forM fun l => symlink env l.rel l.target) j₂ :=
    Leaves.bind (leaves_forM (fun _ => Keeps t₀ Said _) [] h₂
      fun _ _ _ _ h => leaves_installFile hb h) fun _ j₃ h₃ =>
        leaves_forM (fun _ => Keeps t₀ Said _) [] h₃
          fun _ _ _ _ h => leaves_symlink hb h
  exact hrest.mono_error fun j₃ h₃ => h₃.mono fun q _ hq => .inl hq

end

/-- The directories of an item's files tree. -/
def ItemDirs (it : Item × Option Found) (q : Rel) : Prop :=
  it.1.kind = .files ∧ ∃ f, it.2 = some f ∧ ∃ d ∈ f.dirs, d.rel = q

/-- Those of the items of a list. -/
def DirsOf (l : List (Item × Option Found)) (q : Rel) : Prop :=
  ∃ it ∈ l, ItemDirs it q

/-- What every item of a list that is installed says is the snapshot's. -/
def AllSaid (Said : Rel → Nat → Prop) (l : List (Item × Option Found)) : Prop :=
  ∀ it ∈ l, it.1.cls = .ok → it.1.kind = .files → ∀ f, it.2 = some f →
    ∀ d ∈ f.dirs, Said d.rel d.perm

/-- An item settles the modes of its own directories. -/
theorem leaves_installItem {it : Item × Option Found} (hb : Before env t₀)
    (h : Keeps t₀ Said D j) (hsaid : it.1.kind = .files →
      ∀ f, it.2 = some f → ∀ d ∈ f.dirs, Said d.rel d.perm) :
    Settles t₀ Said D (fun q => D q ∨ ItemDirs it q)
      (installItem env snap it) j := by
  unfold installItem
  split
  next o hkind =>
    refine (leaves_installDatabase hb h).mono fun _ j' h' => h'.mono ?_
    rintro q - (hq | ⟨hfiles, -⟩)
    · exact hq
    · rw [hkind] at hfiles
      cases hfiles
  next f hkind hf =>
    refine (leaves_installFiles hb h (hsaid hkind f hf)).mono
      fun _ j' h' => h'.mono ?_
    rintro q - (hq | ⟨-, f', hf', hd⟩)
    · exact .inl hq
    · rw [hf] at hf'
      cases hf'
      exact .inr hd
  next hkind hnone =>
    refine leaves_pure (h.mono ?_)
    rintro q - (hq | ⟨-, f', hf', -⟩)
    · exact hq
    · rw [hnone] at hf'
      cases hf'

/-- However the items end, and what it means that all are in place. -/
theorem installAll_keeps (hb : Before env t₀) :
    ∀ {l : List (Item × Option Found)} {D : Rel → Prop} {j : Job},
      Keeps t₀ Said D j → AllSaid Said l →
      Keeps t₀ Said D (installAll env snap l j).2 ∧
      ((∀ it ∈ (installAll env snap l j).1, it.cls = .ok) →
        Keeps t₀ Said (fun q => D q ∨ DirsOf l q) (installAll env snap l j).2)
  | [], D, j, h, _ => by
    refine ⟨h, fun _ => h.mono ?_⟩
    rintro q - (hq | ⟨it, hit, -⟩)
    · exact hq
    · cases hit
  | it :: l, D, j, h, hsaid => by
    have hrest : AllSaid Said l := fun x hx => hsaid x (.tail _ hx)
    rw [installAll]
    split
    next hbad =>
      have ih := installAll_keeps hb h hrest
      exact ⟨ih.1, fun hall => absurd (hall it.1 (.head _)) hbad⟩
    next hok =>
      have hone : Settles t₀ Said D (fun q => D q ∨ ItemDirs it q)
          (installItem env snap it) j :=
        leaves_installItem hb h (hsaid it (.head _) (not_not.mp hok))
      unfold Settles Leaves at hone
      split
      next j₁ hrun =>
        rw [hrun] at hone
        have ih := installAll_keeps hb hone hrest
        refine ⟨ih.1.mono fun q _ hq => .inl hq, fun hall => ?_⟩
        refine (ih.2 fun x hx => hall x (.tail _ hx)).mono ?_
        rintro q - (hq | ⟨x, hx, hd⟩)
        · exact .inl (.inl hq)
        · rcases List.mem_cons.mp hx with rfl | hx
          · exact .inl (.inr hd)
          · exact .inr ⟨x, hx, hd⟩
      next e j₁ hrun =>
        rw [hrun] at hone
        have ih := installAll_keeps hb hone hrest
        refine ⟨ih.1, fun hall => ?_⟩
        exact absurd (hall _ (.head _)) (by simp)

-- ====== the closing

/-- A directory that lets its owner do what needs some bits lets it do
what needs fewer. -/
theorem letsAt_mono {bits' : Nat} (howner : env.lets = ownerLets)
    (hbits : bits &&& bits' = bits') (h : env.letsAt t bits q = true) :
    env.letsAt t bits' q = true := by
  rw [letsAt_eq, howner, Option.all_eq_true] at h ⊢
  intro m hm
  have hone := h m hm
  rw [ownerLets, beq_iff_eq] at hone ⊢
  exact land_of_le hone hbits

/-- No directory in the root is recorded after it. -/
def RootLast (made : List (Rel × Nat)) : Prop :=
  made.Pairwise fun a b => a.1 = [] → b.1.length ≠ 1

/-- What is sorted before another of as many slashes was recorded
before. -/
theorem RootLast.closeOrder : ∀ {made : List (Rel × Nat)}, RootLast made →
    RootLast (closeOrder made)
  | [], _ => List.Pairwise.nil
  | d :: made, h => by
    obtain ⟨hd, hmade⟩ := List.pairwise_cons.mp h
    have ih : RootLast (Restore.closeOrder made) := RootLast.closeOrder hmade
    have hmem : ∀ e ∈ Restore.closeOrder made, d.1 = [] → e.1.length ≠ 1 :=
      fun e he => hd e ((List.mem_insertionSort _).mp he)
    unfold RootLast at ih ⊢
    rw [Restore.closeOrder, List.insertionSort_cons,
      List.orderedInsert_eq_take_drop, List.pairwise_append]
    refine ⟨ih.sublist (List.takeWhile_sublist _), List.pairwise_cons.mpr
      ⟨fun e he => hmem e ((List.dropWhile_sublist _).mem he),
        ih.sublist (List.dropWhile_sublist _)⟩, fun a ha b hb hnil => ?_⟩
    -- what stands before `d` has more slashes
    have hlong := List.all_eq_true.mp List.all_takeWhile a ha
    rw [decide_eq_true_eq, hnil] at hlong
    exact absurd (Nat.zero_le _) hlong

/-- Deepest first: each directory before those above it, unless the root
comes before one in it. -/
theorem closeOrder_before_iff (hnodup : (made.map Prod.fst).Nodup) :
    (closeOrder made).Pairwise (fun a b => ¬ a.1 <+: b.1) ↔ RootLast made := by
  constructor
  · intro h
    refine List.pairwise_iff_forall_sublist.mpr fun {a b} hab hroot hone => ?_
    have hsorted : [a, b].Pairwise fun a b =>
        b.1.length - 1 ≤ a.1.length - 1 := by
      simp [hroot, hone]
    have hsub := List.sublist_insertionSort hsorted hab
    exact List.pairwise_iff_forall_sublist.mp h hsub (hroot ▸ List.nil_prefix)
  · intro h
    have hperm : (closeOrder made).Perm made := List.perm_insertionSort _ _
    have hsorted : (closeOrder made).Pairwise fun a b =>
        b.1.length - 1 ≤ a.1.length - 1 := List.pairwise_insertionSort _ _
    have hkeys : (closeOrder made).Pairwise fun a b => a.1 ≠ b.1 :=
      List.pairwise_map.mp ((hperm.map Prod.fst).nodup_iff.mpr hnodup)
    refine ((hsorted.and hkeys).and h.closeOrder).imp ?_
    rintro a b ⟨⟨hlen, hdiff⟩, hroot⟩ hpre
    have hlt : a.1.length < b.1.length := lt_of_le_of_ne hpre.length_le
      fun heq => hdiff (hpre.eq_of_length heq)
    exact hroot (List.length_eq_zero_iff.mp (by omega)) (by omega)

/-- The recorded modes are set, and nothing else is changed. -/
structure Closed (l : List (Rel × Nat)) (t t' : Tree) : Prop where
  other : ∀ q, q ∉ l.map Prod.fst → dirMode t' q = dirMode t q
  set : ∀ d ∈ l, dirMode t' d.1 = some d.2

theorem runs_closing (howner : env.lets = ownerLets) :
    ∀ {l : List (Rel × Nat)} {j : Job},
    Rooted j.place.tree → l.Pairwise (fun a b => ¬ a.1 <+: b.1) →
    (∀ d ∈ l, IsDir j.place.tree d.1 ∧
      ∀ q, q <+: d.1 → env.letsAt j.place.tree 0o500 q = true) →
    Runs (l.mapM (closeDir env)) j fun errs j' =>
      (∀ e ∈ errs, e = []) ∧ Closed l j.place.tree j'.place.tree
  | [], j, _, _, _ => leaves_pure ⟨by simp, fun _ _ => rfl, by simp⟩
  | d :: l, j, ht, horder, hl => by
    obtain ⟨hfirst, hrest⟩ := List.pairwise_cons.mp horder
    obtain ⟨hdir, hway⟩ := hl d (.head _)
    have hopen : env.openDir j.place.tree d.1 = .ok () := by
      have hpass : env.passes j.place.tree d.1 = true := by
        refine List.all_eq_true.mpr fun q hq => ?_
        have hpre := (List.mem_inits q d.1).mp (List.mem_of_mem_dropLast hq)
        exact letsAt_mono howner (by decide) (hway q hpre)
      have hread : env.letsAt j.place.tree 0o400 d.1 = true :=
        letsAt_mono howner (by decide) (hway _ List.prefix_rfl)
      rw [Env.openDir, if_pos hread, Env.openAt, if_pos hpass]
      exact openAt_dir ht hdir true
    obtain ⟨st, hst, hkind⟩ := id hdir
    rw [List.mapM_cons]
    refine Leaves.bind (P := fun e j' => e = [] ∧ j'.place.tree =
      put j.place.tree d.1 (some { st with perm := d.2 })) ?_ ?_
    · refine leaves_get ?_
      rw [hopen]
      refine Leaves.bind (P := fun _ j' => j'.place.tree =
        put j.place.tree d.1 (some { st with perm := d.2 })) ?_
        fun _ j' hj' => leaves_pure ⟨rfl, hj'⟩
      refine leaves_get ?_
      rw [hst]
      exact leaves_modify rfl
    rintro _ j₁ ⟨rfl, hj₁⟩
    -- no directory that is still to come is `d`'s, or beneath it
    have hput : ∀ q, q ≠ d.1 →
        dirMode j₁.place.tree q = dirMode j.place.tree q :=
      fun q hq => by rw [hj₁, dirMode_put_ne hq]
    have hrooted : Rooted j₁.place.tree := by
      rw [hj₁]
      exact ht.put (fun _ => ht.up hst) fun _ => ⟨_, rfl, hkind⟩
    have hlater : ∀ e ∈ l, ∀ q, q <+: e.1 → q ≠ d.1 := by
      rintro e he q hq rfl
      exact hfirst e he hq
    have ih := runs_closing howner hrooted hrest fun e he => by
      obtain ⟨hedir, hsway⟩ := hl e (.tail _ he)
      obtain ⟨m, hm⟩ := hedir.dirMode
      refine ⟨dirMode_isDir (m := m) ?_, fun q hq => ?_⟩
      · rw [hput _ (hlater e he _ List.prefix_rfl), hm]
      · rw [letsAt_eq, hput q (hlater e he q hq), ← letsAt_eq]
        exact hsway q hq
    refine Leaves.bind ih ?_
    rintro errs j₂ ⟨herrs, hclosed⟩
    refine leaves_pure ⟨List.forall_mem_cons.mpr ⟨rfl, herrs⟩, fun q hq => ?_,
      List.forall_mem_cons.mpr ⟨?_, hclosed.set⟩⟩
    · rw [List.map_cons, List.mem_cons, not_or] at hq
      rw [hclosed.other q hq.2, hput q hq.1]
    · have hno : d.1 ∉ l.map Prod.fst := by
        intro hmem
        obtain ⟨e, he, heq⟩ := List.mem_map.mp hmem
        exact hlater e he e.1 List.prefix_rfl heq
      rw [hclosed.other _ hno, hj₁]
      exact dirMode_put_self hkind

/-- No step of `closeDirs` fails where the root comes last. -/
theorem runs_closeDirs_of_rootLast (hb : Before env t₀)
    (h : Keeps t₀ Said D j) (hlast : RootLast j.made) :
    Runs (closeDirs env) j fun errs j' => errs = [] ∧
      Closed j.made j.place.tree j'.place.tree := by
  have hperm : (closeOrder j.made).Perm j.made := List.perm_insertionSort _ _
  have horder := (closeOrder_before_iff h.nodup).mpr hlast
  refine leaves_get (Leaves.bind (runs_closing hb.owner h.rooted horder
    fun d hd => ?_) ?_)
  · have hmem : d.1 ∈ j.made.map Prod.fst :=
      List.mem_map_of_mem (hperm.mem_iff.mp hd)
    exact ⟨h.isDir hmem, fun q _ => h.lets hb (by decide) q⟩
  rintro errs j₁ ⟨herrs, hclosed⟩
  refine Leaves.bind (P := fun _ j' => j'.place = j₁.place)
    (leaves_modify rfl) ?_
  intro _ j₂ hj₂
  refine leaves_pure ⟨List.flatten_eq_nil_iff.mpr herrs, fun q hq => ?_,
    fun d hd => ?_⟩
  · rw [hj₂]
    exact hclosed.other q fun hmem => hq ((hperm.map Prod.fst).mem_iff.mp hmem)
  · rw [hj₂]
    exact hclosed.set d (hperm.mem_iff.mpr hd)

-- ====== the snapshot

/-- The snapshot's mode of a directory, for a declared files path. -/
def Says (snap : Snapshot) (decl : Config) (q : Rel) (p : Nat) : Prop :=
  ∃ st, Holds snap decl q st ∧ st.kind = .dir ∧ permOf st = p

variable {decl : Config} {target : Place}

/-- Nothing on the way to a declared files path is left out. -/
theorem holds_of_under (hv : decl.validate env.quote = .ok ()) {r : Rel}
    (hr : r ∈ decl.files.map Path.comps) (hq : Under (excluded decl) r q)
    (hst : snap.tree.stat (staged q) = some st) : Holds snap decl q st := by
  refine ⟨hst, ⟨r, hr, hq.pre⟩, fun s hs => ?_⟩
  by_contra hex
  rw [Bool.not_eq_false] at hex
  -- a database's place is not on the way to `r`, so it is beneath
  have hnot : ¬ s <+: r := by
    have hapart := apart hv
    obtain ⟨db, hdb, hwhich⟩ := List.any_eq_true.mp hex
    rw [Bool.or_eq_true, beq_iff_eq, List.contains_iff_mem,
      List.mem_map] at hwhich
    rcases hwhich with rfl | ⟨suffix, hsuffix, rfl⟩
    · exact hapart.db_file s hdb r hr
    · exact hapart.side db hdb suffix hsuffix r (List.mem_append_right _ hr)
  have hbelow := (List.prefix_or_prefix_of_prefix hq.pre hs).resolve_right hnot
  have hne : s ≠ r := by
    rintro rfl
    exact hnot List.prefix_rfl
  rw [hq.clear s hbelow hne hs] at hex
  cases hex

theorem allSaid_checks (hv : decl.validate env.quote = .ok ())
    (ht : Passable env target.tree) :
    AllSaid (Says snap decl) (checks env snap (some target.tree) decl) := by
  intro it hit hok hkind f hf d hd
  rcases List.mem_append.mp hit with hit | hit
  · obtain ⟨db, -, rfl⟩ := List.mem_map.mp hit
    cases hf
  · obtain ⟨r, hr, rfl⟩ := List.mem_map.mp hit
    obtain ⟨f', heq, hready⟩ := checkFiles_ok ht hok
    rw [heq] at hf
    cases hf
    obtain ⟨hunder, st, hst, hdir, hperm⟩ := hready.complete.sound.dirs d hd
    exact ⟨st, holds_of_under hv hr hunder hst, hdir, hperm⟩

-- ====== the modes

/-- The modes of directories after a restore. -/
structure RightModes (snap : Snapshot) (decl : Config) (t t' : Tree) :
    Prop where
  /-- The snapshot's has its mode; one in place with a bit above 0777
  keeps its own. -/
  held : ∀ q p, Says snap decl q p →
    (Plain t q → dirMode t' q = some p) ∧
      (¬ Plain t q → dirMode t' q = dirMode t q)
  /-- Another that was in place has the mode it had. -/
  other : ∀ q m, dirMode t q = some m → (∀ p, ¬ Says snap decl q p) →
    dirMode t' q = some m
  /-- One made on the way, of which nothing is said, is its owner's. -/
  made : ∀ q m, dirMode t' q = some m → dirMode t q = none →
    (∀ p, ¬ Says snap decl q p) → m = 0o700

theorem Says.unique {q : Rel} {p p' : Nat} (h : Says snap decl q p)
    (h' : Says snap decl q p') : p = p' := by
  obtain ⟨st, hst, -, rfl⟩ := h
  obtain ⟨st', hst', -, rfl⟩ := h'
  have heq := hst.1
  rw [hst'.1] at heq
  cases heq
  rfl

/-- A mode the snapshot says has no bit above 0777. -/
theorem Says.lt (h : Says snap decl q p) : p < 0o1000 := by
  obtain ⟨st, -, -, rfl⟩ := h
  exact land_lt

/-- Nor has a recorded one, so it is not what a directory that carries
one had. -/
theorem Recorded.mode_ne (h : Recorded t₀ (Says snap decl) t (q, p))
    (hm : dirMode t₀ q = some m) (hmark : m &&& 0o7000 ≠ 0) : p ≠ m := by
  have hlt : p < 0o1000 := by
    rcases h.mode with hsays | ⟨m', -, rfl⟩ | ⟨hnew, -⟩
    · exact hsays.lt
    · exact land_lt
    · rw [hm] at hnew
      cases hnew
  rintro rfl
  refine hmark (Nat.eq_of_testBit_eq fun i => ?_)
  rw [Nat.testBit_and, Nat.zero_testBit, Bool.and_eq_false_iff]
  by_cases hi : i < 9
  · right
    rw [show (0o7000 : Nat) = 7 * 2 ^ 9 from rfl, Nat.testBit_mul_two_pow]
    simp [hi]
  · exact .inl (Nat.testBit_lt_two_pow (hlt.trans_le
      (Nat.pow_le_pow_right (by decide) (not_lt.mp hi) : 2 ^ 9 ≤ 2 ^ i)))

/-- What the record must show for the modes to be right. -/
structure WellRecorded (snap : Snapshot) (decl : Config) (t : Tree)
    (made : List (Rel × Nat)) : Prop where
  /-- No recorded directory carried a bit above 0777. -/
  plain : ∀ d ∈ made, Plain t d.1
  /-- The root is recorded with the mode the snapshot says, or has it. -/
  root : ∀ p, Says snap decl [] p → Plain t [] → ([], p) ∈ made ∨
    [] ∉ made.map Prod.fst ∧ dirMode t [] = some p

section

variable (h : Kept t₀ (Says snap decl) D t made) (hc : Closed made t t')
include h hc

/-- A directory that is not recorded is as it was, once the modes are
set. -/
theorem Kept.left (hq : q ∉ made.map Prod.fst) : dirMode t' q = dirMode t₀ q :=
  (hc.other q hq).trans (h.same q hq)

theorem Kept.wellRecorded (hr : RightModes snap decl t₀ t') :
    WellRecorded snap decl t₀ made where
  plain := by
    rintro ⟨q, p⟩ hd m hm
    by_contra hmark
    have hplain : ¬ Plain t₀ q := fun hplain => hmark (hplain m hm)
    -- it ends with what is recorded, and should with what it had
    refine (h.recorded _ hd).mode_ne hm hmark (Option.some.inj ?_)
    rw [← hc.set _ hd]
    by_cases hheld : ∃ p, Says snap decl q p
    · obtain ⟨p', hp'⟩ := hheld
      exact ((hr.held q p' hp').2 hplain).trans hm
    · exact hr.other q m hm fun p' hp' => hheld ⟨p', hp'⟩
  root := by
    intro p hp hplain
    have hset := (hr.held [] p hp).1 hplain
    by_cases hmem : [] ∈ made.map Prod.fst
    · obtain ⟨⟨q, p'⟩, hd, rfl⟩ := List.mem_map.mp hmem
      rw [hc.set _ hd] at hset
      exact .inl (Option.some.inj hset ▸ hd)
    · exact .inr ⟨hmem, h.left hc hmem ▸ hset⟩

theorem Kept.right (hb : Before env t₀) (hD : ∀ q p, Says snap decl q p → D q)
    (hw : WellRecorded snap decl t₀ made) : RightModes snap decl t₀ t' where
  held := by
    intro q p hsays
    constructor
    · intro hplain
      have hwhere : (q, p) ∈ made ∨ q ∉ made.map Prod.fst ∧
          dirMode t₀ q = some p := by
        by_cases hroot : q = []
        · subst hroot
          exact hw.root p hsays hplain
        · obtain ⟨p', hp', hwhere⟩ := h.told q (hD q p hsays) hroot hplain
          obtain rfl := hsays.unique hp'
          exact hwhere
      rcases hwhere with hin | ⟨hno, hm⟩
      · exact hc.set _ hin
      · exact (h.left hc hno).trans hm
    · intro hplain
      -- never recorded
      refine h.left hc fun hmem => ?_
      obtain ⟨d, hd, rfl⟩ := List.mem_map.mp hmem
      exact hplain (hw.plain d hd)
  other := by
    intro q m hm hnot
    by_cases hmem : q ∈ made.map Prod.fst
    · obtain ⟨⟨q, p⟩, hd, rfl⟩ := List.mem_map.mp hmem
      rw [hc.set _ hd]
      dsimp only at hm hnot ⊢
      rcases (h.recorded _ hd).mode with hsays | ⟨m', hm', rfl⟩ | ⟨hnew, -⟩
      · exact absurd hsays (hnot p)
      · rw [hm] at hm'
        cases hm'
        -- it carries no other bit, so what is recorded is all of its mode
        rw [land_all (hb.modes q m hm) (hw.plain _ hd m hm)]
      · rw [hm] at hnew
        cases hnew
    · exact (h.left hc hmem).trans hm
  made := by
    intro q m hm hnew hnot
    by_cases hmem : q ∈ made.map Prod.fst
    · obtain ⟨⟨q, p⟩, hd, rfl⟩ := List.mem_map.mp hmem
      rw [hc.set _ hd] at hm
      cases hm
      rcases (h.recorded _ hd).mode with hsays | ⟨m', hm', -⟩ | ⟨-, hmode⟩
      · exact absurd hsays (hnot _)
      · rw [hnew] at hm'
        cases hm'
      · exact hmode
    · rw [h.left hc hmem, hnew] at hm
      cases hm

end

-- ====== a run

/-- What the items of a run leave, and the directories still to close. -/
def installed (env : Env) (snap : Snapshot) (target : Place) (decl : Config) :
    List Item × Job :=
  installAll env snap (checks env snap (some target.tree) decl)
    ⟨target, [], [], []⟩

/-- A run of everything or nothing that changed something passed every
check, and ended with its directories closed. -/
theorem run_changed {j : Job} (hplan : readPlan env snap = .ok decl)
    (hchanged : (run env snap target .allOrNothing).1.changed = true)
    (hclose : closeDirs env (installed env snap target decl).2 = .ok [] j) :
    (∀ it ∈ checked env snap target decl, it.cls = .ok) ∧
      (run env snap target .allOrNothing).2 = j.place := by
  have hmode : ¬ Mode.allOrNothing = Mode.checkOnly := by decide
  unfold run at hchanged ⊢
  rw [hplan] at hchanged ⊢
  dsimp only at hchanged ⊢
  rw [if_neg hmode, if_neg hmode] at hchanged ⊢
  split at hchanged
  next => cases hchanged
  next hpass =>
    rw [if_neg hpass]
    unfold installed at hclose
    refine ⟨fun it hit => ?_, by simp only [close, hclose]⟩
    by_contra hbad
    refine hpass ⟨?_, rfl⟩
    rw [Bool.not_eq_true', List.all_eq_false]
    exact ⟨it, hit, by simpa using hbad⟩

/-- Two directories, one in the other, beneath a root of this mode. -/
def nestedSnapshot (mode : Nat) : Snapshot where
  entries := [([], ⟨.dir, 1, 1, 0, 0, 0o700⟩),
    ([str "plan.json"], ⟨.file, 2, 1, 0, 0, 0o600⟩),
    ([str "files"], ⟨.dir, 3, 1, 0, 0, mode⟩),
    ([str "files", str "a"], ⟨.dir, 4, 1, 0, 0, 0o750⟩),
    ([str "files", str "a", str "b"], ⟨.dir, 5, 1, 0, 0, 0o500⟩)]
  data := fun _ => []
  root := ⟨_, rfl, rfl⟩
  parent := by
    simp only [List.forall_mem_cons]
    exact ⟨by simp, fun _ => ⟨_, rfl, rfl⟩, fun _ => ⟨_, rfl, rfl⟩,
      fun _ => ⟨⟨.dir, 3, 1, 0, 0, mode⟩, rfl, rfl⟩,
      fun _ => ⟨⟨.dir, 4, 1, 0, 0, 0o750⟩, rfl, rfl⟩, by simp⟩
  nodup := by
    simp only [List.map_cons, List.map_nil]
    decide +kernel
  inode := by simp
  ino_ne := by simp

/-- An owner's restore of one declared files path. -/
def declares (files : Bytes) : Env :=
  { exampleEnv with decode := fun _ => .ok ⟨[], [files]⟩, lets := ownerLets }

theorem exampleTarget_dir (h : dirMode exampleTarget.tree q = some m) :
    m = 0o700 := by
  obtain ⟨st, hst, -, rfl⟩ := dirMode_eq_some h
  rw [(exampleTarget_stat hst).2]

end Hotserve.Restore
