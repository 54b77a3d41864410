/-
The rollback list and release GC agree.

# Shape of the argument

Both sort by `newer`, which has no ties among releases of different
names (`newer_apart`), so each order is the one sorted list of its
releases (`Compare.eq_sortBy`), whatever order the directory came in.

GC's order is then written down (`gcOrder`): the promoted version, the
one it replaced, the rest of the status's list as it stands there, and
last the directories that are not releases. It is sorted because a rank
puts its two first, because the rest have one rank and keep the list's
order (`newer_of_eq`), and because what is not a release has the last
tier.
-/
import Hotserve.Check
import Hotserve.Liveswap.Releases

namespace Hotserve.Liveswap

open Bytes
open Compare (Weak Strict thenBy_of_ne thenBy_of_eq thenBy_apart)

variable {first : List Bytes} {a b : Release} {records : Records}

-- ====== the order

/-- Names, the later first. -/
theorem strict_name : Strict fun a b : Bytes => decide (b < a) where
  irrefl := by
    intro a
    rw [decide_eq_false_iff_not]
    exact List.lt_irrefl a
  trans := by
    intro a b c hab hbc
    rw [decide_eq_true_eq] at *
    exact List.lt_trans hbc hab
  total := by
    intro a b hne
    rw [decide_eq_true_eq, decide_eq_true_eq]
    by_cases hlt : b < a
    · exact .inl hlt
    · exact .inr (StrMap.lt_of_not_lt hlt (Ne.symm hne))

theorem newer_weak (first : List Bytes) : Weak (newer first) :=
  .thenBy Compare.strict_nat <| .thenBy Compare.strict_nat <|
    .thenBy Compare.strict_later (strict_name.comap Release.name)

/-- Releases of two names compare. -/
theorem newer_apart (hne : a.name ≠ b.name) :
    newer first a b = true ∨ newer first b a = true := by
  refine thenBy_apart Compare.strict_nat fun _ => ?_
  refine thenBy_apart Compare.strict_nat fun _ => ?_
  refine thenBy_apart Compare.strict_later fun _ => ?_
  exact strict_name.total _ _ hne

theorem newer_of_eq (h : rank first a.name = rank first b.name) :
    newer first a b = newerInRank a b :=
  if_neg (not_not.mpr h)

theorem newer_of_ne (h : rank first a.name ≠ rank first b.name) :
    newer first a b = decide (rank first a.name < rank first b.name) :=
  if_pos h

/-- A name with an earlier place among those put first goes first. -/
theorem not_newer_of_rank (h : rank first a.name < rank first b.name) :
    newer first b a = false := by
  rw [newer_of_ne (Nat.ne_of_gt h), decide_eq_false_iff_not]
  exact Nat.not_lt.mpr (Nat.le_of_lt h)

theorem not_newer_of_tier (hrank : rank first a.name = rank first b.name)
    (h : tier a < tier b) : newer first b a = false := by
  rw [newer_of_eq hrank.symm, newerInRank, thenBy_of_ne (Nat.ne_of_gt h),
    decide_eq_false_iff_not]
  exact Nat.not_lt.mpr (Nat.le_of_lt h)

variable {rels : List Release} {name : Bytes} {e : ReleaseEntry} {r : Release}

/-- The order of releases of different names is one list. -/
theorem eq_newestFirst {rels' : List Release}
    (hnodup : (rels.map Release.name).Nodup) (hperm : rels'.Perm rels)
    (hsorted : rels'.Pairwise fun a b => newer first b a = false) :
    rels' = newestFirst rels first := by
  refine Compare.eq_sortBy (newer_weak first) ?_ hperm hsorted
  intro a ha b hb hne
  refine newer_apart fun hname => hne ?_
  exact List.inj_on_of_nodup_map hnodup ha hb hname

theorem newestFirst_perm (first : List Bytes) :
    (newestFirst rels first).Perm rels :=
  Compare.sortBy_perm rels

/-- The directory's order decides nothing. -/
theorem newestFirst_congr {rels' : List Release}
    (hnodup : (rels.map Release.name).Nodup) (hperm : rels'.Perm rels) :
    newestFirst rels' first = newestFirst rels first :=
  eq_newestFirst hnodup ((newestFirst_perm first).trans hperm)
    (Compare.sortBy_sorted (newer_weak first) rels')

/-- The order of some releases is the order of all, the others left
out. -/
theorem newestFirst_filter (hnodup : (rels.map Release.name).Nodup)
    (p : Release → Bool) :
    newestFirst (rels.filter p) first = (newestFirst rels first).filter p := by
  symm
  refine eq_newestFirst (hnodup.sublist (List.filter_sublist.map _))
    ((newestFirst_perm first).filter p) ?_
  exact (Compare.sortBy_sorted (newer_weak first) rels).filter p

-- ====== the releases

/-- A version does not begin with a dot. -/
theorem version_not_hidden (rest : Bytes) (h : validVersion name = true) :
    (str "." ++ rest).isPrefixOf name = false := by
  obtain ⟨c, w, v, c₁, c₂, rfl, -, hw, -⟩ := Regex.matchString_iff.mp h
  cases w with
  | nil =>
    have hlen : 1 ≤ 0 := hw.1
    omega
  | cons x w =>
    have hx : versionFirst x = true := hw.2.2.1 x (.head _)
    have hdot : (46 : UInt8) ≠ x := by
      rintro rfl
      revert hx
      decide
    change ((46 : UInt8) == x && rest.isPrefixOf (w ++ v)) = false
    rw [beq_eq_false_iff_ne.mpr hdot, Bool.false_and]

theorem placeRelease_some (h : (placeRelease records e).1 = some r) :
    r.name = e.name ∧ r.notRelease = false := by
  unfold placeRelease at h
  dsimp only at h
  split at h
  · cases h
    exact ⟨rfl, rfl⟩
  all_goals
    obtain ⟨t, -, rfl⟩ := Option.map_eq_some_iff.mp h
    exact ⟨rfl, rfl⟩

/-- What can be asked for its time has a place. -/
theorem placeRelease_stat (h : e.mtime.isSome = true) :
    ∃ r, (placeRelease records e).1 = some r := by
  rw [← Option.isSome_iff_exists]
  unfold placeRelease
  dsimp only
  split
  · rfl
  all_goals exact Option.isSome_map.trans h

/-- A version's release is placed as the status places it, where its
record can be read. -/
theorem gcPlace_version (hdir : e.isDir = true)
    (hversion : validVersion e.name = true)
    (hread : ∃ r, recordedDeploy records e.name = .ok r) :
    gcPlace records e = (placeRelease records e).1 := by
  obtain ⟨r, hread⟩ := hread
  have hhidden := version_not_hidden [] hversion
  rw [List.append_nil] at hhidden
  have hplaced : (placeRelease records e).2 = none := by
    unfold placeRelease
    rw [hread]
    cases r with
    | none => rfl
    | some p => rfl
  unfold gcPlace
  rw [hdir, hhidden, hversion, ← Prod.mk.eta (p := placeRelease records e),
    hplaced]
  rfl

/-- What GC places is not a release if it is not a version. -/
theorem gcPlace_some (h : gcPlace records e = some r) :
    r.name = e.name ∧ r.notRelease = !validVersion e.name := by
  unfold gcPlace at h
  split at h
  · cases h
  split at h
  next hbad =>
    cases h
    exact ⟨rfl, hbad.symm⟩
  next hgood =>
    split at h
    · cases h
    next hplace =>
      obtain ⟨hname, hrel⟩ :=
        placeRelease_some ((congrArg Prod.fst hplace).trans h)
      rw [Bool.not_eq_true] at hgood
      exact ⟨hname, hrel.trans hgood.symm⟩

theorem listPlace_eq_some : listPlace records e = some r ↔ e.isDir = true ∧
    validVersion e.name = true ∧ (placeRelease records e).1 = some r := by
  simp [listPlace, and_assoc]

/-- Entries are placed once, under their own names. -/
theorem places_nodup {place : ReleaseEntry → Option Release}
    (hplace : ∀ e r, place e = some r → r.name = e.name) (dir : ReleaseDir) :
    ((dir.entries.filterMap place).map Release.name).Nodup := by
  refine dir.nodup.sublist ?_
  induction dir.entries with
  | nil => exact .slnil
  | cons e entries ih =>
    cases he : place e with
    | none =>
      rw [List.filterMap_cons_none he]
      exact ih.cons _
    | some r =>
      rw [List.filterMap_cons_some he, List.map_cons, List.map_cons,
        hplace e r he]
      exact ih.cons_cons _

/-- What GC places of a directory. -/
abbrev gcPlaced (records : Records) (dir : ReleaseDir) : List Release :=
  dir.entries.filterMap (gcPlace records)

/-- What the status places of it. -/
abbrev listed (records : Records) (dir : ReleaseDir) : List Release :=
  dir.entries.filterMap (listPlace records)

/-- The status's list. -/
abbrev statusList (records : Records) (dir : ReleaseDir) : List Bytes :=
  (newestFirst (listed records dir) []).map Release.name

theorem gcPlaced_nodup (records : Records) (dir : ReleaseDir) :
    ((gcPlaced records dir).map Release.name).Nodup :=
  places_nodup (fun _ _ h => (gcPlace_some h).1) dir

theorem listed_nodup (dir : ReleaseDir) :
    ((listed records dir).map Release.name).Nodup :=
  places_nodup (fun _ _ h =>
    (placeRelease_some (listPlace_eq_some.mp h).2.2).1) dir

-- ====== GC's order

section Order

variable {V R : Bytes} {rels : List Release}

/-- The parts of GC's order, each in the status's order. -/
def gcParts (V R : Bytes) (rels : List Release) : List Release :=
  let order := newestFirst rels []
  let rest := order.filter fun r => r.name != V && r.name != R
  order.filter (fun r => r.name == V) ++
    (order.filter (fun r => r.name != V && r.name == R) ++
      (rest.filter (fun r => !r.notRelease) ++ rest.filter Release.notRelease))

theorem rank_nil : rank [] name = 0 := rfl

theorem rank_pair (hV : V ≠ []) (hR : R ≠ []) (name : Bytes) :
    rank [V, R] name = if name = V then 0 else if name = R then 1 else 2 := by
  by_cases h : name = V
  · simp [rank, List.findIdx_cons, h, hV]
  by_cases h' : name = R
  · simp [rank, List.findIdx_cons, h', hV, hR]
  · simp [rank, List.findIdx_cons, beq_eq_false_iff_ne.mpr h,
      beq_eq_false_iff_ne.mpr h', h, h']

/-- Releases of one rank stay in the status's order. -/
theorem sorted_part {first : List Bytes} (p : Release → Bool)
    (hrank : ∀ a b, p a = true → p b = true →
      rank first a.name = rank first b.name) :
    ((newestFirst rels []).filter p).Pairwise
      fun a b => newer first b a = false := by
  have hsorted := (Compare.sortBy_sorted (newer_weak []) rels).filter p
  refine List.Pairwise.imp_of_mem ?_ hsorted
  intro a b ha hb hab
  rw [newer_of_eq (hrank b a (List.mem_filter.mp hb).2
    (List.mem_filter.mp ha).2)]
  rw [newer_of_eq (rank_nil.trans rank_nil.symm)] at hab
  exact hab

theorem gcParts_perm : (gcParts V R rels).Perm rels := by
  refine List.Perm.trans ?_ (newestFirst_perm [])
  generalize horder : newestFirst rels [] = order
  have hrest : ∀ rest : List Release, (rest.filter (fun r => !r.notRelease) ++
        rest.filter Release.notRelease).Perm rest := fun rest =>
    List.perm_append_comm.trans (List.filter_append_perm _ rest)
  have hsecond : (order.filter (fun r => r.name != V && r.name == R) ++
      order.filter fun r => r.name != V && r.name != R).Perm
        (order.filter fun r => r.name != V) := by
    have hsplit := List.filter_append_perm (fun r : Release => r.name == R)
      (order.filter fun r => r.name != V)
    rw [List.filter_filter, List.filter_filter] at hsplit
    simp only [Bool.and_comm] at hsplit ⊢
    exact hsplit
  rw [gcParts, horder]
  refine (((hrest _).append_left _).trans hsecond).append_left _ |>.trans ?_
  exact List.filter_append_perm (fun r : Release => r.name == V) order

/-- They are in GC's order. -/
theorem gcParts_sorted (hV : V ≠ []) (hR : R ≠ []) :
    (gcParts V R rels).Pairwise fun a b => newer [V, R] b a = false := by
  have hrank := rank_pair hV hR
  have hrest : ((newestFirst rels []).filter fun r =>
      r.name != V && r.name != R).Pairwise
        fun a b => newer [V, R] b a = false := sorted_part _ (by grind)
  unfold gcParts
  rw [List.pairwise_append, List.pairwise_append, List.pairwise_append]
  refine ⟨sorted_part _ (by grind), ⟨sorted_part _ (by grind),
    ⟨hrest.filter _, hrest.filter _, ?_⟩, ?_⟩, ?_⟩
  · -- what is not a release has the last tier
    intro a ha b hb
    obtain ⟨ha, hrelease⟩ := List.mem_filter.mp ha
    obtain ⟨hb, hstray⟩ := List.mem_filter.mp hb
    refine not_newer_of_tier (by grind) ?_
    rw [Bool.not_eq_true'] at hrelease
    have hb3 : tier b = 3 := if_pos hstray
    rw [hb3, tier, if_neg (Bool.eq_false_iff.mp hrelease)]
    split
    · omega
    split
    · omega
    · omega
  · exact fun a ha b hb => not_newer_of_rank (by grind)
  · exact fun a ha b hb => not_newer_of_rank (by grind)

/-- GC's order: the promoted version, the one it replaced, the other
releases in the status's order, and then what is not a release. -/
theorem newestFirst_gc (hnodup : (rels.map Release.name).Nodup)
    (hV : V ≠ []) (hR : R ≠ []) : newestFirst rels [V, R] = gcParts V R rels :=
  (eq_newestFirst hnodup gcParts_perm (gcParts_sorted hV hR)).symm

end Order

-- ====== what is left

/-- A run of removals leaves what it does not name. -/
theorem foldl_removeAll (works : Bytes → Bool) (names : List Bytes) :
    ∀ {d : AppDirs} {dir : ReleaseDir}, d.releases = .ok dir →
      ∃ dir', (names.foldl (AppDirs.removeAll works) d).releases = .ok dir' ∧
        ∀ e, e ∈ dir'.entries ↔
          e ∈ dir.entries ∧ ¬ (e.name ∈ names ∧ works e.name = true) := by
  induction names with
  | nil =>
    intro d dir hd
    exact ⟨dir, hd, by simp⟩
  | cons name names ih =>
    intro d dir hd
    by_cases hworks : works name = true
    · have hstep : (d.removeAll works name).releases =
          .ok (dir.without name) := by
        rw [AppDirs.removeAll, hd]
        exact congrArg AppDirs.releases (if_pos hworks)
      obtain ⟨dir', hdir', hmem⟩ := ih hstep
      refine ⟨dir', hdir', fun e => ?_⟩
      rw [hmem, ReleaseDir.without, List.mem_filter, bne_iff_ne, List.mem_cons]
      grind
    · have hstep : (d.removeAll works name).releases = .ok dir := by
        rw [AppDirs.removeAll, hd]
        dsimp only
        rw [if_neg hworks]
        exact hd
      obtain ⟨dir', hdir', hmem⟩ := ih hstep
      refine ⟨dir', hdir', fun e => ?_⟩
      rw [hmem, List.mem_cons]
      grind

theorem mem_pruneList {keep : Nat} {V n : Bytes} {l : List Release} :
    n ∈ pruneList keep V l ↔ ∃ i r, l[i]? = some r ∧
      pruned keep V i r = true ∧ r.name = n := by
  simp only [pruneList, List.mem_map, List.mem_filter, Prod.exists,
    List.mk_mem_zipIdx_iff_getElem?]
  grind

/-- A release GC places stays where it is the promoted one or within the
first `keep`. -/
theorem not_mem_pruneList (keep : Nat) (V : Bytes) {l : List Release}
    {r : Release} (hnodup : (l.map Release.name).Nodup) (hr : r ∈ l)
    (hrelease : r.notRelease = false) : r.name ∉ pruneList keep V l ↔
      r.name = V ∨ r.name ∈ (l.map Release.name).take keep := by
  obtain ⟨j, hj⟩ := List.mem_iff_getElem?.mp hr
  have hplace : ∀ i r', l[i]? = some r' → r'.name = r.name →
      i = j ∧ r' = r := by
    intro i r' hi hname
    have hmem : r' ∈ l := List.mem_of_getElem? hi
    obtain rfl := List.inj_on_of_nodup_map hnodup hmem hr hname
    refine ⟨?_, rfl⟩
    have hlt : i < l.length := (List.getElem?_eq_some_iff.mp hi).1
    exact (List.getElem?_inj hlt hnodup.of_map).mp (hi.trans hj.symm)
  have htake : r.name ∈ (l.map Release.name).take keep ↔ j < keep := by
    rw [List.mem_iff_getElem?]
    constructor
    · rintro ⟨i, hi⟩
      rw [List.getElem?_take] at hi
      split at hi
      next hlt =>
        rw [List.getElem?_map, Option.map_eq_some_iff] at hi
        obtain ⟨r', hi, hname⟩ := hi
        rw [← (hplace i r' hi hname).1]
        exact hlt
      next => cases hi
    · intro hlt
      refine ⟨j, ?_⟩
      rw [List.getElem?_take, if_pos hlt, List.getElem?_map, hj]
      rfl
  rw [htake, mem_pruneList]
  constructor
  · intro hkept
    by_contra hnot
    rw [not_or] at hnot
    refine hkept ⟨j, r, hj, ?_, rfl⟩
    simp [pruned, hnot.1, hnot.2]
  · rintro hkept ⟨i, r', hi, hpruned, hname⟩
    obtain ⟨rfl, rfl⟩ := hplace i r' hi hname
    rcases hkept with hV | hlt
    · simp [pruned, hV] at hpruned
    · simp [pruned, hlt, hrelease] at hpruned

-- ====== the two agree

/-- The running version goes to the front of a list that has it. -/
theorem runningFirst_eq {list : List Bytes} {R : Bytes}
    (hnodup : list.Nodup) (hR : R ∈ list) :
    runningFirst list R = R :: list.filter (· != R) := by
  rw [← hnodup.erase_eq_filter, List.erase_eq_eraseIdx_of_idxOf rfl,
    List.eraseIdx_eq_take_drop_succ]
  have hlt : list.idxOf R < list.length := List.idxOf_lt_length_iff.mpr hR
  unfold runningFirst
  dsimp only
  split
  · rfl
  next hzero =>
    have h0 : list.idxOf R = 0 := by omega
    rw [h0, List.take_zero, List.nil_append, Nat.zero_add]
    cases list with
    | nil => cases hR
    | cons x rest =>
      have hx : x = R := by
        by_contra hne
        rw [List.idxOf_cons_ne rest hne] at h0
        omega
      rw [hx]
      rfl

/-- Between a status read and the deploy of `V`, nothing but `V`'s
directory changed. -/
structure OnlyChanged (records : Records) (V R : Bytes)
    (dir₀ dir : ReleaseDir) : Prop where
  version : validVersion V = true
  promoted : ∃ e ∈ dir.entries, e.isDir = true ∧ e.name = V
  running : ∃ e ∈ dir₀.entries, e.isDir = true ∧
    validVersion e.name = true ∧ e.name = R
  readable : ∀ e ∈ dir.entries, ∃ r, recordedDeploy records e.name = .ok r
  /-- `Info` fails for none. -/
  stats : ∀ e ∈ dir₀.entries ++ dir.entries, e.mtime.isSome = true
  same : ∀ e, e.name ≠ V → (e ∈ dir₀.entries ↔ e ∈ dir.entries)

namespace OnlyChanged

variable {V R : Bytes} {dir₀ dir : ReleaseDir}

/-- The releases beside `V` are the status's. -/
theorem others_perm (ho : OnlyChanged records V R dir₀ dir) :
    ((listed records dir₀).filter fun r => r.name != V).Perm
      ((gcPlaced records dir).filter fun r =>
        r.name != V && !r.notRelease) := by
  rw [List.perm_ext_iff_of_nodup ((listed_nodup dir₀).of_map.filter _)
    ((gcPlaced_nodup records dir).of_map.filter _)]
  intro r
  rw [List.mem_filter, List.mem_filter, List.mem_filterMap,
    List.mem_filterMap, Bool.and_eq_true, bne_iff_ne]
  constructor
  · rintro ⟨⟨e, he, hplace⟩, hne⟩
    obtain ⟨hdir, hversion, hplace⟩ := listPlace_eq_some.mp hplace
    obtain ⟨hname, hrel⟩ := placeRelease_some hplace
    have he' := (ho.same e (hname ▸ hne)).mp he
    refine ⟨⟨e, he', ?_⟩, hne, by rw [hrel]; rfl⟩
    exact (gcPlace_version hdir hversion (ho.readable e he')).trans hplace
  · rintro ⟨⟨e, he, hplace⟩, hne, hrelease⟩
    obtain ⟨hname, hrel⟩ := gcPlace_some hplace
    rw [hrel, Bool.not_not] at hrelease
    have hdir : e.isDir = true := by
      by_contra hnot
      simp [gcPlace, hnot] at hplace
    refine ⟨⟨e, (ho.same e (hname ▸ hne)).mpr he, ?_⟩, hne⟩
    refine listPlace_eq_some.mpr ⟨hdir, hrelease, ?_⟩
    exact (gcPlace_version hdir hrelease (ho.readable e he)).symm.trans hplace

theorem version_ne_nil {v : Bytes} (hv : validVersion v = true) : v ≠ [] := by
  rintro rfl
  revert hv
  decide

/-- The one name equal to `n` in a list that has it once. -/
theorem filter_name {names : List Bytes} {n : Bytes} (hnodup : names.Nodup)
    (hn : n ∈ names) : names.filter (· == n) = [n] := by
  have hcount := List.count_eq_one_of_mem hnodup hn
  rw [List.filter_beq, hcount]
  rfl

section

variable (ho : OnlyChanged records V R dir₀ dir)
include ho

theorem placed {e : ReleaseEntry} (he : e ∈ dir.entries)
    (hdir : e.isDir = true) (hversion : validVersion e.name = true)
    (first : List Bytes) : ∃ r ∈ newestFirst (gcPlaced records dir) first,
      r.name = e.name ∧ r.notRelease = false := by
  obtain ⟨r, hr⟩ := placeRelease_stat
    (ho.stats e (List.mem_append_right _ he))
  refine ⟨r, (newestFirst_perm _).mem_iff.mpr (List.mem_filterMap.mpr
    ⟨e, he, ?_⟩), placeRelease_some hr⟩
  exact (gcPlace_version hdir hversion (ho.readable e he)).trans hr

/-- A version on disk has one place. -/
theorem one_place {e : ReleaseEntry} (he : e ∈ dir.entries)
    (hdir : e.isDir = true) (hversion : validVersion e.name = true) :
    ((newestFirst (gcPlaced records dir) []).filter
      fun r => r.name == e.name).map Release.name = [e.name] := by
  obtain ⟨r, hr, hname, -⟩ := ho.placed he hdir hversion []
  have hnodup := ((newestFirst_perm []).map Release.name).nodup_iff.mpr
    (gcPlaced_nodup records dir)
  have hone := filter_name hnodup (List.mem_map_of_mem hr)
  rw [List.filter_map, hname] at hone
  exact hone

/-- Beside `V`, the releases are in the status's order. -/
theorem others_eq : ((newestFirst (gcPlaced records dir) []).filter
        fun r => r.name != V && !r.notRelease) =
      (newestFirst (listed records dir₀) []).filter fun r => r.name != V := by
  rw [← newestFirst_filter (gcPlaced_nodup records dir),
    ← newestFirst_filter (listed_nodup dir₀)]
  refine newestFirst_congr ?_ ho.others_perm.symm
  exact (listed_nodup dir₀).sublist (List.filter_sublist.map _)

/-- The running version's part of GC's order. -/
theorem second_part : ((newestFirst (gcPlaced records dir) []).filter
        fun r => r.name != V && r.name == R).map Release.name =
      [R].filter (· != V) := by
  by_cases hRV : R = V
  · subst hRV
    rw [List.filter_eq_nil_iff.mpr]
    · simp
    · simp
  · obtain ⟨e, he, hdir, hversion, rfl⟩ := ho.running
    have hsame : ∀ r : Release, (r.name != V && r.name == e.name) =
        (r.name == e.name) := by
      intro r
      by_cases hr : r.name = e.name
      · simp [hr, hRV]
      · simp [beq_eq_false_iff_ne.mpr hr]
    have hkept : [e.name].filter (· != V) = [e.name] := by simp [hRV]
    simp only [hsame]
    rw [hkept]
    exact ho.one_place ((ho.same e hRV).mp he) hdir hversion

/-- The status's list, the running version first. -/
theorem running_first : runningFirst (statusList records dir₀) R =
      R :: (statusList records dir₀).filter (· != R) := by
  refine runningFirst_eq ?_ ?_
  · exact ((newestFirst_perm []).map Release.name).nodup_iff.mpr
      (listed_nodup dir₀)
  · obtain ⟨e, he, hdir, hversion, rfl⟩ := ho.running
    obtain ⟨r, hr⟩ := placeRelease_stat
      (ho.stats e (List.mem_append_left _ he))
    rw [← (placeRelease_some hr).1]
    exact List.mem_map_of_mem ((newestFirst_perm []).mem_iff.mpr
      (List.mem_filterMap.mpr
        ⟨e, he, listPlace_eq_some.mpr ⟨hdir, hversion, hr⟩⟩))

/-- What the status lists beside `V` is on disk at the deploy. -/
theorem on_disk {n : Bytes}
    (hn : n ∈ (runningFirst (statusList records dir₀) R).filter (· != V)) :
    ∃ e ∈ dir.entries, e.isDir = true ∧ validVersion e.name = true ∧
      e.name = n := by
  rw [ho.running_first, List.mem_filter, List.mem_cons, bne_iff_ne] at hn
  obtain ⟨hn, hne⟩ := hn
  have hon₀ : ∃ e ∈ dir₀.entries, e.isDir = true ∧
      validVersion e.name = true ∧ e.name = n := by
    rcases hn with rfl | hn
    · exact ho.running
    · obtain ⟨r, hr, rfl⟩ := List.mem_map.mp (List.mem_filter.mp hn).1
      obtain ⟨e, he, hplace⟩ :=
        List.mem_filterMap.mp ((newestFirst_perm []).mem_iff.mp hr)
      obtain ⟨hdir, hversion, hr⟩ := listPlace_eq_some.mp hplace
      exact ⟨e, he, hdir, hversion, (placeRelease_some hr).1.symm⟩
  obtain ⟨e, he, hdir, hversion, rfl⟩ := hon₀
  exact ⟨e, (ho.same e hne).mp he, hdir, hversion, rfl⟩

/-- The names GC goes through: `V`, then the status's list without it,
then those of no version. -/
theorem gc_names :
    ∃ strays : List Bytes, (∀ n ∈ strays, validVersion n = false) ∧
      (newestFirst (gcPlaced records dir) [V, R]).map Release.name =
        V :: ((runningFirst (statusList records dir₀) R).filter (· != V) ++
          strays) := by
  have hR : R ≠ [] := by
    obtain ⟨e, -, -, hversion, rfl⟩ := ho.running
    exact version_ne_nil hversion
  rw [newestFirst_gc (gcPlaced_nodup records dir)
    (version_ne_nil ho.version) hR]
  have hfirst : ((newestFirst (gcPlaced records dir) []).filter
      fun r => r.name == V).map Release.name = [V] := by
    obtain ⟨e, he, hdir, rfl⟩ := ho.promoted
    exact ho.one_place he hdir ho.version
  have hothers : (((newestFirst (gcPlaced records dir) []).filter
      fun r => r.name != V && r.name != R).filter
        fun r => !r.notRelease).map Release.name =
      ((statusList records dir₀).filter (· != R)).filter (· != V) := by
    have hsplit := congrArg (List.filter fun r : Release => r.name != R)
      ho.others_eq
    rw [List.filter_filter, List.filter_filter] at hsplit
    rw [List.filter_filter, List.filter_filter, List.filter_map]
    refine Eq.trans ?_ (congrArg (List.map Release.name) (hsplit.trans ?_))
    · congr 2
      funext r
      cases r.notRelease <;> cases r.name != V <;> cases r.name != R <;> rfl
    · congr 1
      funext r
      exact Bool.and_comm _ _
  refine ⟨(((newestFirst (gcPlaced records dir) []).filter
    fun r => r.name != V && r.name != R).filter
      Release.notRelease).map Release.name, ?_, ?_⟩
  · intro n hn
    obtain ⟨r, hr, rfl⟩ := List.mem_map.mp hn
    obtain ⟨hr, hstray⟩ := List.mem_filter.mp hr
    have hmem := (newestFirst_perm []).mem_iff.mp (List.mem_filter.mp hr).1
    obtain ⟨e, -, hplace⟩ := List.mem_filterMap.mp hmem
    obtain ⟨hname, hrel⟩ := gcPlace_some hplace
    rw [hrel, Bool.not_eq_true'] at hstray
    rw [hname]
    exact hstray
  · rw [ho.running_first, ← List.singleton_append (l :=
      List.filter (· != R) _), List.filter_append, ← hothers,
      ← ho.second_part, List.append_assoc, gcParts, List.map_append,
      List.map_append, List.map_append, hfirst]
    rfl

/-- Of the versions on disk GC removes those its order puts too late. -/
theorem mem_versions {d : AppDirs} {keep : Nat} {works : Bytes → Bool}
    {n : Bytes} (hd : d.releases = .ok dir) (hlinked : d.linked = none)
    (hrecords : d.records = .ok records) :
    n ∈ (gcReleases works d keep V R).versions ↔
      (∃ e ∈ dir.entries, e.isDir = true ∧ validVersion e.name = true ∧
        e.name = n) ∧
      (works n = true → n = V ∨ n ∈ ((newestFirst (gcPlaced records dir)
        [V, R]).map Release.name).take keep) := by
  obtain ⟨swept, hswept, hsweptMem⟩ :=
    foldl_removeAll works (orphans dir.entries) hd
  obtain ⟨left, hleft, hleftMem⟩ := foldl_removeAll works
    (pruneList keep V (newestFirst (gcPlaced records dir) [V, R])) hswept
  have hgc : (gcReleases works d keep V R).releases = .ok left := by
    rw [gcReleases, hlinked, hd, hrecords]
    exact hleft
  have hnodup := ((newestFirst_perm [V, R]).map Release.name).nodup_iff.mpr
    (gcPlaced_nodup records dir)
  -- a version on disk is no orphan, and is pruned by its place
  have hkept : ∀ e ∈ dir.entries, e.isDir = true →
      validVersion e.name = true → (e ∈ left.entries ↔
        (works e.name = true → e.name = V ∨ e.name ∈ ((newestFirst
          (gcPlaced records dir) [V, R]).map Release.name).take keep)) := by
    intro e he hdir hversion
    have horphan : e.name ∉ orphans dir.entries := by
      intro hmem
      obtain ⟨e', he', hname⟩ := List.mem_map.mp hmem
      have hprefix := (List.mem_filter.mp he').2
      rw [Bool.and_eq_true, hname] at hprefix
      have hhidden := version_not_hidden (str "extract-") hversion
      exact Bool.eq_false_iff.mp hhidden hprefix.2
    obtain ⟨r, hr, hname, hrel⟩ := ho.placed he hdir hversion [V, R]
    have hprune := not_mem_pruneList keep V hnodup hr hrel
    rw [hname] at hprune
    rw [hleftMem, hsweptMem, ← hprune]
    grind
  rw [AppDirs.versions, hgc]
  simp only [List.mem_map, List.mem_filter, Bool.and_eq_true]
  constructor
  · rintro ⟨e, ⟨he, hdir, hversion⟩, rfl⟩
    have hedir : e ∈ dir.entries :=
      ((hsweptMem e).mp ((hleftMem e).mp he).1).1
    exact ⟨⟨e, hedir, hdir, hversion, rfl⟩,
      (hkept e hedir hdir hversion).mp he⟩
  · rintro ⟨⟨e, he, hdir, hversion, rfl⟩, hplace⟩
    exact ⟨e, ⟨(hkept e he hdir hversion).mpr hplace, hdir, hversion⟩, rfl⟩

end

end OnlyChanged

/-- What GC leaves on disk is `V` and the first `keep - 1` of the list the
operator saw, `V` apart; and the order both go by is strict and total on
names, so no directory order changes it. -/
theorem gc_agrees_with_list {d₀ d : AppDirs} {dir₀ dir : ReleaseDir}
    {V R : Bytes} {keep : Nat} (h₀ : d₀.releases = .ok dir₀)
    (hd : d.releases = .ok dir) (hlinked : d.linked = none)
    (hrecords₀ : d₀.records = .ok records) (hrecords : d.records = .ok records)
    (hkeep : 1 ≤ keep) (ho : OnlyChanged records V R dir₀ dir) :
    (∀ n, n ∈ (gcReleases (fun _ => true) d keep V R).versions ↔ n = V ∨
      n ∈ ((runningFirst (listReleases d₀).1 R).filter (· != V)).take
        (keep - 1)) ∧ (∀ works, V ∈ (gcReleases works d keep V R).versions) ∧
      (∀ first, (∀ a, newer first a a = false) ∧
        (∀ a b c, newer first a b = true → newer first b c = true →
          newer first a c = true) ∧ ∀ a b, a.name ≠ b.name →
          newer first a b = true ∨ newer first b a = true) ∧
      ∀ first rels rels', (rels.map Release.name).Nodup → rels'.Perm rels →
        rels'.Pairwise (fun a b => newer first b a = false) →
        rels' = newestFirst rels first := by
  obtain ⟨strays, hstrays, hnames⟩ := ho.gc_names
  have hlist : (listReleases d₀).1 = statusList records dir₀ := by
    rw [listReleases, h₀, hrecords₀]
  obtain ⟨e, he, hdir, hname⟩ := ho.promoted
  have hpromoted : ∃ e ∈ dir.entries, e.isDir = true ∧
      validVersion e.name = true ∧ e.name = V :=
    ⟨e, he, hdir, hname ▸ ho.version, hname⟩
  refine ⟨?_, ?_, ?_, ?_⟩
  · intro n
    rw [ho.mem_versions hd hlinked hrecords, hnames, hlist]
    obtain ⟨k, rfl⟩ : ∃ k, keep = k + 1 := ⟨keep - 1, by omega⟩
    rw [List.take_succ_cons, Nat.add_sub_cancel, List.mem_cons,
      List.take_append]
    constructor
    · rintro ⟨⟨e, -, -, hversion, rfl⟩, hplace⟩
      rcases hplace rfl with hV | hV | hmem
      · exact .inl hV
      · exact .inl hV
      · rcases List.mem_append.mp hmem with hmem | hmem
        · exact .inr hmem
        · have hstray := hstrays _ (List.mem_of_mem_take hmem)
          rw [hversion] at hstray
          cases hstray
    · rintro (rfl | hmem)
      · exact ⟨hpromoted, fun _ => .inl rfl⟩
      · refine ⟨?_, fun _ => .inr (.inr (List.mem_append_left _ hmem))⟩
        exact ho.on_disk (List.mem_of_mem_take hmem)
  · intro works
    rw [ho.mem_versions hd hlinked hrecords]
    exact ⟨hpromoted, fun _ => .inl rfl⟩
  · intro first
    exact ⟨(newer_weak first).irrefl, (newer_weak first).trans,
      fun a b => newer_apart⟩
  · intro first rels rels' hnodup hperm hsorted
    exact eq_newestFirst hnodup hperm hsorted

/-- Two releases deployed, a failed one and a directory that is none. -/
def exampleReleases : ReleaseDir where
  entries := ["v1", "v2", "v3", "a b"].map fun n => ⟨str n, true, some 0⟩
  nodup := by decide +kernel

def exampleRecords : Records := some fun n =>
  if n = str "v1" then .deploy 1 false
  else if n = str "v2" then .deploy 2 false
  else .deploy 3 true

def exampleDirs : AppDirs := ⟨none, .ok exampleReleases, .ok exampleRecords⟩

theorem exampleDirs_onlyChanged : OnlyChanged exampleRecords (str "v1")
    (str "v2") exampleReleases exampleReleases where
  version := by decide +kernel
  promoted := ⟨⟨str "v1", true, some 0⟩, by decide +kernel, rfl, rfl⟩
  running := ⟨⟨str "v2", true, some 0⟩, by decide +kernel, rfl,
    by decide +kernel, rfl⟩
  readable := by
    simp only [← Except.isOk_iff]
    decide +kernel
  stats := by decide +kernel
  same := fun _ _ => .rfl

/-- v1 redeployed over v2 with two places: v3 goes, failed as it is, and
so does the directory that is no version. -/
theorem gc_agrees_with_list_example :
    str "v2" ∈ (gcReleases (fun _ => true) exampleDirs 2 (str "v1")
        (str "v2")).versions ↔ str "v2" = str "v1" ∨
        str "v2" ∈ ((runningFirst (listReleases exampleDirs).1
          (str "v2")).filter (· != str "v1")).take 1 :=
  (gc_agrees_with_list rfl rfl rfl
    rfl rfl (by omega) exampleDirs_onlyChanged).1 (str "v2")

end Hotserve.Liveswap
