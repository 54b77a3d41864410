/-
A backup run that says ok is complete.

Each function of the run has one lemma that says what its ok means: the
dump's items, the view's pins, the upload's class, the listing's nodes,
the check of one item. `verify` marks items through their places in the
record, in the order of their directories; an item is only ever marked
down, so one that is ok at the end was ok at each look.
-/
import Hotserve.Backup.Complete
import Hotserve.Backup.Proofs.Decl

namespace Hotserve.Backup

open Bytes Fs

variable {env : Env} {name root staging : Bytes} {decl : Config}

-- ====== the dump

variable {fmt : Fmt} {g : Identity} {source base : Bytes}
variable {wanted : List Bytes} {i : Nat} {f : Item → Item}

theorem answered_paths : ∀ {ps : List Bytes} {rs : List DumpResult},
    answered fmt ps rs = .ok () → rs.length = ps.length →
    rs.map DumpResult.path = ps
  | [], [], _, _ => rfl
  | [], _ :: _, _, hlen => by cases hlen
  | _ :: _, [], _, hlen => by cases hlen
  | p :: ps, r :: rs, ha, hlen => by
    simp only [answered, Except.check_eq_ok, failIf_eq_ok,
      bne_eq_false_iff_eq] at ha
    obtain ⟨hp, -, hrest⟩ := ha
    rw [List.map_cons, hp, answered_paths hrest (by simpa using hlen)]

variable {out : Except Bytes Bytes} {p : Bytes} {json : Json}
  {w : List (Bytes × List Nat)} {given : List (Bytes × Identity)}
  {items : List Item}

theorem dumpResults_ok {o : Outcome} {rs : List DumpResult}
    (hr : dumpResults env decl o out = .ok rs) :
    ∃ raw, out = .ok raw ∧ env.json.results raw = some rs ∧
      rs.map DumpResult.path = decl.sqlite := by
  unfold dumpResults at hr
  split at hr
  · cases hr
  rename_i raw
  split at hr
  · cases hr
  rename_i rs' hrs
  split at hr
  · cases hr
  rename_i hlen
  split at hr
  · cases hr
  next hans =>
    cases hr
    exact ⟨raw, rfl, hrs, answered_paths hans (not_not.mp hlen)⟩

theorem zipWith_keys : ∀ {ps : List Bytes} {rs : List DumpResult},
    rs.length = ps.length →
    (List.zipWith (dumpedItem fmt) ps rs).map
      (fun it => Declared.mk it.kind it.path) = ps.map (Declared.mk .sqlite)
  | [], [], _ => rfl
  | [], _ :: _, hlen => by cases hlen
  | _ :: _, [], hlen => by cases hlen
  | p :: ps, r :: rs, hlen => by
    rw [List.zipWith_cons_cons, List.map_cons, List.map_cons,
      zipWith_keys (by simpa using hlen)]
    congr 1
    unfold dumpedItem
    split <;> rfl

/-- An item a database, in the order they are declared. -/
theorem dump_keys : (dump env decl).items.map
    (fun it => Declared.mk it.kind it.path) =
      decl.sqlite.map (Declared.mk .sqlite) := by
  have hfail : ∀ why, (failAll decl why).map
      (fun it => Declared.mk it.kind it.path) =
        decl.sqlite.map (Declared.mk .sqlite) := by
    intro why
    rw [failAll, List.map_map]
    rfl
  unfold dump
  split
  next hnil =>
    rw [hnil]
    rfl
  next =>
    split
    · exact hfail _
    split
    · exact hfail _
    split
    · exact hfail _
    next hrs =>
      obtain ⟨raw, -, -, hpaths⟩ := dumpResults_ok hrs
      refine zipWith_keys ?_
      rw [← hpaths, List.length_map]

/-- Databases that are all ok were all answered for. -/
theorem dump_ok (hne : decl.sqlite ≠ [])
    (hok : ∀ it ∈ (dump env decl).items, it.ok = true) :
    DumpedAll env decl := by
  have hfail : ∀ why, ¬ ∀ it ∈ failAll decl why, it.ok = true := by
    intro why hall
    obtain ⟨p, ps, hps⟩ := List.exists_cons_of_ne_nil hne
    have hp := hall ⟨.sqlite, p, false, why⟩ (by simp [failAll, hps])
    cases hp
  unfold dump at hok
  rw [if_neg hne] at hok
  split at hok
  · exact absurd hok (hfail _)
  rename_i o out hran
  split at hok
  · exact absurd hok (hfail _)
  split at hok
  · exact absurd hok (hfail _)
  rename_i rs hrs
  obtain ⟨raw, rfl, hdec, hpaths⟩ := dumpResults_ok hrs
  refine ⟨o, raw, rs, hran, hdec, hpaths, fun r hr => ?_⟩
  have hlen : rs.length = decl.sqlite.length := by
    rw [← hpaths, List.length_map]
  obtain ⟨i, hi, rfl⟩ := List.mem_iff_getElem.mp hr
  have hitem := hok (dumpedItem env.fmt decl.sqlite[i] rs[i])
    (List.mem_iff_getElem.mpr ⟨i, by simp [hlen, hlen ▸ hi],
      List.getElem_zipWith⟩)
  unfold dumpedItem at hitem
  split at hitem
  · assumption
  · cases hitem

-- ====== the view

/-- A walk that ends went through directories and no link. -/
theorem walkFrom_ok {t : Tree} {dirOnly single : Bool} :
    ∀ {parts cur at_ : List Bytes},
      walkFrom t dirOnly single cur parts = .ok at_ →
      (∀ c ∈ parts, Path.plain c = true) →
      at_ = cur ++ parts ∧ ∀ pre, pre <+: parts → pre ≠ [] →
        ∃ s, t.stat (cur ++ pre) = some s ∧ s.kind ≠ .link
  | [], cur, at_, hw, _ => by
    cases hw
    refine ⟨by simp, fun pre hpre hne => ?_⟩
    exact absurd (List.prefix_nil.mp hpre) hne
  | part :: rest, cur, at_, hw, hplain => by
    obtain ⟨hnil, hdot, hup⟩ :=
      Path.plain_iff.mp (hplain part (.head _))
    rw [walkFrom, if_neg (by simp [hnil, hdot, hup])] at hw
    rw [if_neg (show ¬((part == str ".") = true) by simp [hdot])] at hw
    dsimp only at hw
    split at hw
    · cases hw
    rename_i hlook
    obtain ⟨rfl, hpre⟩ := walkFrom_ok hw
      fun c hc => hplain c (.tail _ hc)
    refine ⟨by simp, fun pre hp hne => ?_⟩
    cases pre with
    | nil => exact absurd rfl hne
    | cons c pre =>
      obtain ⟨rfl, hrest⟩ := List.cons_prefix_cons.mp hp
      cases pre with
      | cons d pre =>
        obtain ⟨s, hs, hk⟩ := hpre (d :: pre) hrest (by simp)
        exact ⟨s, by simpa using hs, hk⟩
      | nil =>
        unfold lookAt at hlook
        split at hlook
        · cases hlook
        rename_i st hst
        refine ⟨st, hst, ?_⟩
        intro hlink
        rw [if_pos hlink] at hlook
        split at hlook <;> cases hlook

/-- What is pinned stands at the declared path, through no link. -/
theorem beneath_ok {t : Tree} {st : Stat}
    (hplain : ∀ c ∈ Path.comps p, Path.plain c = true)
    (hb : beneath t p = .ok st) : Reached t p st := by
  unfold beneath at hb
  split at hb
  · cases hb
  rename_i at_ hopen
  split at hb
  · cases hb
  rename_i hst
  cases hb
  unfold nofollowOpen at hopen
  split at hopen
  · cases hopen
  by_cases hdot : p = str "."
  · subst hdot
    have hat : at_ = [] := by
      change walkFrom t false true [] [str "."] = .ok at_ at hopen
      rw [walkFrom, if_neg (by decide)] at hopen
      dsimp only at hopen
      split at hopen
      · cases hopen
      · cases hopen
        rfl
    subst hat
    refine ⟨hst, fun pre hpre hne => ?_⟩
    exact absurd (List.prefix_nil.mp hpre) hne
  · have hcomps : Path.comps p = split 47 p := if_neg hdot
    rw [hcomps] at hplain
    obtain ⟨rfl, hpre⟩ := walkFrom_ok hopen hplain
    exact ⟨hcomps ▸ hst, fun pre hp hne => hpre pre (hcomps ▸ hp) hne⟩

theorem pinned_ok (hplain : ∀ c ∈ Path.comps p, Path.plain c = true)
    (hp : pinned env p = .ok (g, source)) : ∃ st, Reached (env.shared p) p st ∧
      (st.kind = .file ∨ st.kind = .dir) ∧ g = identity st := by
  unfold pinned at hp
  split at hp
  · cases hp
  · cases hp
  · cases hp
  rename_i st hb
  split at hp
  · cases hp
  rename_i hkind
  split at hp
  · cases hp
  · cases hp
    refine ⟨st, beneath_ok hplain hb, ?_, rfl⟩
    cases hk : st.kind <;> simp [hk, kindWord] at hkind ⊢

/-- The item of a declared files path. -/
def viewItem (env : Env) (p : Bytes) : Item :=
  match pinned env p with
  | .error detail => ⟨.files, p, false, detail⟩
  | .ok _ => ⟨.files, p, true, []⟩

theorem viewItem_key : Declared.mk (viewItem env p).kind
    (viewItem env p).path = ⟨.files, p⟩ := by
  unfold viewItem
  split <;> rfl

theorem viewItem_ok (hok : (viewItem env p).ok = true) :
    ∃ g source, pinned env p = .ok (g, source) ∧
      viewItem env p = ⟨.files, p, true, []⟩ := by
  unfold viewItem at hok ⊢
  cases hpin : pinned env p with
  | error detail => simp [hpin] at hok
  | ok r => exact ⟨r.1, r.2, rfl, rfl⟩

theorem foldl_viewOne_items : ∀ {ps : List Bytes} {v : View},
    (ps.foldl (viewOne env base decl) v).items =
      v.items ++ ps.map (viewItem env)
  | [], v => by simp
  | p :: ps, v => by
    rw [List.foldl_cons, foldl_viewOne_items, List.map_cons]
    have hone : (viewOne env base decl v p).items =
        v.items ++ [viewItem env p] := by
      cases hpin : pinned env p with
      | error detail => simp only [viewOne, viewItem, hpin]
      | ok r => simp only [viewOne, viewItem, hpin]
    rw [hone]
    simp

theorem view_items {declFile : Bytes} :
    (view env name staging declFile decl).items =
      decl.files.map (viewItem env) := by
  rw [view, foldl_viewOne_items]
  rfl

/-- What was given for a path stays known by its place, since no other
declared path lands there. -/
theorem foldl_viewOne_given {p : Bytes} (hp : pinned env p = .ok (g, source)) :
    ∀ {ps : List Bytes} {v : View},
      (∀ q ∈ ps, itemPath base .files q = itemPath base .files p → q = p) →
      p ∈ ps ∨ v.given.lookup (itemPath base .files p) = some g →
      (ps.foldl (viewOne env base decl) v).given.lookup
        (itemPath base .files p) = some g
  | [], v, _, hmem => by
    rcases hmem with hmem | hmem
    · cases hmem
    · exact hmem
  | q :: ps, v, hinj, hmem => by
    rw [List.foldl_cons]
    refine foldl_viewOne_given hp
      (fun r hr => hinj r (.tail _ hr)) ?_
    by_cases hq : q = p
    · subst hq
      right
      unfold viewOne
      rw [hp]
      rw [List.lookup_cons_self]
    · rcases hmem with hmem | hmem
      · rcases List.mem_cons.mp hmem with heq | hmem
        · exact absurd heq.symm hq
        · exact .inl hmem
      · right
        unfold viewOne
        split
        · exact hmem
        · rw [lookup_pair, if_neg fun heq =>
            hq (hinj q List.mem_cons_self heq.symm)]
          exact hmem

theorem view_given (name staging declFile : Bytes)
    (hv : decl.validate env.fmt.quote = .ok ())
    (hmem : p ∈ decl.files) (hp : pinned env p = .ok (g, source)) :
    (view env name staging declFile decl).given.lookup
      (itemPath (backupBase name) .files p) = some g := by
  have hplain : ∀ q ∈ decl.files, ∀ c ∈ Path.comps q, Path.plain c = true :=
    fun q hq => decl.comps_plain hv (i := ⟨.files, q⟩)
      (List.mem_append_right _ (List.mem_map_of_mem hq))
  refine foldl_viewOne_given hp (fun q hq heq => ?_) (.inl hmem)
  exact Path.join_rooted_inj rfl (by decide) (by decide) (hplain q hq)
    (hplain p hmem) heq

-- ====== the upload

theorem upload_ok {binds : List Bind} {masked : List Bytes}
    (hok : (upload env name binds masked).class_ = .ok) :
    ∃ o out, env.upload binds masked = .ok (o, out) ∧ o.ok = true ∧
      summaryID env.json out = (upload env name binds masked).id ∧
      (upload env name binds masked).id ≠ [] := by
  unfold upload at hok ⊢
  split at hok
  · cases hok
  rename_i o out hran
  dsimp only at hok ⊢
  split at hok
  next hid =>
    rw [if_pos hid]
    exact ⟨o, out, hran, hid.1, rfl, hid.2⟩
  split at hok
  · cases hok
  split at hok
  · cases hok
  · cases hok

theorem summaryID_isSnapshotID (hne : summaryID json out ≠ []) :
    isSnapshotID (summaryID json out) = true := by
  unfold summaryID at hne ⊢
  split
  · exact absurd rfl hne
  · dsimp only at hne
    split
    · split
      · assumption
      next hno => simp_all
    · simp_all

-- ====== the listing

/-- What one line adds to what is known of a wanted path. -/
theorem lsLine_lookup {path line : Bytes} {l : Listing}
    (hw : path ∈ wanted) : (lsLine json wanted l line).nodes.lookup path =
      (nodeOn json path line).or (l.nodes.lookup path) := by
  unfold lsLine nodeOn
  cases hn : json.line (dropCR line) with
  | none => rfl
  | some n =>
    dsimp only
    by_cases hsnap : n.structType = str "snapshot" ∧ l.made = 0
    · have hnode : n.structType ≠ str "node" := by
        rw [hsnap.1]
        decide
      rw [if_pos hsnap, if_neg (fun h => hnode h.1)]
      rfl
    rw [if_neg hsnap]
    by_cases hnode : n.structType = str "node" ∧ n.path = path
    · have hwant : n.structType = str "node" ∧ wanted.contains n.path := by
        rw [hnode.2]
        exact ⟨hnode.1, List.contains_iff_mem.mpr hw⟩
      rw [if_pos hwant, if_pos hnode, hnode.2, List.lookup_cons_self]
      rfl
    · rw [if_neg hnode]
      split
      next hwant =>
        rw [lookup_pair, if_neg fun heq => hnode ⟨hwant.1, heq.symm⟩]
        rfl
      · rfl

/-- The last node of the lines read so far wins. -/
theorem foldlM_lsLine_lookup {json : Json} {path : Bytes}
    (hw : path ∈ wanted) : ∀ {lines : List Bytes} {l₀ l : Listing},
      lines.foldlM (fun l line =>
        if maxLine ≤ line.length then
          Except.error (str "bufio.Scanner: token too long")
        else .ok (lsLine json wanted l line)) l₀ = .ok l →
      l.nodes.lookup path = ((lines.filterMap (nodeOn json path)).getLast?).or
        (l₀.nodes.lookup path)
  | [], l₀, l, hl => by
    cases hl
    rfl
  | line :: lines, l₀, l, hl => by
    rw [List.foldlM_cons, Except.bind_eq_ok] at hl
    obtain ⟨l₁, hl₁, hrest⟩ := hl
    split at hl₁
    · cases hl₁
    cases hl₁
    rw [foldlM_lsLine_lookup hw hrest, lsLine_lookup hw, List.filterMap_cons]
    cases nodeOn json path line with
    | none => rfl
    | some node =>
      dsimp only
      rw [List.getLast?_cons]
      cases (lines.filterMap (nodeOn json path)).getLast? with
      | none => rfl
      | some last => rfl

theorem lsNodes_lookup (path : Bytes) {l : Listing}
    (hl : lsNodes json out wanted = .ok l) (hw : path ∈ wanted) :
    ∃ raw, out = .ok raw ∧ l.nodes.lookup path = lastNode json raw path := by
  unfold lsNodes at hl
  split at hl
  · cases hl
  next raw =>
    refine ⟨raw, rfl, ?_⟩
    rw [foldlM_lsLine_lookup hw hl, lastNode]
    simp

-- ====== what is wanted

theorem wantAt_addWant_self (parent : Bytes) :
    i ∈ wantAt (addWant w parent i) parent := by
  induction w with
  | nil => simp [addWant, wantAt]
  | cons q w ih =>
    rw [addWant]
    split
    next hq => simp [wantAt, hq]
    next hq =>
      rw [wantAt, lookup_pair, if_neg (Ne.symm hq)]
      exact ih

theorem wantAt_addWant {parent other : Bytes} {j : Nat}
    (hj : j ∈ wantAt w other) : j ∈ wantAt (addWant w parent i) other := by
  induction w with
  | nil => simp [wantAt] at hj
  | cons q w ih =>
    rw [wantAt, lookup_pair] at hj
    rw [addWant]
    split <;> rw [wantAt, lookup_pair] <;> split at hj
    next hother =>
      rw [if_pos hother]
      exact List.mem_append_left _ hj
    next hother =>
      rw [if_neg hother]
      exact hj
    next hother =>
      rw [if_pos hother]
      exact hj
    next hother =>
      rw [if_neg hother]
      exact ih hj

/-- Every item that was given is expected in its directory. -/
theorem mem_want {it : Item} (hok : it.ok = true) :
    ∀ {l : List (Item × Nat)} {w : List (Bytes × List Nat)},
      (it, i) ∈ l ∨ i ∈ wantAt w (Path.dir (it.place base)) →
      i ∈ wantAt (l.foldl (fun want (it, i) =>
        if it.ok then addWant want (Path.dir (it.place base)) i else want) w)
        (Path.dir (it.place base))
  | [], w, hmem => by
    rcases hmem with hmem | hmem
    · cases hmem
    · exact hmem
  | (x, j) :: l, w, hmem => by
    rw [List.foldl_cons]
    refine mem_want hok ?_
    rcases hmem with hmem | hmem
    · rcases List.mem_cons.mp hmem with heq | hmem
      · cases heq
        dsimp only
        rw [if_pos hok]
        exact .inr (wantAt_addWant_self _)
      · exact .inl hmem
    · right
      dsimp only
      split
      · exact wantAt_addWant hmem
      · exact hmem

/-- A directory something is expected in is one of those listed. -/
theorem mem_parents {parent : Bytes} (hi : i ∈ wantAt w parent) :
    parent ∈ parents w := by
  rw [parents, List.mem_insertionSort]
  rw [wantAt] at hi
  cases hlook : w.lookup parent with
  | none => simp [hlook] at hi
  | some is =>
    obtain ⟨before, after, hw, -⟩ := List.lookup_eq_some_iff.mp hlook
    rw [hw]
    simp

-- ====== the checks

/-- What the snapshot holds where an item that passes belongs. -/
structure Held (given : List (Bytes × Identity)) (base : Bytes)
    (nodes : List (Bytes × LsNode)) (it : Item) (node : LsNode) : Prop where
  found : nodes.lookup (it.place base) = some node
  sqlite : it.kind = .sqlite → node.type_ = str "file" ∧ node.size ≠ 0
  files : it.kind = .files →
    (node.type_ = str "file" ∨ node.type_ = str "dir") ∧
      ∃ g, given.lookup (it.place base) = some g ∧
        node.inode = some g.inode ∧ node.uid = g.uid ∧ node.gid = g.gid

/-- An item is marked down, or left as it was because the snapshot bears
it out. -/
theorem checkItem_ok {nodes : List (Bytes × LsNode)} {it : Item}
    (hok : (checkItem fmt given base nodes it).ok = true) :
    checkItem fmt given base nodes it = it ∧
      ∃ node, Held given base nodes it node := by
  cases hfound : nodes.lookup (it.place base) with
  | none => simp [checkItem, hfound, Item.lacking] at hok
  | some node =>
    cases hkind : it.kind with
    | sqlite =>
      simp only [checkItem, hfound, hkind] at hok ⊢
      split at hok
      · cases hok
      next hnode =>
        rw [not_or, not_not] at hnode
        rw [if_neg (by rw [not_or, not_not]; exact hnode)]
        exact ⟨rfl, node, hfound, fun _ => hnode, by simp [hkind]⟩
    | files =>
      simp only [checkItem, hfound, hkind] at hok ⊢
      split at hok
      · cases hok
      rename_i htype
      rw [if_neg htype]
      have htype : node.type_ = str "file" ∨ node.type_ = str "dir" := by
        by_contra hno
        exact htype (not_or.mp hno)
      unfold heldTo at hok ⊢
      split at hok
      · cases hok
      · cases hok
      rename_i g inode hgiven hinode
      split at hok
      · cases hok
      rename_i hsame
      simp only [ne_eq, not_or, not_not] at hsame
      obtain ⟨rfl, huid, hgid⟩ := hsame
      refine ⟨by simp [huid, hgid], node, hfound,
        by simp [hkind], fun _ => ⟨htype, g, hgiven, hinode, huid, hgid⟩⟩

/-- Items that are only marked down: one that is ok at the end was ok
before, and at each of its own looks. -/
theorem foldl_modify_ok (hf : ∀ it, (f it).ok = true → f it = it) :
    ∀ {is : List Nat} {items : List Item} {i : Nat} {it : Item},
      (is.foldl (fun items i => items.modify i f) items)[i]? = some it →
      it.ok = true → items[i]? = some it ∧ (i ∈ is → f it = it)
  | [], items, i, it, hget, _ => ⟨hget, by simp⟩
  | j :: is, items, i, it, hget, hok => by
    rw [List.foldl_cons] at hget
    obtain ⟨hmod, hlater⟩ := foldl_modify_ok hf hget hok
    rw [List.getElem?_modify, Option.map_eq_map,
      Option.map_eq_some_iff] at hmod
    obtain ⟨old, hold, hit⟩ := hmod
    by_cases hij : j = i
    · rw [if_pos hij] at hit
      subst hit
      have hsame : f old = old := hf old hok
      rw [hsame] at hlater ⊢
      exact ⟨hold, fun _ => hsame⟩
    · rw [if_neg hij] at hit
      subst hit
      refine ⟨hold, fun hmem => ?_⟩
      rcases List.mem_cons.mp hmem with heq | hmem
      · exact absurd heq.symm hij
      · exact hlater hmem

theorem foldl_modify_length {is : List Nat} :
    (is.foldl (fun items i => items.modify i f) items).length =
      items.length := by
  induction is generalizing items with
  | nil => rfl
  | cons i is ih => rw [List.foldl_cons, ih, List.length_modify]

/-- A list left ok throughout is as it was, and each item that was looked
at passed. -/
theorem foldl_modify_all_ok {is : List Nat}
    (hf : ∀ it, (f it).ok = true → f it = it)
    (hok : ∀ it ∈ is.foldl (fun items i => items.modify i f) items,
      it.ok = true) : is.foldl (fun items i => items.modify i f) items = items ∧
      ∀ i it, items[i]? = some it → i ∈ is → f it = it := by
  have hsame : is.foldl (fun items i => items.modify i f) items = items := by
    refine List.ext_getElem? fun i => ?_
    cases hget : (is.foldl (fun items i => items.modify i f) items)[i]? with
    | some it =>
      exact (foldl_modify_ok hf hget
        (hok it (List.mem_of_getElem? hget))).1.symm
    | none =>
      rw [List.getElem?_eq_none_iff, foldl_modify_length] at hget
      exact (List.getElem?_eq_none_iff.mpr hget).symm
  refine ⟨hsame, fun i it hget hi => ?_⟩
  rw [← hsame] at hget
  exact (foldl_modify_ok hf hget (hok it (List.mem_of_getElem? hget))).2 hi

/-- What `verify` leaves ok is what it was given, borne out by the
listing. -/
theorem verify_ok {id : Bytes} {items' : List Item} {made : Nat}
    (hv : verify env name id given items = .ok (items', made))
    (hok : ∀ it ∈ items', it.ok = true) : items' = items ∧
      ∃ o raw nodes, env.verify id (parents (want (backupBase name) items)) =
          .ok (o, .ok raw) ∧ o.ok = true ∧ ∀ it ∈ items,
          (∃ node, Held given (backupBase name) nodes it node) ∧
          nodes.lookup (it.place (backupBase name)) =
            lastNode env.json raw (it.place (backupBase name)) := by
  unfold verify at hv
  dsimp only at hv
  split at hv
  · cases hv
  rename_i o out hran
  obtain ⟨ho, hv⟩ := passed hv
  split at hv
  · cases hv
  rename_i l hl
  cases hv
  rw [← List.foldl_flatMap] at hok ⊢
  obtain ⟨hsame, hlooked⟩ := foldl_modify_all_ok
    (fun it h => (checkItem_ok h).1) hok
  rw [hsame] at hok ⊢
  refine ⟨rfl, ?_⟩
  have hraw : ∃ raw, out = .ok raw := by
    unfold lsNodes at hl
    split at hl
    · cases hl
    · exact ⟨_, rfl⟩
  obtain ⟨raw, rfl⟩ := hraw
  refine ⟨o, raw, l.nodes, hran, by simpa using ho, fun it hit => ?_⟩
  have hitok : it.ok = true := hok it hit
  obtain ⟨i, hi⟩ := List.mem_iff_getElem?.mp hit
  have hwant : i ∈ wantAt (want (backupBase name) items)
      (Path.dir (it.place (backupBase name))) :=
    mem_want hitok (.inl (List.mem_zipIdx_iff_getElem?.mpr hi))
  have hpass := hlooked i it hi
    (List.mem_flatMap.mpr ⟨_, mem_parents hwant, hwant⟩)
  refine ⟨(checkItem_ok (by rw [hpass]; exact hitok)).2, ?_⟩
  obtain ⟨raw', hraw', hlast⟩ := lsNodes_lookup
    (it.place (backupBase name)) hl
      (List.mem_map_of_mem (List.mem_filter.mpr ⟨hit, hitok⟩))
  cases hraw'
  exact hlast

-- ====== the run

/-- A class that stayed ok met no item that was not. -/
theorem foldl_lacks_ok {id : Bytes} : ∀ {items : List Item}
    {app : App}, (items.foldl (lacks fmt id) app).class_ = .ok →
    items.foldl (lacks fmt id) app = app ∧ ∀ it ∈ items, it.ok = true
  | [], app, _ => ⟨rfl, by simp⟩
  | it :: items, app, hok => by
    rw [List.foldl_cons] at hok ⊢
    obtain ⟨hsame, hall⟩ := foldl_lacks_ok hok
    rw [hsame] at hok ⊢
    unfold lacks at hok ⊢
    split at hok
    · cases hok
    rename_i hit
    rw [if_neg hit]
    refine ⟨rfl, fun x hx => ?_⟩
    rcases List.mem_cons.mp hx with rfl | hx
    · simpa [hok] using hit
    · exact hall x hx

/-- What an ok verdict on a snapshot rests on. -/
theorem verified_ok {up : Uploaded} {app : App}
    (hid : up.class_ = .ok → up.id ≠ [])
    (hok : (verified env name up given app).1.class_ = .ok) :
    up.class_ = .ok ∧ (verified env name up given app).1 = { app with
          class_ := .ok
          detail := up.detail
          snapshot := some ⟨up.id, env.now, some env.now⟩ } ∧
      (∀ it ∈ app.items, it.ok = true) ∧
      ∃ made, verify env name up.id given app.items =
        .ok (app.items, made) := by
  unfold verified at hok ⊢
  dsimp only at hok ⊢
  by_cases hnil : up.id = []
  · rw [if_pos hnil] at hok
    exact absurd hnil (hid hok)
  rw [if_neg hnil] at hok ⊢
  split at hok
  · cases hok
  rename_i items made hverify
  rw [hverify]
  obtain ⟨hsame, hall⟩ := foldl_lacks_ok hok
  have hclass : up.class_ = .ok := by
    rw [hsame] at hok
    exact hok
  obtain ⟨rfl, -⟩ := verify_ok hverify hall
  refine ⟨hclass, ?_, hall, made, rfl⟩
  dsimp only
  rw [hsame]
  simp only [hclass]

/-- The run's upload. -/
def runUpload (env : Env) (name staging : Bytes) (decl : Config) : Uploaded :=
  upload env name (runBinds env name staging decl)
    (runView env name staging decl).masked

theorem backUp_ok {app : App}
    (hok : (backUp env name staging decl app).1.class_ = .ok) :
    backUp env name staging decl app = verified env name
      (runUpload env name staging decl) (runView env name staging decl).given
      { app with items := (dump env decl).items ++
          (runView env name staging decl).items } := by
  unfold backUp at hok ⊢
  dsimp only at hok ⊢
  split at hok
  · cases hok
  · cases hok
  · cases hok
  split at hok
  · cases hok
  rename_i hint
  split at hok
  · cases hok
  rename_i hup
  split at hok
  · cases hok
  next hsome =>
    rw [if_neg hint, if_neg hsome]
    rfl

theorem clean_ok {ran : Except Bytes Outcome} (hc : clean ran = .ok ()) :
    ∃ o, ran = .ok o ∧ o.ok = true := by
  unfold clean at hc
  split at hc
  · cases hc
  next o =>
    split at hc
    next ho => exact ⟨o, rfl, ho⟩
    · cases hc

theorem cleaned_ok {r : App × Bool}
    (hok : (cleaned env staging r).1.class_ = .ok) :
    clean env.cleanAfter = .ok () ∧ cleaned env staging r = r := by
  unfold cleaned at hok ⊢
  split at hok
  next hc => exact ⟨hc, rfl⟩
  next e he =>
    dsimp only at hok
    split at hok
    · cases hok
    next hno => exact absurd hok hno

/-- A run that says ok came to its end, with staging emptied on both
sides of it. -/
theorem app_ok (hok : (app env root name decl).1.class_ = .ok) :
    clean env.cleanBefore = .ok () ∧ clean env.cleanAfter = .ok () ∧
      ∃ staging looked, env.staging = .ok staging ∧ app env root name decl =
          backUp env name staging decl (blankApp looked) := by
  unfold app at hok ⊢
  dsimp only at hok ⊢
  split at hok
  · cases hok
  rename_i staging hstaging
  split at hok
  · cases hok
  rename_i hclean
  split at hok
  · cases hok
  · unfold absent at hok
    dsimp only at hok
    split at hok
    · cases hok
    split at hok
    · cases hok
    · cases hok
    · cases hok
  · cases hok
  · cases hok
  next st hpin =>
    split at hok
    · cases hok
    rename_i hdir
    split at hok
    · cases hok
    rename_i howner
    obtain ⟨hafter, hsame⟩ := cleaned_ok hok
    refine ⟨hclean, hafter, staging,
      Path.join [root, name, str "shared"], hstaging, ?_⟩
    rw [if_neg hdir, if_neg howner]
    exact hsame

/-- A backup run that says ok is complete: for every valid declaration,
whatever the shared dir holds, whatever the units do and whatever they
print. -/
theorem app_ok_complete (hv : decl.validate env.fmt.quote = .ok ())
    (hok : (app env root name decl).1.class_ = .ok) :
    Complete env name decl (app env root name decl).1 := by
  obtain ⟨hbefore, hafter, staging, looked, hstaging, happ⟩ := app_ok hok
  rw [happ] at hok ⊢
  have hback := backUp_ok hok
  rw [hback] at hok ⊢
  have hid : (runUpload env name staging decl).class_ = .ok →
      (runUpload env name staging decl).id ≠ [] := by
    intro hup
    obtain ⟨-, -, -, -, -, hne⟩ := upload_ok hup
    exact hne
  obtain ⟨hup, hrec, hall, made, hverify⟩ := verified_ok hid hok
  obtain ⟨o, out, hran, ho, hsum, hne⟩ := upload_ok hup
  obtain ⟨-, o', raw, nodes, hls, ho', hheld⟩ := verify_ok hverify hall
  dsimp only at hall hheld
  have hview : ∀ p ∈ decl.files, viewItem env p ∈
      (dump env decl).items ++ (runView env name staging decl).items := by
    intro p hp
    rw [runView, view_items]
    exact List.mem_append_right _ (List.mem_map_of_mem hp)
  rw [hrec]
  refine ⟨clean_ok hbefore, clean_ok hafter, ?_, decl.declared_nodup hv, hall,
    fun hne => dump_ok hne fun it hit => hall it (List.mem_append_left _ hit),
    ⟨staging, o, out, _, hstaging, hran, ho, hsum, ?_, rfl⟩,
    ⟨_, o', raw, rfl, hls, ho', ?_, ?_⟩⟩
  · dsimp only
    rw [List.map_append, dump_keys, runView, view_items, List.map_map]
    refine congrArg _ (List.map_congr_left fun p _ => ?_)
    exact viewItem_key
  · rw [← hsum]
    exact summaryID_isSnapshotID (hsum ▸ hne)
  · intro p hp
    have hkey : Declared.mk .sqlite p ∈ (dump env decl).items.map
        (fun it => Declared.mk it.kind it.path) := by
      rw [dump_keys]
      exact List.mem_map_of_mem hp
    obtain ⟨⟨_, _, ok, detail⟩, hit, heq⟩ := List.mem_map.mp hkey
    cases heq
    obtain ⟨⟨node, hnode⟩, hlast⟩ := hheld _ (List.mem_append_left _ hit)
    obtain ⟨htype, hsize⟩ := hnode.sqlite rfl
    exact ⟨node, hlast ▸ hnode.found, htype, hsize⟩
  · intro p hp
    obtain ⟨g, source, hpin, hitem⟩ := viewItem_ok (hall _ (hview p hp))
    have hplain := decl.comps_plain hv (i := ⟨.files, p⟩)
      (List.mem_append_right _ (List.mem_map_of_mem hp))
    obtain ⟨st, hreached, hkind, rfl⟩ := pinned_ok hplain hpin
    obtain ⟨⟨node, hnode⟩, hlast⟩ := hheld _ (hview p hp)
    rw [hitem] at hnode hlast
    obtain ⟨htype, g, hgiven, hino, huid, hgid⟩ := hnode.files rfl
    have hsame : g = identity st := by
      have hgiven' := view_given name staging
        (env.dir ++ str "/" ++ name ++ str ".plan.json") hv hp hpin
      exact Option.some.inj (hgiven.symm.trans hgiven')
    subst hsame
    exact ⟨st, hreached, hkind, node, hlast ▸ hnode.found, htype, hino, huid,
      hgid⟩

-- ====== a run

/-- What the units of a run print for an app with one database and one
directory. -/
def dumpText : Bytes :=
  str "[\x7b\"path\":\"x.db\",\"class\":\"ok\",\"bytes\":8192\x7d]"

def summaryText : Bytes :=
  str ("\x7b\"message_type\":\"summary\",\"snapshot_id\":\"" ++
    "4bba301e4bba301e4bba301e4bba301e4bba301e4bba301e4bba301e4bba301e" ++
    "\"\x7d")

/-- A listing's line for the database, at a size. -/
def databaseLine (size : Int) : Bytes :=
  str ("\x7b\"struct_type\":\"node\",\"path\":\"/backup/a/sqlite/x.db\"," ++
      "\"type\":\"file\",\"size\":") ++ str (toString size) ++ str "\x7d"

def directoryLine : Bytes :=
  str ("\x7b\"struct_type\":\"node\",\"path\":\"/backup/a/files/up\"," ++
    "\"type\":\"dir\",\"inode\":7,\"uid\":1000,\"gid\":1000\x7d")

/-- What `encoding/json` makes of those texts. -/
def exampleJson (size : Int) : Json where
  results raw :=
    if raw = dumpText then some [⟨str "x.db", dumpOK, [], 8192⟩] else none
  messageType line :=
    if line = summaryText then some (str "summary") else none
  snapshotID _ _ :=
    (str "4bba301e4bba301e4bba301e4bba301e4bba301e4bba301e4bba301e4bba301e",
      true)
  line line :=
    if line = databaseLine size then
      some ⟨str "node", str "/backup/a/sqlite/x.db", 0,
        ⟨str "file", size, none, 0, 0⟩⟩
    else if line = directoryLine then
      some ⟨str "node", str "/backup/a/files/up", 0,
        ⟨str "dir", 0, some 7, 1000, 1000⟩⟩
    else none

/-- Beneath the root, the app's shared dir; beneath that, `up`. -/
def exampleTree : Tree where
  stat c :=
    if c = [] ∨ c = [str "a"] ∨ c = [str "a", str "shared"] then
      some ⟨.dir, 2, 2, 1000, 1000, 493⟩
    else if c = [str "up"] then some ⟨.dir, 7, 2, 1000, 1000, 493⟩
    else none
  data _ := []

/-- A run in which every unit does its work. -/
def exampleEnv (size : Int) : Env where
  json := exampleJson size
  fmt := ⟨id, id, id, id, fun _ => [], fun _ => []⟩
  dir := str "/run/motel-backup/1"
  nonce := str "00"
  prev := none
  staging := .ok (str "/var/lib/motel-backup/staging/a")
  cleanBefore := .ok ⟨0, str "success"⟩
  cleanAfter := .ok ⟨0, str "success"⟩
  root := .ok exampleTree
  lastInRepository := .ok none
  dataOwner := .ok 1000
  writePlan := none
  writeExclude := none
  mountShared := .ok (str "/run/motel-backup/1/mount-1")
  dump := .ok (⟨0, str "success"⟩, .ok dumpText)
  interrupted := false
  upgraded := none
  shared := fun _ => exampleTree
  mount := fun _ => .ok (str "/run/motel-backup/1/mount-2")
  upload := fun _ _ => .ok (⟨0, str "success"⟩, .ok summaryText)
  now := 1
  verify := fun _ _ => .ok (⟨0, str "success"⟩,
    .ok (databaseLine size ++ 10 :: directoryLine ++ [10]))

def exampleDecl : Config := ⟨[str "x.db"], [str "up"]⟩

theorem app_ok_complete_example : Complete (exampleEnv 8192) (str "a")
    exampleDecl (app (exampleEnv 8192) (str "/var/lib/liveswap") (str "a")
      exampleDecl).1 :=
  app_ok_complete (by decide +kernel) (by decide +kernel)

/-- A size is signed and only 0 is refused, so a run is ok on a listing
that gives a database fewer than no bytes. -/
theorem negative_size_passes :
    exampleDecl.validate (exampleEnv (-1)).fmt.quote = .ok () ∧
      (app (exampleEnv (-1)) (str "/var/lib/liveswap") (str "a")
        exampleDecl).1.class_ = .ok ∧ ∀ id dirs, ∃ o raw node,
        (exampleEnv (-1)).verify id dirs = .ok (o, .ok raw) ∧
        lastNode (exampleEnv (-1)).json raw
          (itemPath (backupBase (str "a")) .sqlite (str "x.db")) = some node ∧
        ¬0 < node.size := by
  refine ⟨by decide +kernel, by decide +kernel, fun _ _ => ?_⟩
  refine ⟨_, _, ⟨str "file", -1, none, 0, 0⟩, rfl, by decide +kernel, by decide⟩

end Hotserve.Backup
