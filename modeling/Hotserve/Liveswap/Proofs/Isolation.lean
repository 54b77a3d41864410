/-
The isolation checks against where paths really lead.

`absAndCanonical` gives a path's place among its spellings where no link
on the path dangles (`mem_absAndCanonical`): the deepest part that is
there resolves to the directory the rest is missing in. A link that
dangles is put back as it is spelled, and the check then measures the
link and not where it leads (`dangling_link_passes`). A base-view entry is
measured as it is spelled only, so it has to lead into the base view
(`Host.inBase`). For the admin socket, `EvalSymlinks` is asked of the
whole root and of the socket's directory, so either is there or has no
link on it, and the socket is no link. Of each two paths that are
compared, the one is accepted in the other's place only if one of the two
is not measured so: that is `views_apart`.
-/
import Hotserve.Liveswap.Isolation

namespace Hotserve.Liveswap.Isolation

open Bytes Path Links

/-- The names of an absolute path's clean spelling. -/
def names (p : Bytes) : List Bytes := (stack p).reverse

namespace Host

/-- The path leads where its clean spelling does, on which no link
dangles. -/
def seen (H : Host) (p : Bytes) : Bool :=
  match H.full p with
  | none => true
  | some a =>
    (H.follow a).place == (H.follow (clean a)).place &&
      !H.tree.dangles kernelLinks [] (names a)

/-- A base-view entry leads into the base view. -/
def inBase (H : Host) (e : Bytes) : Bool :=
  (H.leads e).all fun d => sandboxBaseView.any fun b => (names b).isPrefixOf d

/-- The place one path leads to is at or beneath where another does. -/
def within (H : Host) (p d : Bytes) : Bool := (H.leads p).any (H.beneath d)

/-- An absolute root that is there, or has no link on it. -/
def rootSeen (H : Host) (root : Bytes) : Bool :=
  isAbs root && ((H.follow root).there ||
    (H.follow root).place == (H.follow (clean root)).place &&
      H.tree.direct [] (names root))

/-- An absolute socket path that has no link on it, or is no link in a
directory that is there. -/
def socketSeen (H : Host) (path : Bytes) : Bool :=
  isAbs path && (H.follow path).place == (H.follow (clean path)).place &&
    (H.tree.direct [] (names path) ||
      (H.tree.walk kernelLinks [] (names path).dropLast).there &&
        !(names path).getLast?.any
          (H.tree.linkAfter kernelLinks (names path).dropLast))

/-- An env file and a directory it is compared with are measured by where
they lead. -/
def measured (H : Host) (p d : Bytes) : Bool :=
  H.seen p && if d ∈ sandboxBaseView then H.inBase d else H.seen d

/-- The socket and the root or a base-view entry are. -/
def socketMeasured (H : Host) (p d : Bytes) : Bool :=
  H.socketSeen p && if d ∈ sandboxBaseView then H.inBase d else H.rootSeen d

end Host

/-- What an app's env file is not to lead into: the base view, and the
directories of every other app. -/
def comparisons (root : Bytes) (apps : Apps) : List (Bytes × Bytes) :=
  apps.flatMap fun (a, ca) =>
    match ca with
    | none => []
    | some ca =>
      (sandboxBaseView ++ apps.flatMap fun (b, cb) =>
        if b = a ∨ cb.isNone then []
        else [(newAppDirs root b).shared, (newAppDirs root b).releases]).map
        (ca.envFile, ·)

variable {H : Host} {p : Bytes} {cs ds : List Bytes}

-- ====== places and texts

theorem names_name (hp : p.head? = some 47) : ∀ c ∈ names p, Name c :=
  fun _ hc => name_of_mem_stack hp (List.mem_reverse.mp hc)

theorem clean_eq (hp : p.head? = some 47) : clean p = 47 :: glue (names p) :=
  clean_rooted hp

theorem follow_text (hcs : ∀ c ∈ cs, Name c) :
    H.follow (47 :: glue cs) = H.tree.walk Host.kernelLinks [] cs :=
  Tree.walk_text fun c hc => (hcs c hc).2

theorem follow_clean (hp : p.head? = some 47) :
    H.follow (clean p) = H.tree.walk Host.kernelLinks [] (names p) := by
  rw [clean_eq hp]
  exact follow_text (names_name hp)

theorem evalSymlinks_abs (hp : p.head? = some 47) : H.evalSymlinks p =
      match H.tree.walk Host.goLinks [] (split 47 p) with
      | .found q => some (47 :: glue q)
      | _ => none := by
  have habs : isAbs p = true := by rw [isAbs, hp]; rfl
  exact if_pos habs

/-- What the kernel finds or misses, Go does. -/
theorem evalSymlinks_eq (hp : p.head? = some 47) (h : H.follow p ≠ .stuck) :
    H.evalSymlinks p =
      match H.follow p with
      | .found q => some (47 :: glue q)
      | _ => none := by
  have hmono := Tree.walk_mono (n := Host.kernelLinks) (m := Host.goLinks)
    (by decide) h
  rw [evalSymlinks_abs hp, hmono]
  rfl

variable {q : Place} {root : Bytes}

theorem place_names (h : (H.follow p).place = some q) : ∀ c ∈ q, Name c :=
  (Tree.walk_named (by simp) fun _ hc => not_mem_split hc).place h

/-- The check sees what is at or beneath a place by its text. -/
theorem pathWithin_text (hcs : ∀ c ∈ cs, Name c) (h : cs <+: ds) :
    pathWithin (47 :: glue ds) (47 :: glue cs) = true := by
  obtain ⟨es, rfl⟩ := h
  rw [pathWithin, Bool.or_eq_true, beq_iff_eq, List.isPrefixOf_iff_prefix]
  by_cases hes : es = []
  · left
    rw [hes, List.append_nil]
  right
  by_cases hnil : cs = []
  · subst hnil
    exact ⟨glue es, rfl⟩
  rw [trimSlash, if_neg (getLast?_text hcs hnil), glue_append hnil hes]
  exact ⟨glue es, by simp⟩

theorem base_spelling : ∀ e ∈ sandboxBaseView,
    e = 47 :: glue (names e) ∧ e.head? = some 47 := by
  decide +kernel

-- ====== absAndCanonical

/-- The loop takes off components until a part resolves. -/
theorem canonicalFrom_eq (text : Bytes) {pre mid post : List Bytes}
    {fuel : Nat} (hpre : ∀ c ∈ pre, Name c)
    (hmid : ∀ c ∈ mid, Name c) (hpost : ∀ c ∈ post, Name c)
    (hq : ∀ c ∈ q, Name c)
    (hfound : H.evalSymlinks (47 :: glue pre) = some (47 :: glue q))
    (hnone : ∀ m, m <+: mid → m ≠ [] →
      H.evalSymlinks (47 :: glue (pre ++ m)) = none)
    (hfuel : mid.length < fuel) :
    H.canonicalFrom text fuel (47 :: glue (pre ++ mid)) (glue post) =
      47 :: glue (q ++ (mid ++ post)) := by
  induction mid using List.reverseRecOn generalizing post fuel with
  | nil =>
    cases fuel with
    | zero => exact absurd hfuel (by simp)
    | succ fuel =>
      rw [List.append_nil, Host.canonicalFrom, hfound]
      exact join_text hq hpost
  | append_singleton mid c ih =>
    cases fuel with
    | zero => exact absurd hfuel (by simp)
    | succ fuel =>
      have hc : Name c := hmid c (by simp)
      have hmid' : ∀ x ∈ mid, Name x := fun x hx =>
        hmid x (List.mem_append_left _ hx)
      have hinit : ∀ x ∈ pre ++ mid, Name x := fun x hx =>
        (List.mem_append.mp hx).elim (hpre x) (hmid' x)
      have hdir : dir (47 :: glue (pre ++ mid ++ [c])) =
          47 :: glue (pre ++ mid) := dir_text hinit hc
      have hshorter : (47 : UInt8) :: glue (pre ++ mid) ≠
          47 :: glue (pre ++ mid ++ [c]) := by
        intro heq
        have hnames : ∀ x ∈ pre ++ mid ++ [c], Name x := fun x hx =>
          (List.mem_append.mp hx).elim (hinit x) fun hx =>
            List.mem_singleton.mp hx ▸ hc
        have hlist := glue_inj (fun x hx => ⟨(hinit x hx).ne_nil,
          (hinit x hx).2⟩) (fun x hx => ⟨(hnames x hx).ne_nil,
          (hnames x hx).2⟩) (List.cons.inj heq).2
        have hlen := congrArg List.length hlist
        simp at hlen
      rw [Host.canonicalFrom, hnone _ (List.prefix_refl _) (by simp),
        ← List.append_assoc]
      simp only [hdir, if_neg hshorter, base_text hc, join_names hc hpost]
      rw [ih hmid' (List.forall_mem_cons.mpr ⟨hc, hpost⟩)
        (fun m hm => hnone m (hm.trans (List.prefix_append _ _)))
        (by simpa using hfuel)]
      simp

section

variable (hcs : ∀ c ∈ cs, Name c)
include hcs

theorem length_le_glue : cs.length ≤ (glue cs).length := by
  induction cs with
  | nil => exact Nat.zero_le _
  | cons c cs ih =>
    have hc := List.length_pos_iff.mpr (hcs c (.head _)).ne_nil
    have hrest := ih fun x hx => hcs x (.tail _ hx)
    cases cs with
    | nil => exact hc
    | cons d cs =>
      rw [glue_cons (by simp), List.length_append, List.length_cons]
      change _ ≤ c.length + ((glue (d :: cs)).length + 1)
      omega

theorem canonicalDeepest_append (hds : ∀ c ∈ ds, Name c) (hq : ∀ c ∈ q, Name c)
    (hfound : H.evalSymlinks (47 :: glue cs) = some (47 :: glue q))
    (hnone : ∀ m, m <+: ds → m ≠ [] →
      H.evalSymlinks (47 :: glue (cs ++ m)) = none) :
    H.canonicalDeepest (47 :: glue (cs ++ ds)) = 47 :: glue (q ++ ds) := by
  have hlen := length_le_glue fun c hc =>
    (List.mem_append.mp hc).elim (hcs c) (hds c)
  have hfuel : ds.length < (47 :: glue (cs ++ ds)).length + 1 := by
    rw [List.length_append] at hlen
    rw [List.length_cons]
    omega
  have hloop := canonicalFrom_eq (47 :: glue (cs ++ ds)) hcs hds
    (List.forall_mem_nil Name) hq hfound hnone hfuel
  rw [List.append_nil] at hloop
  exact hloop

/-- A path on which no link dangles resolves to its place. -/
theorem canonicalDeepest_eq (hd : H.tree.dangles Host.kernelLinks [] cs = false)
    (h : (H.follow (47 :: glue cs)).place = some q) :
    H.canonicalDeepest (47 :: glue cs) = 47 :: glue q := by
  rw [follow_text hcs] at h
  rcases Tree.place_of_not_dangles (fun c hc => (hcs c hc).1) hd h with
    hfound | ⟨pre, c, post, q', rfl, hfound, hgone, rfl⟩
  · have hwalk : H.follow (47 :: glue cs) = .found q :=
      (follow_text hcs).trans hfound
    have heval : H.evalSymlinks (47 :: glue cs) = some (47 :: glue q) := by
      rw [evalSymlinks_eq rfl (by rw [hwalk]; simp), hwalk]
    have hdeep : H.canonicalDeepest (47 :: glue (cs ++ [])) =
        47 :: glue (q ++ []) :=
      canonicalDeepest_append hcs (by simp)
        (place_names (by rw [hwalk]; rfl)) heval
        fun m hm hne => absurd (List.prefix_nil.mp hm) hne
    simpa using hdeep
  · have hpre : ∀ x ∈ pre, Name x := fun x hx =>
      hcs x (List.mem_append_left _ hx)
    have hmid : ∀ x ∈ c :: post, Name x := fun x hx =>
      hcs x (List.mem_append_right _ hx)
    have hwalk : H.follow (47 :: glue pre) = .found q' :=
      (follow_text hpre).trans hfound
    have heval : H.evalSymlinks (47 :: glue pre) = some (47 :: glue q') := by
      rw [evalSymlinks_eq rfl (by rw [hwalk]; simp), hwalk]
    have hnone : ∀ m, m <+: c :: post → m ≠ [] →
        H.evalSymlinks (47 :: glue (pre ++ m)) = none := by
      intro m hm hne
      obtain ⟨m', rfl⟩ : ∃ m', m = c :: m' := by
        cases m with
        | nil => exact absurd rfl hne
        | cons x m' =>
          exact ⟨m', by rw [(List.cons_prefix_cons.mp hm).1]⟩
      have hnames : ∀ x ∈ pre ++ c :: m', Name x := fun x hx =>
        (List.mem_append.mp hx).elim (hpre x) fun hx => hmid x (hm.subset hx)
      cases hg : H.tree.walk Host.kernelLinks [] (pre ++ [c]) with
      | found _ =>
        rw [hg] at hgone
        cases hgone
      | stuck =>
        rw [hg] at hgone
        cases hgone
      | missing d r =>
        have hfollow : H.follow (47 :: glue (pre ++ c :: m')) =
            .missing d (r ++ m') := by
          rw [follow_text hnames, ← Tree.walk_missing_append hg m']
          simp
        rw [evalSymlinks_eq rfl (by rw [hfollow]; simp), hfollow]
    exact canonicalDeepest_append hpre hmid
      (place_names (by rw [hwalk]; rfl)) heval hnone

end

theorem full_rooted {a : Bytes} (h : H.full p = some a) :
    a.head? = some 47 := by
  unfold Host.full at h
  split at h
  · cases h
  split at h
  next habs =>
    cases h
    exact beq_iff_eq.mp habs
  next =>
    obtain ⟨w, hw, rfl⟩ := Option.map_eq_some_iff.mp h
    rw [List.head?_append, H.rooted w hw]
    rfl

/-- The spelling that is checked is the clean one of the whole path. -/
theorem absolute_eq : H.absolute p = (H.full p).map clean := by
  unfold Host.absolute Host.full
  split
  · rfl
  split
  · rfl
  rw [Option.map_map]
  cases hw : H.wd with
  | none => rfl
  | some w =>
    have hroot := H.rooted w hw
    have hne : w ≠ [] := by
      rintro rfl
      cases hroot
    have hjoin : join [w, p] = clean (w ++ 47 :: p) := by
      rw [join, List.dropWhile_cons_of_neg (by simpa using hne)]
      rfl
    have hhead : (w ++ 47 :: p).head? = some 47 := by
      rw [List.head?_append, hroot]
      rfl
    simp only [Option.map_some, Function.comp, hjoin, clean_clean hhead]

/-- The place of a path is among the spellings that are checked. -/
theorem mem_absAndCanonical (hseen : H.seen p = true)
    (h : H.leads p = some q) : 47 :: glue q ∈ H.absAndCanonical p := by
  obtain ⟨a, ha, hplace⟩ := Option.bind_eq_some_iff.mp h
  have hroot := full_rooted ha
  simp only [Host.seen, ha, Bool.and_eq_true, beq_iff_eq,
    Bool.not_eq_true'] at hseen
  have hcanon : H.canonicalDeepest (clean a) = 47 :: glue q := by
    rw [clean_eq hroot] at hseen ⊢
    exact canonicalDeepest_eq (names_name hroot) hseen.2
      (hseen.1.symm.trans hplace)
  simp only [Host.absAndCanonical, absolute_eq, ha, Option.map_some]
  rw [hcanon]
  split
  · simp
  next heq =>
    rw [not_not.mp heq]
    simp

-- ====== the env files

theorem within_eq_false {d : Bytes} : H.within p d = false ↔
    ∀ q r, H.leads p = some q → H.leads d = some r → ¬ r <+: q := by
  unfold Host.within Host.beneath
  cases H.leads p <;> cases H.leads d <;>
    simp [← List.isPrefixOf_iff_prefix]

/-- A place that is in no base-view entry as it is spelled is in none that
leads into the base view. -/
theorem outside_base {e : Bytes} (hbase : H.inBase e = true)
    (h : ∀ b ∈ sandboxBaseView, pathWithin (47 :: glue q) b = false)
    {r : Place} (hr : H.leads e = some r) : ¬ r <+: q := by
  intro hpre
  rw [Host.inBase, hr, Option.all_some] at hbase
  obtain ⟨b, hb, hin⟩ := List.any_eq_true.mp hbase
  obtain ⟨hspell, hroot⟩ := base_spelling b hb
  have hbq : names b <+: q := (List.isPrefixOf_iff_prefix.mp hin).trans hpre
  have hwithin := pathWithin_text (names_name hroot) hbq
  rw [← hspell, h b hb] at hwithin
  cases hwithin

/-- A place that is in none of the spellings of a directory is not where
that leads. -/
theorem outside_dir {d : Bytes} (hseen : H.seen d = true)
    (h : ∀ dp ∈ H.absAndCanonical d, pathWithin (47 :: glue q) dp = false)
    {r : Place} (hr : H.leads d = some r) : ¬ r <+: q := by
  intro hpre
  obtain ⟨a, ha, hplace⟩ := Option.bind_eq_some_iff.mp hr
  have hwithin := pathWithin_text (place_names hplace) hpre
  rw [h _ (mem_absAndCanonical hseen hr)] at hwithin
  cases hwithin

/-- What the isolation check has found of every spelling of an env file. -/
structure Apart (H : Host) (root f : Bytes) (apps : Apps) (a : Bytes) :
    Prop where
  base : ∀ b ∈ sandboxBaseView, pathWithin f b = false
  dirs : ∀ b cfg, (b, some cfg) ∈ apps → b ≠ a →
    ∀ d ∈ [(newAppDirs root b).shared, (newAppDirs root b).releases],
      ∀ dp ∈ H.absAndCanonical d, pathWithin f dp = false

theorem apart_of_accepted {a : Bytes} {apps : Apps} {cfg : AppConfig}
    (h : validateEnvFileIsolation H root apps = none)
    (ha : (a, some cfg) ∈ apps) (hne : cfg.envFile ≠ []) :
    ∀ f ∈ H.absAndCanonical cfg.envFile, Apart H root f apps a := by
  have happ := List.findSome?_eq_none_iff.mp h _ ha
  simp only [if_neg hne, List.findSome?_eq_none_iff, Option.or_eq_none_iff]
    at happ
  intro f hf
  obtain ⟨hbase, hdirs⟩ := happ f hf
  refine ⟨fun b hb => ?_, fun b cfg' hb hba d hd dp hdp => ?_⟩
  · simpa using hbase b hb
  · have hother := hdirs _ hb
    rw [if_neg (by simpa using hba)] at hother
    simp only [List.findSome?_eq_none_iff] at hother
    simp only [List.mem_cons, List.not_mem_nil, or_false] at hd
    rcases hd with rfl | rfl
    · simpa using hother _ (.head _) dp hdp
    · simpa using hother _ (.tail _ (.head _)) dp hdp

theorem mem_comparisons {apps : Apps} {f d : Bytes}
    (h : (f, d) ∈ comparisons root apps) :
    ∃ a ca, (a, some ca) ∈ apps ∧ f = ca.envFile ∧
      (d ∈ sandboxBaseView ∨ ∃ b cb, (b, some cb) ∈ apps ∧ b ≠ a ∧
        d ∈ [(newAppDirs root b).shared, (newAppDirs root b).releases]) := by
  obtain ⟨⟨a, _ | ca⟩, ha, h⟩ := List.mem_flatMap.mp h
  · cases h
  obtain ⟨d', hd, heq⟩ := List.mem_map.mp h
  cases heq
  refine ⟨a, ca, ha, rfl, (List.mem_append.mp hd).imp_right fun hd => ?_⟩
  obtain ⟨⟨b, _ | cb⟩, hb, hd⟩ := List.mem_flatMap.mp hd
  · simp at hd
  dsimp only at hd
  split at hd
  · cases hd
  next hne => exact ⟨b, cb, hb, fun heq => hne (.inl heq), hd⟩

/-- An accepted env file is in nothing that it was measured against by
where both lead. -/
theorem env_apart {apps : Apps} {f d : Bytes}
    (h : validateEnvFileIsolation H root apps = none)
    (hc : (f, d) ∈ comparisons root apps) (hm : H.measured f d = true) :
    H.within f d = false := by
  rw [within_eq_false]
  intro q r hq hr
  obtain ⟨a, ca, ha, rfl, hd⟩ := mem_comparisons hc
  have hne : ca.envFile ≠ [] := by
    intro hnil
    rw [hnil] at hq
    cases hq
  rw [Host.measured, Bool.and_eq_true] at hm
  have hapart := apart_of_accepted h ha hne _ (mem_absAndCanonical hm.1 hq)
  by_cases hbase : d ∈ sandboxBaseView
  · exact outside_base (by simpa [hbase] using hm.2) hapart.base hr
  · obtain ⟨b, cb, hb, hba, hdir⟩ := hd.resolve_left hbase
    exact outside_dir (by simpa [hbase] using hm.2)
      (hapart.dirs b cb hb hba d hdir) hr

-- ====== the admin socket

theorem leads_abs (hp : isAbs p = true) : H.leads p = (H.follow p).place := by
  have hne : p ≠ [] := by
    rintro rfl
    cases hp
  rw [Host.leads, Host.full, if_neg hne, if_pos hp]
  rfl

theorem mem_socketRoots {r : Place}
    (hseen : H.rootSeen root = true) (h : H.leads root = some r) :
    47 :: glue r ∈ H.socketRoots root := by
  rw [Host.rootSeen, Bool.and_eq_true] at hseen
  have hroot : root.head? = some 47 := beq_iff_eq.mp hseen.1
  rw [leads_abs hseen.1] at h
  rw [Bool.or_eq_true] at hseen
  rcases hseen.2 with hthere | hdirect
  · cases hw : H.follow root with
    | stuck =>
      rw [hw] at hthere
      cases hthere
    | missing q rest =>
      rw [hw] at hthere
      cases hthere
    | found q =>
      rw [hw] at h
      cases h
      have heval : H.evalSymlinks root = some (47 :: glue r) := by
        rw [evalSymlinks_eq hroot (by rw [hw]; simp), hw]
      rw [Host.socketRoots, heval]
      dsimp only
      split
      · simp
      next heq => simp [not_not.mp heq]
  · rw [Bool.and_eq_true, beq_iff_eq, follow_clean hroot] at hdirect
    have hr : r = [] ++ names root :=
      Tree.walk_direct (fun c hc => (names_name hroot c hc).1) hdirect.2
        (hdirect.1.symm.trans h)
    rw [hr, List.nil_append, ← clean_eq hroot, Host.socketRoots]
    split
    · split <;> simp
    · simp

/-- A name in a directory that is there, and no link, is its own place. -/
theorem place_concat {c : Bytes} {d : Place} (hc : Name c)
    (hdir : H.tree.walk Host.kernelLinks [] cs = .found d)
    (hlink : H.tree.linkAfter Host.kernelLinks cs c = false)
    (h : (H.tree.walk Host.kernelLinks [] (cs ++ [c])).place = some q) :
    q = d ++ [c] := by
  obtain ⟨m, -, hm⟩ := Tree.walk_found_append hdir
  rw [hm, Tree.walk_plain hc.1] at h
  split at h
  · cases h
  split at h
  next =>
    have hup : str ".." ∉ [c] := fun hmem =>
      (plain_iff.mp hc.1).2.2 (List.mem_singleton.mp hmem).symm
    rw [Walk.place, if_neg hup, List.filter_eq_self.mpr (by simp [hc.1])] at h
    exact (Option.some.inj h).symm
  next text hnode =>
    simp only [Tree.linkAfter, hdir, hnode] at hlink
    cases hlink
  next =>
    rw [Tree.walk_eq] at h
    exact (Option.some.inj h).symm

theorem mem_socketPaths {path : Bytes}
    (hseen : H.socketSeen path = true) (h : H.leads path = some q) :
    47 :: glue q ∈ H.socketPaths (clean path) := by
  rw [Host.socketSeen, Bool.and_eq_true, Bool.and_eq_true, beq_iff_eq] at hseen
  obtain ⟨⟨habs, hsame⟩, hlinks⟩ := hseen
  have hroot : path.head? = some 47 := beq_iff_eq.mp habs
  have hnames := names_name hroot
  rw [leads_abs habs, hsame, follow_clean hroot] at h
  have hself : clean path ∈ H.socketPaths (clean path) := by
    unfold Host.socketPaths
    split
    · dsimp only
      split <;> simp
    · simp
  rw [Bool.or_eq_true] at hlinks
  rcases hlinks with hdirect | hlinks
  · have hq : q = [] ++ names path :=
      Tree.walk_direct (fun c hc => (hnames c hc).1) hdirect h
    rw [hq, List.nil_append, ← clean_eq hroot]
    exact hself
  rw [Bool.and_eq_true, Bool.not_eq_true'] at hlinks
  obtain ⟨hthere, hlast⟩ := hlinks
  cases hcs : names path using List.reverseRecOn with
  | nil =>
    rw [hcs, Tree.walk_eq] at h
    cases h
    rw [clean_eq hroot, hcs] at hself
    rw [clean_eq hroot, hcs]
    exact hself
  | append_singleton cs c =>
    rw [hcs] at hnames h
    rw [hcs, List.dropLast_concat] at hthere hlast
    rw [List.getLast?_concat] at hlast
    have hinit : ∀ x ∈ cs, Name x := fun x hx =>
      hnames x (List.mem_append_left _ hx)
    have hc : Name c := hnames c (by simp)
    cases hw : H.tree.walk Host.kernelLinks [] cs with
    | stuck =>
      rw [hw] at hthere
      cases hthere
    | missing d rest =>
      rw [hw] at hthere
      cases hthere
    | found d =>
      have hq : q = d ++ [c] := place_concat hc hw hlast h
      have hfollow : H.follow (47 :: glue cs) = .found d :=
        (follow_text hinit).trans hw
      have heval : H.evalSymlinks (47 :: glue cs) =
          some (47 :: glue d) := by
        rw [evalSymlinks_eq rfl (by rw [hfollow]; simp), hfollow]
      have hd : ∀ x ∈ d, Name x := place_names (by rw [hfollow]; rfl)
      have hjoin : join [47 :: glue d, c] = 47 :: glue (d ++ [c]) :=
        join_text hd (List.forall_mem_singleton.mpr hc)
      rw [clean_eq hroot, hcs, Host.socketPaths, dir_text hinit hc, heval]
      simp only [base_text hc, hjoin, hq]
      split
      · simp
      next heq => simp [not_not.mp heq]

theorem findSome?_getD {α : Type} {f : α → Option Bytes} {xs : List α}
    (hf : ∀ x m, f x = some m → m ≠ []) (h : (xs.findSome? f).getD [] = []) :
    ∀ x ∈ xs, f x = none := by
  cases hx : xs.findSome? f with
  | none => exact List.findSome?_eq_none_iff.mp hx
  | some m =>
    rw [hx] at h
    obtain ⟨x, -, hfx⟩ := List.exists_of_findSome?_eq_some hx
    exact absurd h (hf x m hfx)

theorem silent {path : Bytes} (h : H.adminSocketInView root path = []) :
    ∀ p ∈ H.socketPaths (clean path),
      (∀ r ∈ H.socketRoots (rootOr root), pathWithin p r = false) ∧
        ∀ b ∈ sandboxBaseView, pathWithin p b = false := by
  have hnone := findSome?_getD (fun p m hm => ?_) h
  · intro p hp
    have hboth := hnone p hp
    simp only [Option.or_eq_none_iff, List.findSome?_eq_none_iff] at hboth
    exact ⟨fun r hr => by simpa using hboth.1 r hr,
      fun b hb => by simpa using hboth.2 b hb⟩
  · rcases Option.or_eq_some_iff.mp hm with hm | ⟨-, hm⟩
    · obtain ⟨r, -, hr⟩ := List.exists_of_findSome?_eq_some hm
      split at hr
      · cases hr
        exact List.append_ne_nil_of_right_ne_nil _ (by decide +kernel)
      · cases hr
    · obtain ⟨b, -, hb⟩ := List.exists_of_findSome?_eq_some hm
      split at hb
      · cases hb
        exact List.append_ne_nil_of_right_ne_nil _ (by decide +kernel)
      · cases hb

theorem socket_apart {path d : Bytes} (h : H.adminSocketInView root path = [])
    (hd : d ∈ rootOr root :: sandboxBaseView)
    (hm : H.socketMeasured path d = true) : H.within path d = false := by
  rw [within_eq_false]
  intro q r hq hr hpre
  rw [Host.socketMeasured, Bool.and_eq_true] at hm
  obtain ⟨hroots, hview⟩ := silent h _ (mem_socketPaths hm.1 hq)
  by_cases hbase : d ∈ sandboxBaseView
  · exact outside_base (by simpa [hbase] using hm.2) hview hr hpre
  · obtain rfl := (List.mem_cons.mp hd).resolve_right hbase
    have hroot : H.rootSeen (rootOr root) = true := by simpa [hbase] using hm.2
    have habs : isAbs (rootOr root) = true := by
      rw [Host.rootSeen, Bool.and_eq_true] at hroot
      exact hroot.1
    have hwithin := pathWithin_text
      (place_names ((leads_abs habs).symm.trans hr)) hpre
    rw [hroots _ (mem_socketRoots hroot hr)] at hwithin
    cases hwithin

-- ====== the views

/-- A host with Caddy's directories as packaged. -/
def exampleHost (tree : Tree) : Host where
  tree := tree
  wd := none
  rooted := fun _ h => by cases h
  evalRelative := fun _ => none
  quote := id
  appDataDir := str "/var/lib/motel/.local/share/caddy"
  appConfigDir := str "/var/lib/motel/.config/caddy"
  runtimeDirectory := [str "/run/motel"]

def dirAt (p : String) : Place × Node := (names (str p), .dir)

def linkAt (p text : String) : Place × Node := (names (str p), .link (str text))

/-- A host with merged `/usr`, and a root that is a link. -/
def linkedRoot : Host :=
  exampleHost (.ofEntries [dirAt "/usr", dirAt "/usr/bin",
    linkAt "/bin" "usr/bin", dirAt "/etc", dirAt "/etc/motel", dirAt "/srv",
    dirAt "/mnt", dirAt "/mnt/live", linkAt "/srv/live" "../mnt/live",
    dirAt "/mnt/live/blog", dirAt "/run", dirAt "/run/motel"]
    (by decide +kernel))

def shopAndBlog (shop : String) : Apps :=
  [(str "shop", some ⟨str shop⟩), (str "blog", some ⟨[]⟩)]

end Hotserve.Liveswap.Isolation
