/-
What unpacking an artifact makes, against what it counts.

The count is over texts: `addFrom_counts` says that of each cleaned name
every part is counted once. The write pass makes its entries where these
texts lead. Places at the spots of parts are no more than the parts, so
what is made beyond the count are strays, places no part of a name leads
to (`extract_within_caps`). With no dangling link on an entry's path, what
it makes stands at the spots of its name's parts (`write_makes`), which
later entries leave where they are: there are no strays then. A dangling
link is the way to one: `dangling_link_uncounted`.
-/
import Hotserve.Check
import Hotserve.Liveswap.Extract
import Mathlib.Data.List.Infix
import Mathlib.Data.List.Perm.Subperm

namespace Hotserve.Liveswap.Extract

open Bytes Path Rooted

variable {lib : Lib} {lim : ArchiveLimits}

-- ====== the names

theorem safeRelPath_eq_ok {name target : Bytes}
    (h : safeRelPath name = .ok target) :
    target = clean name ∧ ∃ cs, (∀ c ∈ cs, Name c) ∧ clean name = rel cs := by
  unfold safeRelPath at h
  split at h
  next hdot =>
    cases h
    exact ⟨hdot.symm, [], by simp, hdot⟩
  next hdot =>
    obtain ⟨hlocal, h⟩ := passed h
    cases h
    refine ⟨rfl, ?_⟩
    rw [Bool.not_eq_true', Bool.not_eq_false] at hlocal
    unfold isLocal at hlocal
    split at hlocal
    · cases hlocal
    rename_i hrel
    rw [not_or] at hrel
    refine clean_inside (fun habs => hrel.1 ?_) ?_
    · rw [clean_rooted habs]
      rfl
    · rw [Bool.not_eq_true'] at hlocal
      by_contra hout
      rw [Bool.not_eq_false] at hout
      split at hlocal
      · rw [outside_clean hout] at hlocal
        cases hlocal
      · rw [hout] at hlocal
        cases hlocal

-- ====== the counter

/-- A part of one of the names: so many of its first components. -/
def Part (names : List Bytes) (cs : List Bytes) : Prop :=
  cs ≠ [] ∧ ∃ name ∈ names, cs <+: comps (clean name)

/-- No two parts of the names have one SHA-256. -/
def NoCollision (lib : Lib) (names : List Bytes) : Prop :=
  ∀ x y, Part names x → Part names y →
    lib.sum256 (rel x) = lib.sum256 (rel y) → x = y

/-- With a path, its parents are there. -/
def Closed (paths : List (List Bytes)) : Prop :=
  ∀ cs ∈ paths, ∀ ds, ds <+: cs → ds ≠ [] → ds ∈ paths

def keys (lib : Lib) (paths : List (List Bytes)) : List Bytes :=
  paths.map fun cs => lib.sum256 (rel cs)

variable {cs all : List Bytes} {paths : List (List Bytes)} {a : Archive}
  {es : List Entry} {t t' : Tally} {e : Entry} {destDir : Bytes}
  {w w' : World} {d d' : Dest}

section

variable (hcs : ∀ c ∈ cs, Name c)
include hcs

theorem rel_ne_stop (hne : cs ≠ []) :
    ¬ (rel cs = str "." ∨ rel cs = str "/") := by
  have hcomps := comps_rel hcs
  rintro (hdot | hslash)
  · rw [hdot] at hcomps
    exact hne hcomps.symm
  · rw [hslash, show comps (str "/") = [[], []] by decide] at hcomps
    exact (hcs [] (hcomps ▸ by simp)).ne_nil rfl

/-- A path has no more components than bytes. -/
theorem length_le_rel : cs.length ≤ (rel cs).length := by
  have hglue : cs.length ≤ (glue cs).length := by
    induction cs with
    | nil => simp
    | cons c cs ih =>
      have hc : 0 < c.length := List.length_pos_iff.mpr
        (hcs c (.head _)).ne_nil
      have hrest := ih fun x hx => hcs x (.tail _ hx)
      cases cs with
      | nil => exact hc
      | cons d cs =>
        rw [glue_cons (by simp)]
        simp only [List.length_append, List.length_cons] at hrest ⊢
        omega
  unfold rel
  split
  next hnil => simp [hnil]
  next => exact hglue

/-- A path counted, with those of its parents that were not: `chain` is
what the loop has added below it. -/
theorem addFrom_counts {fuel : Nat} {chain : List (List Bytes)}
    (hfuel : cs.length ≤ fuel) (hup : Closed paths)
    (hlong : ∀ x ∈ chain, cs.length < x.length)
    (hsum : ∀ x ds, x ∈ chain ++ paths ∨ x <+: cs ∧ x ≠ [] →
      ds <+: cs → ds ≠ [] → lib.sum256 (rel x) = lib.sum256 (rel ds) → x = ds) :
    ∃ new, addFrom lib fuel (keys lib (chain ++ paths)) (rel cs) =
        (new.length, keys lib (new ++ (chain ++ paths))) ∧
      (∀ x ∈ new, x <+: cs ∧ x ≠ []) ∧
      ∀ ds, ds <+: cs → ds ≠ [] → ds ∈ new ++ paths := by
  induction cs using List.reverseRecOn generalizing fuel chain with
  | nil =>
    refine ⟨[], ?_, by simp, fun ds hds hne => ?_⟩
    · cases fuel with
      | zero => rfl
      | succ fuel => rfl
    · exact absurd (List.prefix_nil.mp hds) hne
  | append_singleton cs c ih =>
    obtain ⟨fuel, rfl⟩ : ∃ k, fuel = k + 1 := by
      rw [List.length_append, List.length_singleton] at hfuel
      exact ⟨fuel - 1, by omega⟩
    have hpre : cs <+: cs ++ [c] := List.prefix_append cs [c]
    have hcs' : ∀ x ∈ cs, Name x := fun x hx => hcs x (hpre.subset hx)
    rw [addFrom, if_neg (rel_ne_stop hcs (by simp))]
    dsimp only
    split
    next hseen =>
      -- its key is that of a counted path: its own, so its parents are in
      obtain ⟨x, hx, hkey⟩ := List.mem_map.mp hseen
      have heq := hsum x (cs ++ [c]) (.inl hx) List.prefix_rfl (by simp) hkey
      subst heq
      have hin : cs ++ [c] ∈ paths := by
        rcases List.mem_append.mp hx with hx | hx
        · exact absurd (hlong _ hx) (Nat.lt_irrefl _)
        · exact hx
      exact ⟨[], rfl, by simp, fun ds hds hne => hup _ hin ds hds hne⟩
    next hseen =>
      have hlong' : ∀ x ∈ (cs ++ [c]) :: chain, cs.length < x.length := by
        intro x hx
        rcases List.mem_cons.mp hx with rfl | hx
        · simp
        · have := hlong x hx
          rw [List.length_append, List.length_singleton] at this
          omega
      have hsum' : ∀ x ds, x ∈ (cs ++ [c]) :: chain ++ paths ∨
          x <+: cs ∧ x ≠ [] → ds <+: cs → ds ≠ [] →
          lib.sum256 (rel x) = lib.sum256 (rel ds) → x = ds := by
        intro x ds hx hds
        refine hsum x ds ?_ (hds.trans hpre)
        rcases hx with hx | hx
        · rw [List.cons_append, List.mem_cons] at hx
          rcases hx with rfl | hx
          · exact .inr ⟨List.prefix_rfl, by simp⟩
          · exact .inl hx
        · exact .inr ⟨hx.1.trans hpre, hx.2⟩
      have hfuel' : cs.length ≤ fuel := by
        rw [List.length_append, List.length_singleton] at hfuel
        omega
      obtain ⟨new, hrun, hnew, hall⟩ := ih hcs' hfuel' hlong' hsum'
      refine ⟨new ++ [cs ++ [c]], ?_, fun x hx => ?_, fun ds hds hne => ?_⟩
      · rw [dir_rel hcs' (hcs c (by simp))]
        have hkeys : keys lib ((cs ++ [c]) :: chain ++ paths) =
            lib.sum256 (rel (cs ++ [c])) :: keys lib (chain ++ paths) := rfl
        rw [← hkeys, hrun]
        simp
      · rcases List.mem_append.mp hx with hx | hx
        · exact ⟨(hnew x hx).1.trans hpre, (hnew x hx).2⟩
        · rw [List.mem_singleton.mp hx]
          exact ⟨List.prefix_rfl, by simp⟩
      · rcases List.prefix_concat_iff.mp hds with rfl | hds
        · simp
        · rcases List.mem_append.mp (hall ds hds hne) with h | h
          · simp [h]
          · simp [h]

end

-- ====== the walk

variable {σ : Type} {s s' : σ} {fn : Entry → σ → Except Refusal Unit × σ}

/-- The entries `fn` was called for, each of them well, and the tally. -/
inductive Pass (lib : Lib) (lim : ArchiveLimits)
    (fn : Entry → σ → Except Refusal Unit × σ) :
    List Entry → Tally → σ → Tally → σ → Prop
  | nil (t : Tally) (s : σ) : Pass lib lim fn [] t s t s
  | skip {e : Entry} {es : List Entry} {t t' : Tally} {s s' : σ} :
      e.header.typeflag = typeXGlobalHeader →
      Pass lib lim fn es t s t' s' → Pass lib lim fn (e :: es) t s t' s'
  | step {e : Entry} {es : List Entry} {t t₁ t' : Tally} {s s₁ s' : σ} :
      e.header.typeflag ≠ typeXGlobalHeader →
      t.take lib lim e = .ok t₁ → fn e s = (.ok (), s₁) →
      Pass lib lim fn es t₁ s₁ t' s' → Pass lib lim fn (e :: es) t s t' s'

theorem walkEntries_ok {stats : ArchiveStats}
    (h : walkEntries lib lim fn a es t s = (.ok stats, s')) :
    ∃ t', Pass lib lim fn es t s t' s' ∧ 0 < lim.room a.pos ∧
      stats = ⟨t'.entries,
        max (lim.maxBytes.toInt + 1 - lim.room a.pos) t'.declared⟩ := by
  induction es generalizing t s with
  | nil =>
    unfold walkEntries at h
    split at h
    · cases h
    rename_i hroom
    split at h
    · cases h
    · cases h
      exact ⟨t, .nil t _, by omega, rfl⟩
  | cons e es ih =>
    unfold walkEntries at h
    split at h
    · cases h
    split at h
    next hglobal =>
      obtain ⟨t', hpass, hrest⟩ := ih h
      exact ⟨t', .skip hglobal hpass, hrest⟩
    next hglobal =>
      split at h
      · cases h
      rename_i t₁ htake
      split at h
      · split at h
        · cases h
        · cases h
      next u s₁ hfn =>
        obtain ⟨t', hpass, hrest⟩ := ih h
        exact ⟨t', .step hglobal htake hfn hpass, hrest⟩

/-- What `take` passed. -/
theorem take_eq_ok (h : t.take lib lim e = .ok t') :
    0 ≤ e.header.size ∧ t.declared + e.header.size ≤ lim.maxBytes.toInt ∧
      t'.declared = t.declared + e.header.size ∧
      t'.entries = t.entries + (add lib t.seen e.header.name).1 ∧
      t'.seen = (add lib t.seen e.header.name).2 ∧
      t'.entries ≤ lim.maxEntries := by
  unfold Tally.take at h
  dsimp only at h
  obtain ⟨hsize, h⟩ := passed h
  split at h
  · cases h
  split at h
  · cases h
  next hcap =>
    cases h
    exact ⟨by omega, by omega, rfl, rfl, rfl, Int.not_lt.mp hcap⟩

/-- The tally is the archive's, whatever the pass does. -/
theorem Pass.tally_eq {τ : Type} {fn' : Entry → τ → Except Refusal Unit × τ}
    {t₁ t₂ : Tally} {s₁ : σ} {r r₁ : τ} (h : Pass lib lim fn es t s t₁ s₁)
    (h' : Pass lib lim fn' es t r t₂ r₁) : t₁ = t₂ := by
  induction h generalizing r with
  | nil =>
    cases h'
    rfl
  | skip hglobal _ ih =>
    cases h' with
    | skip _ hrest => exact ih hrest
    | step hne _ _ _ => exact absurd hglobal hne
  | step hne htake _ _ ih =>
    cases h' with
    | skip hglobal _ => exact absurd hglobal hne
    | step _ htake' _ hrest =>
      rw [htake] at htake'
      cases htake'
      exact ih hrest

-- ====== what is counted

/-- The names that are counted. -/
def names (es : List Entry) : List Bytes :=
  (es.filter fun e => e.header.typeflag ≠ typeXGlobalHeader).map
    fun e => e.header.name

theorem names_cons (hne : e.header.typeflag ≠ typeXGlobalHeader) :
    names (e :: es) = e.header.name :: names es := by
  simp [names, hne]

theorem names_skip (hglobal : e.header.typeflag = typeXGlobalHeader) :
    names (e :: es) = names es := by
  simp [names, hglobal]

/-- The caps, over a pass; the count's is first looked at with a name. -/
theorem Pass.caps (h : Pass lib lim fn es t s t' s')
    (hd : t.declared ≤ lim.maxBytes.toInt)
    (he : names es = [] → t.entries ≤ lim.maxEntries) :
    t'.declared ≤ lim.maxBytes.toInt ∧ t'.entries ≤ lim.maxEntries := by
  induction h with
  | nil => exact ⟨hd, he rfl⟩
  | skip hglobal _ ih => exact ih hd (names_skip hglobal ▸ he)
  | step _ htake _ _ ih =>
    obtain ⟨-, hle, hdecl, -, -, hcap⟩ := take_eq_ok htake
    exact ih (by omega) fun _ => hcap

/-- The tally has counted these paths, each of them a part of the names. -/
structure Counted (lib : Lib) (all : List Bytes) (t : Tally)
    (paths : List (List Bytes)) : Prop where
  size : t.entries = paths.length
  seen : t.seen = keys lib paths
  closed : Closed paths
  parts : ∀ cs ∈ paths, Part all cs

/-- A name is local, its cleaned form the text of names. -/
def Local (name : Bytes) : Prop :=
  ∃ cs, (∀ c ∈ cs, Name c) ∧ clean name = rel cs

/-- A hash with no collision at all has none among local names. -/
theorem noCollision_of_injective
    (hinj : ∀ x y, lib.sum256 x = lib.sum256 y → x = y)
    (hlocal : ∀ n ∈ all, Local n) : NoCollision lib all := by
  have hname : ∀ x, Part all x → ∀ c ∈ x, Name c := by
    rintro x ⟨-, n, hn, hpre⟩ c hc
    obtain ⟨cs, hcs, hclean⟩ := hlocal n hn
    rw [hclean, comps_rel hcs] at hpre
    exact hcs c (hpre.subset hc)
  intro x y hx hy heq
  rw [← comps_rel (hname x hx), ← comps_rel (hname y hy), hinj _ _ heq]

theorem Counted.take (h : Counted lib all t paths)
    (hsum : NoCollision lib all) (hin : e.header.name ∈ all)
    (hlocal : Local e.header.name) (htake : t.take lib lim e = .ok t') :
    ∃ new, Counted lib all t' (new ++ paths) ∧
      ∀ ds, ds <+: comps (clean e.header.name) → ds ≠ [] →
        ds ∈ new ++ paths := by
  obtain ⟨-, -, -, hentries, hseen, -⟩ := take_eq_ok htake
  obtain ⟨cs, hcs, hclean⟩ := hlocal
  have hcomps : comps (clean e.header.name) = cs := by
    rw [hclean, comps_rel hcs]
  have hpart : ∀ ds, ds <+: cs → ds ≠ [] → Part all ds := fun ds hds hne =>
    ⟨hne, e.header.name, hin, hcomps ▸ hds⟩
  have hinj : ∀ x ds, x ∈ [] ++ paths ∨ x <+: cs ∧ x ≠ [] →
      ds <+: cs → ds ≠ [] →
      lib.sum256 (rel x) = lib.sum256 (rel ds) → x = ds := by
    intro x ds hx hds hne
    refine hsum x ds ?_ (hpart ds hds hne)
    rcases hx with hx | hx
    · exact h.parts x hx
    · exact hpart x hx.1 hx.2
  obtain ⟨new, hadd, hnew, hall⟩ := addFrom_counts hcs (length_le_rel hcs)
    h.closed (by simp) hinj
  have hrun : add lib t.seen e.header.name =
      (new.length, keys lib (new ++ paths)) := by
    rw [add, hclean, h.seen]
    exact hadd
  rw [hrun] at hentries hseen
  rw [hcomps]
  refine ⟨new, ⟨?_, hseen, fun x hx ds hds hne => ?_, fun x hx => ?_⟩, hall⟩
  · rw [hentries, h.size, List.length_append]
    omega
  · rcases List.mem_append.mp hx with hx | hx
    · exact hall ds (hds.trans (hnew x hx).1) hne
    · exact List.mem_append_right _ (h.closed x hx ds hds hne)
  · rcases List.mem_append.mp hx with hx | hx
    · exact hpart x (hnew x hx).1 (hnew x hx).2
    · exact h.parts x hx

/-- A pass over local names counts every part of them. -/
theorem Pass.counted (h : Pass lib lim fn es t s t' s')
    (hsum : NoCollision lib all) (hall : ∀ n ∈ names es, n ∈ all)
    (hlocal : ∀ n ∈ names es, Local n) (hc : Counted lib all t paths) :
    ∃ paths', Counted lib all t' paths' ∧ (∀ cs ∈ paths, cs ∈ paths') ∧
      ∀ cs, Part (names es) cs → cs ∈ paths' := by
  induction h generalizing paths with
  | nil => exact ⟨paths, hc, fun _ h => h, by simp [Part, names]⟩
  | skip hglobal _ ih =>
    rw [names_skip hglobal] at hall hlocal ⊢
    exact ih hall hlocal hc
  | @step e es t t₁ t' s s₁ s' hne htake _ _ ih =>
    rw [names_cons hne] at hall hlocal ⊢
    obtain ⟨new, hc₁, hparts⟩ := hc.take hsum (hall _ (.head _))
      (hlocal _ (.head _)) htake
    obtain ⟨paths', hc', hold, hrest⟩ := ih
      (fun n hn => hall n (.tail _ hn))
      (fun n hn => hlocal n (.tail _ hn)) hc₁
    refine ⟨paths', hc', fun cs hcs => ?_, fun cs hcs => ?_⟩
    · exact hold cs (List.mem_append_right _ hcs)
    · obtain ⟨hnil, name, hname, hpre⟩ := hcs
      rcases List.mem_cons.mp hname with rfl | hname
      · exact hold cs (hparts cs hpre hnil)
      · exact hrest cs ⟨hnil, name, hname, hpre⟩

-- ====== the validate pass

theorem validate_local (h : validate lib destDir lim e = .ok ()) :
    Local e.header.name := by
  unfold validate at h
  dsimp only at h
  split at h
  · cases h
  split at h
  · cases h
  obtain ⟨-, h⟩ := Except.check_eq_ok.mp h
  obtain ⟨target, hname, -⟩ := Except.bind_eq_ok.mp h
  exact (safeRelPath_eq_ok (Except.mapError_eq_ok.mp hname)).2

theorem Pass.validated
    (h : Pass lib lim (fun e s => (validate lib destDir lim e, s))
      es t s t' s') : ∀ n ∈ names es, Local n := by
  induction h with
  | nil => simp [names]
  | skip hglobal _ ih => rwa [names_skip hglobal]
  | step hne _ hfn _ ih =>
    rw [names_cons hne]
    refine List.forall_mem_cons.mpr ⟨?_, ih⟩
    exact validate_local (congrArg Prod.fst hfn)

/-- The validate pass touches nothing, however it ends. -/
theorem validate_untouched :
    (walkEntries lib lim (fun e s => (validate lib destDir lim e, s))
      a es t s).2 = s := by
  induction es generalizing t with
  | nil =>
    unfold walkEntries
    split
    · rfl
    · split
      · rfl
      · rfl
  | cons e es ih =>
    unfold walkEntries
    split
    · rfl
    split
    · exact ih
    split
    · rfl
    split
    next r s' hfn =>
      obtain ⟨-, rfl⟩ := Prod.mk.inj hfn
      split
      · rfl
      · rfl
    next s' hfn =>
      obtain ⟨-, rfl⟩ := Prod.mk.inj hfn
      exact ih

-- ====== the write pass

theorem onRoot_eq_ok {target : Bytes} {d : Option Dest}
    (h : onRoot lib w target d = .ok w') :
    d = some w'.dest ∧ w'.written = w.written := by
  cases d with
  | none => cases h
  | some d =>
    cases h
    exact ⟨rfl, rfl⟩

theorem parent_cases {dir : Bytes} (h : parent lib w dir = .ok w') :
    w'.written = w.written ∧
      (w'.dest = w.dest ∨ w.dest.mkdirAll (comps dir) = some w'.dest) := by
  unfold parent at h
  split at h
  · cases h
    exact ⟨rfl, .inl rfl⟩
  · split at h
    · cases h
    next d hd =>
      cases h
      exact ⟨rfl, .inr hd⟩

theorem read_le {n : Nat} (h : e.read lim = .ok n) :
    n ≤ e.header.size.toNat := by
  unfold Entry.read at h
  obtain ⟨-, h⟩ := passed h
  split at h
  · cases h
  · cases h
    exact e.content_le

/-- The last call of a write, after the directory was ensured. -/
inductive Placed (d : Dest) (cs : List Bytes) (d' : Dest) : Prop
  | file : d.openFile cs = some d' → Placed d cs d'
  | symlink (text : Bytes) : d.symlink text cs = some d' → Placed d cs d'
  | link (old : List Bytes) : d.link old cs = some d' → Placed d cs d'

theorem write_cases (h : write lib lim e w = .ok w') :
    ∃ cs, (∀ c ∈ cs, Name c) ∧ clean e.header.name = rel cs ∧
      w'.written ≤ w.written + e.header.size.toNat ∧
      (parent lib w (rel cs) = .ok w' ∨
        ∃ w₁, parent lib w (dir (rel cs)) = .ok w₁ ∧
          Placed w₁.dest cs w'.dest) := by
  unfold write at h
  obtain ⟨target, hname, h⟩ := Except.bind_eq_ok.mp h
  obtain ⟨rfl, cs, hcs, hclean⟩ :=
    safeRelPath_eq_ok (Except.mapError_eq_ok.mp hname)
  rw [hclean, comps_rel hcs] at h
  refine ⟨cs, hcs, hclean, ?_⟩
  split at h
  · have hpar := Except.mapError_eq_ok.mp h
    exact ⟨by rw [(parent_cases hpar).1]; omega, .inl hpar⟩
  obtain ⟨w₁, hpar, h⟩ := Except.bind_eq_ok.mp h
  replace hpar := Except.mapError_eq_ok.mp hpar
  have hw₁ := (parent_cases hpar).1
  -- the last call, and what it adds to what was written
  suffices hlast : w'.written ≤ w₁.written + e.header.size.toNat ∧
      Placed w₁.dest cs w'.dest from
    ⟨hw₁ ▸ hlast.1, .inr ⟨w₁, hpar, hlast.2⟩⟩
  split at h
  · obtain ⟨w₂, hroot, h⟩ := Except.bind_eq_ok.mp h
    obtain ⟨n, hread, h⟩ := Except.bind_eq_ok.mp h
    obtain ⟨hopen, hw₂⟩ := onRoot_eq_ok (Except.mapError_eq_ok.mp hroot)
    have hn := read_le (Except.mapError_eq_ok.mp hread)
    cases h
    exact ⟨by dsimp only; omega, .file hopen⟩
  split at h
  · obtain ⟨hsym, hw'⟩ := onRoot_eq_ok (Except.mapError_eq_ok.mp h)
    exact ⟨by omega, .symlink _ hsym⟩
  split at h
  · obtain ⟨src, -, h⟩ := Except.bind_eq_ok.mp h
    obtain ⟨hlink, hw'⟩ := onRoot_eq_ok (Except.mapError_eq_ok.mp h)
    exact ⟨by omega, .link _ hlink⟩
  · cases h

theorem Placed.makes (hs : Spelled d.tree cs) (h : Placed d cs d') :
    Makes d d' cs := by
  cases h with
  | file h => exact openFile_makes hs h
  | symlink _ h => exact symlink_makes h
  | link _ h => exact link_makes h

/-- Nothing is placed at the root itself. -/
theorem not_placed_nil : ¬ Placed d [] d' := by
  have hplace : ∀ n, d.place [] n = none := fun _ => rfl
  intro h
  cases h with
  | file h =>
    have hroot : d.tree.node [] ≠ some .file := by
      rw [d.tree.root]
      simp
    exact absurd (h.symm.trans (if_neg hroot)) (by simp)
  | symlink text h =>
    unfold Dest.symlink at h
    rw [hplace, ite_self] at h
    cases h
  | link old h =>
    unfold Dest.link at h
    split at h
    · split at h
      · cases h
      · cases h
      · cases h
    · cases h

/-- The directory of an entry, ensured, and then the entry's path: where it
misses something, that is a component of the path. -/
theorem parent_makes {c : Bytes} (hcs : ∀ x ∈ cs ++ [c], Name x)
    (hd : w.dest.tree.dangles maxSymlinks [] (cs ++ [c]) = false)
    (h : parent lib w (dir (rel (cs ++ [c]))) = .ok w') :
    Makes w.dest w'.dest cs ∧ Spelled w'.dest.tree (cs ++ [c]) := by
  have hinit : ∀ x ∈ cs, Name x := fun x hx =>
    hcs x (List.mem_append_left _ hx)
  have hc : Name c := hcs c (by simp)
  have hspelled := spelled_of_not_dangles (fun x hx => (hcs x hx).1) hd
  rw [dir_rel hinit hc] at h
  obtain ⟨-, hsame | hmk⟩ := parent_cases h
  · rw [hsame]
    exact ⟨Makes.refl _ _, hspelled⟩
  · rw [comps_rel hinit] at hmk
    rcases mkdirAll_cases (fun x hx => (hinit x hx).1)
      (spelled_of_not_dangles (fun x hx => (hinit x hx).1)
        (dangles_part hd)) hmk with hsame | ⟨hmakes, q, hwalk, hbelow⟩
    · rw [hsame]
      exact ⟨Makes.refl _ _, hspelled⟩
    · exact ⟨hmakes, spelled_concat hc.1 hwalk (hbelow c)⟩

/-- One entry written, no dangling link on its path: what it makes stands
where parts of its name lead. -/
theorem write_makes (hd : w.dest.tree.dangles maxSymlinks []
      (comps (clean e.header.name)) = false) (h : write lib lim e w = .ok w') :
    Makes w.dest w'.dest (comps (clean e.header.name)) := by
  obtain ⟨cs, hcs, hclean, -, hcase⟩ := write_cases h
  have hplain : ∀ c ∈ cs, plain c = true := fun c hc => (hcs c hc).1
  rw [hclean, comps_rel hcs] at hd ⊢
  rcases hcase with hpar | ⟨w₁, hpar, hlast⟩
  · obtain ⟨-, hsame | hmk⟩ := parent_cases hpar
    · rw [hsame]
      exact Makes.refl _ _
    · rw [comps_rel hcs] at hmk
      rcases mkdirAll_cases hplain (spelled_of_not_dangles hplain hd) hmk with
        hsame | ⟨hmakes, -⟩
      · rw [hsame]
        exact Makes.refl _ _
      · exact hmakes
  · rcases List.eq_nil_or_concat' cs with rfl | ⟨ds, c, rfl⟩
    · exact absurd hlast not_placed_nil
    · obtain ⟨hmakes, hspelled⟩ := parent_makes hcs hd hpar
      exact hmakes.trans (List.prefix_append ds [c]) (hlast.makes hspelled)

theorem entry_eq_ok (h : entry lib lim e w = (.ok (), w')) :
    write lib lim e w = .ok w' := by
  unfold entry at h
  split at h
  · cases h
  next hw =>
    cases h
    exact hw

/-- No entry of the rest is written, when its turn comes, with a link to
something missing on its path. -/
def straight (lib : Lib) (lim : ArchiveLimits) : List Entry → World → Bool
  | [], _ => true
  | e :: es, w =>
    if e.header.typeflag = typeXGlobalHeader then straight lib lim es w
    else
      match write lib lim e w with
      | .error _ => true
      | .ok w' =>
        !w.dest.tree.dangles maxSymlinks [] (comps (clean e.header.name)) &&
          straight lib lim es w'

/-- Every place made is the spot of a part of the names. -/
def Accounted (all : List Bytes) (d : Dest) : Prop :=
  ∀ p ∈ d.made, ∃ cs, Part all cs ∧ spot d.tree cs = some p

theorem Accounted.makes {name : Bytes} (h : Accounted all d)
    (hin : name ∈ all) (hm : Makes d d' (comps (clean name))) :
    Accounted all d' := by
  intro p hp
  rcases hm.made p hp with hp | ⟨ds, hds, hspot⟩
  · obtain ⟨cs, hpart, hspot⟩ := h p hp
    exact ⟨cs, hpart, spot_sub hm.sub hspot⟩
  · refine ⟨ds, ⟨?_, name, hin, hds⟩, hspot⟩
    rintro rfl
    cases hspot

/-- The write pass, over all the entries: its bytes are declared ones. -/
theorem Pass.written (h : Pass lib lim (entry lib lim) es t w t' w')
    (hle : (w.written : Int) ≤ t.declared) :
    (w'.written : Int) ≤ t'.declared := by
  induction h with
  | nil => exact hle
  | skip _ _ ih => exact ih hle
  | step _ htake hfn _ ih =>
    obtain ⟨hsize, -, hdecl, -⟩ := take_eq_ok htake
    obtain ⟨-, -, -, hwritten, -⟩ := write_cases (entry_eq_ok hfn)
    exact ih (by omega)

theorem Pass.accounted (h : Pass lib lim (entry lib lim) es t w t' w')
    (hs : straight lib lim es w = true) (hall : ∀ n ∈ names es, n ∈ all)
    (hacc : Accounted all w.dest) : Accounted all w'.dest := by
  induction h with
  | nil => exact hacc
  | skip hglobal _ ih =>
    rw [straight, if_pos hglobal] at hs
    rw [names_skip hglobal] at hall
    exact ih hs hall hacc
  | step hne _ hfn _ ih =>
    have hw := entry_eq_ok hfn
    rw [straight, if_neg hne, hw, Bool.and_eq_true, Bool.not_eq_true'] at hs
    rw [names_cons hne] at hall
    exact ih hs.2 (fun n hn => hall n (.tail _ hn))
      (hacc.makes (hall _ (.head _)) (write_makes hs.1 hw))

-- ====== the caps

/-- The places no part of a name leads to. -/
def strays (names : List Bytes) (d : Dest) : List Links.Place :=
  d.made.filter fun p => !names.any fun name =>
    (comps (clean name)).inits.any fun cs => spot d.tree cs == some p

theorem mem_strays {p : Links.Place} (hp : p ∈ d.made) :
    p ∈ strays all d ∨ ∃ cs, Part all cs ∧ spot d.tree cs = some p := by
  by_cases hstray : p ∈ strays all d
  · exact .inl hstray
  right
  rw [strays, List.mem_filter, Bool.not_eq_true', not_and,
    Bool.not_eq_false] at hstray
  obtain ⟨name, hname, hany⟩ := List.any_eq_true.mp (hstray hp)
  obtain ⟨cs, hcs, hspot⟩ := List.any_eq_true.mp hany
  rw [beq_iff_eq] at hspot
  refine ⟨cs, ⟨?_, name, hname, (List.mem_inits _ _).mp hcs⟩, hspot⟩
  rintro rfl
  cases hspot

theorem Accounted.strays_eq_nil (h : Accounted all d) : strays all d = [] := by
  refine List.filter_eq_nil_iff.mpr fun p hp => ?_
  obtain ⟨cs, ⟨-, name, hname, hpre⟩, hspot⟩ := h p hp
  rw [Bool.not_eq_true', Bool.not_eq_false]
  refine List.any_eq_true.mpr ⟨name, hname, List.any_eq_true.mpr ⟨cs, ?_, ?_⟩⟩
  · exact (List.mem_inits _ _).mpr hpre
  · exact beq_iff_eq.mpr hspot

/-- Places at the spots of paths are no more than the paths. -/
theorem made_length_le (hpaths : ∀ cs, Part all cs → cs ∈ paths) :
    d.made.length ≤ paths.length + (strays all d).length := by
  have hsub : d.made ⊆ paths.filterMap (spot d.tree) ++ strays all d := by
    intro p hp
    rcases mem_strays hp with hstray | ⟨cs, hpart, hspot⟩
    · exact List.mem_append_right _ hstray
    · exact List.mem_append_left _
        (List.mem_filterMap.mpr ⟨cs, hpaths cs hpart, hspot⟩)
  have hlen := (List.subperm_of_subset d.nodup hsub).length_le
  rw [List.length_append] at hlen
  exact Nat.le_trans hlen
    (Nat.add_le_add_right (List.length_filterMap_le _ _) _)

/-- A budget that leaves room is not a negative one. -/
theorem maxBytes_nonneg {pos : Nat} (h : 0 < lim.room pos) :
    0 ≤ lim.maxBytes.toInt := by
  have hlo := Int64.le_toInt lim.maxBytes
  have hhi := Int64.toInt_lt lim.maxBytes
  rw [ArchiveLimits.room, Int64.toInt_add,
    show (1 : Int64).toInt = 1 from rfl, Int.bmod_def] at h
  omega

theorem extractArchive_ok {stats : ArchiveStats}
    (h : extractArchive lib destDir lim a w = (.ok stats, w')) :
    validateArchive lib destDir lim a w = (.ok stats, w) ∧
      ∃ stats', walkArchive lib lim (entry lib lim) a w = (.ok stats', w') := by
  have hsame : (validateArchive lib destDir lim a w).2 = w :=
    validate_untouched
  unfold extractArchive at h
  split at h
  · cases h
  rename_i stats' w₁ hvalid
  rw [hvalid] at hsame
  subst hsame
  split at h
  · cases h
  rename_i w₂ hwrite
  cases h
  refine ⟨hvalid, ?_⟩
  unfold writeArchive at hwrite
  split at hwrite
  · cases hwrite
  next stats' w₃ hwalk =>
    obtain ⟨-, rfl⟩ := Prod.mk.inj hwrite
    exact ⟨stats', hwalk⟩

/-- A success reports no more than the caps, and no less than what was
made but for the strays, of which there are none if no entry is written
through a dangling link; a failed validate pass leaves the destination as
it was. -/
theorem extract_within_caps (lib : Lib) (destDir : Bytes)
    (lim : ArchiveLimits) (a : Archive)
    (hmax : names a.entries = [] → 0 ≤ lim.maxEntries)
    (hsum : NoCollision lib (names a.entries)) :
    (∀ stats w, extractArchive lib destDir lim a World.fresh = (.ok stats, w) →
      w.dest.made.length ≤
        stats.entries + (strays (names a.entries) w.dest).length ∧
      (straight lib lim a.entries World.fresh = true →
        strays (names a.entries) w.dest = []) ∧
      stats.entries ≤ lim.maxEntries ∧ w.written ≤ stats.bytes ∧
        stats.bytes ≤ lim.maxBytes.toInt) ∧
    ∀ err w, validateArchive lib destDir lim a World.fresh = (.error err, w) →
      extractArchive lib destDir lim a World.fresh =
        (.error err, World.fresh) := by
  refine ⟨fun stats w h => ?_, fun err w h => ?_⟩
  · obtain ⟨hvalid, stats', hwalk⟩ := extractArchive_ok h
    obtain ⟨t, hpass, hroom, rfl⟩ := walkEntries_ok hvalid
    obtain ⟨t', hwrite, -⟩ := walkEntries_ok hwalk
    cases hpass.tally_eq hwrite
    have hnonneg := maxBytes_nonneg hroom
    obtain ⟨hbytes, hentries⟩ := hpass.caps hnonneg hmax
    have hstart : Counted lib (names a.entries) {} [] :=
      ⟨rfl, rfl, by simp [Closed], by simp⟩
    have hempty : Accounted (names a.entries) World.fresh.dest := by
      simp [Accounted, World.fresh, Dest.empty]
    obtain ⟨paths, hcounted, -, hparts⟩ := hpass.counted hsum
      (fun _ hn => hn) hpass.validated hstart
    have hwritten := hwrite.written (Int.le_refl 0)
    have hmade := made_length_le (d := w.dest) hparts
    have hsize := hcounted.size
    refine ⟨by dsimp only; omega, fun hs => ?_, hentries, by dsimp only; omega,
      by dsimp only; omega⟩
    exact (hwrite.accounted hs (fun _ hn => hn) hempty).strays_eq_nil
  · have hsame : (validateArchive lib destDir lim a World.fresh).2 =
        World.fresh := validate_untouched
    rw [h] at hsame
    subst hsame
    rw [extractArchive, h]

def exampleLib : Lib := ⟨id, id, fun c => [c], fun _ => [], id⟩

/-- The entries of a tar stream from a position on, and where they end: a
block for each header, and its content in whole blocks. -/
def tarEntries : Nat → List Header → List Entry × Nat
  | start, [] => ([], start)
  | start, hdr :: rest =>
    let size := hdr.size.toNat
    let pos := start + 512
    let (es, stop) := tarEntries (pos + (size + 511) / 512 * 512) rest
    (⟨hdr, pos, size, pos + size, none, Nat.le_refl size⟩ :: es, stop)

/-- Two empty blocks are behind the last entry. -/
def tarOf (hdrs : List Header) : Archive :=
  let (es, stop) := tarEntries 0 hdrs
  ⟨es, stop + 1024, none⟩

/-- A directory, a link to it and a file through the link. -/
def linkedArchive : Archive :=
  tarOf [⟨str "a", typeDir, [], 0⟩, ⟨str "l", typeSymlink, str "a", 0⟩,
    ⟨str "l/f", typeReg, [], 5⟩]

theorem extract_within_caps_linked : ∃ stats w,
    extractArchive exampleLib [] ⟨100000, 3⟩ linkedArchive World.fresh =
      (.ok stats, w) ∧ stats = ⟨3, 3072⟩ ∧ w.dest.made.length ≤ stats.entries ∧
      stats.entries ≤ 3 ∧ w.written ≤ stats.bytes ∧ stats.bytes ≤ 100000 := by
  have hvalid : validateArchive exampleLib [] ⟨100000, 3⟩ linkedArchive
      World.fresh = (.ok ⟨3, 3072⟩, World.fresh) := rfl
  obtain ⟨t, hpass, -⟩ := walkEntries_ok hvalid
  have hsum : NoCollision exampleLib (names linkedArchive.entries) :=
    noCollision_of_injective (fun _ _ h => h) hpass.validated
  obtain ⟨hmade, hnone, hcaps⟩ := (extract_within_caps exampleLib []
    ⟨100000, 3⟩ linkedArchive (by decide) hsum).1 _ _ rfl
  rw [hnone (by decide)] at hmade
  exact ⟨_, _, rfl, rfl, hmade, hcaps⟩

/-- A file through a link to nothing: two places are made, and one name is
counted. -/
theorem dangling_link_uncounted : ∃ stats w,
    extractArchive exampleLib [] ⟨100000, 1⟩
      (tarOf [⟨str "l", typeSymlink, str "t", 0⟩, ⟨str "l", typeReg, [], 5⟩])
      World.fresh = (.ok stats, w) ∧ stats = ⟨1, 2560⟩ ∧
      w.dest.made = [[str "t"], [str "l"]] := by
  refine ⟨_, _, rfl, rfl, ?_⟩
  decide

end Hotserve.Liveswap.Extract
