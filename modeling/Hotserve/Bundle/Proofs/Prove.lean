/-
The file and secrets proofs are about the commit.

A bundled tree is filed under the id it hashes to, so with no collision
it is the repository's tree of that id, and its one entry of a name is
the repository's. The walk down the bundled trees is then the walk down
the repository's, and what the layouts admit, within their caps, is
every entry there is.
-/
import Hotserve.Bundle.Repo
import Hotserve.Bundle.Proofs.Commit
import Hotserve.Bundle.Proofs.Tree

namespace Hotserve.Bundle

open Bytes

-- ====== the bundle

/-- What reading a bundle makes sure of. -/
structure Admitted (lib : Lib) (trees : Trees) (blobs : Blobs) : Prop where
  tree : ∀ id t, (id, t) ∈ trees → parseTree lib t.raw = .ok t ∧ t.id = id
  blob : ∀ id data, (id, data) ∈ blobs → objectID lib (str "blob") data = id

variable {lib : Lib} {r r' : Reading} {data shown : Bytes} {names : Names}
  {es : List Entry} {α : Type} {m : List (Bytes × α)} {t : Tree} {e : Entry}
  {absent : Refusal} {dirs : List Bytes}

section

variable (h : Admitted lib r.trees r.blobs)
include h

theorem Admitted.readTree {id : Bytes}
    (hread : readTree lib r id data = .ok r') :
    Admitted lib r'.trees r'.blobs := by
  obtain ⟨-, hread⟩ := passed hread
  split at hread
  · cases hread
  rename_i t hparse
  obtain ⟨hid, ⟨⟩⟩ := passed hread
  refine ⟨fun id' t' hmem => ?_, h.blob⟩
  rcases List.mem_cons.mp hmem with heq | hmem
  · cases heq
    rw [(parseTree_ok hparse).1]
    exact ⟨hparse, not_not.mp hid⟩
  · exact h.tree id' t' hmem

theorem Admitted.readBlob {id : Bytes}
    (hread : readBlob lib r id data = .ok r') :
    Admitted lib r'.trees r'.blobs := by
  obtain ⟨-, hread⟩ := passed hread
  obtain ⟨hid, ⟨⟩⟩ := passed hread
  refine ⟨h.tree, fun id' data' hmem => ?_⟩
  rcases List.mem_cons.mp hmem with heq | hmem
  · cases heq
    exact not_not.mp hid
  · exact h.blob id' data' hmem

/-- The other files leave trees and blobs alone. -/
theorem Admitted.readNamed {name : Bytes}
    (hread : readNamed lib r name data = .ok r') :
    Admitted lib r'.trees r'.blobs := by
  unfold Bundle.readNamed at hread
  split at hread
  · unfold readPath at hread
    split at hread
    · cases hread
    · cases hread
      exact h
  split at hread
  · cases hread
    exact h
  split at hread
  · split at hread
    · cases hread
    · cases hread
      exact h
  split at hread
  · obtain ⟨-, hread⟩ := passed hread
    split at hread
    · cases hread
    · cases hread
      exact h
  split at hread
  · exact h.readTree hread
  split at hread
  · exact h.readBlob hread
  · cases hread
    exact h

theorem Admitted.readFile {f : TarEntry}
    (hread : readFile lib r f = .ok r') : Admitted lib r'.trees r'.blobs := by
  obtain ⟨-, hread⟩ := passed hread
  obtain ⟨-, hread⟩ := passed hread
  split at hread
  · cases hread
  obtain ⟨-, hread⟩ := passed hread
  split at hread
  · cases hread
  · exact Admitted.readNamed (r := { r with seen := f.name :: r.seen }) h hread

end

theorem finishBundle_ok {b : Bundle} (h : finishBundle r = .ok b) :
    b.trees = r.trees ∧ b.blobs = r.blobs := by
  obtain ⟨-, h⟩ := passed h
  obtain ⟨-, h⟩ := passed h
  split at h
  · cases h
  obtain ⟨-, h⟩ := passed h
  split at h
  · cases h
  · cases h
    exact ⟨rfl, rfl⟩

/-- Every object a bundle brings hashes to its own id. -/
theorem readBundle_admitted {stream : Option Stream} {b : Bundle}
    (h : readBundle lib stream = .ok b) : Admitted lib b.trees b.blobs := by
  unfold readBundle at h
  split at h
  · cases h
  split at h
  · cases h
  rename_i r hfiles
  have hr : Admitted lib r.trees r.blobs := by
    refine Except.foldlM_inv (fun _ r => Admitted lib r.trees r.blobs)
      (fun _ _ _ _ hr hf => hr.readFile hf) [] ?_ hfiles
    exact ⟨by simp, by simp⟩
  split at h
  · cases h
  obtain ⟨-, h⟩ := passed h
  obtain ⟨-, h⟩ := passed h
  obtain ⟨htrees, hblobs⟩ := finishBundle_ok h
  rw [htrees, hblobs]
  exact hr

-- ====== the layouts

theorem visitAll_layout (entry : Layout → Entry → Except Refusal Layout) :
    ∀ l : Layout,
      (match (visitAll (fun (s : Layout × Option Refusal) (e : Entry) =>
          match entry s.1 e with
          | .error bad => ((s.1, some bad), false)
          | .ok l => ((l, none), true)) es (l, none)).1 with
        | (_, some bad) => .error bad
        | (l, none) => .ok l) = es.foldlM entry l := by
  induction es with
  | nil => exact fun _ => rfl
  | cons e es ih =>
    intro l
    rw [visitAll, List.foldlM_cons]
    cases entry l e with
    | error bad => rfl
    | ok l' => exact ih l'

/-- A scan through a layout is a fold over the entries. -/
theorem Tree.Parsed.scanLayout {lib : Lib} {t : Tree} {es : List Entry}
    {entry : Layout → Entry → Except Refusal Layout} (h : t.Parsed lib es) :
    scanLayout entry t = es.foldlM entry ⟨0, []⟩ := by
  rw [← visitAll_layout entry ⟨0, []⟩, Bundle.scanLayout,
    scan_of_reads _ _ h.reads]
  generalize (visitAll _ es _).1 = r
  obtain ⟨l, bad⟩ := r
  cases bad <;> rfl

/-- The entry a layout's reference is of. -/
def RefOf (e : Entry) (r : LayoutRef) : Prop := r.name = e.name ∧ r.id = e.id

/-- A secrets layout within its cap has every directory. -/
theorem secretsLayout_refs {w : Where} {l : Layout}
    (hrun : es.foldlM (secretsEntry lib w names) ⟨0, []⟩ = .ok l)
    (hdone : secretsDone l = .ok ()) :
    List.Forall₂ RefOf (es.filter (·.mode == .dir)) l.refs := by
  -- past the cap the count goes on and the references do not
  have hinv := Except.foldlM_inv (fun seen l => l.n ≤ Box.maxSecretApps →
      List.Forall₂ RefOf (seen.filter (·.mode == .dir)) l.refs) ?_ []
    (fun _ => .nil) hrun
  · exact hinv (Nat.not_lt.mp (passed hdone).1)
  · intro seen l e l' hl hentry hn
    rw [List.filter_append]
    unfold secretsEntry at hentry
    dsimp only at hentry
    split at hentry
    · obtain ⟨hregular, ⟨⟩⟩ := passed hentry
      have hfile : (e.mode == .dir) = false := by
        cases hmode : e.mode <;> simp_all [Mode.regular]
      simpa [hfile] using hl hn
    obtain ⟨hdir, hentry⟩ := passed hentry
    have hdir : (e.mode == .dir) = true := by simpa using hdir
    split at hentry
    next hcap =>
      cases hentry
      exact absurd hn (Nat.not_le.mpr hcap)
    · obtain ⟨-, ⟨⟩⟩ := passed hentry
      refine List.rel_append (hl (by simp at hn; omega)) ?_
      simp [hdir, RefOf]

/-- The entry a secret's reference is of. -/
def SecretOf (e : Entry) (r : LayoutRef) : Prop :=
  cutSuffix (str ".age") e.name = some r.name ∧ r.id = e.id

/-- An app layout within its cap has every entry, each of them a
secret. -/
theorem appLayout_refs {w : Where} {app : Bytes} {l : Layout}
    (hrun : es.foldlM (appEntry lib w names) ⟨0, []⟩ = .ok l)
    (hdone : appDone w app l = .ok ()) :
    es.filter Repo.isSecret = es ∧ List.Forall₂ SecretOf es l.refs := by
  have hinv := Except.foldlM_inv (fun seen l => l.n ≤ maxSecretVars →
      (∀ e ∈ seen, Repo.isSecret e) ∧ List.Forall₂ SecretOf seen l.refs) ?_ []
    (fun _ => ⟨by simp, .nil⟩) hrun
  · obtain ⟨hall, hrefs⟩ :=
      hinv (Nat.not_lt.mp (passed hdone).1)
    exact ⟨List.filter_eq_self.mpr hall, hrefs⟩
  · intro seen l e l' hl hentry hn
    obtain ⟨hregular, hentry⟩ := passed hentry
    have hregular : e.mode.regular = true := by simpa using hregular
    split at hentry
    next hcap =>
      cases hentry
      exact absurd hn (Nat.not_le.mpr hcap)
    split at hentry
    · cases hentry
    rename_i v hcut
    obtain ⟨-, hentry⟩ := passed hentry
    obtain ⟨-, ⟨⟩⟩ := passed hentry
    obtain ⟨hall, hrefs⟩ := hl (by simp at hn; omega)
    refine ⟨?_, List.rel_append hrefs ?_⟩
    · intro x hx
      rcases List.mem_append.mp hx with hx | hx
      · exact hall x hx
      · rw [List.mem_singleton.mp hx]
        simp [Repo.isSecret, hregular, hcut]
    · simp [SecretOf, hcut]

/-- What each reference is made into is what the repository makes of its
entry. -/
theorem mapM_of_refs {β ρ : Type} {R : α → ρ → Prop}
    {f : ρ → Except Refusal β} {g : α → Option β} {as : List α} {rs : List ρ}
    {bs : List β} (hrefs : List.Forall₂ R as rs) (hf : rs.mapM f = .ok bs)
    (hstep : ∀ a ∈ as, ∀ r b, R a r → f r = .ok b → g a = some b) :
    as.mapM g = some bs := by
  induction hrefs generalizing bs with
  | nil =>
    cases hf
    rfl
  | @cons a r as rs hr hrefs ih =>
    rw [List.mapM_cons, Except.bind_eq_ok] at hf
    obtain ⟨b, hb, hf⟩ := hf
    rw [Except.bind_eq_ok] at hf
    obtain ⟨bs', hbs', hf⟩ := hf
    cases hf
    have htail := ih hbs' fun a ha => hstep a (.tail _ ha)
    rw [List.mapM_cons, hstep a (.head _) r b hr hb, htail]
    rfl

-- ====== the repository

section

variable {lib : Lib} {repo : Repo lib} {c : Commit} {trees : Trees}
  {blobs : Blobs}

variable {id : Bytes}

theorem lookup_of_mem {a : α} (h : (id, a) ∈ m) : ∃ b, m.lookup id = some b :=
  Option.isSome_iff_exists.mp
    (List.lookup_isSome_iff.mpr ⟨_, h, beq_self_eq_true id⟩)

theorem mem_of_lookup {a : α} (h : m.lookup id = some a) : (id, a) ∈ m := by
  obtain ⟨before, after, heq, -⟩ := List.lookup_eq_some_iff.mp h
  simp [heq]

theorem Repo.get_id {o : Object} (h : repo.get id = some o) :
    o.id lib = id := by
  have hfound := List.find?_some h
  exact eq_of_beq hfound

/-- With no collision, an object of the repository is what its id
finds. -/
theorem Repo.get_of_mem {o : Object} {extra : List Object}
    (hinj : NoCollision lib (repo.objects ++ extra)) (ho : o ∈ repo.objects) :
    repo.get (o.id lib) = some o := by
  obtain ⟨p, hp⟩ : ∃ p, repo.get (o.id lib) = some p :=
    Option.isSome_iff_exists.mp (List.find?_isSome.mpr ⟨o, ho, by simp⟩)
  have hid := Repo.get_id hp
  rw [hp, hinj p (List.mem_append_left _ (List.mem_of_find?_eq_some hp)) o
    (List.mem_append_left _ ho) hid]

/-- The tree of an id, bundled and in the repository. -/
structure Known (repo : Repo lib) (trees : Trees) (id : Bytes) (t : Tree)
    (es : List Entry) : Prop where
  parsed : t.Parsed lib es
  id_eq : t.id = id
  bundled : (id, t) ∈ trees
  tree_eq : repo.tree id = some es
  closed : ∀ e ∈ es, e.mode ≠ .submodule → ∃ o ∈ repo.objects, o.id lib = e.id

theorem bundledTree_ok (h : bundledTree c trees id shown = .ok t) :
    (id, t) ∈ trees ∧ t.id = id := by
  unfold bundledTree at h
  split at h
  · cases h
  next hfind =>
    obtain ⟨hid, ⟨⟩⟩ := passed h
    exact ⟨mem_of_lookup hfind, not_not.mp hid⟩

/-- A tree found in the bundle is the repository's own. -/
theorem bundledTree_known {extra : List Object}
    (hadm : Admitted lib trees blobs)
    (hinj : NoCollision lib (repo.objects ++ (extra ++ carried trees blobs)))
    (hid : ∃ o ∈ repo.objects, o.id lib = id)
    (h : bundledTree c trees id shown = .ok t) :
    ∃ es, Known repo trees id t es := by
  obtain ⟨hmem, hid'⟩ := bundledTree_ok h
  obtain ⟨hparse, -⟩ := hadm.tree id t hmem
  obtain ⟨-, es, hparsed⟩ := parseTree_ok hparse
  obtain ⟨o, ho, rfl⟩ := hid
  -- the repository's object of that id is this tree
  have hobj : o = ⟨.tree, t.raw⟩ := by
    refine hinj o (List.mem_append_left _ ho) _ ?_ ?_
    · refine List.mem_append_right _ (List.mem_append_right _
        (List.mem_append_left _ ?_))
      exact List.mem_map.mpr ⟨_, hmem, rfl⟩
    · rw [← hid', hparsed.id_eq]
      rfl
  have hentries : treeEntries lib t.raw = some es := by
    rw [treeEntries, hparse]
    dsimp only
    rw [hparsed.entries]
    rfl
  refine ⟨es, hparsed, hid', hmem, ?_, ?_⟩
  · rw [Repo.tree, Repo.get_of_mem hinj ho, hobj]
    exact hentries
  · intro e he hmode
    refine repo.closed o ho (by rw [hobj]) e ?_ hmode
    rw [hobj, hentries]
    exact he

theorem bundledTree_of_mem (hadm : Admitted lib trees blobs)
    (h : (id, t) ∈ trees) : ∃ t', bundledTree c trees id shown = .ok t' := by
  obtain ⟨t', ht'⟩ := lookup_of_mem h
  refine ⟨t', ?_⟩
  have hid := (hadm.tree id t' (mem_of_lookup ht')).2
  rw [bundledTree, ht']
  simp [hid]

theorem secretVar_mem {r : LayoutRef} {v : SecretVar}
    (h : secretVar lib c blobs r = .ok v) :
    ∃ data, (r.id, data) ∈ blobs ∧ objectID lib (str "blob") data = r.id ∧
      v = ⟨r.name, r.id, data⟩ := by
  simp only [secretVar] at h
  split at h
  · cases h
  next data hfind =>
    obtain ⟨hid, h⟩ := passed h
    obtain ⟨-, ⟨⟩⟩ := passed h
    exact ⟨data, mem_of_lookup hfind, not_not.mp hid, rfl⟩

/-- A bundled blob is the repository's of that id. -/
theorem secretVar_ok {r : LayoutRef} {v : SecretVar} {extra : List Object}
    (hinj : NoCollision lib (repo.objects ++ (extra ++ carried trees blobs)))
    (he : ∃ o ∈ repo.objects, o.id lib = e.id) (hr : SecretOf e r)
    (h : secretVar lib c blobs r = .ok v) : repo.secret e = some v := by
  obtain ⟨data, hmem, hid, rfl⟩ := secretVar_mem h
  obtain ⟨o, ho, hoid⟩ := he
  have hobj : o = ⟨.blob, data⟩ := by
    refine hinj o (List.mem_append_left _ ho) _ ?_
      (hoid.trans (hr.2.symm.trans hid.symm))
    refine List.mem_append_right _ (List.mem_append_right _
      (List.mem_append_right _ ?_))
    exact List.mem_map.mpr ⟨_, hmem, rfl⟩
  have hblob : repo.blob e.id = some data := by
    rw [Repo.blob, ← hoid, Repo.get_of_mem hinj ho, hobj]
  rw [Repo.secret, hr.1, hblob, hr.2]
  rfl

-- ====== the walk

theorem Known.entries_eq {es' : List Entry} (h : Known repo trees id t es)
    (htree : repo.tree id = some es') : es' = es :=
  Option.some.inj (htree.symm.trans h.tree_eq)

/-- A name's entry is the repository's only one. -/
theorem Known.entry_unique {es' : List Entry} {e' : Entry}
    (h : Known repo trees id t es) (htree : repo.tree id = some es')
    (he : e ∈ es) (he' : e' ∈ es') (hname : e'.name = e.name) : e' = e := by
  obtain rfl := h.entries_eq htree
  exact List.inj_on_of_nodup_map h.parsed.nodup he' he hname

/-- What the lookup finds is an entry of that name. -/
theorem Known.entry_some {name : Bytes} (h : Known repo trees id t es)
    (hentry : t.entry name = .ok (some e)) : e ∈ es ∧ e.name = name := by
  rw [h.parsed.entry] at hentry
  have hfind := Except.ok.inj hentry
  exact ⟨List.mem_of_find?_eq_some hfind, by simpa using List.find?_some hfind⟩

theorem HoldsWay.down {t : Tree} {es : List Entry} {e : Entry}
    {names : List Bytes} (h : Known repo trees id t es) (he : e ∈ es)
    (hdir : e.mode = .dir) : HoldsWay repo trees id (e.name :: names) ↔
      HoldsWay repo trees e.id names := by
  constructor
  · intro hway way id' hpre hat
    exact hway (e.name :: way) id' (List.cons_prefix_cons.mpr ⟨rfl, hpre⟩)
      (.down h.tree_eq he hdir hat)
  · intro hway way id' hpre hat
    cases hat with
    | here => exact ⟨t, h.bundled⟩
    | down htree hmem _ hmore =>
      obtain ⟨hname, hpre⟩ := List.cons_prefix_cons.mp hpre
      rw [h.entry_unique htree he hmem hname] at hmore
      exact hway _ id' hpre hmore

variable {extra : List Object} (hadm : Admitted lib trees blobs)
  (hinj : NoCollision lib (repo.objects ++ (extra ++ carried trees blobs)))

include hadm hinj

/-- A walk that arrives is the repository's, through bundled trees. -/
theorem walkFrom_ok {t' : Tree} (hk : Known repo trees id t es)
    (h : walkFrom c trees shown absent t dirs = .ok t') :
    HoldsWay repo trees id dirs ∧
      ∃ id' es', repo.Dir id dirs id' ∧ Known repo trees id' t' es' := by
  induction dirs generalizing id t es with
  | nil =>
    cases h
    refine ⟨fun way id' hpre hat => ?_, id, es, .here, hk⟩
    rw [List.prefix_nil.mp hpre] at hat
    cases hat
    exact ⟨_, hk.bundled⟩
  | cons name dirs ih =>
    rw [walkFrom] at h
    split at h
    · cases h
    · cases h
    rename_i e hentry
    obtain ⟨he, rfl⟩ := hk.entry_some hentry
    obtain ⟨hdir, h⟩ := passed h
    have hdir := not_not.mp hdir
    split at h
    · cases h
    rename_i t₁ hbundled
    obtain ⟨es₁, hk₁⟩ := bundledTree_known hadm hinj
      (hk.closed e he (by rw [hdir]; decide)) hbundled
    obtain ⟨hway, id', es', hat, hk'⟩ := ih hk₁ h
    exact ⟨(HoldsWay.down hk he hdir).mpr hway, id', es',
      .down hk.tree_eq he hdir hat, hk'⟩

/-- The walk arrives where the repository's does, if the way is
bundled. -/
theorem walkFrom_of_dir {id' : Bytes} (hk : Known repo trees id t es)
    (hat : repo.Dir id dirs id') (hway : HoldsWay repo trees id dirs) :
    ∃ t' es', walkFrom c trees shown absent t dirs = .ok t' ∧
      Known repo trees id' t' es' := by
  induction hat generalizing t es with
  | here => exact ⟨t, es, rfl, hk⟩
  | @down id last es₀ e names htree hmem hdir hmore ih =>
    obtain rfl := hk.entries_eq htree
    have hway' := (HoldsWay.down hk hmem hdir).mp hway
    obtain ⟨t₀, ht₀⟩ := hway' [] e.id List.nil_prefix .here
    obtain ⟨t₁, hbundled⟩ : ∃ t, bundledTree c trees e.id shown = .ok t :=
      bundledTree_of_mem hadm ht₀
    obtain ⟨es₁, hk₁⟩ := bundledTree_known hadm hinj
      (hk.closed e hmem (by rw [hdir]; decide)) hbundled
    obtain ⟨t', es', hwalk, hk'⟩ := ih hk₁ hway'
    refine ⟨t', es', ?_, hk'⟩
    rw [walkFrom, hk.parsed.entry_of_mem hmem]
    simp only [hdir, ne_eq, not_true_eq_false, ↓reduceIte, hbundled]
    exact hwalk

/-- A walk ends at the directory the repository has there. -/
theorem walkTree_ok (hc : repo.HasCommit c)
    (h : walkTree c trees dirs shown absent = .ok t) :
    HoldsWay repo trees c.tree dirs ∧
      ∃ id es, repo.Dir c.tree dirs id ∧ Known repo trees id t es := by
  unfold walkTree at h
  split at h
  · cases h
  next t₀ hroot =>
    obtain ⟨es₀, hk₀⟩ := bundledTree_known hadm hinj hc hroot
    exact walkFrom_ok hadm hinj hk₀ h

/-- It gets there if the bundle holds the way. -/
theorem walkTree_of_dir (hc : repo.HasCommit c)
    (hat : repo.Dir c.tree dirs id) (hway : HoldsWay repo trees c.tree dirs) :
    ∃ t es, walkTree c trees dirs shown absent = .ok t ∧
      Known repo trees id t es := by
  obtain ⟨t₀, ht₀⟩ := hway [] c.tree List.nil_prefix .here
  obtain ⟨t₁, hroot⟩ : ∃ t, bundledTree c trees c.tree shown = .ok t :=
    bundledTree_of_mem hadm ht₀
  obtain ⟨es₁, hk₁⟩ := bundledTree_known hadm hinj hc hroot
  rw [walkTree, hroot]
  exact walkFrom_of_dir hadm hinj hk₁ hat hway

/-- `ProveFile` passes just when the way is bundled and the commit has
the file. -/
theorem proveFile_iff {path file : Bytes} {parts : List Bytes}
    (hc : repo.HasCommit c) (hfile : ⟨.blob, file⟩ ∈ extra)
    (hpath : splitPath path = .ok parts) :
    proveFile lib c trees path file = .ok () ↔
      HoldsWay repo trees c.tree parts.dropLast ∧
        repo.File c.tree parts.dropLast (parts.getLastD []) file := by
  have hin : (⟨.blob, file⟩ : Object) ∈
      repo.objects ++ (extra ++ carried trees blobs) :=
    List.mem_append_right _ (List.mem_append_left _ hfile)
  rw [proveFile, hpath]
  dsimp only
  constructor
  · intro h
    split at h
    · cases h
    rename_i t hwalk
    obtain ⟨hway, id, es, hat, hk⟩ := walkTree_ok hadm hinj hc hwalk
    refine ⟨hway, ?_⟩
    split at h
    · cases h
    · cases h
    rename_i e hentry
    obtain ⟨he, hname⟩ := hk.entry_some hentry
    obtain ⟨hregular, h⟩ := passed h
    obtain ⟨hid, -⟩ := passed h
    have hregular : e.mode.regular = true := by simpa using hregular
    have hid : objectID lib (str "blob") file = e.id := not_not.mp hid
    have hmode : e.mode ≠ .submodule := by
      intro heq
      rw [heq] at hregular
      cases hregular
    obtain ⟨o, ho, hoid⟩ := hk.closed e he hmode
    have hobj : o = ⟨.blob, file⟩ :=
      hinj o (List.mem_append_left _ ho) _ hin (hoid.trans hid.symm)
    refine ⟨id, es, e, hat, hk.tree_eq, he, hname, hregular, ?_⟩
    rw [Repo.blob, ← hoid, Repo.get_of_mem hinj ho, hobj]
  · rintro ⟨hway, id, es, e, hat, htree, he, hname, hregular, hblob⟩
    obtain ⟨t, es', hwalk, hk⟩ := walkTree_of_dir hadm hinj hc hat hway
    obtain rfl := hk.entries_eq htree
    have hid : objectID lib (str "blob") file = e.id := by
      unfold Repo.blob at hblob
      split at hblob
      next raw hget =>
        cases hblob
        exact Repo.get_id hget
      · cases hblob
    rw [hwalk]
    dsimp only
    rw [← hname, hk.parsed.entry_of_mem he]
    simp [hregular, hid]

-- ====== the secrets

/-- An app's secrets that are proven are the repository's. -/
theorem proveSecretApp_ok {app : SecretApp}
    (he : ∃ o ∈ repo.objects, o.id lib = e.id)
    (h : proveSecretApp lib c trees blobs e.name e.id shown names = .ok app) :
    repo.secretApp e = some app := by
  unfold proveSecretApp at h
  simp only [Except.bind_eq_ok] at h
  obtain ⟨t, hbundled, l, hscan, ⟨⟩, hdone, vars, hvars, hret⟩ := h
  cases hret
  obtain ⟨es, hk⟩ := bundledTree_known hadm hinj he hbundled
  rw [hk.parsed.scanLayout] at hscan
  obtain ⟨hall, hrefs⟩ := appLayout_refs hscan hdone
  have hmap : es.mapM repo.secret = some vars := by
    refine mapM_of_refs hrefs hvars fun x hx r v hr hv => ?_
    refine secretVar_ok hinj (hk.closed x hx ?_) hr hv
    have hsecret : Repo.isSecret x := List.filter_eq_self.mp hall x hx
    rintro heq
    simp [Repo.isSecret, heq, Mode.regular] at hsecret
  rw [Repo.secretApp, hk.tree_eq]
  simp only [Option.bind_eq_bind, Option.bind_some, hall, hmap]
  rfl

theorem proveSecretsAt_ok {s : Secrets}
    (he : e.mode ≠ .submodule → ∃ o ∈ repo.objects, o.id lib = e.id)
    (h : proveSecretsAt lib c trees blobs shown e names = .ok s) :
    e.mode = .dir ∧ s.tree = e.id ∧ repo.secretApps e.id = some s.apps := by
  unfold proveSecretsAt at h
  simp only [Except.bind_eq_ok] at h
  obtain ⟨⟨⟩, hdir, t, hbundled, l, hscan, ⟨⟩, hdone, apps, happs, hret⟩ := h
  cases hret
  have hmode : e.mode = .dir := not_not.mp (passed hdir).1
  obtain ⟨es, hk⟩ := bundledTree_known hadm hinj
    (he (by rw [hmode]; decide)) hbundled
  rw [hk.parsed.scanLayout] at hscan
  have hrefs := secretsLayout_refs hscan hdone
  refine ⟨hmode, hk.id_eq, ?_⟩
  rw [Repo.secretApps, hk.tree_eq]
  refine mapM_of_refs hrefs happs fun x hx r app hr happ => ?_
  obtain ⟨hx, hxdir⟩ := List.mem_filter.mp hx
  rw [hr.1, hr.2] at happ
  refine proveSecretApp_ok hadm hinj (hk.closed x hx ?_) happ
  rw [eq_of_beq hxdir]
  decide

/-- What `ProveSecrets` lists is what the commit holds beside the
file. -/
theorem proveSecrets_ok {path : Bytes} {parts : List Bytes} {s : Secrets}
    (hc : repo.HasCommit c) (hpath : splitPath path = .ok parts)
    (h : proveSecrets lib c trees blobs path names = .ok s) :
    repo.SecretsBeside c.tree parts.dropLast s := by
  unfold proveSecrets at h
  simp only [hpath, Except.bind_eq_ok] at h
  obtain ⟨_, hparts, t, hwalk, found, hentry, h⟩ := h
  cases hparts
  obtain ⟨-, id, es, hat, hk⟩ := walkTree_ok hadm hinj hc hwalk
  refine ⟨id, es, hat, hk.tree_eq, ?_⟩
  cases found with
  | none =>
    cases h
    rw [hk.parsed.entry] at hentry
    refine .inl ⟨fun e he hname => ?_, rfl⟩
    have := List.find?_eq_none.mp (Except.ok.inj hentry) e he
    simp [hname] at this
  | some e =>
    obtain ⟨he, hname⟩ := hk.entry_some hentry
    obtain ⟨hmode, htree, happs⟩ := proveSecretsAt_ok hadm hinj
      (hk.closed e he) h
    exact .inr ⟨e, he, hname, hmode, htree, happs⟩

end

/-- Both proofs are about the commit: the file's passes just when the
commit has those bytes at that path and the way there is bundled, and
the secrets' lists all that the commit holds beside it. -/
theorem proofs_exact {lib : Lib} (repo : Repo lib) {stream : Option Stream}
    {b : Bundle} {c : Commit} {path file : Bytes} {parts : List Bytes}
    (names : Names) (hread : readBundle lib stream = .ok b)
    (hc : repo.HasCommit c) (hpath : splitPath path = .ok parts)
    (hinj : NoCollision lib
      (repo.objects ++ ⟨.blob, file⟩ :: carried b.trees b.blobs)) :
    (proveFile lib c b.trees path file = .ok () ↔
        HoldsWay repo b.trees c.tree parts.dropLast ∧
          repo.File c.tree parts.dropLast (parts.getLastD []) file) ∧
      ∀ s, proveSecrets lib c b.trees b.blobs path names = .ok s →
        repo.SecretsBeside c.tree parts.dropLast s := by
  have hadm := readBundle_admitted hread
  have hinj : NoCollision lib (repo.objects ++
      ([⟨.blob, file⟩] ++ carried b.trees b.blobs)) := hinj
  exact ⟨proveFile_iff hadm hinj hc (.head _) hpath,
    fun _ => proveSecrets_ok hadm hinj hc hpath⟩

-- ====== an example

/-- An entry of a tree's bytes. -/
def entryBytes (head id : String) : Bytes :=
  str head ++ 0 :: bytesOfHex (str id)

def exampleFile : Object := ⟨.blob, str "a.example"⟩

def exampleSecret : Object := ⟨.blob, str "age"⟩

def exampleApp : Object := ⟨.tree,
  entryBytes "100644 KEY.age" "41a3b6da3f3b00f906a807f557c9cceff28f7a3a"⟩

def exampleSecretsDir : Object := ⟨.tree,
  entryBytes "40000 web" "0c6f7bb3a7942c49f031489639c4b287eb1a739c"⟩

def exampleRoot : Object := ⟨.tree,
  entryBytes "100644 Caddyfile" "72a4c77d35393944a29abdb64cbdc11bc86d3c7b" ++
    entryBytes "40000 secrets" "e8bf692a41978ab7ab5dae48b5f3d4fb2dabf5b3"⟩

def exampleHead : Bytes :=
  str "tree e2f7624b95d393e15cb4fb2714623d9e8eb8bdb8\n\nfirst\n"

/-- The ids git gives them. -/
def exampleLib : Lib := tableLib <|
  [(exampleFile, "72a4c77d35393944a29abdb64cbdc11bc86d3c7b"),
    (exampleSecret, "41a3b6da3f3b00f906a807f557c9cceff28f7a3a"),
    (exampleApp, "0c6f7bb3a7942c49f031489639c4b287eb1a739c"),
    (exampleSecretsDir, "e8bf692a41978ab7ab5dae48b5f3d4fb2dabf5b3"),
    (exampleRoot, "e2f7624b95d393e15cb4fb2714623d9e8eb8bdb8"),
    (⟨.commit, exampleHead⟩, "3fc449481e50e3ac6b18c0410cce91703040a2c7")].map
      fun p => (objectText p.1.kind.text p.1.raw, p.2)

def exampleRepo : Repo exampleLib where
  objects := [exampleRoot, exampleFile, exampleSecretsDir, exampleApp,
    exampleSecret]
  closed := by decide +kernel

/-- A bundle of it: every tree, and the secret's blob. -/
def exampleBundle : Bundle where
  path := str "Caddyfile"
  caddyfile := exampleFile.raw
  commit :=
    { raw := exampleHead
      id := objectID exampleLib (str "commit") exampleHead
      tree := exampleRoot.id exampleLib
      parents := []
      kind := .unsigned
      signature := []
      payload := exampleHead }
  parents := []
  trees := [exampleApp, exampleSecretsDir, exampleRoot].map fun o =>
    (o.id exampleLib, ⟨o.raw, o.id exampleLib⟩)
  blobs := [(exampleSecret.id exampleLib, exampleSecret.raw)]

/-- A regular file of an archive. -/
def tarFile (name data : Bytes) : TarEntry :=
  ⟨true, name, data.length, .ok data⟩

def exampleStream : Stream where
  files := [tarFile (str "path") (str "Caddyfile\n"),
      tarFile (str "Caddyfile") exampleFile.raw,
      tarFile (str "commit") exampleHead] ++
    ([exampleRoot, exampleSecretsDir, exampleApp].map fun o =>
      tarFile (str "trees/" ++ o.id exampleLib) o.raw) ++
    [tarFile (str "blobs/" ++ exampleSecret.id exampleLib) exampleSecret.raw]
  next := none
  drained := true
  full := false

/-- What the commit is proven to hold. -/
theorem proofs_exact_example :
    readBundle exampleLib (some exampleStream) = .ok exampleBundle ∧
      exampleRepo.File exampleBundle.commit.tree [] (str "Caddyfile")
        exampleFile.raw ∧ exampleRepo.SecretsBeside exampleBundle.commit.tree []
        ⟨exampleSecretsDir.id exampleLib, [⟨str "web",
          [⟨str "KEY", exampleSecret.id exampleLib, str "age"⟩]⟩]⟩ := by
  have hread : readBundle exampleLib (some exampleStream) =
      .ok exampleBundle := by decide +kernel
  have hpath : splitPath (str "Caddyfile") = .ok [str "Caddyfile"] := by
    decide +kernel
  have hinj : NoCollision exampleLib (exampleRepo.objects ++ exampleFile ::
      carried exampleBundle.trees exampleBundle.blobs) := by
    unfold NoCollision
    decide +kernel
  have hc : exampleRepo.HasCommit exampleBundle.commit :=
    ⟨exampleRoot, .head _, rfl⟩
  obtain ⟨hfile, hsecrets⟩ := proofs_exact exampleRepo
    ⟨Box.appName, Box.validEnvKey⟩ hread hc hpath hinj
  refine ⟨hread, (hfile.mp ?_).2, hsecrets _ ?_⟩
  · decide +kernel
  · decide +kernel

end Hotserve.Bundle
