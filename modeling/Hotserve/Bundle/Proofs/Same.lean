/-
Two bundles of one secrets tree prove the same secrets.

A bundled tree or blob is found by its id and hashes to it, so with no
collision among what the two bundles carry each id finds the same bytes
in both. What `ProveSecrets` makes of a tree is a function of those
bytes, the texts of its refusals apart.
-/
import Hotserve.Bundle.Proofs.Prove

namespace Hotserve.Bundle

open Bytes

/-- Where two functions agree whenever both succeed, so do their maps. -/
theorem mapM_agree {ε α β : Type} {f g : α → Except ε β}
    (hfg : ∀ a x y, f a = .ok x → g a = .ok y → x = y) :
    ∀ {l : List α} {xs ys : List β}, l.mapM f = .ok xs →
      l.mapM g = .ok ys → xs = ys := by
  intro l
  induction l with
  | nil =>
    intro xs ys hf hg
    cases hf
    cases hg
    rfl
  | cons a l ih =>
    intro xs ys hf hg
    rw [List.mapM_cons, Except.bind_eq_ok] at hf hg
    obtain ⟨x, hx, hf⟩ := hf
    obtain ⟨y, hy, hg⟩ := hg
    rw [Except.bind_eq_ok] at hf hg
    obtain ⟨xs, hxs, hf⟩ := hf
    obtain ⟨ys, hys, hg⟩ := hg
    cases hf
    cases hg
    rw [hfg a x y hx hy, ih hxs hys]

variable {c : Commit} {trees : Trees} {id shown : Bytes} {lib : Lib}
  {blobs : Blobs} {s : Secrets}

/-- A secrets directory's tree is filed under an id, which is not empty. -/
theorem objectID_ne_nil {kind raw : Bytes} : objectID lib kind raw ≠ [] := by
  intro h
  have hlen := congrArg List.length h
  have hsha := lib.sha1_length (objectText kind raw)
  rw [objectID, hexEncode, List.length_flatMap] at hlen
  simp [hsha] at hlen

/-- A commit with no secrets, or the entry its secrets are at. -/
theorem proveSecrets_cases {path : Bytes} {names : Names}
    (h : proveSecrets lib c trees blobs path names = .ok s) :
    s = ⟨[], []⟩ ∨ ∃ parts e, splitPath path = .ok parts ∧
      proveSecretsAt lib c trees blobs
        (lib.bound (Path.glue (parts.dropLast ++ [str "secrets"]))) e names =
          .ok s := by
  obtain ⟨parts, hparts, h⟩ := Except.bind_eq_ok.mp h
  obtain ⟨dt, -, h⟩ := Except.bind_eq_ok.mp h
  obtain ⟨found, -, h⟩ := Except.bind_eq_ok.mp h
  cases found with
  | none =>
    cases h
    exact .inl rfl
  | some e => exact .inr ⟨parts, e, hparts, h⟩

/-- Secrets there are have a tree. -/
theorem proveSecretsAt_tree {shownDir : Bytes} {e : Entry} {names : Names}
    (hadm : Admitted lib trees blobs)
    (h : proveSecretsAt lib c trees blobs shownDir e names = .ok s) :
    s.tree ≠ [] := by
  obtain ⟨-, h⟩ := Except.check_eq_ok.mp h
  obtain ⟨t, ht, h⟩ := Except.bind_eq_ok.mp h
  obtain ⟨layout, -, h⟩ := Except.bind_eq_ok.mp h
  obtain ⟨-, h⟩ := Except.check_eq_ok.mp h
  obtain ⟨apps, -, h⟩ := Except.bind_eq_ok.mp h
  cases h
  obtain ⟨hparse, -⟩ := hadm.tree _ t (bundledTree_ok ht).1
  obtain ⟨-, es, hes⟩ := parseTree_ok hparse
  change t.id ≠ []
  rw [hes.id_eq]
  exact objectID_ne_nil

section Two

variable {lib : Lib} {c c' : Commit} {trees trees' : Trees}
  {blobs blobs' : Blobs} {names : Names}

/-- What is bundled twice under one id. -/
structure Twice (lib : Lib) (trees trees' : Trees) (blobs blobs' : Blobs) :
    Prop where
  admitted : Admitted lib trees blobs
  admitted' : Admitted lib trees' blobs'
  distinct : NoCollision lib (carried trees blobs ++ carried trees' blobs')

variable (htwice : Twice lib trees trees' blobs blobs')

include htwice

theorem bundledTree_same {shown' : Bytes} {t t' : Tree}
    (h : bundledTree c trees id shown = .ok t)
    (h' : bundledTree c' trees' id shown' = .ok t') : t = t' := by
  obtain ⟨hmem, -⟩ := bundledTree_ok h
  obtain ⟨hmem', -⟩ := bundledTree_ok h'
  obtain ⟨hparse, hid⟩ := htwice.admitted.tree id t hmem
  obtain ⟨hparse', hid'⟩ := htwice.admitted'.tree id t' hmem'
  obtain ⟨-, es, hes⟩ := parseTree_ok hparse
  obtain ⟨-, es', hes'⟩ := parseTree_ok hparse'
  have hobj : (⟨.tree, t.raw⟩ : Object) = ⟨.tree, t'.raw⟩ := by
    refine htwice.distinct _ ?_ _ ?_ ?_
    · exact List.mem_append_left _ (List.mem_append_left _
        (List.mem_map.mpr ⟨(id, t), hmem, rfl⟩))
    · exact List.mem_append_right _ (List.mem_append_left _
        (List.mem_map.mpr ⟨(id, t'), hmem', rfl⟩))
    · exact (hes.id_eq.symm.trans hid).trans (hid'.symm.trans hes'.id_eq)
  have hraw : t.raw = t'.raw := congrArg Object.raw hobj
  rw [hraw, hparse'] at hparse
  exact (Except.ok.inj hparse).symm

theorem secretVar_same {r : LayoutRef} {v v' : SecretVar}
    (h : secretVar lib c blobs r = .ok v)
    (h' : secretVar lib c' blobs' r = .ok v') : v = v' := by
  obtain ⟨data, hmem, -, rfl⟩ := secretVar_mem h
  obtain ⟨data', hmem', -, rfl⟩ := secretVar_mem h'
  have hobj : (⟨.blob, data⟩ : Object) = ⟨.blob, data'⟩ := by
    refine htwice.distinct _ ?_ _ ?_ ?_
    · exact List.mem_append_left _ (List.mem_append_right _
        (List.mem_map.mpr ⟨(r.id, data), hmem, rfl⟩))
    · exact List.mem_append_right _ (List.mem_append_right _
        (List.mem_map.mpr ⟨(r.id, data'), hmem', rfl⟩))
    · exact (htwice.admitted.blob _ _ hmem).trans
        (htwice.admitted'.blob _ _ hmem').symm
  cases hobj
  rfl

theorem proveSecretApp_same {name : Bytes} {a a' : SecretApp}
    (hid : c.id = c'.id)
    (h : proveSecretApp lib c trees blobs name id shown names = .ok a)
    (h' : proveSecretApp lib c' trees' blobs' name id shown names = .ok a') :
    a = a' := by
  obtain ⟨t, ht, h⟩ := Except.bind_eq_ok.mp h
  obtain ⟨t', ht', h'⟩ := Except.bind_eq_ok.mp h'
  cases bundledTree_same htwice ht ht'
  obtain ⟨layout, hlayout, h⟩ := Except.bind_eq_ok.mp h
  obtain ⟨layout', hlayout', h'⟩ := Except.bind_eq_ok.mp h'
  rw [hid, hlayout'] at hlayout
  cases hlayout
  obtain ⟨-, h⟩ := Except.check_eq_ok.mp h
  obtain ⟨-, h'⟩ := Except.check_eq_ok.mp h'
  obtain ⟨vars, hvars, h⟩ := Except.bind_eq_ok.mp h
  obtain ⟨vars', hvars', h'⟩ := Except.bind_eq_ok.mp h'
  cases h
  cases h'
  rw [mapM_agree (fun _ _ _ => secretVar_same htwice) hvars hvars']

theorem proveSecretsAt_same {shownDir : Bytes} {e e' : Entry} {s' : Secrets}
    (hid : c.id = c'.id) (htree : s.tree = s'.tree)
    (h : proveSecretsAt lib c trees blobs shownDir e names = .ok s)
    (h' : proveSecretsAt lib c' trees' blobs' shownDir e' names = .ok s') :
    s.apps = s'.apps := by
  obtain ⟨-, h⟩ := Except.check_eq_ok.mp h
  obtain ⟨-, h'⟩ := Except.check_eq_ok.mp h'
  obtain ⟨t, ht, h⟩ := Except.bind_eq_ok.mp h
  obtain ⟨t', ht', h'⟩ := Except.bind_eq_ok.mp h'
  obtain ⟨layout, hlayout, h⟩ := Except.bind_eq_ok.mp h
  obtain ⟨layout', hlayout', h'⟩ := Except.bind_eq_ok.mp h'
  obtain ⟨-, h⟩ := Except.check_eq_ok.mp h
  obtain ⟨-, h'⟩ := Except.check_eq_ok.mp h'
  obtain ⟨apps, happs, h⟩ := Except.bind_eq_ok.mp h
  obtain ⟨apps', happs', h'⟩ := Except.bind_eq_ok.mp h'
  cases h
  cases h'
  have hentry : e.id = e'.id := by
    rw [← (bundledTree_ok ht).2, ← (bundledTree_ok ht').2]
    exact htree
  rw [hentry] at ht
  cases bundledTree_same htwice ht ht'
  rw [hid, hlayout'] at hlayout
  cases hlayout
  exact mapM_agree (fun _ _ _ => proveSecretApp_same htwice hid) happs happs'

/-- The secrets of two bundles whose secrets trees are one tree. -/
theorem proveSecrets_same {path : Bytes} {s' : Secrets} (hid : c.id = c'.id)
    (htree : s.tree = s'.tree)
    (h : proveSecrets lib c trees blobs path names = .ok s)
    (h' : proveSecrets lib c' trees' blobs' path names = .ok s') :
    s.apps = s'.apps := by
  obtain rfl | ⟨parts, e, hparts, hat⟩ := proveSecrets_cases h
  · obtain rfl | ⟨parts', e', -, hat'⟩ := proveSecrets_cases h'
    · rfl
    · exact absurd htree.symm (proveSecretsAt_tree htwice.admitted' hat')
  · obtain rfl | ⟨parts', e', hparts', hat'⟩ := proveSecrets_cases h'
    · exact absurd htree (proveSecretsAt_tree htwice.admitted hat)
    · rw [hparts] at hparts'
      cases hparts'
      exact proveSecretsAt_same htwice hid htree hat hat'

end Two

end Hotserve.Bundle
