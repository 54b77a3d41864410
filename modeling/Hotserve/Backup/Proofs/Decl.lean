/-
What a declaration that passes its rules is: every path is clean and
stays inside, and no two are the same.
-/
import Hotserve.Backup.Decl
import Mathlib.Data.List.Pairwise

namespace Hotserve.Backup

open Bytes

variable {quote : Bytes → Bytes} {c : Config}

/-- A path that passes on its own. -/
theorem Declared.validate_path {i : Declared} (hv : i.validate quote = .ok ()) :
    i.path.head? ≠ some 47 ∧ Path.clean i.path = i.path ∧
      Path.outside i.path = false := by
  simp only [Declared.validate, Except.check_eq_ok, failIf_eq_ok] at hv
  obtain ⟨-, -, -, -, hrel, -, hout, hclean, -⟩ := hv
  rw [beq_eq_false_iff_ne] at hrel
  rw [bne_eq_false_iff_eq] at hclean
  exact ⟨hrel, hclean, hclean ▸ hout⟩

theorem Config.validate_each (hv : c.validate quote = .ok ()) :
    ∀ i ∈ c.declared, i.validate quote = .ok () := by
  rw [Config.validate, Except.check_eq_ok, Except.check_eq_ok] at hv
  exact Except.forM_eq_ok.mp hv.2.1

/-- A declared path has components, and each names something. -/
theorem Config.comps_plain (hv : c.validate quote = .ok ()) {i : Declared}
    (hi : i ∈ c.declared) : ∀ d ∈ Path.comps i.path, Path.plain d = true := by
  obtain ⟨hrel, hclean, hin⟩ := Declared.validate_path (c.validate_each hv i hi)
  exact Path.comps_plain hrel hclean hin

variable {a b : Declared}

theorem collide_path_ne (hc : collide quote a b = .ok ()) :
    a.path ≠ b.path := by
  intro heq
  rw [collide, if_pos heq] at hc
  split at hc <;> cases hc

/-- Each path was held against those before it. -/
theorem collideAll_iff : ∀ {before rest : List Declared},
    collideAll quote before rest = .ok () ↔
    (∀ a ∈ before, ∀ b ∈ rest, collide quote a b = .ok ()) ∧
      rest.Pairwise fun a b => collide quote a b = .ok ()
  | before, [] => ⟨fun _ => ⟨by simp, .nil⟩, fun _ => rfl⟩
  | before, b :: rest => by
    rw [collideAll, Except.check_eq_ok, Except.forM_eq_ok,
      collideAll_iff, List.pairwise_cons]
    constructor
    · rintro ⟨hb, hbefore, hpair⟩
      refine ⟨fun a ha x hx => ?_, fun x hx => ?_, hpair⟩
      · rcases List.mem_cons.mp hx with rfl | hx
        · exact hb a ha
        · exact hbefore a (List.mem_append_left _ ha) x hx
      · exact hbefore b (by simp) x hx
    · rintro ⟨hall, hb, hpair⟩
      refine ⟨fun a ha => hall a ha b (.head _),
        fun a ha x hx => ?_, hpair⟩
      rcases List.mem_append.mp ha with ha | ha
      · exact hall a ha x (.tail _ hx)
      · rw [List.mem_singleton.mp ha]
        exact hb x hx

theorem Config.validate_iff : c.validate quote = .ok () ↔
    (c.sqlite.isEmpty && c.files.isEmpty) = false ∧
      (∀ i ∈ c.declared, i.validate quote = .ok ()) ∧
      c.declared.Pairwise fun a b => collide quote a b = .ok () := by
  rw [Config.validate, Except.check_eq_ok, failIf_eq_ok, Except.check_eq_ok,
    Except.forM_eq_ok, collideAll_iff]
  simp

theorem Config.collide_pairwise (hv : c.validate quote = .ok ()) :
    c.declared.Pairwise fun a b => collide quote a b = .ok () :=
  (Config.validate_iff.mp hv).2.2

/-- No path is declared twice. -/
theorem Config.declared_nodup (hv : c.validate quote = .ok ()) :
    c.declared.Nodup := by
  refine (c.collide_pairwise hv).imp ?_
  rintro a _ hc rfl
  exact collide_path_ne hc rfl

-- ====== the order

/-- The rules for two paths are the same either way. -/
theorem collide_symm (h : collide quote a b = .ok ()) :
    collide quote b a = .ok () := by
  have hne := collide_path_ne h
  rw [collide, if_neg hne, Except.check_eq_ok, Except.check_eq_ok,
    Except.check_eq_ok, failIf_eq_ok, failIf_eq_ok] at h
  obtain ⟨hab, hba, hfiles, hfiles'⟩ := h
  rw [collide, if_neg hne.symm, Except.check_eq_ok, Except.check_eq_ok,
    Except.check_eq_ok, failIf_eq_ok, failIf_eq_ok]
  refine ⟨hba, hab, ?_, ?_⟩
  · rw [Bool.and_comm (b.kind == .files)]
    exact hfiles'
  · rw [Bool.and_comm (b.kind == .files)]
    exact hfiles

/-- Any two declared paths were held against each other. -/
theorem Config.collide_of_ne (hv : c.validate quote = .ok ())
    (ha : a ∈ c.declared) (hb : b ∈ c.declared)
    (hne : a ≠ b) : collide quote a b = .ok () := by
  have : Std.Symm fun a b => collide quote a b = .ok () :=
    ⟨fun _ _ => collide_symm⟩
  exact (c.collide_pairwise hv).forall ha hb hne

/-- Acceptance does not depend on the order of declaration. -/
theorem Config.validate_perm {c' : Config} (hs : c.sqlite.Perm c'.sqlite)
    (hf : c.files.Perm c'.files) :
    c.validate quote = .ok () ↔ c'.validate quote = .ok () := by
  have hperm : c.declared.Perm c'.declared :=
    (hs.map _).append (hf.map _)
  rw [Config.validate_iff, Config.validate_iff,
    hperm.pairwise_iff fun h => collide_symm h]
  simp only [hperm.mem_iff, hs.isEmpty_eq, hf.isEmpty_eq]

end Hotserve.Backup
