/-
What a plan records, and what it comes to where nothing has changed.

A plan's map of managed files is the digests of what the box's key
opened, whatever stands on disk; and an app whose file stands as opened,
as root writes it and as applied.json lists it, adds nothing to the plan
but its place in that map.
-/
import Hotserve.Box.Check

namespace Hotserve.Box

open Bytes
open Liveswap (Quote)
open Bundle (Secrets)

variable {h : Host} {quote : Quote} {base : Applied} {store : Store}

-- ====== the managed files

/-- The files an opening comes to, by their digests. -/
def digests (h : Host) (opened : List OpenedApp) : StrMap :=
  .ofPairs (opened.map fun o => (o.name, h.digest o.file))

theorem digests_append (opened : List OpenedApp) (o : OpenedApp) :
    digests h (opened ++ [o]) =
      (digests h opened).insert o.name (h.digest o.file) := by
  simp [digests, StrMap.ofPairs, List.foldl_append]

namespace SecretsPlan

/-- A flag changes the list of apps out of band, and nothing else. -/
theorem flagIf_eq (p : SecretsPlan) (odd : Bool) (app : Bytes) :
    p.flagIf odd app =
      { p with oob := p.oob ++ if odd then [app] else [] } := by
  cases odd <;> simp [flagIf]

/-- One app's step records its digest and keeps the tree. -/
theorem write_records {p p' : SecretsPlan} {o : OpenedApp}
    (hstep : write h quote base store p o = .ok p') : p'.tree = p.tree ∧
      p'.installed = p.installed.insert o.name (h.digest o.file) := by
  obtain ⟨cur, -, hstep⟩ := Except.bind_eq_ok.mp hstep
  cases hstep
  simp only [flagIf_eq]
  split <;> exact ⟨rfl, rfl⟩

theorem remove_records {p p' : SecretsPlan} {app listed : Bytes}
    (hstep : remove h quote store p app listed = .ok p') :
    p'.tree = p.tree ∧ p'.installed = p.installed := by
  obtain ⟨cur, -, hstep⟩ := Except.bind_eq_ok.mp hstep
  cases hstep
  simp only [flagIf_eq]
  split <;> exact ⟨rfl, rfl⟩

end SecretsPlan

variable {s : Secrets} {path : Bytes}

/-- A plan's tree is the commit's, and its map the digests of what was
opened. -/
theorem planSecrets_records {plan : SecretsPlan}
    (hplan : planSecrets h quote store s base path = .ok plan) :
    plan.tree = s.tree ∧ ∃ opened, openAll h quote store s path = .ok opened ∧
        plan.installed = digests h opened := by
  unfold planSecrets at hplan
  split at hplan
  next hempty =>
    rw [Bool.and_eq_true] at hempty
    cases hplan
    exact ⟨rfl, [], by rw [openAll, if_pos hempty.1], rfl⟩
  next =>
    obtain ⟨-, hplan⟩ := Except.check_eq_ok.mp hplan
    obtain ⟨opened, hopened, hplan⟩ := Except.bind_eq_ok.mp hplan
    obtain ⟨p, hwrites, hplan⟩ := Except.bind_eq_ok.mp hplan
    obtain ⟨p', hremoves, hplan⟩ := Except.bind_eq_ok.mp hplan
    cases hplan
    have hp : p.tree = s.tree ∧ p.installed = digests h opened := by
      refine Except.foldlM_inv
        (fun seen p => p.tree = s.tree ∧ p.installed = digests h seen)
        ?_ [] ⟨rfl, rfl⟩ hwrites
      intro seen p o p' hp hstep
      obtain ⟨htree, hinstalled⟩ := SecretsPlan.write_records hstep
      rw [digests_append, ← hp.2]
      exact ⟨htree.trans hp.1, hinstalled⟩
    have hp' : p'.tree = p.tree ∧ p'.installed = p.installed := by
      refine Except.foldlM_inv
        (fun _ q => q.tree = p.tree ∧ q.installed = p.installed)
        ?_ [] ⟨rfl, rfl⟩ hremoves
      intro seen q r q' hq hstep
      obtain ⟨htree, hinstalled⟩ := SecretsPlan.remove_records hstep
      exact ⟨htree.trans hq.1, hinstalled.trans hq.2⟩
    exact ⟨hp'.1.trans hp.1, opened, hopened, hp'.2.trans hp.2⟩

-- ====== nothing changed

/-- A file has the variables it has. -/
theorem addedNames_self (app : Bytes) (m : StrMap) :
    addedNames app m m = [] := by
  rw [addedNames, List.filter_eq_nil_iff.mpr, List.map_nil]
  intro k hk
  obtain ⟨v, hv⟩ := StrMap.mem_keys_iff.mp hk
  simp [hv]

theorem changedNames_self (app : Bytes) (m : StrMap) :
    changedNames app m m = [] := by
  rw [changedNames, List.filter_eq_nil_iff.mpr, List.map_nil]
  simp

/-- An app's file stands as opened, as root writes it, and is listed. -/
structure Unmoved (h : Host) (base : Applied) (store : Store)
    (o : OpenedApp) : Prop where
  stands : store.env o.name = .file o.file true
  fits : o.file.length ≤ maxEnvRead
  listed : base.secrets.get? o.name = some (h.digest o.file)

namespace SecretsPlan

theorem write_unmoved {o : OpenedApp} (ho : Unmoved h base store o)
    (p : SecretsPlan) :
    write h quote base store p o = .ok { p with
      installed := p.installed.insert o.name (h.digest o.file) } := by
  have hread : store.readEnvFor o.name =
      .ok ⟨⟨true, true, o.file⟩, true⟩ := by
    rw [Store.readEnvFor, ho.stands, EnvAt.readEnv,
      if_neg (Nat.not_lt.mpr ho.fits)]
  rw [write, hread]
  simp [ho.listed, drifted, flagIf, names, addedNames_self,
    changedNames_self, bind, Except.bind, pure, Except.pure]

/-- Apps that all stand unmoved leave the plan with their digests. -/
theorem writes_unmoved : ∀ {opened : List OpenedApp} (p : SecretsPlan),
    (∀ o ∈ opened, Unmoved h base store o) →
    opened.foldlM (write h quote base store) p = .ok { p with
      installed := opened.foldl
        (fun m o => m.insert o.name (h.digest o.file)) p.installed } := by
  intro opened
  induction opened with
  | nil =>
    intro p _
    rfl
  | cons o opened ih =>
    intro p hall
    rw [List.foldlM_cons, write_unmoved (hall o List.mem_cons_self)]
    exact ih _ fun o' ho' => hall o' (.tail _ ho')

end SecretsPlan

/-- An opening has the commit's apps. -/
theorem openAll_length {opened : List OpenedApp}
    (hopened : openAll h quote store s path = .ok opened) :
    opened.length = s.apps.length := by
  unfold openAll at hopened
  split at hopened
  next hnone =>
    cases hopened
    rw [List.isEmpty_iff.mp hnone]
    rfl
  next =>
    split at hopened
    · cases hopened
    · cases hopened
    next key _ =>
      split at hopened
      · cases hopened
      next hall =>
        cases hopened
        exact Except.mapM_length hall

/-- Where every listed app is one opened and stands unmoved, the plan is
to do nothing. The directory is looked at only for files there are. -/
theorem planSecrets_unmoved {opened : List OpenedApp}
    (hdir : base.secrets.entries ≠ [] → store.dir = .ok ())
    (hopened : openAll h quote store s path = .ok opened)
    (hall : ∀ o ∈ opened, Unmoved h base store o)
    (hbase : base.secrets = digests h opened) :
    planSecrets h quote store s base path =
      .ok { SecretsPlan.blank s.tree with installed := base.secrets } := by
  unfold planSecrets
  split
  next hempty =>
    rw [Bool.and_eq_true] at hempty
    rw [openAll, if_pos hempty.1] at hopened
    cases hopened
    rw [hbase]
    rfl
  next hsome =>
    have hlisted : base.secrets.entries ≠ [] := by
      intro hnone
      have hnil : opened = [] := by
        rw [List.eq_nil_iff_forall_not_mem]
        intro o ho
        have hkey : o.name ∈ base.secrets.keys := by
          rw [hbase, digests, StrMap.mem_keys_ofPairs, List.map_map]
          exact List.mem_map_of_mem ho
        rw [StrMap.keys, hnone] at hkey
        cases hkey
      have hlen := openAll_length hopened
      rw [hnil] at hlen
      exact hsome (by simp [hnone, List.eq_nil_of_length_eq_zero hlen.symm])
    have hgone : (base.secrets.entries.filter fun q =>
        !opened.any fun o => o.name == q.1) = [] := by
      rw [List.filter_eq_nil_iff]
      intro q hq
      have hkey : q.1 ∈ (digests h opened).keys := by
        rw [← hbase]
        exact List.mem_map_of_mem hq
      rw [digests, StrMap.mem_keys_ofPairs, List.map_map] at hkey
      obtain ⟨o, ho, hname⟩ := List.mem_map.mp hkey
      have hany : (opened.any fun o => o.name == q.1) = true :=
        List.any_eq_true.mpr ⟨o, ho, beq_iff_eq.mpr hname⟩
      simp [hany]
    have hmap : opened.foldl
        (fun m o => m.insert o.name (h.digest o.file)) .empty =
          base.secrets := by
      rw [hbase, digests, StrMap.ofPairs, List.foldl_map]
    refine Except.check_eq_ok.mpr ⟨hdir hlisted, Except.bind_eq_ok.mpr
      ⟨opened, hopened, Except.bind_eq_ok.mpr
        ⟨_, SecretsPlan.writes_unmoved _ hall, ?_⟩⟩⟩
    dsimp only
    rw [hgone, ← hmap]
    rfl

end Hotserve.Box
