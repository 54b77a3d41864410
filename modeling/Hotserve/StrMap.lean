/-
Building a Go `map[string]string`: `m[key] = value`, and a map from its
assignments in order. The pairs stay in key order, so two maps with the
same lookups are the same.
-/
import Hotserve.Bytes
import Mathlib.Data.List.Induction
import Mathlib.Data.List.Perm.Subperm

namespace Hotserve.StrMap

/-- Keys are in one order. -/
theorem lt_of_not_lt {a b : Bytes} (hlt : ¬ a < b) (hne : a ≠ b) : b < a := by
  by_contra hge
  exact hne (List.le_antisymm (List.not_lt.mp hge) (List.not_lt.mp hlt))

/-- The pairs after `m[key] = value`. -/
def insertPair (key value : Bytes) :
    List (Bytes × Bytes) → List (Bytes × Bytes)
  | [] => [(key, value)]
  | p :: rest =>
    if key < p.1 then (key, value) :: p :: rest
    else if key = p.1 then (key, value) :: rest
    else p :: insertPair key value rest

variable {k : Bytes} {m pairs : List (Bytes × Bytes)}

theorem mem_keys_insertPair {key value : Bytes} :
    k ∈ (insertPair key value m).map Prod.fst ↔
      k = key ∨ k ∈ m.map Prod.fst := by
  induction m with
  | nil => simp [insertPair]
  | cons p rest ih =>
    simp only [insertPair]
    split
    · simp
    · split
      next heq => simp [heq]
      next =>
        rw [List.map_cons, List.mem_cons, ih, List.map_cons, List.mem_cons]
        exact or_left_comm

theorem sorted_insertPair {key value : Bytes}
    (h : (m.map Prod.fst).Pairwise (· < ·)) :
    ((insertPair key value m).map Prod.fst).Pairwise (· < ·) := by
  induction m with
  | nil => simp [insertPair]
  | cons p rest ih =>
    rw [List.map_cons, List.pairwise_cons] at h
    simp only [insertPair]
    split
    next hlt =>
      simp only [List.map_cons, List.pairwise_cons]
      refine ⟨fun k hk => ?_, h⟩
      rcases List.mem_cons.mp hk with rfl | hk
      · exact hlt
      · exact List.lt_trans hlt (h.1 k hk)
    next hnlt =>
      split
      next heq =>
        rw [List.map_cons, List.pairwise_cons, heq]
        exact h
      next hne =>
        rw [List.map_cons, List.pairwise_cons]
        refine ⟨fun k hk => ?_, ih h.2⟩
        rcases mem_keys_insertPair.mp hk with rfl | hk
        · exact lt_of_not_lt hnlt hne
        · exact h.1 k hk

/-- `m[key] = value`. -/
def insert (m : StrMap) (key value : Bytes) : StrMap :=
  ⟨insertPair key value m.entries, sorted_insertPair m.sorted⟩

/-- A map by its assignments, the first first. -/
def ofPairs (pairs : List (Bytes × Bytes)) : StrMap :=
  pairs.foldl (fun m p => m.insert p.1 p.2) empty

/-- `slices.Sorted(maps.Keys(m))`. -/
def keys (m : StrMap) : List Bytes := m.entries.map Prod.fst

@[simp] theorem get?_empty : empty.get? k = none := rfl

/-- A key that is not there is not looked up. -/
theorem lookup_none (h : k ∉ m.map Prod.fst) : m.lookup k = none := by
  rw [List.lookup_eq_none_iff]
  intro p hp
  rw [bne_iff_ne]
  rintro rfl
  exact h (List.mem_map_of_mem hp)

@[simp] theorem get?_insert (m : StrMap) (key value k : Bytes) :
    (m.insert key value).get? k =
      if k = key then some value else m.get? k := by
  obtain ⟨entries, sorted⟩ := m
  change (insertPair key value entries).lookup k =
    if k = key then some value else entries.lookup k
  induction entries with
  | nil => exact lookup_pair (key, value) [] k
  | cons p rest ih =>
    rw [List.map_cons, List.pairwise_cons] at sorted
    simp only [insertPair]
    split
    · exact lookup_pair (key, value) (p :: rest) k
    · split
      next heq =>
        rw [lookup_pair, lookup_pair, heq]
        split <;> rfl
      next hne =>
        rw [lookup_pair, lookup_pair, ih sorted.2]
        by_cases hk : k = key
        · subst hk
          rw [if_neg hne, if_pos rfl, if_pos rfl]
        · rw [if_neg hk, if_neg hk]

theorem mem_keys_iff {m : StrMap} : k ∈ m.keys ↔ ∃ v, m.get? k = some v := by
  constructor
  · intro h
    obtain ⟨p, hp, rfl⟩ := List.mem_map.mp h
    exact ⟨p.2, get?_eq_some_iff.mpr hp⟩
  · rintro ⟨v, hv⟩
    by_contra h
    rw [get?, lookup_none h] at hv
    cases hv

-- ====== maps by assignments

theorem ofPairs_append (p : Bytes × Bytes) :
    ofPairs (pairs ++ [p]) = (ofPairs pairs).insert p.1 p.2 := by
  simp [ofPairs, List.foldl_append]

theorem mem_keys_ofPairs :
    k ∈ (ofPairs pairs).keys ↔ k ∈ pairs.map Prod.fst := by
  induction pairs using List.reverseRecOn with
  | nil => simp [ofPairs, keys, empty]
  | append_singleton pairs p ih =>
    rw [ofPairs_append, keys, insert, mem_keys_insertPair, List.map_append,
      List.mem_append, ← ih, or_comm]
    simp [keys]

/-- With no key assigned twice, each pair is there. -/
theorem get?_ofPairs {p : Bytes × Bytes} (hnodup : (pairs.map Prod.fst).Nodup)
    (hp : p ∈ pairs) : (ofPairs pairs).get? p.1 = some p.2 := by
  induction pairs using List.reverseRecOn with
  | nil => cases hp
  | append_singleton pairs q ih =>
    rw [ofPairs_append, get?_insert]
    rw [List.map_append, List.nodup_append] at hnodup
    rcases List.mem_append.mp hp with hp | hp
    · rw [if_neg, ih hnodup.1 hp]
      exact hnodup.2.2 _ (List.mem_map_of_mem hp) _ (by simp)
    · rw [List.mem_singleton.mp hp, if_pos rfl]

/-- A map with as many keys as assignments had no key assigned twice. -/
theorem nodup_of_length (hlen : (ofPairs pairs).entries.length = pairs.length) :
    (pairs.map Prod.fst).Nodup := by
  have hkeys : (ofPairs pairs).keys.Nodup := by
    refine (ofPairs pairs).sorted.imp ?_
    rintro a b hlt rfl
    exact List.lt_irrefl _ hlt
  have hsub : (ofPairs pairs).keys ⊆ pairs.map Prod.fst :=
    fun _ => mem_keys_ofPairs.mp
  have hperm := (List.subperm_of_subset hkeys hsub).perm_of_length_le
    (by simp [keys, hlen])
  exact hperm.nodup hkeys

end Hotserve.StrMap
