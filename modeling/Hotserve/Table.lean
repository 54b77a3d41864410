/-
A Go map: a value for some keys, with the map's length and an iteration
that comes in no particular order. The pairs are kept as a list; what
reads them in order takes an `Iteration`, any rearrangement of them.
-/
import Mathlib.Data.List.Perm.Subperm
import Mathlib.Data.List.Nodup

namespace Hotserve

section Lookup

variable {K V : Type} [BEq K] [LawfulBEq K] {k : K} {v : V}

/-- A lookup in a list of pairs, by whether the first has the key. -/
theorem lookup_pair [DecidableEq K] (p : K × V) (l : List (K × V)) (k : K) :
    (p :: l).lookup k = if k = p.1 then some p.2 else l.lookup k := by
  rw [List.lookup_cons]
  by_cases h : k = p.1
  · rw [if_pos h, beq_iff_eq.mpr h]
  · rw [if_neg h, beq_eq_false_iff_ne.mpr h]

/-- Where keys are distinct, a pair is what its key is looked up at. -/
theorem lookup_eq_some_iff {l : List (K × V)} (hl : (l.map Prod.fst).Nodup) :
    l.lookup k = some v ↔ (k, v) ∈ l := by
  classical
  induction l with
  | nil => simp
  | cons p l ih =>
    rw [List.map_cons, List.nodup_cons] at hl
    rw [lookup_pair, List.mem_cons]
    by_cases hk : k = p.1
    · subst hk
      rw [if_pos rfl, Option.some.injEq]
      constructor
      · rintro rfl
        exact .inl rfl
      · rintro (h | h)
        · rw [← h]
        · exact absurd (List.mem_map_of_mem h) hl.1
    · have hne : (k, v) ≠ p := fun h => hk (congrArg Prod.fst h)
      rw [if_neg hk, ih hl.2, or_iff_right hne]

end Lookup

/-- The pairs of a map, each key once. -/
structure Table (K V : Type) [DecidableEq K] where
  entries : List (K × V)
  nodup : (entries.map Prod.fst).Nodup

/-- The order one `range` over a map comes in. -/
structure Iteration (K V : Type) where
  order : List (K × V) → List (K × V)
  perm : ∀ l, (order l).Perm l

namespace Table

variable {K V : Type} [DecidableEq K] {t t' : Table K V} {k : K} {v : V}

/-- The map `make` gives. -/
def empty : Table K V := ⟨[], .nil⟩

/-- `t[k]`, as its comma-ok form answers. -/
def get (t : Table K V) (k : K) : Option V := t.entries.lookup k

def len (t : Table K V) : Nat := t.entries.length

/-- The pairs that pass. -/
def filter (t : Table K V) (p : K × V → Bool) : Table K V where
  entries := t.entries.filter p
  nodup := t.nodup.sublist (List.filter_sublist.map _)

/-- Every value rewritten. -/
def mapValues {W : Type} (t : Table K V) (f : K → V → W) : Table K W where
  entries := t.entries.map fun p => (p.1, f p.1 p.2)
  nodup := by
    rw [List.map_map]
    exact t.nodup

/-- `delete(t, k)`. -/
def delete (t : Table K V) (k : K) : Table K V := t.filter fun p => p.1 ≠ k

/-- `t[k] = v`. -/
def set (t : Table K V) (k : K) (v : V) : Table K V where
  entries := (k, v) :: (t.delete k).entries
  nodup := by
    rw [List.map_cons, List.nodup_cons]
    refine ⟨?_, (t.delete k).nodup⟩
    intro hmem
    obtain ⟨p, hp, hk⟩ := List.mem_map.mp hmem
    have hne := (List.mem_filter.mp hp).2
    rw [decide_eq_true_eq] at hne
    exact hne hk

-- ====== lookups

/-- A key has the value of its pair. -/
theorem get_eq_some_iff : t.get k = some v ↔ (k, v) ∈ t.entries :=
  lookup_eq_some_iff t.nodup

@[simp] theorem get_empty : (empty : Table K V).get k = none := rfl

/-- What a filtered map has, the map has and the filter passes. -/
theorem get_filter {p : K × V → Bool} : (t.filter p).get k = some v ↔
    t.get k = some v ∧ p (k, v) = true := by
  rw [get_eq_some_iff, get_eq_some_iff, filter, List.mem_filter]

/-- A deleted key has no value; the others keep theirs. -/
theorem get_delete (k' : K) : (t.delete k).get k' =
    if k' = k then none else t.get k' := by
  refine Option.ext fun v => ?_
  rw [delete, get_filter]
  split
  next h => simp [h]
  next h => simp [h]

theorem get_of_delete {k' : K} (h : (t.delete k).get k' = some v) :
    t.get k' = some v :=
  (get_filter.mp h).1

/-- A key that is set has its value; the others keep theirs. -/
theorem get_set (k' : K) : (t.set k v).get k' =
    if k' = k then some v else t.get k' := by
  have hcons : (t.set k v).get k' =
      if k' = k then some v else (t.delete k).get k' := lookup_pair ..
  rw [hcons, get_delete]
  split
  · rfl
  · rfl

/-- What a map has after a key was set, it got or had. -/
theorem get_set_cases {k' : K} {v' : V} (h : (t.set k v).get k' = some v') :
    (k' = k ∧ v' = v) ∨ (k' ≠ k ∧ t.get k' = some v') := by
  rw [get_set] at h
  split at h
  next hk => exact .inl ⟨hk, (Option.some.inj h).symm⟩
  next hk => exact .inr ⟨hk, h⟩

/-- A rewritten map has the same keys. -/
theorem get_mapValues {W : Type} (f : K → V → W) :
    (t.mapValues f).get k = (t.get k).map (f k) := by
  refine Option.ext fun w => ?_
  rw [get_eq_some_iff, mapValues, List.mem_map, Option.map_eq_some_iff]
  constructor
  · rintro ⟨⟨k', v⟩, hp, heq⟩
    obtain ⟨rfl, rfl⟩ := Prod.mk.inj heq
    exact ⟨v, get_eq_some_iff.mpr hp, rfl⟩
  · rintro ⟨v, hv, rfl⟩
    exact ⟨(k, v), get_eq_some_iff.mp hv, rfl⟩

-- ====== length

theorem len_eq (t : Table K V) : t.len = (t.entries.map Prod.fst).length :=
  (List.length_map ..).symm

/-- The keys are those with a value. -/
theorem mem_keys : k ∈ t.entries.map Prod.fst ↔ ∃ v, t.get k = some v := by
  simp only [get_eq_some_iff, List.mem_map, Prod.exists, exists_and_right,
    exists_eq_right]

section

variable (h : ∀ k v, t.get k = some v → ∃ v', t'.get k = some v')
include h

/-- A map whose keys another has is no longer than it. -/
theorem len_le : t.len ≤ t'.len := by
  rw [len_eq, len_eq]
  refine (List.subperm_of_subset t.nodup fun k hk => ?_).length_le
  obtain ⟨v, hv⟩ := mem_keys.mp hk
  exact mem_keys.mpr (h k v hv)

/-- A key more, and it is longer by one. -/
theorem len_lt (hnone : t.get k = none) (hsome : ∃ v, t'.get k = some v) :
    t.len < t'.len := by
  have hkeys : (k :: t.entries.map Prod.fst).Subperm
      (t'.entries.map Prod.fst) := by
    refine List.subperm_of_subset ?_ ?_
    · refine List.nodup_cons.mpr ⟨?_, t.nodup⟩
      intro hk
      obtain ⟨v, hv⟩ := mem_keys.mp hk
      rw [hnone] at hv
      cases hv
    · intro k' hk'
      rcases List.mem_cons.mp hk' with rfl | hk'
      · exact mem_keys.mpr hsome
      · obtain ⟨v, hv⟩ := mem_keys.mp hk'
        exact mem_keys.mpr (h k' v hv)
  have hlen := hkeys.length_le
  rw [List.length_cons, ← len_eq, ← len_eq] at hlen
  exact hlen

end

/-- Deleting a key that is there makes the map shorter. -/
theorem len_delete_lt (hk : t.get k = some v) : (t.delete k).len < t.len :=
  len_lt (fun _ v h => ⟨v, get_of_delete h⟩)
    ((get_delete k).trans (if_pos rfl)) ⟨v, hk⟩

/-- Setting a key that is there keeps the length. -/
theorem len_set_of_get (hk : t.get k = some v) (v' : V) :
    (t.set k v').len = t.len := by
  refine Nat.le_antisymm (len_le ?_) (len_le ?_)
  · intro k' w hw
    rw [get_set] at hw
    split at hw
    next h => exact ⟨v, h ▸ hk⟩
    next => exact ⟨w, hw⟩
  · intro k' w hw
    rw [get_set]
    split
    · exact ⟨v', rfl⟩
    · exact ⟨w, hw⟩

/-- Setting a new one adds one. -/
theorem len_set_new (hk : t.get k = none) (v : V) :
    (t.set k v).len = t.len + 1 := by
  have hsame : (t.delete k).entries = t.entries := by
    refine List.filter_eq_self.mpr fun p hp => ?_
    rw [decide_eq_true_eq]
    rintro rfl
    have hsome := get_eq_some_iff.mpr hp
    rw [hk] at hsome
    cases hsome
  rw [len, set, List.length_cons, hsame, len]

end Table

end Hotserve
