/-
`Chain` accepts exactly the first-parent chains, and leaves no commit of
the line out.

# Shape of the argument

- `Linked` is what the loop asks at each turn, as a recursion over the
  parents; within the cap `chainFrom` accepts what is linked and nothing
  else (`chainFrom_eq_ok`), by the recursion of both.
- `FirstParents` is the same said of the whole list. The two differ in
  the last commit, which the loop lets be the baseline itself: with a
  commit before it that would have ended the walk one turn earlier.
-/
import Hotserve.Bundle.Chain

namespace Hotserve.Bundle

open Bytes

variable {head cur : Commit} {baseline : Bytes} {parents : List Commit}

-- ====== what is accepted

/-- HEAD is the baseline and alone, or each commit's first parent is the
next one, the last one's is the baseline, and no earlier commit is the
baseline or its child. -/
def FirstParents (head : Commit) (parents : List Commit) (baseline : Bytes) :
    Prop :=
  (head.id = baseline ∧ parents = []) ∨
    ((head :: parents).IsChain (fun c p => c.parents.head? = some p.id) ∧
      ((head :: parents).getLast?.bind fun c => c.parents.head?) =
        some baseline ∧
      ∀ c ∈ (head :: parents).dropLast,
        c.id ≠ baseline ∧ c.parents.head? ≠ some baseline)

/-- What each turn of the loop asks, and the check after it. -/
def Linked (baseline : Bytes) : Commit → List Commit → Prop
  | cur, [] => atBaseline cur baseline = true
  | cur, p :: parents => atBaseline cur baseline = false ∧
      cur.parents.head? = some p.id ∧ Linked baseline p parents

variable {c : Commit}

theorem atBaseline_iff : atBaseline c baseline = true ↔
    c.id = baseline ∨ c.parents.head? = some baseline := by
  simp [atBaseline]

theorem atBaseline_false : atBaseline c baseline = false ↔
    c.id ≠ baseline ∧ c.parents.head? ≠ some baseline := by
  simp [atBaseline]

/-- Within the cap the walk accepts what is linked, whole. -/
theorem chainFrom_eq_ok {cs : List Commit} :
    ∀ {parents : List Commit} {i : Nat} {chain : List Commit}
      {cur : Commit}, chain.length + parents.length ≤ maxChain →
      (chainFrom head baseline i chain cur parents = .ok cs ↔
        Linked baseline cur parents ∧ cs = chain ++ parents) := by
  intro parents
  induction parents with
  | nil =>
    intro i chain cur _
    rw [chainFrom, Linked, List.append_nil]
    split
    next hat => simp [hat, eq_comm]
    next hat =>
      -- both refusals after the loop
      split <;> simp [hat]
  | cons p parents ih =>
    intro i chain cur hcap
    rw [List.length_cons] at hcap
    rw [chainFrom, Linked]
    split
    next hat => simp [hat]
    next hat =>
      rw [Bool.not_eq_true] at hat
      split
      next hroot => simp [hroot]
      next first rest hfirst =>
        rw [hfirst, List.head?_cons, Option.some.injEq]
        split
        next hne => simp [Ne.symm hne]
        next heq =>
          have hroom : chain.length ≠ maxChain := by omega
          have hcap' : (chain ++ [p]).length + parents.length ≤
              maxChain := by
            rw [List.length_append, List.length_singleton]
            omega
          rw [if_neg hroom, ih hcap', List.append_assoc, List.singleton_append]
          simp [hat, not_not.mp heq]

/-- A walk with a commit before its last one ends at a child of the
baseline. -/
theorem Linked.last : ∀ {parents : List Commit} {cur p : Commit},
    Linked baseline cur (p :: parents) →
      ((p :: parents).getLast?.bind fun c => c.parents.head?) =
        some baseline := by
  intro parents
  induction parents with
  | nil =>
    intro cur p h
    obtain ⟨hcur, hnext, hend⟩ := h
    rcases atBaseline_iff.mp hend with hid | hchild
    · rw [hid] at hnext
      exact absurd hnext (atBaseline_false.mp hcur).2
    · exact hchild
  | cons q parents ih =>
    intro cur p h
    rw [List.getLast?_cons_cons]
    exact ih h.2.2

theorem Linked.isChain : ∀ {parents : List Commit} {cur : Commit},
    Linked baseline cur parents →
      (cur :: parents).IsChain (fun c p => c.parents.head? = some p.id) ∧
      ∀ c ∈ (cur :: parents).dropLast,
        c.id ≠ baseline ∧ c.parents.head? ≠ some baseline := by
  intro parents
  induction parents with
  | nil =>
    intro cur _
    exact ⟨.singleton _, nofun⟩
  | cons p parents ih =>
    intro cur h
    obtain ⟨hcur, hnext, hrest⟩ := h
    obtain ⟨hchain, hearlier⟩ := ih hrest
    refine ⟨.cons_cons hnext hchain, ?_⟩
    intro c hc
    rw [List.dropLast_cons_cons] at hc
    rcases List.mem_cons.mp hc with rfl | hc
    · exact atBaseline_false.mp hcur
    · exact hearlier c hc

/-- The whole list's conditions are each turn's. -/
theorem linked_of_isChain : ∀ {parents : List Commit} {cur : Commit},
    (cur :: parents).IsChain (fun c p => c.parents.head? = some p.id) →
      ((cur :: parents).getLast?.bind fun c => c.parents.head?) =
        some baseline → (∀ c ∈ (cur :: parents).dropLast,
        c.id ≠ baseline ∧ c.parents.head? ≠ some baseline) →
      Linked baseline cur parents := by
  intro parents
  induction parents with
  | nil =>
    intro cur _ hlast _
    exact atBaseline_iff.mpr (.inr hlast)
  | cons p parents ih =>
    intro cur hchain hlast hearlier
    rw [List.dropLast_cons_cons] at hearlier
    rw [List.getLast?_cons_cons] at hlast
    obtain ⟨hnext, hchain⟩ := List.isChain_cons_cons.mp hchain
    refine ⟨?_, hnext, ?_⟩
    · exact atBaseline_false.mpr (hearlier cur (.head _))
    · exact ih hchain hlast fun c hc =>
        hearlier c (.tail _ hc)

theorem linked_iff : Linked baseline head parents ↔
    FirstParents head parents baseline := by
  constructor
  · intro h
    cases parents with
    | nil =>
      rcases atBaseline_iff.mp h with hid | hchild
      · exact .inl ⟨hid, rfl⟩
      · exact .inr ⟨.singleton _, hchild, nofun⟩
    | cons p parents =>
      obtain ⟨hchain, hearlier⟩ := h.isChain
      refine .inr ⟨hchain, ?_, hearlier⟩
      rw [List.getLast?_cons_cons]
      exact h.last
  · rintro (⟨hid, rfl⟩ | ⟨hchain, hlast, hearlier⟩)
    · exact atBaseline_iff.mpr (.inl hid)
    · exact linked_of_isChain hchain hlast hearlier

-- ====== nothing is left out

/-- A commit above the baseline on the first-parent line down from HEAD,
in a repository that files commits under their ids. -/
inductive Above (repo : Bytes → Option Commit) (baseline : Bytes)
    (head : Commit) : Commit → Prop
  | head (hhead : head.id ≠ baseline) : Above repo baseline head head
  | next {c p : Commit} {id : Bytes} (hc : Above repo baseline head c)
      (hfirst : c.parents.head? = some id) (hid : id ≠ baseline)
      (hrepo : repo id = some p) : Above repo baseline head p

/-- The next commit of the line after one that is on a linked list is on
it too. -/
theorem Linked.next_mem {id : Bytes} :
    ∀ {parents : List Commit} {cur : Commit}, Linked baseline cur parents →
      c ∈ cur :: parents → c.id ≠ baseline → c.parents.head? = some id →
      id ≠ baseline → ∃ p ∈ parents, p.id = id := by
  intro parents
  induction parents with
  | nil =>
    intro cur h hc hne hfirst hid
    obtain rfl := List.mem_singleton.mp hc
    rcases atBaseline_iff.mp h with hbase | hchild
    · exact absurd hbase hne
    · rw [hfirst] at hchild
      exact absurd (Option.some.inj hchild) hid
  | cons p parents ih =>
    intro cur h hc hne hfirst hid
    rcases List.mem_cons.mp hc with rfl | hc
    · rw [h.2.1] at hfirst
      exact ⟨p, .head _, Option.some.inj hfirst⟩
    · obtain ⟨q, hq, hqid⟩ := ih h.2.2 hc hne hfirst hid
      exact ⟨q, .tail _ hq, hqid⟩

/-- Every commit of the line above the baseline is on the list, where no
bundled commit shares its id with another of the repository. -/
theorem Linked.above_mem {repo : Bytes → Option Commit}
    (h : Linked baseline head parents)
    (hone : ∀ p ∈ parents, ∀ r, repo p.id = some r → r = p)
    (hc : Above repo baseline head c) :
    c ∈ head :: parents ∧ c.id ≠ baseline := by
  induction hc with
  | head hhead => exact ⟨.head _, hhead⟩
  | next _ hfirst hid hrepo ih =>
    obtain ⟨p, hp, rfl⟩ := h.next_mem ih.1 ih.2 hfirst hid
    obtain rfl := hone p hp _ hrepo
    exact ⟨.tail _ hp, hid⟩

-- ====== Chain

/-- `Chain` accepts the first-parent chains and refuses every other list;
what it accepts is HEAD and every parent given, and holds every commit of
the first-parent line above the baseline. -/
theorem chain_exact (hcap : parents.length ≤ maxChain - 1) :
    (chain head parents baseline = .ok (head :: parents) ↔
        FirstParents head parents baseline) ∧
      (¬ FirstParents head parents baseline →
        ∃ r, chain head parents baseline = .error r) ∧
      ∀ cs, chain head parents baseline = .ok cs → cs = head :: parents ∧
        ∀ repo : Bytes → Option Commit,
          (∀ p ∈ parents, ∀ r, repo p.id = some r → r = p) →
          ∀ c, Above repo baseline head c → c ∈ cs := by
  have hlen : [head].length + parents.length ≤ maxChain := by
    have hpos : 0 < maxChain := by decide
    rw [List.length_singleton]
    omega
  have hok : ∀ cs, chain head parents baseline = .ok cs ↔
      Linked baseline head parents ∧ cs = head :: parents :=
    fun cs => chainFrom_eq_ok hlen
  refine ⟨?_, ?_, ?_⟩
  · rw [hok, linked_iff]
    exact and_iff_left rfl
  · intro hnot
    cases hrun : chain head parents baseline with
    | error r => exact ⟨r, rfl⟩
    | ok cs => exact absurd (linked_iff.mp ((hok cs).mp hrun).1) hnot
  · intro cs hrun
    obtain ⟨hlinked, rfl⟩ := (hok cs).mp hrun
    refine ⟨rfl, fun repo hone c hc => ?_⟩
    exact (hlinked.above_mem hone hc).1

/-- A commit of an example, by its id and its parents'. -/
def lineCommit (id : String) (parents : List String) : Commit where
  raw := []
  id := str id
  tree := []
  parents := parents.map str
  kind := .unsigned
  signature := []
  payload := []

/-- A merge on top of the line c1, c0, whose second parent is not
walked. -/
theorem chain_exact_example :
    chain (lineCommit "m" ["c1", "side"]) [lineCommit "c1" ["c0"]] (str "c0") =
      .ok [lineCommit "m" ["c1", "side"], lineCommit "c1" ["c0"]] := by
  refine (chain_exact (by decide)).1.mpr (.inr ⟨?_, ?_, ?_⟩)
  · exact .cons_cons rfl (.singleton _)
  · rfl
  · decide +kernel

end Hotserve.Bundle
