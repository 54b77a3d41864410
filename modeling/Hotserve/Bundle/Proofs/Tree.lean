/-
A tree `parseTree` accepts has its entries in one order and one entry a
name, so the first match of `Tree.entry` is the only one.

`compareTreeNames` is the lexicographic order on a name with its end
marked, `/` for a directory and NUL for anything else: neither byte is
in a name. Adjacent entries ascend, so all do, and two entries of one
kind never share a name. A file `x` and a later directory `x` are what
the stack of candidates is for: it holds exactly the files whose twin is
not yet sorted past, and the one whose twin comes first is on top.
-/
import Hotserve.Bundle.Tree
import Mathlib.Data.List.Lex
import Mathlib.Data.List.Nodup

namespace Hotserve.Bundle

open Bytes

-- ====== the keys

/-- What a name is read as though it ended in. -/
def endByte (dir : Bool) : ℕ := if dir then 47 else 0

/-- A name with its end marked. -/
def key (name : Bytes) (dir : Bool) : List ℕ :=
  name.map UInt8.toNat ++ [endByte dir]

/-- A name a tree can hold. -/
def NameOk (name : Bytes) : Prop := (0 : UInt8) ∉ name ∧ (47 : UInt8) ∉ name

variable {name id raw : Bytes} {cands : List Bytes} {seen es : List Entry}
  {s s' : Order} {e : Entry} {lib : Lib} {t : Tree}

theorem NameOk.tail {c : UInt8} (h : NameOk (c :: name)) : NameOk name :=
  ⟨fun hm => h.1 (.tail _ hm),
    fun hm => h.2 (.tail _ hm)⟩

/-- A byte of a name is neither end. -/
theorem NameOk.head {c : UInt8} (h : NameOk (c :: name)) :
    c.toNat ≠ 0 ∧ c.toNat ≠ 47 := by
  constructor
  · intro hc
    have : c = 0 := UInt8.toNat_inj.mp hc
    exact h.1 (this ▸ (.head _))
  · intro hc
    have : c = 47 := UInt8.toNat_inj.mp hc
    exact h.2 (this ▸ (.head _))

theorem key_cons (c : UInt8) (name : Bytes) (dir : Bool) :
    key (c :: name) dir = c.toNat :: key name dir := rfl

/-- The shorter name's end decides, when it is the other's first byte
that it meets. -/
theorem key_nil_cons {d : UInt8} (h : NameOk (d :: name)) (x y : Bool) :
    (key [] x < key (d :: name) y ↔ endByte x < d.toNat) ∧
      (key (d :: name) y < key [] x ↔ d.toNat < endByte x) := by
  have hne : d.toNat ≠ endByte x := by
    have hd := h.head
    cases x
    · exact hd.1
    · exact hd.2
  change ([endByte x] < d.toNat :: key name y ↔ _) ∧
    (d.toNat :: key name y < [endByte x] ↔ _)
  rw [List.cons_lt_cons_iff, List.cons_lt_cons_iff]
  simp [hne, hne.symm]

theorem compareTreeNames_nil_cons (d : UInt8) (b : Bytes) (aDir bDir : Bool) :
    compareTreeNames [] aDir (d :: b) bDir = endByte aDir - d.toNat := by
  cases aDir <;> rfl

theorem compareTreeNames_cons_nil (c : UInt8) (a : Bytes) (aDir bDir : Bool) :
    compareTreeNames (c :: a) aDir [] bDir = c.toNat - endByte bDir := by
  cases bDir <;> rfl

theorem compareTreeNames_cons (c d : UInt8) (a b : Bytes) (aDir bDir : Bool) :
    compareTreeNames (c :: a) aDir (d :: b) bDir =
      if c < d then -1 else if d < c then 1
      else compareTreeNames a aDir b bDir := by
  have hmin : min (c :: a).length (d :: b).length =
      min a.length b.length + 1 := by simp
  simp only [compareTreeNames, hmin, List.take_succ_cons, bytesCompare,
    nextByte, List.getElem?_cons_succ]
  split
  · rfl
  split
  · rfl
  · rfl

/-- The sign of the comparison is the order of the keys. -/
theorem compareTreeNames_sign {a b : Bytes} (ha : NameOk a) (hb : NameOk b)
    (aDir bDir : Bool) :
    (compareTreeNames a aDir b bDir < 0 ↔ key a aDir < key b bDir) ∧
      (0 < compareTreeNames a aDir b bDir ↔ key b bDir < key a aDir) := by
  induction a generalizing b with
  | nil =>
    cases b with
    | nil => cases aDir <;> cases bDir <;> decide
    | cons d b =>
      rw [compareTreeNames_nil_cons, (key_nil_cons hb aDir bDir).1,
        (key_nil_cons hb aDir bDir).2]
      omega
  | cons c a ih =>
    cases b with
    | nil =>
      rw [compareTreeNames_cons_nil, (key_nil_cons ha bDir aDir).1,
        (key_nil_cons ha bDir aDir).2]
      omega
    | cons d b =>
      rw [compareTreeNames_cons, key_cons, key_cons,
        List.cons_lt_cons_iff, List.cons_lt_cons_iff]
      have ih := ih ha.tail hb.tail
      have hcd : c < d ↔ c.toNat < d.toNat := Iff.rfl
      have hdc : d < c ↔ d.toNat < c.toNat := Iff.rfl
      simp only [hcd, hdc]
      rcases Nat.lt_trichotomy c.toNat d.toNat with hlt | heq | hgt
      · simp [hlt, hlt.not_gt, hlt.ne']
      · simp [heq, ih]
      · simp [hgt, hgt.not_gt, hgt.ne']

/-- A key gives back its name and its kind. -/
theorem key_inj {a b : Bytes} {aDir bDir : Bool} (h : key a aDir = key b bDir) :
    a = b ∧ aDir = bDir := by
  obtain ⟨hname, hend⟩ := List.append_inj' h rfl
  refine ⟨List.map_injective_iff.mpr (fun c d => UInt8.toNat_inj.mp) hname, ?_⟩
  cases aDir <;> cases bDir <;> simp_all [endByte]

/-- The file is before its twin. -/
theorem key_file_lt_dir : key name false < key name true := by
  induction name with
  | nil => decide
  | cons c name ih =>
    rw [key_cons, key_cons, List.cons_lt_cons_iff]
    exact .inr ⟨rfl, ih⟩

/-- A file between a file and the first one's twin has its own twin
before that one. -/
theorem twin_nested {f g : Bytes} (hf : NameOk f) (hg : NameOk g)
    (hlt : key f false < key g false) (hle : ¬ key f true < key g false) :
    key g true < key f true := by
  induction f generalizing g with
  | nil =>
    cases g with
    | nil => exact absurd hlt (lt_irrefl _)
    | cons d g =>
      rw [(key_nil_cons hg true false).1, Nat.not_lt] at hle
      exact (key_nil_cons hg true true).2.mpr
        (Nat.lt_of_le_of_ne hle hg.head.2)
  | cons c f ih =>
    cases g with
    | nil =>
      rw [(key_nil_cons hf false false).2] at hlt
      exact absurd hlt (Nat.not_lt_zero _)
    | cons d g =>
      simp only [key_cons, List.cons_lt_cons_iff, not_or, not_and] at *
      rcases hlt with hcd | ⟨hcd, hlt⟩
      · exact absurd hcd hle.1
      · exact .inr ⟨hcd.symm, ih hf.tail hg.tail hlt (hle.2 hcd)⟩

-- ====== the order

/-- An entry's key. -/
def Entry.key (e : Entry) : List ℕ := Bundle.key e.name (e.mode == .dir)

/-- What `visitOrder` knows once it has let the entries `seen` pass. -/
structure Ordered (seen : List Entry) (s : Order) : Prop where
  bad : s.bad = none
  prev : s.prev = seen.getLast?.map fun e => (e.name, e.mode == .dir)
  ascending : (seen.map Entry.key).Pairwise (· < ·)
  nodup : (seen.map Entry.name).Nodup
  /-- A candidate is a file. -/
  file : ∀ c ∈ s.cands, ∃ e ∈ seen, e.name = c ∧ e.key = key c false
  /-- Files not sorted past are candidates. -/
  waiting : ∀ e ∈ seen, e.mode ≠ .dir →
    (∀ last ∈ seen, last.key ≤ key e.name true) → e.name ∈ s.cands
  /-- The top's twin comes first. -/
  nested : s.cands.Pairwise fun c d => key c true < key d true

theorem ordered_start : Ordered [] ⟨none, [], none⟩ where
  bad := rfl
  prev := rfl
  ascending := .nil
  nodup := .nil
  file := by simp
  waiting := by simp
  nested := .nil

theorem mem_dropWhile {α : Type} {p : α → Bool} {a : α} {l : List α}
    (ha : a ∈ l) (hp : p a = false) : a ∈ l.dropWhile p := by
  induction l with
  | nil => cases ha
  | cons b l ih =>
    rw [List.dropWhile_cons]
    split
    next hb =>
      rcases List.mem_cons.mp ha with rfl | ha
      · rw [hp] at hb
        cases hb
      · exact ih ha
    · exact ha

theorem mem_popPast_of_not {c : Bytes} {dir : Bool} (hname : NameOk name)
    (hok : ∀ c ∈ cands, NameOk c) (hc : c ∈ cands)
    (hle : ¬ key c true < key name dir) : c ∈ popPast name dir cands := by
  refine mem_dropWhile hc (decide_eq_false fun hlt => hle ?_)
  exact (compareTreeNames_sign (hok c hc) hname true dir).1.mp hlt

/-- What is left of the candidates is not sorted past: the top's twin
comes first. -/
theorem not_lt_of_mem_popPast {c : Bytes} {dir : Bool} (hname : NameOk name)
    (hok : ∀ c ∈ cands, NameOk c)
    (hnested : cands.Pairwise fun c d => key c true < key d true)
    (hc : c ∈ popPast name dir cands) : ¬ key c true < key name dir := by
  induction cands with
  | nil => cases hc
  | cons b cands ih =>
    rw [List.pairwise_cons] at hnested
    rw [popPast, List.dropWhile_cons] at hc
    split at hc
    · exact ih (fun c hc => hok c (.tail _ hc)) hnested.2 hc
    next hb =>
      have hbtop : ¬ key b true < key name dir := fun hlt => hb (decide_eq_true
        ((compareTreeNames_sign (hok b (.head _)) hname true
          dir).1.mpr hlt))
      rcases List.mem_cons.mp hc with rfl | hc
      · exact hbtop
      · exact fun hlt => hbtop ((hnested.1 c hc).trans hlt)

/-- The head of the candidates left is the one whose twin is `name`, if
one is. -/
theorem head_popPast (hname : NameOk name) (hok : ∀ c ∈ cands, NameOk c)
    (hnested : cands.Pairwise fun c d => key c true < key d true)
    (hc : name ∈ cands) : (popPast name true cands).head? = some name := by
  have hmem := mem_popPast_of_not hname hok hc (lt_irrefl (key name true))
  have hpast : ∀ c ∈ popPast name true cands, ¬ key c true < key name true :=
    fun _ hc => not_lt_of_mem_popPast hname hok hnested hc
  have hsub : (popPast name true cands).Pairwise
      fun c d => key c true < key d true :=
    hnested.sublist (List.dropWhile_sublist _)
  cases hpop : popPast name true cands with
  | nil =>
    rw [hpop] at hmem
    cases hmem
  | cons top rest =>
    rw [hpop] at hmem hsub hpast
    rcases List.mem_cons.mp hmem with rfl | hrest
    · rfl
    · exact absurd ((List.pairwise_cons.mp hsub).1 name hrest)
        (hpast top (.head _))

section

variable (h : Ordered seen s) (hok : ∀ x ∈ seen, NameOk x.name)
include h hok

/-- An entry that is let pass is after every one before it. -/
theorem Ordered.after (he : NameOk e.name)
    (hpass : againstPrev id s.prev e.name (e.mode == .dir) = none) :
    ∀ x ∈ seen, x.key < e.key := by
  rcases List.eq_nil_or_concat seen with rfl | ⟨init, last, rfl⟩
  · simp
  have hmem : last ∈ init.concat last := by simp
  have hlast : last.key < e.key := by
    have hprev := h.prev
    rw [List.concat_eq_append, List.getLast?_concat] at hprev
    rw [hprev, Option.map_some, againstPrev] at hpass
    obtain ⟨hne, hpass⟩ := passedNone hpass
    obtain ⟨hle, hpass⟩ := passedNone hpass
    have hsign := (compareTreeNames_sign (hok last hmem) he
      (last.mode == .dir) (e.mode == .dir)).2
    refine lt_of_le_of_ne (not_lt.mp fun hlt => hle (hsign.mpr hlt)) ?_
    exact fun heq => hne (key_inj heq).1
  have hasc := h.ascending
  rw [List.concat_eq_append, List.map_append, List.pairwise_append] at hasc
  intro x hx
  rw [List.concat_eq_append, List.mem_append] at hx
  rcases hx with hx | hx
  · exact (hasc.2.2 x.key (List.mem_map_of_mem hx) last.key (by simp)).trans
      hlast
  · rw [List.mem_singleton.mp hx]
    exact hlast

theorem Ordered.cands_ok : ∀ c ∈ s.cands, NameOk c := by
  intro c hc
  obtain ⟨y, hy, rfl, -⟩ := h.file c hc
  exact hok y hy

/-- No entry before has the name of one that is let pass. -/
theorem Ordered.fresh
    (hafter : ∀ x ∈ seen, x.key < e.key) (htop : ¬ ((e.mode == .dir) = true ∧
      (popPast e.name (e.mode == .dir) s.cands).head? = some e.name)) :
    ∀ x ∈ seen, x.name ≠ e.name := by
  intro x hx heq
  have hlt := hafter x hx
  have hcands := h.cands_ok hok
  cases hxd : x.mode == .dir with
  | true =>
    -- a directory before: the same key, or after its own file
    cases hed : e.mode == .dir with
    | true =>
      rw [Entry.key, Entry.key, hxd, hed, heq] at hlt
      exact lt_irrefl _ hlt
    | false =>
      rw [Entry.key, Entry.key, hxd, hed, heq] at hlt
      exact lt_asymm hlt key_file_lt_dir
  | false =>
    cases hed : e.mode == .dir with
    | false =>
      rw [Entry.key, Entry.key, hxd, hed, heq] at hlt
      exact lt_irrefl _ hlt
    | true =>
      -- a file before: it still waits, and on top
      rw [hed] at htop
      refine htop ⟨rfl, head_popPast (heq ▸ hok x hx) hcands h.nested ?_⟩
      rw [← heq]
      refine h.waiting x hx (by simpa using hxd) fun last hlast => ?_
      have hle := (hafter last hlast).le
      rwa [Entry.key, Entry.key, hed, ← heq] at hle

/-- `ParseTree`'s visitor keeps the order. -/
theorem Ordered.visit
    (he : NameOk e.name) (hv : visitOrder id s e = (s', true)) :
    Ordered (seen ++ [e]) s' := by
  unfold visitOrder at hv
  dsimp only at hv
  split at hv
  · cases hv
  rename_i hpass
  split at hv
  · cases hv
  rename_i htop
  cases hv
  have hafter := h.after hok he hpass
  have hfresh := h.fresh hok hafter htop
  have hcands := h.cands_ok hok
  have hsub : (popPast e.name (e.mode == .dir) s.cands).Sublist s.cands :=
    List.dropWhile_sublist _
  refine ⟨h.bad, by simp, ?_, ?_, ?_, ?_, ?_⟩
  · rw [List.map_append, List.pairwise_append]
    refine ⟨h.ascending, List.pairwise_singleton _ _, ?_⟩
    intro k hk k' hk'
    obtain ⟨x, hx, rfl⟩ := List.mem_map.mp hk
    rw [List.mem_singleton.mp hk']
    exact hafter x hx
  · rw [List.map_append, List.nodup_append]
    refine ⟨h.nodup, by simp, ?_⟩
    intro n hn n' hn'
    obtain ⟨x, hx, rfl⟩ := List.mem_map.mp hn
    rw [List.mem_singleton.mp hn']
    exact hfresh x hx
  · intro c hc
    have hold : c ∈ s.cands →
        ∃ x ∈ seen ++ [e], x.name = c ∧ x.key = key c false := by
      intro hc
      obtain ⟨y, hy, hname, hkey⟩ := h.file c hc
      exact ⟨y, List.mem_append_left _ hy, hname, hkey⟩
    cases hed : e.mode == .dir with
    | true =>
      simp only [hed, ↓reduceIte] at hc
      exact hold (List.dropWhile_subset _ hc)
    | false =>
      simp only [hed, Bool.false_eq_true, ↓reduceIte] at hc
      rcases List.mem_cons.mp hc with rfl | hc
      · exact ⟨e, by simp, rfl, by rw [Entry.key, hed]⟩
      · exact hold (List.dropWhile_subset _ hc)
  · intro x hx hfile hwait
    have hle := hwait e (by simp)
    rcases List.mem_append.mp hx with hx | hx
    · have hin : x.name ∈ popPast e.name (e.mode == .dir) s.cands := by
        refine mem_popPast_of_not he hcands ?_ (not_lt.mpr hle)
        exact h.waiting x hx hfile
          fun last hlast => hwait last (List.mem_append_left _ hlast)
      split
      · exact hin
      · exact .tail _ hin
    · rw [List.mem_singleton.mp hx] at hfile ⊢
      simp [hfile]
  · have hnested := h.nested.sublist hsub
    split
    · exact hnested
    next hed =>
      rw [List.pairwise_cons]
      refine ⟨fun c hc => ?_, hnested⟩
      obtain ⟨y, hy, rfl, hkey⟩ := h.file c (hsub.subset hc)
      have hed : (e.mode == .dir) = false := by simpa using hed
      have hekey : e.key = key e.name false := by rw [Entry.key, hed]
      refine twin_nested (hok y hy) he ?_ ?_
      · rw [← hkey, ← hekey]
        exact hafter y hy
      · have := not_lt_of_mem_popPast he hcands h.nested hc
        rwa [hed] at this

end

-- ====== the scan

/-- The bytes of a well-formed tree, and its entries. -/
inductive Reads (id : Bytes) : Bytes → List Entry → Prop
  | nil : Reads id [] []
  | cons {rest rest' : Bytes} {e : Entry} {es : List Entry}
      (entry : takeEntry id rest = .ok (e, rest')) (more : Reads id rest' es) :
      Reads id rest (e :: es)

/-- A visitor over a list: its state, and whether it went to the end. -/
def visitAll {σ : Type} (visit : σ → Entry → σ × Bool) :
    List Entry → σ → σ × Bool
  | [], s => (s, true)
  | e :: es, s =>
    match visit s e with
    | (s, false) => (s, false)
    | (s, true) => visitAll visit es s

theorem takeEntry_ne_nil {rest : Bytes} {r : Entry × Bytes}
    (h : takeEntry id rest = .ok r) : rest ≠ [] := by
  rintro rfl
  cases h

/-- A scan over a well-formed tree is its visitor over the entries. -/
theorem scan_of_reads {σ : Type} (visit : σ → Entry → σ × Bool) (s : σ)
    (h : Reads id raw es) :
    scan id visit raw s = ((visitAll visit es s).1, none) := by
  induction h generalizing s with
  | nil => rw [scan, if_pos rfl, visitAll]
  | @cons _ _ e _ hentry _ ih =>
    rw [scan, if_neg (takeEntry_ne_nil hentry), visitAll]
    split
    next heq =>
      rw [hentry] at heq
      cases heq
    next heq =>
      rw [hentry] at heq
      cases heq
      rcases visit s e with ⟨s₁, _ | _⟩
      · rfl
      · exact ih s₁

/-- A scan that found nothing wrong read every entry, or its visitor
stopped it. -/
theorem scan_eq_none {σ : Type} {id : Bytes} {visit : σ → Entry → σ × Bool}
    {raw : Bytes} {s s' : σ} (h : scan id visit raw s = (s', none)) :
    (∃ es, Reads id raw es ∧ visitAll visit es s = (s', true)) ∨
      ∃ s₁ e, visit s₁ e = (s', false) := by
  rw [scan] at h
  split at h
  next hnil =>
    cases h
    subst hnil
    exact .inl ⟨[], .nil, rfl⟩
  · split at h
    · cases h
    rename_i e rest' hentry
    split at h
    next s₁ hvisit =>
      cases h
      exact .inr ⟨s, e, hvisit⟩
    next s₁ hvisit =>
      have := takeEntry_length hentry
      rcases scan_eq_none h with ⟨es, hreads, hall⟩ | hstop
      · refine .inl ⟨e :: es, .cons hentry hreads, ?_⟩
        rw [visitAll, hvisit]
        exact hall
      · exact .inr hstop
termination_by raw.length

theorem takeEntry_nameOk {rest rest' : Bytes}
    (h : takeEntry id rest = .ok (e, rest')) : NameOk e.name := by
  obtain ⟨mode, after, after', -, -, hcut, -, hgood, -⟩ := takeEntry_ok h
  refine ⟨cut_not_mem hcut, fun hslash => ?_⟩
  simp [badName, hslash] at hgood

theorem Reads.nameOk (h : Reads id raw es) : ∀ e ∈ es, NameOk e.name := by
  induction h with
  | nil => simp
  | cons hentry _ ih =>
    intro e he
    rcases List.mem_cons.mp he with rfl | he
    · exact takeEntry_nameOk hentry
    · exact ih e he

/-- The order holds after a run of `ParseTree`'s visitor. -/
theorem ordered_visitAll (hs : Ordered seen s)
    (hok : ∀ e ∈ seen ++ es, NameOk e.name)
    (hall : visitAll (visitOrder id) es s = (s', true)) :
    Ordered (seen ++ es) s' := by
  induction es generalizing seen s with
  | nil =>
    cases hall
    simpa using hs
  | cons e es ih =>
    rw [visitAll] at hall
    split at hall
    · cases hall
    rename_i s₁ hvisit
    have hs₁ := hs.visit (fun x hx => hok x (List.mem_append_left _ hx))
      (hok e (by simp)) hvisit
    have := ih hs₁ (by simpa using hok) hall
    simpa using this

/-- A visit that stops leaves its refusal. -/
theorem visitOrder_stop (h : visitOrder id s e = (s', false)) :
    s'.bad ≠ none := by
  unfold visitOrder at h
  dsimp only at h
  split at h
  · cases h
    simp
  · split at h
    · cases h
      simp
    · cases h

-- ====== the tree

/-- A tree and its entries, as `parseTree` holds them. -/
structure Tree.Parsed (lib : Lib) (t : Tree) (es : List Entry) : Prop where
  id_eq : t.id = objectID lib (str "tree") t.raw
  reads : Reads t.id t.raw es
  nodup : (es.map Entry.name).Nodup

/-- The entries of a tree that is let pass, in order. -/
theorem parseTree_ordered (h : parseTree lib raw = .ok t) :
    raw.length ≤ maxTree ∧ t = ⟨raw, objectID lib (str "tree") raw⟩ ∧
      ∃ es s, Reads t.id raw es ∧ Ordered es s := by
  obtain ⟨hsize, h⟩ := passed h
  dsimp only at h
  split at h
  · cases h
  rename_i s hscan
  split at h
  · cases h
  rename_i hbad
  cases h
  refine ⟨Nat.not_lt.mp hsize, rfl, ?_⟩
  rcases scan_eq_none hscan with ⟨es, hreads, hall⟩ | ⟨s₁, e, hstop⟩
  · exact ⟨es, s, hreads, ordered_visitAll ordered_start
      (by simpa using hreads.nameOk) hall⟩
  · exact absurd hbad (visitOrder_stop hstop)

theorem parseTree_ok (h : parseTree lib raw = .ok t) :
    t.raw = raw ∧ ∃ es, t.Parsed lib es := by
  obtain ⟨-, rfl, es, s, hreads, hord⟩ := parseTree_ordered h
  exact ⟨rfl, es, rfl, hreads, hord.nodup⟩

/-- `Tree.Entries` of a parsed tree. -/
theorem Tree.Parsed.entries (h : t.Parsed lib es) : t.entries = .ok es := by
  have hall : ∀ (es out : List Entry),
      (visitAll (fun out e => (out ++ [e], true)) es out).1 = out ++ es := by
    intro es
    induction es with
    | nil => simp [visitAll]
    | cons e es ih =>
      intro out
      rw [visitAll, ih, List.append_assoc, List.singleton_append]
  rw [Tree.entries, scan_of_reads _ _ h.reads, hall, List.nil_append]

/-- The first entry of a name is the one entry of that name. -/
theorem Tree.Parsed.entry (h : t.Parsed lib es) (name : Bytes) :
    t.entry name = .ok (es.find? (·.name == name)) := by
  have hall : ∀ es : List Entry, (visitAll (fun found e =>
      if e.name ≠ name then (found, true) else (some e, false)) es none).1 =
        es.find? (·.name == name) := by
    intro es
    induction es with
    | nil => rfl
    | cons e es ih =>
      rw [visitAll, List.find?_cons]
      by_cases hname : e.name = name
      · simp [hname]
      · simp only [hname, ne_eq, not_false_eq_true, ↓reduceIte,
          beq_eq_false_iff_ne.mpr hname]
        simpa using ih
  rw [Tree.entry, scan_of_reads _ _ h.reads, hall]

/-- A name's entry, where the tree has it. -/
theorem Tree.Parsed.entry_of_mem (h : t.Parsed lib es) (he : e ∈ es) :
    t.entry e.name = .ok (some e) := by
  rw [h.entry]
  congr 1
  obtain ⟨x, hx⟩ : ∃ x, es.find? (·.name == e.name) = some x :=
    Option.isSome_iff_exists.mp (List.find?_isSome.mpr ⟨e, he, by simp⟩)
  have hname : x.name = e.name := by simpa using List.find?_some hx
  rw [hx, List.inj_on_of_nodup_map h.nodup (List.mem_of_find?_eq_some hx) he
    hname]

end Hotserve.Bundle
