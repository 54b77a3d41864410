/-
`parseTree` accepts exactly the trees git writes.

`Line` and `GitTree` say what those are, without the scan: lines of a
mode, a name and twenty bytes, each name one path component, in git's
order, no name twice. One way, the scan that read to the end read lines,
and `Ordered` has the rest. The other way, an entry of such a tree is
never stopped: it is after the one before it, and a candidate of its name
would be a file of its name (`Ordered.passes`).
-/
import Hotserve.Bundle.Proofs.Tree

namespace Hotserve.Bundle

open Bytes

-- ====== what git writes

def Mode.text : Mode → Bytes
  | .file => str "100644"
  | .executable => str "100755"
  | .symlink => str "120000"
  | .submodule => str "160000"
  | .dir => str "40000"

/-- One entry of a tree, its id as it is stored. -/
structure Line where
  mode : Mode
  name : Bytes
  id : Bytes

namespace Line

/-- `<mode> <name>\0<20 bytes>`. -/
def bytes (l : Line) : Bytes :=
  l.mode.text ++ 32 :: (l.name ++ 0 :: l.id)

/-- What git's order compares: a directory's name as if it ended in
`/`. -/
def sortName (l : Line) : Bytes :=
  l.name ++ if l.mode = .dir then [47] else []

/-- The entry `Tree.entry` gives for it. -/
def entry (l : Line) : Entry := ⟨l.mode, l.name, hexEncode l.id⟩

/-- The name is one path component, which NUL ends, and the id whole. -/
structure WellFormed (l : Line) : Prop where
  nonempty : l.name ≠ []
  dot : l.name ≠ str "."
  dotDot : l.name ≠ str ".."
  slash : (47 : UInt8) ∉ l.name
  nul : (0 : UInt8) ∉ l.name
  id : l.id.length = 20

end Line

/-- A tree git writes. -/
structure GitTree (ls : List Line) : Prop where
  wellFormed : ∀ l ∈ ls, l.WellFormed
  ascending : (ls.map Line.sortName).Pairwise (· < ·)
  nodup : (ls.map Line.name).Nodup

-- ====== the order

/-- The order of the keys is git's. -/
theorem key_lt_iff {a b : Bytes} (ha : NameOk a) (hb : NameOk b)
    (aDir bDir : Bool) : key a aDir < key b bDir ↔
      a ++ (if aDir then [47] else []) < b ++ (if bDir then [47] else []) := by
  induction a generalizing b with
  | nil =>
    cases b with
    | nil => cases aDir <;> cases bDir <;> decide
    | cons d b =>
      rw [(key_nil_cons hb aDir bDir).1]
      have hd := hb.head
      cases aDir with
      | false => simpa [endByte] using Nat.pos_of_ne_zero hd.1
      | true =>
        have hne : (47 : UInt8) ≠ d := fun h => hd.2 (h ▸ rfl)
        simp only [↓reduceIte, List.nil_append, List.cons_append,
          List.cons_lt_cons_iff, hne, false_and, or_false, endByte]
        exact Iff.rfl
  | cons c a ih =>
    cases b with
    | nil =>
      rw [(key_nil_cons ha bDir aDir).2]
      have hc := ha.head
      cases bDir with
      | false => simp [endByte]
      | true =>
        have hne : c ≠ (47 : UInt8) := fun h => hc.2 (h ▸ rfl)
        simp only [↓reduceIte, List.nil_append, List.cons_append,
          List.cons_lt_cons_iff, hne, false_and, or_false, endByte]
        exact Iff.rfl
    | cons d b =>
      rw [key_cons, key_cons, List.cons_append, List.cons_append,
        List.cons_lt_cons_iff, List.cons_lt_cons_iff, UInt8.toNat_inj,
        ih ha.tail hb.tail]
      exact Iff.rfl

variable {l : Line} {id raw : Bytes} {ls : List Line} {es : List Entry}

theorem Line.WellFormed.nameOk (h : l.WellFormed) :
    NameOk l.name := ⟨h.nul, h.slash⟩

theorem Line.entry_key_lt {m : Line} (hl : l.WellFormed)
    (hm : m.WellFormed) : l.entry.key < m.entry.key ↔
      l.sortName < m.sortName := by
  have h := key_lt_iff hl.nameOk hm.nameOk (l.mode == .dir) (m.mode == .dir)
  simpa [Line.sortName, Entry.key, Line.entry] using h

-- ====== the entries

theorem readMode_text (m : Mode) : readMode m.text = some m := by
  cases m <;> decide

theorem readMode_eq_some {b : Bytes} {m : Mode} (h : readMode b = some m) :
    b = m.text := by
  unfold readMode at h
  split at h
  · cases h; assumption
  split at h
  · cases h; assumption
  split at h
  · cases h; assumption
  split at h
  · cases h; assumption
  split at h
  · cases h; assumption
  · cases h

theorem badName_eq_false {name : Bytes} : badName name = false ↔
    name ≠ [] ∧ name ≠ str "." ∧ name ≠ str ".." ∧ (47 : UInt8) ∉ name := by
  simp [badName, and_assoc]

/-- A line is one entry of the scan. -/
theorem takeEntry_bytes (h : l.WellFormed) (id rest : Bytes) :
    takeEntry id (l.bytes ++ rest) = .ok (l.entry, rest) := by
  have hspace : (32 : UInt8) ∉ l.mode.text := by
    cases l.mode <;> decide
  have hbad := badName_eq_false.mpr ⟨h.nonempty, h.dot, h.dotDot, h.slash⟩
  have hlen : ¬ (l.id ++ rest).length < 20 := by
    rw [List.length_append, h.id]
    omega
  have hbytes : l.bytes ++ rest =
      l.mode.text ++ 32 :: (l.name ++ 0 :: (l.id ++ rest)) := by
    simp [Line.bytes]
  unfold takeEntry
  rw [hbytes, cut_append hspace]
  dsimp only
  rw [readMode_text]
  dsimp only
  rw [cut_append h.nul]
  dsimp only
  rw [if_neg hlen, hbad, if_neg Bool.false_ne_true, List.take_left' h.id,
    List.drop_left' h.id]
  rfl

/-- An entry of the scan is a line. -/
theorem takeEntry_line {rest rest' : Bytes} {e : Entry}
    (h : takeEntry id rest = .ok (e, rest')) :
    ∃ l : Line, l.WellFormed ∧ l.entry = e ∧ rest = l.bytes ++ rest' := by
  obtain ⟨mode, after, after', hcut, hmode, hcut', hlen, hgood, hid, rfl⟩ :=
    takeEntry_ok h
  obtain ⟨h₁, h₂, h₃, h₄⟩ := badName_eq_false.mp hgood
  refine ⟨⟨e.mode, e.name, after'.take 20⟩, ⟨h₁, h₂, h₃, h₄,
    cut_not_mem hcut', List.length_take_of_le hlen⟩, ?_, ?_⟩
  · rw [Line.entry, ← hid]
  · rw [cut_eq_some hcut, cut_eq_some hcut', readMode_eq_some hmode]
    simp [Line.bytes]

theorem reads_lines (h : ∀ l ∈ ls, l.WellFormed)
    (id : Bytes) : Reads id (ls.flatMap Line.bytes) (ls.map Line.entry) := by
  induction ls with
  | nil => exact .nil
  | cons l ls ih =>
    rw [List.forall_mem_cons] at h
    rw [List.flatMap_cons, List.map_cons]
    exact .cons (takeEntry_bytes h.1 id _) (ih h.2)

theorem Reads.lines (h : Reads id raw es) :
    ∃ ls : List Line, (∀ l ∈ ls, l.WellFormed) ∧
      ls.map Line.entry = es ∧ raw = ls.flatMap Line.bytes := by
  induction h with
  | nil => exact ⟨[], by simp, rfl, rfl⟩
  | cons hentry _ ih =>
    obtain ⟨l, hl, rfl, rfl⟩ := takeEntry_line hentry
    obtain ⟨ls, hls, rfl, rfl⟩ := ih
    exact ⟨l :: ls, List.forall_mem_cons.mpr ⟨hl, hls⟩, rfl, rfl⟩

/-- The entries are the only ones the bytes are read as. -/
theorem Reads.unique {es' : List Entry}
    (h : Reads id raw es) (h' : Reads id raw es') : es = es' := by
  induction h generalizing es' with
  | nil =>
    cases h' with
    | nil => rfl
    | cons hentry _ => exact absurd rfl (takeEntry_ne_nil hentry)
  | cons hentry _ ih =>
    cases h' with
    | nil => exact absurd rfl (takeEntry_ne_nil hentry)
    | cons hentry' hmore =>
      rw [hentry] at hentry'
      cases hentry'
      rw [ih hmore]

-- ====== the visitor

/-- An entry after every one before, of a name none before has, is let
pass. -/
theorem Ordered.passes {seen : List Entry} {s : Order} {e : Entry}
    (h : Ordered seen s) (hok : ∀ x ∈ seen, NameOk x.name)
    (he : NameOk e.name) (hafter : ∀ x ∈ seen, x.key < e.key)
    (hfresh : ∀ x ∈ seen, x.name ≠ e.name) (id : Bytes) :
    ∃ s', visitOrder id s e = (s', true) := by
  have hprev : againstPrev id s.prev e.name (e.mode == .dir) = none := by
    rw [h.prev]
    cases hlast : seen.getLast? with
    | none => rfl
    | some last =>
      have hmem := List.mem_of_getLast? hlast
      have hsign := (compareTreeNames_sign (hok last hmem) he
        (last.mode == .dir) (e.mode == .dir)).2
      have hle : ¬ 0 < compareTreeNames last.name (last.mode == .dir) e.name
          (e.mode == .dir) := fun hpos =>
        lt_asymm (hafter last hmem) (hsign.mp hpos)
      rw [Option.map_some, againstPrev, if_neg (hfresh last hmem), if_neg hle]
  have htop : ¬ ((e.mode == .dir) = true ∧
      (popPast e.name (e.mode == .dir) s.cands).head? = some e.name) := by
    rintro ⟨-, hhead⟩
    have hmem := List.dropWhile_subset _ (List.mem_of_mem_head? hhead)
    obtain ⟨x, hx, hname, -⟩ := h.file e.name hmem
    exact hfresh x hx hname
  unfold visitOrder
  dsimp only
  rw [hprev]
  dsimp only
  rw [if_neg htop]
  exact ⟨_, rfl⟩

/-- The visitor goes to the end of a tree in order. -/
theorem visitAll_passes {seen : List Entry} {s : Order}
    (hs : Ordered seen s) (hok : ∀ e ∈ seen ++ es, NameOk e.name)
    (hasc : ((seen ++ es).map Entry.key).Pairwise (· < ·))
    (hnodup : ((seen ++ es).map Entry.name).Nodup) :
    ∃ s', visitAll (visitOrder id) es s = (s', true) := by
  induction es generalizing seen s with
  | nil => exact ⟨s, rfl⟩
  | cons e es ih =>
    have hseen : ∀ x ∈ seen, NameOk x.name := fun x hx =>
      hok x (List.mem_append_left _ hx)
    have he : NameOk e.name := hok e (by simp)
    obtain ⟨s', hs'⟩ := hs.passes hseen he (by
        rw [List.map_append, List.pairwise_append] at hasc
        exact fun x hx => hasc.2.2 _ (List.mem_map_of_mem hx) _ (by simp))
      (by
        rw [List.map_append, List.nodup_append] at hnodup
        exact fun x hx => hnodup.2.2 _ (List.mem_map_of_mem hx) _ (by simp))
      id
    rw [visitAll, hs']
    have hassoc : seen ++ e :: es = seen ++ [e] ++ es := by simp
    rw [hassoc] at hok hasc hnodup
    exact ih (hs.visit hseen he hs') hok hasc hnodup

-- ====== acceptance

theorem pairwise_key_iff (h : ∀ l ∈ ls, l.WellFormed) :
    ((ls.map Line.entry).map Entry.key).Pairwise (· < ·) ↔
      (ls.map Line.sortName).Pairwise (· < ·) := by
  rw [List.map_map, List.pairwise_map, List.pairwise_map]
  refine List.Pairwise.iff_of_mem fun hl hm => ?_
  exact Line.entry_key_lt (h _ hl) (h _ hm)

theorem names_entry :
    (ls.map Line.entry).map Entry.name = ls.map Line.name := by
  rw [List.map_map]
  rfl

/-- What `parseTree` lets pass is a tree git writes. -/
theorem parseTree_gitTree {lib : Lib} {t : Tree}
    (h : parseTree lib raw = .ok t) : raw.length ≤ maxTree ∧
      ∃ ls, GitTree ls ∧ raw = ls.flatMap Line.bytes ∧
        t.Parsed lib (ls.map Line.entry) := by
  obtain ⟨hsize, rfl, es, s, hreads, hord⟩ := parseTree_ordered h
  obtain ⟨ls, hls, rfl, hraw⟩ := hreads.lines
  refine ⟨hsize, ls, ⟨hls, (pairwise_key_iff hls).mp hord.ascending, ?_⟩,
    hraw, rfl, hreads, hord.nodup⟩
  rw [← names_entry]
  exact hord.nodup

/-- A tree git writes is let pass. -/
theorem parseTree_of_gitTree (lib : Lib) (h : GitTree ls)
    (hsize : (ls.flatMap Line.bytes).length ≤ maxTree) :
    ∃ t, parseTree lib (ls.flatMap Line.bytes) = .ok t := by
  have hok : ∀ e ∈ ls.map Line.entry, NameOk e.name := by
    intro e he
    obtain ⟨l, hl, rfl⟩ := List.mem_map.mp he
    exact (h.wellFormed l hl).nameOk
  have hreads := reads_lines h.wellFormed
    (objectID lib (str "tree") (ls.flatMap Line.bytes))
  obtain ⟨s', hall⟩ := visitAll_passes
    ordered_start hok
    ((pairwise_key_iff h.wellFormed).mpr h.ascending) (names_entry ▸ h.nodup)
  have hbad := (ordered_visitAll ordered_start hok hall).bad
  unfold parseTree
  rw [if_neg (Nat.not_lt.mpr hsize)]
  dsimp only
  rw [scan_of_reads _ _ hreads, hall]
  dsimp only
  rw [hbad]
  exact ⟨_, rfl⟩

/-- `ParseTree` accepts the trees git writes and no others, and then the
first entry of a name is its only one. -/
theorem parseTree_exact (lib : Lib) (raw : Bytes) :
    ((∃ t, parseTree lib raw = .ok t) ↔ raw.length ≤ maxTree ∧
      ∃ ls, GitTree ls ∧ raw = ls.flatMap Line.bytes) ∧
    ∀ t, parseTree lib raw = .ok t →
      ∀ ls : List Line, (∀ l ∈ ls, l.WellFormed) → raw = ls.flatMap Line.bytes →
        ∀ l ∈ ls, t.entry l.name = .ok (some l.entry) ∧
          ∀ m ∈ ls, m.name = l.name → m = l := by
  refine ⟨⟨?_, ?_⟩, ?_⟩
  · rintro ⟨t, ht⟩
    obtain ⟨hsize, ls, hls, hraw, -⟩ := parseTree_gitTree ht
    exact ⟨hsize, ls, hls, hraw⟩
  · rintro ⟨hsize, ls, hls, rfl⟩
    exact parseTree_of_gitTree lib hls hsize
  · rintro t ht ls hls hraw l hl
    obtain ⟨-, ls', hgit, hraw', hparsed⟩ := parseTree_gitTree ht
    have hreads := reads_lines hls t.id
    have hreads' := reads_lines hgit.wellFormed t.id
    rw [← hraw] at hreads
    rw [← hraw'] at hreads'
    have hsame := hreads.unique hreads'
    rw [← hsame] at hparsed
    refine ⟨hparsed.entry_of_mem (List.mem_map_of_mem hl), fun m hm hname => ?_⟩
    have hnodup := hparsed.nodup
    rw [names_entry] at hnodup
    exact List.inj_on_of_nodup_map hnodup hm hl hname

end Hotserve.Bundle
