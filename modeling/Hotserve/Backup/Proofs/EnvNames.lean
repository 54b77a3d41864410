/-
The matches of `envRe` against the spans Caddy substitutes.

A match is `{$`, a name and perhaps a default, up to the first closer:
what it is between is all there is to it (`matchAt_iff`). From one span
to the next there is then little to see: none before the opener, one at
it if the name is proper, and else at most one further in, which ends at
the same closer (`findAll_next`).
-/
import Hotserve.Backup.EnvNames

namespace Hotserve.Backup.EnvNames

open Bytes Box.Expand

-- ====== a match

/-- The name a span gives: up to the first `:`. -/
def nameOf (content : Bytes) : Bytes := (cut 58 content).elim content Prod.fst

/-- The default, from the `:` on. -/
def dfltOf (content : Bytes) : Bytes := content.drop (nameOf content).length

/-- The name is one, with no white space in it. -/
def Proper (content : Bytes) : Prop :=
  nameOf content ≠ [] ∧ ∀ c ∈ nameOf content, isSpace c = false

instance (content : Bytes) : Decidable (Proper content) :=
  inferInstanceAs (Decidable (_ ∧ _))

/-- The match a span would be. -/
def matchOf (sp : Span) : Match :=
  ⟨nameOf sp.content, dfltOf sp.content, sp.start, sp.stop⟩

theorem nameOf_append {name dflt : Bytes} (hname : (58 : UInt8) ∉ name)
    (hdflt : dflt = [] ∨ ∃ e, dflt = 58 :: e) :
    nameOf (name ++ dflt) = name := by
  unfold nameOf
  rcases hdflt with rfl | ⟨e, rfl⟩
  · rw [List.append_nil]
    cases hcut : cut 58 name with
    | none => rfl
    | some p =>
      rw [cut_eq_some hcut] at hname
      exact absurd (by simp) hname
  · rw [cut_append hname]
    rfl

theorem content_eq (content : Bytes) :
    content = nameOf content ++ dfltOf content ∧ (58 : UInt8) ∉ nameOf content ∧
      (dfltOf content = [] ∨ ∃ e, dfltOf content = 58 :: e) := by
  unfold dfltOf nameOf
  cases hcut : cut 58 content with
  | none => simp [not_mem_of_cut_none hcut]
  | some p =>
    have heq := cut_eq_some hcut
    refine ⟨?_, cut_not_mem hcut, .inr ⟨p.2, ?_⟩⟩
    · simp [heq]
    · simp [heq]

theorem reads_dflt {n : Nat} {d : Bytes} {c : List Bytes} :
    (Regex.opt (.group (.seq (.lit [58]) (.rep dfltByte 0 n)))).Reads d c ↔
      c = [d] ∧ (d = [] ∨ ∃ e, d = 58 :: e ∧ e.length ≤ n ∧ spanClose ∉ e) := by
  simp only [Regex.Reads]
  constructor
  · rintro (⟨_, rfl, _, e, _, _, rfl, rfl, ⟨rfl, rfl⟩, -, hn, he, rfl⟩ |
      ⟨rfl, rfl⟩)
    · exact ⟨rfl, .inr ⟨e, rfl, hn, fun h => by simpa [dfltByte] using he _ h⟩⟩
    · exact ⟨rfl, .inl rfl⟩
  · rintro ⟨rfl, rfl | ⟨e, rfl, hn, he⟩⟩
    · exact .inr ⟨rfl, rfl⟩
    · refine .inl ⟨_, rfl, [58], e, [], [], rfl, rfl, ⟨rfl, rfl⟩, Nat.zero_le _,
        hn, fun c hc => ?_, rfl⟩
      exact bne_iff_ne.mpr fun heq => he (heq ▸ hc)

theorem reads_iff {n : Nat} {w : Bytes} {c : List Bytes} :
    (envRe n).Reads w c ↔ ∃ content, w = spanOpen ++ (content ++ [spanClose]) ∧
      spanClose ∉ content ∧ Proper content ∧ (nameOf content).length ≤ n ∧
      (dfltOf content).length ≤ n + 1 ∧
      c = [nameOf content, dfltOf content] := by
  rw [envRe]
  constructor
  · rintro ⟨_, _, _, _, rfl, rfl, ⟨rfl, rfl⟩, name, _, _, _, rfl, rfl,
      ⟨_, rfl, hlo, hhi, hname, rfl⟩, d, _, _, _, rfl, rfl, hd, rfl, rfl⟩
    obtain ⟨rfl, hform⟩ := reads_dflt.mp hd
    have hclose : spanClose ∉ name := fun h => by
      simpa [nameByte] using hname _ h
    have hcolon : (58 : UInt8) ∉ name := fun h => by
      simpa [nameByte] using hname _ h
    have hof : nameOf (name ++ d) = name :=
      nameOf_append hcolon (hform.imp_right fun ⟨e, he, _⟩ => ⟨e, he⟩)
    have hdflt : dfltOf (name ++ d) = d := by
      rw [dfltOf, hof, List.drop_left]
    refine ⟨name ++ d, by simp, ?_, ⟨?_, ?_⟩, ?_, ?_, ?_⟩
    · rcases hform with rfl | ⟨e, rfl, -, he⟩
      · simpa using hclose
      · simpa [hclose, he] using (by decide : ¬ spanClose = 58)
    · rw [hof]
      exact List.ne_nil_of_length_pos hlo
    · rw [hof]
      intro c hc
      have := hname c hc
      simp only [nameByte, Bool.and_eq_true, Bool.not_eq_true'] at this
      exact this.2
    · rwa [hof]
    · rw [hdflt]
      rcases hform with rfl | ⟨e, rfl, hn, -⟩
      · exact Nat.zero_le _
      · exact Nat.succ_le_succ hn
    · rw [hof, hdflt]
      rfl
  · rintro ⟨content, rfl, hclose, ⟨hne, hspace⟩, hn, hd, rfl⟩
    obtain ⟨heq, hcolon, hdflt⟩ := content_eq content
    have hname : spanClose ∉ nameOf content ∧ spanClose ∉ dfltOf content := by
      rw [heq, List.mem_append, not_or] at hclose
      exact hclose
    refine ⟨spanOpen, content ++ [spanClose], [], _, rfl, rfl, ⟨rfl, rfl⟩,
      nameOf content, dfltOf content ++ [spanClose], [nameOf content],
      [dfltOf content], ?_, rfl, ⟨[], rfl, List.length_pos_iff.mpr hne, hn, ?_,
        rfl⟩, dfltOf content, [spanClose], [dfltOf content], [], rfl, rfl,
      reads_dflt.mpr ⟨rfl, ?_⟩, rfl, rfl⟩
    · rw [← List.append_assoc, ← heq]
    · intro c hc
      have h₁ : c ≠ spanClose := fun h => hname.1 (h ▸ hc)
      have h₂ : c ≠ 58 := fun h => hcolon (h ▸ hc)
      simp [nameByte, h₁, h₂, hspace c hc]
    · refine hdflt.imp_right ?_
      rintro ⟨e, he⟩
      rw [he, List.length_cons] at hd
      refine ⟨e, he, by omega, fun h => hname.2 ?_⟩
      rw [he]
      exact .tail _ h

variable {text file : Bytes} {m : Match}

theorem matchAt_iff {rest : Bytes} : matchAt text = some (m, rest) ↔ ∃ content,
      text = spanOpen ++ (content ++ spanClose :: rest) ∧ spanClose ∉ content ∧
      Proper content ∧ m = matchOf ⟨content, text.length, rest.length⟩ := by
  constructor
  · intro h
    obtain ⟨hmem, hstart, hstop⟩ := matchAt_mem h
    obtain ⟨w, heq, hreads⟩ := Regex.mem_run.mp hmem
    obtain ⟨content, rfl, hclose, hproper, -, -, hc⟩ := reads_iff.mp hreads
    refine ⟨content, by simp [heq], hclose, hproper, ?_⟩
    obtain ⟨name, dflt, start, stop⟩ := m
    cases hc
    cases hstart
    cases hstop
    rfl
  · rintro ⟨content, heq, hclose, hproper, rfl⟩
    have hlen : content.length ≤ text.length := by
      simp only [heq, List.length_append, List.length_cons]
      omega
    have hname : (nameOf content).length + (dfltOf content).length =
        content.length := by
      rw [← List.length_append, ← (content_eq content).1]
    have hmem : ([nameOf content, dfltOf content], rest) ∈
        (envRe text.length).run text :=
      Regex.mem_run.mpr ⟨spanOpen ++ (content ++ [spanClose]), by simp [heq],
        reads_iff.mpr ⟨content, rfl, hclose, hproper, by omega, by omega, rfl⟩⟩
    cases hrun : (envRe text.length).run text with
    | nil =>
      rw [hrun] at hmem
      cases hmem
    | cons x others =>
      -- the closer is the first after the opener
      have hx : x ∈ (envRe text.length).run text := by
        rw [hrun]
        exact .head _
      obtain ⟨w, hw, hreads⟩ := Regex.mem_run.mp hx
      obtain ⟨content', rfl, hclose', -, -, -, hc⟩ := reads_iff.mp hreads
      have hsame : content ++ spanClose :: rest =
          content' ++ spanClose :: x.2 := by
        rw [heq] at hw
        simpa using hw
      have hcut := cut_append hclose rest
      rw [hsame, cut_append hclose' x.2] at hcut
      cases hcut
      obtain ⟨c, rest⟩ := x
      cases hc
      rw [matchAt, hrun]
      rfl

-- ====== the search

theorem findAll_skip {c : UInt8}
    (h : ∀ m rest, matchAt (c :: text) ≠ some (m, rest)) :
    findAll (c :: text) = findAll text := by
  rw [findAll]
  split
  next => rfl
  next m rest hm => exact absurd hm (h m rest)

theorem findAll_match {rest : Bytes} (h : matchAt text = some (m, rest)) :
    findAll text = m :: findAll rest := by
  cases text with
  | nil => exact absurd (matchAt_length h) (by simp)
  | cons c text =>
    rw [findAll]
    split
    next hnone =>
      rw [h] at hnone
      cases hnone
    next m' rest' hm =>
      rw [h] at hm
      cases hm
      rfl

/-- No closer, no match. -/
theorem findAll_unclosed (h : spanClose ∉ text) : findAll text = [] := by
  induction text with
  | nil => rw [findAll]
  | cons c text ih =>
    rw [List.mem_cons, not_or] at h
    rw [findAll_skip fun m rest hm => ?_, ih h.2]
    obtain ⟨content, heq, -⟩ := matchAt_iff.mp hm
    have hmem : spanClose ∈ c :: text := by simp [heq]
    exact (List.mem_cons.mp hmem).elim h.1 h.2

/-- No match begins before the first opener. -/
theorem findAll_before : findAll text = match cutOn spanOpen text with
      | none => []
      | some (_, rest) => findAll (spanOpen ++ rest) := by
  induction text with
  | nil =>
    rw [findAll]
    rfl
  | cons c text ih =>
    rw [cutOn]
    by_cases hpre : spanOpen.isPrefixOf (c :: text) = true
    · obtain ⟨rest, hrest⟩ := List.isPrefixOf_iff_prefix.mp hpre
      rw [if_pos hpre, ← hrest, List.drop_left]
    · rw [if_neg hpre, findAll_skip fun m rest hm => ?_, ih]
      · cases cutOn spanOpen text with
        | none => rfl
        | some p => rfl
      · obtain ⟨content, heq, -⟩ := matchAt_iff.mp hm
        exact hpre (List.isPrefixOf_iff_prefix.mpr ⟨_, heq.symm⟩)

/-- Within what has no closer there is at most one match, up to the closer
after it. -/
theorem findAll_inside {u : Bytes} (after : Bytes) (hu : spanClose ∉ u) :
    ∃ ms, findAll (u ++ spanClose :: after) = ms ++ findAll after ∧
      ∀ m ∈ ms, 3 ≤ u.length ∧ m.stop = after.length ∧
        m.start ≤ u.length + after.length + 1 := by
  induction u with
  | nil =>
    refine ⟨[], findAll_skip fun m rest hm => ?_, by simp⟩
    obtain ⟨content, heq, -⟩ := matchAt_iff.mp hm
    cases heq
  | cons c u ih =>
    rw [List.mem_cons, not_or] at hu
    cases hm : matchAt (c :: u ++ spanClose :: after) with
    | some p =>
      obtain ⟨m, rest⟩ := p
      obtain ⟨content, heq, hclose, ⟨hne, -⟩, rfl⟩ := matchAt_iff.mp hm
      have hopen : spanClose ∉ spanOpen ++ content := by
        rw [List.mem_append, not_or]
        exact ⟨by decide, hclose⟩
      have hcut := cut_append (List.not_mem_cons_of_ne_of_not_mem hu.1 hu.2)
        after
      rw [heq, ← List.append_assoc, cut_append hopen] at hcut
      obtain ⟨hsame, rfl⟩ := Prod.mk.inj (Option.some.inj hcut)
      refine ⟨[_], findAll_match hm, fun m hmem => ?_⟩
      rw [List.mem_singleton.mp hmem, ← hsame]
      have hpos : 0 < content.length := by
        refine List.length_pos_iff.mpr ?_
        rintro rfl
        exact hne rfl
      have htwo : spanOpen.length = 2 := rfl
      simp only [List.length_append, matchOf, List.length_cons, true_and]
      omega
    | none =>
      obtain ⟨ms, hms, hall⟩ := ih hu.2
      refine ⟨ms, ?_, fun m hmem => ?_⟩
      · rw [List.cons_append, findAll_skip fun m rest h => ?_, hms]
        rw [List.cons_append, h] at hm
        cases hm
      · obtain ⟨h₁, h₂, h₃⟩ := hall m hmem
        rw [List.length_cons]
        exact ⟨by omega, h₂, by omega⟩

/-- From one span to the next. -/
theorem findAll_next {before content after : Bytes}
    (h : nextSpan text = some (before, content, after)) :
    ∃ ms, findAll text = ms ++ findAll after ∧ (Proper content → ms = [matchOf
        ⟨content, text.length - before.length, after.length⟩]) ∧
      (¬ Proper content → ∀ m ∈ ms, content ≠ [] ∧ m.stop = after.length ∧
        m.start < text.length - before.length) := by
  obtain ⟨htext, hclose⟩ := nextSpan_eq h
  have hlen := nextSpan_length h
  have hfrom : findAll text =
      findAll (spanOpen ++ (content ++ spanClose :: after)) := by
    unfold nextSpan at h
    split at h
    next => cases h
    next b r hcut =>
      obtain ⟨⟨x, y⟩, hcut', heq⟩ := Option.map_eq_some_iff.mp h
      cases heq
      rw [findAll_before, hcut, ← cut_eq_some hcut']
  rw [hfrom]
  by_cases hproper : Proper content
  · refine ⟨[_], findAll_match (matchAt_iff.mpr ⟨content, rfl, hclose, hproper,
      rfl⟩), fun _ => ?_, fun hnot => absurd hproper hnot⟩
    have hat : (spanOpen ++ (content ++ spanClose :: after)).length =
        text.length - before.length := by
      simp [htext]
    rw [hat]
  · -- none at the opener, so the rest is inside
    have hskip : findAll (spanOpen ++ (content ++ spanClose :: after)) =
        findAll ((36 :: content) ++ spanClose :: after) := by
      refine findAll_skip fun m rest hm => ?_
      obtain ⟨content', heq, hclose', hproper', -⟩ := matchAt_iff.mp hm
      have hsame : content ++ spanClose :: after =
          content' ++ spanClose :: rest := by
        change spanOpen ++ _ = _ at heq
        exact List.append_cancel_left heq
      have hcut := cut_append hclose after
      rw [hsame, cut_append hclose'] at hcut
      cases hcut
      exact hproper hproper'
    have hinside : spanClose ∉ 36 :: content := by
      rw [List.mem_cons, not_or]
      exact ⟨by decide, hclose⟩
    obtain ⟨ms, hms, hall⟩ := findAll_inside after hinside
    refine ⟨ms, hskip.trans hms, fun hp => absurd hp hproper, fun _ m hm => ?_⟩
    obtain ⟨hthree, hstop, hstart⟩ := hall m hm
    rw [List.length_cons] at hthree hstart
    refine ⟨?_, hstop, by omega⟩
    rintro rfl
    simp at hthree

theorem findAll_none (h : nextSpan text = none) : findAll text = [] := by
  rw [findAll_before]
  cases hcut : cutOn spanOpen text with
  | none => rfl
  | some p =>
    rw [nextSpan, hcut] at h
    refine findAll_unclosed ?_
    rw [List.mem_append, not_or]
    exact ⟨by decide, not_mem_of_cut_none (Option.map_eq_none_iff.mp h)⟩

-- ====== the spans

/-- The spans that are substituted, whatever the values. -/
def spans (text : Bytes) : List Span := (expand dflt text).2

theorem expand_spans (value : Bytes → Bytes) (text : Bytes) :
    (expand value text).2 = spans text := by
  unfold spans
  cases hnext : nextSpan text with
  | none => rw [expand_none hnext, expand_none hnext]
  | some p =>
    obtain ⟨before, name, after⟩ := p
    have hlen := nextSpan_length hnext
    have ih := expand_spans value after
    rw [expand_some hnext, expand_some hnext, ih]
    split
    next => rfl
    next => rfl
termination_by text.length
decreasing_by omega

theorem spans_some {before content after : Bytes}
    (h : nextSpan text = some (before, content, after)) :
    spans text = if content = [] then spans after
      else ⟨content, text.length - before.length, after.length⟩ ::
        spans after := by
  rw [spans, expand_some h]
  split
  next => rfl
  next => rfl

/-- A span with a proper name is a match, and every other match is in a
span with none, and ends where it does. -/
theorem findAll_spans (text : Bytes) :
    (∀ sp ∈ spans text, Proper sp.content → matchOf sp ∈ findAll text) ∧
      ∀ m ∈ findAll text, ∃ sp ∈ spans text,
        Proper sp.content ∧ m = matchOf sp ∨
        ¬ Proper sp.content ∧ m.stop = sp.stop ∧ m.start < sp.start := by
  cases hnext : nextSpan text with
  | none => simp [findAll_none hnext, spans, expand_none hnext]
  | some p =>
    obtain ⟨before, content, after⟩ := p
    have hlen := nextSpan_length hnext
    obtain ⟨ihspan, ihmatch⟩ := findAll_spans after
    obtain ⟨ms, hms, hyes, hno⟩ := findAll_next hnext
    have hmem : ∀ sp ∈ spans text, sp ∈ spans after ∨
        sp = ⟨content, text.length - before.length, after.length⟩ := by
      rw [spans_some hnext]
      split
      next => exact fun sp hsp => .inl hsp
      next => exact fun sp hsp => (List.mem_cons.mp hsp).symm
    have hsub : ∀ sp ∈ spans after, sp ∈ spans text := by
      rw [spans_some hnext]
      split
      next => exact fun sp hsp => hsp
      next => exact fun sp hsp => .tail _ hsp
    have hown : content ≠ [] →
        ⟨content, text.length - before.length, after.length⟩ ∈ spans text := by
      intro hne
      rw [spans_some hnext, if_neg hne]
      exact .head _
    rw [hms]
    constructor
    · intro sp hsp hproper
      rw [List.mem_append]
      rcases hmem sp hsp with hsp | rfl
      · exact .inr (ihspan sp hsp hproper)
      · rw [hyes hproper]
        exact .inl (.head _)
    · intro m hm
      rcases List.mem_append.mp hm with hm | hm
      · by_cases hproper : Proper content
        · rw [hyes hproper] at hm
          refine ⟨_, hown ?_, .inl ⟨hproper, List.mem_singleton.mp hm⟩⟩
          rintro rfl
          exact hproper.1 rfl
        · obtain ⟨hne, hstop, hstart⟩ := hno hproper m hm
          exact ⟨_, hown hne, .inr ⟨hproper, hstop, hstart⟩⟩
      · obtain ⟨sp, hsp, hwhich⟩ := ihmatch m hm
        exact ⟨sp, hsub sp hsp, hwhich⟩
termination_by text.length
decreasing_by omega

-- ====== the names

/-- A match is listed, and the file it is in. -/
def Noted (s : Names) (file : Bytes) (m : Match) : Prop :=
  (∃ bare, s.names.get m.name = some bare ∧ (m.dflt = [] → bare = true)) ∧
    ∃ files, s.within.get m.name = some files ∧ file ∈ files

theorem noted_note (s : Names) : Noted (note file s m) file m := by
  refine ⟨⟨(s.names.get m.name).getD false || m.dflt.isEmpty, ?_,
    fun h => by simp [h]⟩, ?_⟩
  · rw [note, Table.get_set, if_pos rfl]
  · unfold note
    dsimp only
    cases hfiles : s.within.get m.name with
    | none => exact ⟨[file], by simp [Table.get_set], List.mem_singleton_self _⟩
    | some files =>
      by_cases hmem : file ∈ files
      · exact ⟨files, by simp [hmem, hfiles], hmem⟩
      · exact ⟨files ++ [file], by simp [hmem, Table.get_set], by simp⟩

theorem Noted.note {s : Names} {file : Bytes} {m : Match}
    (h : Noted s file m) (file' : Bytes) (m' : Match) :
    Noted (note file' s m') file m := by
  obtain ⟨⟨bare, hbare, hyes⟩, files, hfiles, hmem⟩ := h
  by_cases hname : m.name = m'.name
  · refine ⟨⟨bare || m'.dflt.isEmpty, ?_, fun hd => by simp [hyes hd]⟩, ?_⟩
    · rw [EnvNames.note, Table.get_set, if_pos hname, ← hname, hbare]
      rfl
    · unfold EnvNames.note
      dsimp only
      rw [← hname, hfiles, Option.getD_some]
      split
      next => exact ⟨files, hfiles, hmem⟩
      next =>
        exact ⟨files ++ [file'], by rw [Table.get_set, if_pos rfl],
          List.mem_append_left _ hmem⟩
  · refine ⟨⟨bare, ?_, hyes⟩, files, ?_, hmem⟩
    · rw [EnvNames.note, Table.get_set, if_neg hname, hbare]
    · unfold EnvNames.note
      dsimp only
      split
      next => exact hfiles
      next => rw [Table.get_set, if_neg hname, hfiles]

/-- What each element leaves and none takes away is there after all. -/
theorem foldl_leaves {σ α : Type} {f : σ → α → σ} {P : σ → Prop} {a : α}
    (hown : ∀ s, P (f s a)) (hkeep : ∀ s b, P s → P (f s b)) :
    ∀ (l : List α) (s : σ), a ∈ l ∨ P s → P (l.foldl f s) := by
  intro l
  induction l with
  | nil => exact fun s h => h.resolve_left (List.not_mem_nil)
  | cons b l ih =>
    intro s h
    rw [List.foldl_cons]
    refine ih _ ?_
    rcases h with hmem | hs
    · rcases List.mem_cons.mp hmem with rfl | hmem
      · exact .inr (hown s)
      · exact .inl hmem
    · exact .inr (hkeep s b hs)

theorem Noted.read {s : Names} {file : Bytes} {m : Match}
    (h : Noted s file m) (file' : Bytes × Bytes) :
    Noted (read s file') file m := by
  unfold EnvNames.read
  generalize findAll file'.2 = ms
  induction ms generalizing s with
  | nil => exact h
  | cons m' ms ih => exact ih (h.note file'.1 m')

theorem noted_read (hm : m ∈ findAll text) (s : Names) :
    Noted (read s (file, text)) file m :=
  foldl_leaves (P := fun s => Noted s file m) (fun s => noted_note s)
    (fun _ m' h => h.note file m') _ _ (.inl hm)

theorem sorted_noted {s : Names} (h : Noted s file m) :
    m.name ∈ (sorted s.names).1 ∧
      (m.dflt = [] → m.name ∈ (sorted s.names).2) := by
  obtain ⟨⟨bare, hbare, hyes⟩, -⟩ := h
  unfold sorted
  rw [List.mem_insertionSort, List.mem_insertionSort, Table.mem_keys,
    Table.mem_keys]
  refine ⟨⟨bare, hbare⟩, fun hd => ⟨bare, ?_⟩⟩
  rw [Table.get_filter]
  exact ⟨hbare, hyes hd⟩

/-- The files `envNames` reads. -/
def filesRead (caddyfile raw : Bytes) (beside : List (Bytes × Option Bytes)) :
    List (Bytes × Bytes) :=
  (caddyfile, raw) :: beside.filterMap fun f => f.2.map fun raw => (f.1, raw)

theorem envNames_noted {errText caddyfile raw : Bytes}
    {beside : List (Bytes × Option Bytes)} {all noDefault : List Bytes}
    {within : Table Bytes (List Bytes)}
    (h : envNames errText caddyfile (some raw) beside =
      .ok (all, noDefault, within))
    (hfile : (file, text) ∈ filesRead caddyfile raw beside)
    (hm : m ∈ findAll text) :
    m.name ∈ all ∧ (m.dflt = [] → m.name ∈ noDefault) ∧
      ∃ files, within.get m.name = some files ∧ file ∈ files := by
  have hnoted : Noted ((filesRead caddyfile raw beside).foldl read
      ⟨.empty, .empty⟩) file m :=
    foldl_leaves (P := fun s => Noted s file m) (noted_read hm)
      (fun _ file' h => h.read file') _ _ (.inl hfile)
  obtain ⟨hall, hnone⟩ := sorted_noted hnoted
  cases h
  exact ⟨hall, hnone, hnoted.2⟩

-- ====== the environment

/-- What goes in for a span: the value, of one that is set and not empty,
and else the default. -/
def valueIn (env : Bytes → Option Bytes) (content : Bytes) : Bytes :=
  match env (nameOf content) with
  | none => dflt content
  | some [] => dflt content
  | some (c :: v) => c :: v

/-- The spans of a file that are substituted. -/
def substituted (env : Bytes → Option Bytes) (text : Bytes) : List Span :=
  (replaceEnvVars (valueIn env) text 0).2

theorem substituted_eq (env : Bytes → Option Bytes) :
    substituted env text = spans text := by
  have h := replaceEnvVars_append (valueIn env) [] text
  rw [List.nil_append, List.length_nil] at h
  rw [substituted, h, expand_spans]

/-- No variable that is substituted, in any environment, is missed: the
spans are the text's own; each whose name is one with no white space is a
match, with its name and default, and the rest of the matches lie in the
others and end with them; and of the files that are read, the names are
listed, those with no default too, and with each the files it is in. -/
theorem envNames_misses_none (env : Bytes → Option Bytes) :
    (∀ env' text, substituted env text = substituted env' text) ∧
    (∀ text, ∀ sp ∈ substituted env text, Proper sp.content →
      matchOf sp ∈ findAll text) ∧ (∀ text, ∀ m ∈ findAll text,
      (∃ sp ∈ substituted env text, Proper sp.content ∧ m = matchOf sp) ∨
      ∃ sp ∈ substituted env text, ¬ Proper sp.content ∧ m.stop = sp.stop ∧
        m.start < sp.start) ∧
    ∀ errText caddyfile raw beside all noDefault within,
      envNames errText caddyfile (some raw) beside =
        .ok (all, noDefault, within) →
      ∀ f ∈ filesRead caddyfile raw beside, ∀ sp ∈ substituted env f.2,
        Proper sp.content → nameOf sp.content ∈ all ∧
        (dfltOf sp.content = [] → nameOf sp.content ∈ noDefault) ∧
        ∃ files, within.get (nameOf sp.content) = some files ∧ f.1 ∈ files := by
  refine ⟨fun env' text => ?_, fun text sp hsp hproper => ?_,
    fun text m hm => ?_, ?_⟩
  · rw [substituted_eq, substituted_eq]
  · rw [substituted_eq] at hsp
    exact (findAll_spans text).1 sp hsp hproper
  · obtain ⟨sp, hsp, hyes | hno⟩ := (findAll_spans text).2 m hm
    · exact .inl ⟨sp, substituted_eq env ▸ hsp, hyes⟩
    · exact .inr ⟨sp, substituted_eq env ▸ hsp, hno⟩
  · intro errText caddyfile raw beside all noDefault within hrun f hf sp hsp
      hproper
    rw [substituted_eq] at hsp
    exact envNames_noted hrun hf ((findAll_spans f.2).1 sp hsp hproper)

/-- `{$A}`, an opener in the default of `B`, and `{$A:1}` in a file
beside. -/
theorem envNames_misses_none_example : ∃ all noDefault within,
      envNames [] (str "Caddyfile") (some (str "\x7b$A\x7d \x7b$B:\x7b$C\x7d"))
          [(str "snip", some (str "\x7b$A:1\x7d"))] =
        .ok (all, noDefault, within) ∧
      str "A" ∈ all ∧ str "A" ∈ noDefault ∧ str "B" ∈ all ∧
      ∃ files, within.get (str "A") = some files ∧ str "snip" ∈ files := by
  refine ⟨_, _, _, rfl, ?_⟩
  have h := (envNames_misses_none fun _ => none).2.2.2 [] (str "Caddyfile")
    (str "\x7b$A\x7d \x7b$B:\x7b$C\x7d")
    [(str "snip", some (str "\x7b$A:1\x7d"))] _ _ _ rfl
  obtain ⟨hall, hnone, -⟩ := h _ (.head _) ⟨str "A", 13, 9⟩
    (by decide +kernel) (by decide +kernel)
  obtain ⟨hnested, -, -⟩ := h _ (.head _) ⟨str "B:\x7b$C", 8, 0⟩
    (by decide +kernel) (by decide +kernel)
  obtain ⟨-, -, hfiles⟩ := h _ (.tail _ (.head _))
    ⟨str "A:1", 6, 0⟩ (by decide +kernel) (by decide +kernel)
  exact ⟨hall, hnone (by decide +kernel), hnested, hfiles⟩

/-- `{$:{$X}`: a match in a span with no white space in its name, which is
empty. -/
theorem empty_name_holds_a_match : ∃ m ∈ findAll (str "\x7b$:\x7b$X\x7d"),
      ∀ sp ∈ substituted (fun _ => none) (str "\x7b$:\x7b$X\x7d"),
        m ≠ matchOf sp ∧ ∀ c ∈ nameOf sp.content, isSpace c = false := by
  decide +kernel

end Hotserve.Backup.EnvNames
