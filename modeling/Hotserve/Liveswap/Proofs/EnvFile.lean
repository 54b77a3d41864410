/-
What the box renders is what a launch reads. A rendered line begins with
a key's letter and ends with a quote, so trimming takes nothing off it;
its first `=` follows the key, which has none; and the outer quotes are
the two the rendering wrote, whatever the value has inside.
-/
import Hotserve.Liveswap.EnvFile
import Hotserve.Text

namespace Hotserve.Liveswap

open Bytes
open Box (envKeyRe shellOwnedEnvKey validEnvKey isLower isUpper isDigit)

variable {quote : Quote}

/-- A pair as a `KEY=VALUE` string. -/
def joined (p : Bytes × Bytes) : Bytes := p.1 ++ 61 :: p.2

/-- A value an env file carries. -/
structure Carried (value : Bytes) : Prop where
  lines : hasLineBreak value = false
  nul : value.contains 0 = false
  utf8 : validUTF8 value = true

/-- A pair an env file carries. -/
structure Fits (p : Bytes × Bytes) : Prop where
  key : validEnvKey p.1 = true
  value : Carried p.2

-- ====== keys

/-- A byte a key may have. -/
def keyByte (c : UInt8) : Bool := isLower c || isUpper c || isDigit c || c == 95

variable {c : UInt8} {key path body : Bytes} {p : Bytes × Bytes}
  {pairs : List (Bytes × Bytes)} {vars : List Bytes}

theorem keyByte_iff : keyByte c = true ↔
    (97 ≤ c ∧ c ≤ 122) ∨ (65 ≤ c ∧ c ≤ 90) ∨ (48 ≤ c ∧ c ≤ 57) ∨ c = 95 := by
  simp [keyByte, isLower, isUpper, isDigit, or_assoc]

theorem keyByte_solid (h : keyByte c = true) : Solid c := by
  rw [keyByte_iff] at h
  rw [Solid, UInt8.lt_iff_toNat_lt, UInt8.lt_iff_toNat_lt]
  simp only [UInt8.le_iff_toNat_le, ← UInt8.toNat_inj] at h
  change 32 < c.toNat ∧ c.toNat < 128
  change (97 ≤ c.toNat ∧ c.toNat ≤ 122) ∨ (65 ≤ c.toNat ∧ c.toNat ≤ 90) ∨
    (48 ≤ c.toNat ∧ c.toNat ≤ 57) ∨ c.toNat = 95 at h
  omega

theorem envKeyRe_bytes (h : envKeyRe key = true) :
    key ≠ [] ∧ ∀ c ∈ key, keyByte c = true := by
  cases key with
  | nil => cases h
  | cons c rest =>
    rw [envKeyRe, Bool.and_eq_true, List.all_eq_true] at h
    refine ⟨by simp, fun d hd => ?_⟩
    rcases List.mem_cons.mp hd with rfl | hd
    · have := h.1
      simp only [Bool.or_eq_true] at this
      rcases this with (h | h) | h <;> simp [keyByte, h]
    · exact h.2 d hd

theorem validEnvKey_parts (h : validEnvKey key = true) :
    envKeyRe key = true ∧ shellOwnedEnvKey key = false := by
  simpa [validEnvKey] using h

theorem not_mem_key (h : validEnvKey key = true) (hc : keyByte c = false) :
    c ∉ key := by
  intro hmem
  rw [(envKeyRe_bytes (validEnvKey_parts h).1).2 c hmem] at hc
  cases hc

/-- A key stands where no byte of one can follow. -/
theorem key_eq_of_append {a b : Bytes} {d : UInt8} {x y : Bytes}
    (ha : ∀ e ∈ a, keyByte e = true) (hb : ∀ e ∈ b, keyByte e = true)
    (hc : keyByte c = false) (hd : keyByte d = false)
    (heq : a ++ c :: x = b ++ d :: y) : c = d := by
  have hdrop : ∀ {e : UInt8} {k z : Bytes}, (∀ e ∈ k, keyByte e = true) →
      keyByte e = false → (k ++ e :: z).dropWhile keyByte = e :: z := by
    intro e k z hk he
    rw [List.dropWhile_append_of_pos hk, List.dropWhile_cons, he]
    rfl
  have := congrArg (List.dropWhile keyByte) heq
  rw [hdrop ha hc, hdrop hb hd] at this
  exact (List.cons.inj this).1

-- ====== a line

theorem unquote_quoted (value : Bytes) :
    unquote (34 :: value ++ [34]) = value := by
  rw [unquote, if_pos ⟨by simp, .inl ⟨rfl, List.getLast?_concat ..⟩⟩]
  exact List.dropLast_concat

theorem solid_quote : Solid 34 := ⟨by decide, by decide⟩

/-- A rendered line, read back. -/
theorem parseEnvLine_rendered {i : Nat} (hp : validEnvKey p.1 = true) :
    parseEnvLine quote path i (p.1 ++ 61 :: 34 :: p.2 ++ [34]) =
      .ok (some (joined p)) := by
  obtain ⟨hre, hshell⟩ := validEnvKey_parts hp
  obtain ⟨hne, hbytes⟩ := envKeyRe_bytes hre
  obtain ⟨c, rest, hkey⟩ := List.exists_cons_of_ne_nil hne
  have hc : keyByte c = true := hbytes c (by rw [hkey]; simp)
  have hline : trimSpace (p.1 ++ 61 :: 34 :: p.2 ++ [34]) =
      p.1 ++ 61 :: 34 :: p.2 ++ [34] := by
    refine trimSpace_self (fun a ha => ?_) fun a ha => ?_
    · rw [hkey] at ha
      cases ha
      exact keyByte_solid hc
    · rw [List.getLast?_concat] at ha
      cases ha
      exact solid_quote
  have hhash : ¬ (str "#").isPrefixOf (p.1 ++ 61 :: 34 :: p.2 ++ [34]) := by
    have hstr : str "#" = [35] := by decide
    rw [hstr, hkey]
    simp only [List.cons_append, List.isPrefixOf, Bool.and_true, beq_iff_eq]
    rintro rfl
    exact absurd hc (by decide)
  have hexport : trimPrefix (str "export ") (p.1 ++ 61 :: 34 :: p.2 ++ [34]) =
      p.1 ++ 61 :: 34 :: p.2 ++ [34] := by
    rw [trimPrefix, if_neg]
    rw [List.isPrefixOf_iff_prefix]
    rintro ⟨rest, hrest⟩
    have hstr : str "export " = str "export" ++ [32] := by decide
    rw [hstr, List.append_assoc, List.append_assoc] at hrest
    have hword : ∀ e ∈ str "export", keyByte e = true := by
      decide +kernel
    have := key_eq_of_append (c := 32) (d := 61) hword hbytes (by decide)
      (by decide) hrest
    revert this
    decide
  have hkeyTrim : trimSpace p.1 = p.1 := by
    refine trimSpace_self (fun a ha => ?_) fun a ha => ?_
    · exact keyByte_solid (hbytes a (List.mem_of_mem_head? ha))
    · exact keyByte_solid (hbytes a (List.mem_of_getLast? ha))
  have hvalueTrim : trimSpace (34 :: p.2 ++ [34]) = 34 :: p.2 ++ [34] := by
    refine trimSpace_self (fun a ha => ?_) fun a ha => ?_
    · cases ha
      exact solid_quote
    · rw [List.getLast?_concat] at ha
      cases ha
      exact solid_quote
  have hcut : cut 61 (p.1 ++ 61 :: 34 :: p.2 ++ [34]) =
      some (p.1, 34 :: p.2 ++ [34]) := by
    have : p.1 ++ 61 :: 34 :: p.2 ++ [34] =
        p.1 ++ 61 :: (34 :: p.2 ++ [34]) := by
      simp
    rw [this, cut_append (not_mem_key hp (by decide))]
  have hempty : p.1 ++ 61 :: 34 :: p.2 ++ [34] ≠ [] := by simp
  unfold parseEnvLine
  dsimp only
  rw [hline, if_neg (by rw [not_or]; exact ⟨hempty, hhash⟩), hexport, hcut]
  dsimp only
  rw [hkeyTrim, if_neg hne, hre, hshell, hvalueTrim, unquote_quoted]
  rfl

-- ====== the lines

theorem Carried.not_mem {value : Bytes} (h : Carried value) :
    (10 : UInt8) ∉ value := by
  intro hmem
  have := List.any_eq_false.mp h.lines 10 hmem
  simp at this

/-- The lines of a rendering are its pairs', and an empty one. -/
theorem split_rendered (h : ∀ p ∈ pairs, Fits p) :
    split 10 (pairs.flatMap renderLine) =
      pairs.map (fun p => p.1 ++ 61 :: 34 :: p.2 ++ [34]) ++ [[]] := by
  induction pairs with
  | nil => rfl
  | cons p pairs ih =>
    have hp := h p (.head _)
    have hline : renderLine p = (p.1 ++ 61 :: 34 :: p.2 ++ [34]) ++ [10] := by
      simp [renderLine]
    have hbreak : (10 : UInt8) ∉ p.1 ++ 61 :: 34 :: p.2 ++ [34] := by
      have hkey := not_mem_key hp.key (show keyByte 10 = false by decide)
      simp [hkey, hp.value.not_mem]
    rw [List.flatMap_cons, hline, List.append_assoc, List.singleton_append,
      split_append, split_of_not_mem hbreak,
      ih fun q hq => h q (.tail _ hq)]
    rfl

theorem parseEnvFrom_rendered (h : ∀ p ∈ pairs, Fits p) (i : Nat) :
    parseEnvFrom quote path i
        (pairs.map (fun p => p.1 ++ 61 :: 34 :: p.2 ++ [34]) ++ [[]]) =
      .ok (pairs.map joined) := by
  induction pairs generalizing i with
  | nil =>
    have hempty : trimSpace [] = [] := by decide +kernel
    simp [parseEnvFrom, parseEnvLine, hempty, bind, Except.bind, pure,
      Except.pure]
  | cons p pairs ih =>
    rw [List.map_cons, List.cons_append, parseEnvFrom,
      parseEnvLine_rendered (h p (.head _)).key,
      ih fun q hq => h q (List.mem_cons_of_mem _ hq)]
    rfl

/-- A line that says nothing, before the rendering. -/
def Comment (line : Bytes) : Prop :=
  (10 : UInt8) ∉ line ∧ (str "#").isPrefixOf (trimSpace line)

theorem parseEnvLines_rendered {line : Bytes} (hline : Comment line)
    (h : ∀ p ∈ pairs, Fits p) :
    parseEnvLines quote path (line ++ [10] ++ pairs.flatMap renderLine) =
      .ok (pairs.map joined) := by
  have hskip : parseEnvLine quote path 0 line = .ok none := by
    unfold parseEnvLine
    dsimp only
    rw [if_pos (.inr hline.2)]
  rw [parseEnvLines, List.append_assoc, List.singleton_append, split_append,
    split_of_not_mem hline.1, split_rendered h, List.singleton_append,
    parseEnvFrom, hskip, parseEnvFrom_rendered h]
  rfl

-- ====== rendering

theorem takePair_ok {kv : Bytes} :
    takePair quote kv = .ok p ↔ kv = joined p ∧ validEnvKey p.1 = true := by
  constructor
  · intro h
    unfold takePair at h
    split at h
    · cases h
    next key value hcut =>
      obtain ⟨hre, h⟩ := passed h
      split at h
      · cases h
      next hshell =>
        cases h
        refine ⟨cut_eq_some hcut, ?_⟩
        rw [validEnvKey, Bool.and_eq_true, Bool.not_eq_true']
        exact ⟨by simpa using hre, by simpa using hshell⟩
  · rintro ⟨rfl, hp⟩
    obtain ⟨hre, hshell⟩ := validEnvKey_parts hp
    unfold takePair
    rw [joined, cut_append (not_mem_key hp (by decide))]
    simp [hre, hshell]

theorem mapM_takePair : vars.mapM (takePair quote) = .ok pairs ↔
      vars = pairs.map joined ∧ ∀ p ∈ pairs, validEnvKey p.1 = true := by
  induction vars generalizing pairs with
  | nil =>
    constructor
    · intro h
      cases h
      exact ⟨rfl, by simp⟩
    · rintro ⟨h, -⟩
      rw [List.map_eq_nil_iff.mp h.symm]
      rfl
  | cons kv vars ih =>
    rw [List.mapM_cons]
    simp only [Except.bind_eq_ok, takePair_ok]
    constructor
    · rintro ⟨p, ⟨rfl, hp⟩, rest, hrest, h⟩
      cases h
      obtain ⟨rfl, hall⟩ := ih.mp hrest
      exact ⟨rfl, List.forall_mem_cons.mpr ⟨hp, hall⟩⟩
    · rintro ⟨h, hall⟩
      cases pairs with
      | nil => cases h
      | cons p pairs =>
        rw [List.map_cons, List.cons.injEq] at h
        rw [List.forall_mem_cons] at hall
        exact ⟨p, ⟨h.1, hall.1⟩, pairs, ih.mpr ⟨h.2, hall.2⟩, rfl⟩

/-- What is rendered from one pair on. -/
theorem renderFrom_ok {last : Option Bytes} :
    renderFrom last pairs = .ok body ↔ body = pairs.flatMap renderLine ∧
      (∀ p ∈ pairs, Carried p.2) ∧
      (last :: pairs.map (some ·.1)).IsChain (· ≠ ·) := by
  induction pairs generalizing last body with
  | nil =>
    rw [renderFrom]
    constructor
    · intro h
      cases h
      exact ⟨rfl, by simp, by simp⟩
    · rintro ⟨rfl, -⟩
      rfl
  | cons p pairs ih =>
    rw [renderFrom, List.map_cons, List.isChain_cons_cons,
      List.forall_mem_cons, List.flatMap_cons]
    by_cases hlast : last = some p.1
    · simp [hlast]
    by_cases hbreak : hasLineBreak p.2 = true
    · have : ¬ Carried p.2 := fun h => by simp [h.lines] at hbreak
      simp [hlast, hbreak, this]
    by_cases hnul : p.2.contains 0 = true
    · have : ¬ Carried p.2 := fun h => by rw [h.nul] at hnul; cases hnul
      rw [if_neg hlast, if_neg hbreak, if_pos hnul]
      simp [this]
    by_cases hutf : validUTF8 p.2 = true
    · have hcarried : Carried p.2 := ⟨by simpa using hbreak,
        by simpa using hnul,
        hutf⟩
      rw [if_neg hlast, if_neg hbreak, if_neg hnul, if_neg (by simp [hutf]),
        Except.bind_eq_ok]
      constructor
      · rintro ⟨rest, hrest, h⟩
        cases h
        obtain ⟨rfl, hall, hchain⟩ := ih.mp hrest
        exact ⟨rfl, ⟨hcarried, hall⟩, hlast, hchain⟩
      · rintro ⟨rfl, ⟨-, hall⟩, -, hchain⟩
        exact ⟨_, ih.mpr ⟨rfl, hall, hchain⟩, rfl⟩
    · have : ¬ Carried p.2 := fun h => hutf h.utf8
      rw [if_neg hlast, if_neg hbreak, if_neg hnul,
        if_pos (by simpa using hutf)]
      simp [this]

-- ====== the order

/-- The pairs as they are written. -/
def sorted (pairs : List (Bytes × Bytes)) : List (Bytes × Bytes) :=
  pairs.insertionSort fun a b => a.1 ≤ b.1

instance : Std.Total fun a b : Bytes × Bytes => a.1 ≤ b.1 :=
  ⟨fun a b => List.le_total a.1 b.1⟩

instance : IsTrans (Bytes × Bytes) fun a b => a.1 ≤ b.1 :=
  ⟨fun _ _ _ hab hbc => List.le_trans hab hbc⟩

theorem sorted_perm (pairs : List (Bytes × Bytes)) :
    (sorted pairs).Perm pairs :=
  List.perm_insertionSort _ pairs

theorem sorted_pairwise : (sorted pairs).Pairwise fun a b => a.1 ≤ b.1 :=
  List.pairwise_insertionSort _ pairs

/-- In order, keys that repeat stand side by side. -/
theorem nodup_of_chain (hle : pairs.Pairwise fun a b => a.1 ≤ b.1)
    (hne : (pairs.map (some ·.1)).IsChain (· ≠ ·)) :
    (pairs.map Prod.fst).Nodup := by
  induction pairs with
  | nil => simp
  | cons p pairs ih =>
    rw [List.pairwise_cons] at hle
    rw [List.map_cons, List.nodup_cons]
    rw [List.map_cons] at hne
    refine ⟨fun hmem => ?_, ih hle.2 hne.of_cons⟩
    obtain ⟨q, hq, heq⟩ := List.mem_map.mp hmem
    cases pairs with
    | nil => cases hq
    | cons r pairs =>
      rw [List.map_cons, List.isChain_cons_cons] at hne
      have hrq : r.1 ≤ q.1 := by
        rcases List.mem_cons.mp hq with rfl | hq
        · exact List.le_refl _
        · exact (List.pairwise_cons.mp hle.2).1 q hq
      have hpr := hle.1 r (.head _)
      exact hne.1 (congrArg some (List.le_antisymm hpr (heq ▸ hrq)))

theorem chain_of_nodup (h : (pairs.map Prod.fst).Nodup) :
    (none :: pairs.map (some ·.1)).IsChain (· ≠ ·) := by
  have hnodup : (none :: pairs.map (some ·.1)).Nodup := by
    rw [List.nodup_cons]
    refine ⟨by simp, ?_⟩
    have : pairs.map (fun p => some p.1) = (pairs.map Prod.fst).map some := by
      simp
    rw [this]
    exact h.map fun _ _ heq => Option.some.inj heq
  exact List.Pairwise.isChain hnodup

/-- A rendering, and what was rendered. -/
theorem renderEnvFile_ok :
    renderEnvFile quote vars = .ok body ↔ ∃ pairs, vars = pairs.map joined ∧
      (∀ p ∈ pairs, Fits p) ∧ (pairs.map Prod.fst).Nodup ∧
      body = (sorted pairs).flatMap renderLine := by
  rw [renderEnvFile, Except.bind_eq_ok]
  simp only [mapM_takePair, renderFrom_ok]
  constructor
  · rintro ⟨pairs, ⟨rfl, hkeys⟩, rfl, hvalues, hchain⟩
    have hperm := sorted_perm pairs
    refine ⟨pairs, rfl, fun p hp => ⟨hkeys p hp, hvalues p
      (hperm.mem_iff.mpr hp)⟩, ?_, rfl⟩
    exact (hperm.map Prod.fst).nodup_iff.mp
      (nodup_of_chain sorted_pairwise hchain.of_cons)
  · rintro ⟨pairs, rfl, hfits, hnodup, rfl⟩
    have hperm := sorted_perm pairs
    refine ⟨pairs, ⟨rfl, fun p hp => (hfits p hp).key⟩, rfl, fun p hp =>
      (hfits p (hperm.mem_iff.mp hp)).value, ?_⟩
    exact chain_of_nodup ((hperm.map Prod.fst).nodup_iff.mpr hnodup)

/-- Distinct keys have one order. -/
theorem sorted_eq_of_perm {pairs' : List (Bytes × Bytes)}
    (hnodup : (pairs.map Prod.fst).Nodup) (hperm : pairs'.Perm pairs) :
    sorted pairs' = sorted pairs := by
  have hsame := (sorted_perm pairs').trans
    (hperm.trans (sorted_perm pairs).symm)
  refine List.Perm.eq_of_pairwise ?_ sorted_pairwise
    sorted_pairwise hsame
  intro a b ha hb hab hba
  have hmem : a ∈ pairs := hperm.mem_iff.mp ((sorted_perm pairs').mem_iff.mp ha)
  have hmem' : b ∈ pairs := (sorted_perm pairs).mem_iff.mp hb
  exact List.inj_on_of_nodup_map hnodup hmem hmem' (List.le_antisymm hab hba)

/-- The pair a string is. -/
def unjoined (kv : Bytes) : Bytes × Bytes := (cut 61 kv).getD ([], [])

theorem unjoined_joined (h : validEnvKey p.1 = true) :
    unjoined (joined p) = p := by
  rw [unjoined, joined, cut_append (not_mem_key h (by decide))]
  rfl

/-- The order a list is given in does not matter. -/
theorem renderEnvFile_perm {vars' : List Bytes}
    (h : renderEnvFile quote vars = .ok body) (hperm : vars'.Perm vars) :
    renderEnvFile quote vars' = .ok body := by
  obtain ⟨pairs, rfl, hfits, hnodup, rfl⟩ := renderEnvFile_ok.mp h
  have hback : (pairs.map joined).map unjoined = pairs := by
    rw [List.map_map]
    exact (List.map_congr_left fun p hp =>
      unjoined_joined (hfits p hp).key).trans (List.map_id _)
  have hperm' : (vars'.map unjoined).Perm pairs := by
    have := hperm.map unjoined
    rwa [hback] at this
  have hvars : vars' = (vars'.map unjoined).map joined := by
    rw [List.map_map]
    refine (List.map_id _).symm.trans (List.map_congr_left fun kv hkv => ?_)
    obtain ⟨p, hp, rfl⟩ := List.mem_map.mp (hperm.mem_iff.mp hkv)
    exact congrArg joined (unjoined_joined (hfits p hp).key).symm
  refine renderEnvFile_ok.mpr ⟨vars'.map unjoined, hvars,
    fun p hp => hfits p (hperm'.mem_iff.mp hp),
    (hperm'.map Prod.fst).nodup_iff.mpr hnodup, ?_⟩
  rw [sorted_eq_of_perm hnodup hperm']

/-- The key of a `KEY=VALUE` string. -/
def keyOf (kv : Bytes) : Bytes := (unjoined kv).1

/-- What is rendered is read back, by key. -/
theorem parseEnvLines_renderEnvFile {line : Bytes} (hline : Comment line)
    (h : renderEnvFile quote vars = .ok body) :
    ∃ out, parseEnvLines quote path (line ++ [10] ++ body) = .ok out ∧
      out.Perm vars ∧ out.Pairwise fun a b => keyOf a ≤ keyOf b := by
  obtain ⟨pairs, rfl, hfits, -, rfl⟩ := renderEnvFile_ok.mp h
  have hperm := sorted_perm pairs
  have hfits' : ∀ p ∈ sorted pairs, Fits p := fun p hp =>
    hfits p (hperm.mem_iff.mp hp)
  refine ⟨(sorted pairs).map joined, parseEnvLines_rendered hline hfits',
    hperm.map joined, ?_⟩
  rw [List.pairwise_map]
  refine sorted_pairwise.imp_of_mem fun ha hb hab => ?_
  rw [keyOf, keyOf, unjoined_joined (hfits' _ ha).key,
    unjoined_joined (hfits' _ hb).key]
  exact hab

/-- A list that no env file carries. -/
inductive Unfit (vars : List Bytes) : Prop
  | noKey (kv : Bytes) (mem : kv ∈ vars) (key : cut 61 kv = none)
  | key (kv k v : Bytes) (mem : kv ∈ vars) (pair : cut 61 kv = some (k, v))
      (bad : validEnvKey k = false)
  | value (kv k v : Bytes) (mem : kv ∈ vars) (pair : cut 61 kv = some (k, v))
      (bad : (13 : UInt8) ∈ v ∨ (10 : UInt8) ∈ v ∨ (0 : UInt8) ∈ v ∨
        validUTF8 v = false)
  | twice (again : ¬ (vars.map keyOf).Nodup)

theorem carried_iff {v : Bytes} : Carried v ↔ (13 : UInt8) ∉ v ∧
    (10 : UInt8) ∉ v ∧ (0 : UInt8) ∉ v ∧ validUTF8 v = true := by
  have hlines : hasLineBreak v = false ↔
      (13 : UInt8) ∉ v ∧ (10 : UInt8) ∉ v := by
    rw [hasLineBreak, List.any_eq_false]
    constructor
    · intro h
      exact ⟨fun hm => by simpa using h 13 hm, fun hm => by simpa using h 10 hm⟩
    · rintro ⟨h13, h10⟩ c hc hbad
      simp only [Bool.or_eq_true, beq_iff_eq] at hbad
      rcases hbad with rfl | rfl
      · exact h10 hc
      · exact h13 hc
  constructor
  · rintro ⟨hl, hn, hu⟩
    obtain ⟨h13, h10⟩ := hlines.mp hl
    exact ⟨h13, h10, by simpa using hn, hu⟩
  · rintro ⟨h13, h10, hn, hu⟩
    exact ⟨hlines.mpr ⟨h13, h10⟩, by simpa using hn, hu⟩

/-- Nothing else is refused. -/
theorem renderEnvFile_error {e : Bytes}
    (h : renderEnvFile quote vars = .error e) : Unfit vars := by
  by_contra hfit
  have hpair : ∀ kv ∈ vars, kv = joined (unjoined kv) ∧ Fits (unjoined kv) := by
    intro kv hkv
    cases hcut : cut 61 kv with
    | none => exact absurd (.noKey kv hkv hcut) hfit
    | some p =>
      have hun : unjoined kv = p := by rw [unjoined, hcut]; rfl
      rw [hun]
      refine ⟨cut_eq_some hcut, ?_, ?_⟩
      · by_contra hbad
        exact hfit (.key kv p.1 p.2 hkv hcut (by simpa using hbad))
      · rw [carried_iff]
        by_contra hbad
        refine hfit (.value kv p.1 p.2 hkv hcut ?_)
        by_contra hgood
        simp only [not_or, Bool.not_eq_false] at hgood
        exact hbad hgood
  have hok : renderEnvFile quote vars =
      .ok ((sorted (vars.map unjoined)).flatMap renderLine) := by
    refine renderEnvFile_ok.mpr ⟨vars.map unjoined, ?_, ?_, ?_, rfl⟩
    · rw [List.map_map]
      exact (List.map_id _).symm.trans
        (List.map_congr_left fun kv hkv => (hpair kv hkv).1)
    · intro p hp
      obtain ⟨kv, hkv, rfl⟩ := List.mem_map.mp hp
      exact (hpair kv hkv).2
    · rw [List.map_map]
      by_contra hdup
      exact hfit (.twice hdup)
  rw [hok] at h
  cases h

end Hotserve.Liveswap
