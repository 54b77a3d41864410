/-
An accepted SSH-signed commit is a function of its payload and its
signature's blob.

The header that is dropped is the last one, so the commit is `H ++ G ++
R`: the headers before it, the gpgsig header with its continuation
lines, and the blank line with the message; the payload is `H ++ R`. `G`
is determined by the signature, line by line, and the signature is the
one armor of its blob. Where `H` ends in the payload is determined too:
it is where the first blank line is.
-/
import Hotserve.Bundle.Commit
import Hotserve.Check

namespace Hotserve.Bundle

open Bytes

-- ====== the lines

/-- A line with its newline, and no other in it. -/
def IsLine (l : Bytes) : Prop := ∃ x, l = x ++ [10] ∧ (10 : UInt8) ∉ x

variable {x : Bytes}

theorem append_newline_inj {y r s : Bytes} (hx : (10 : UInt8) ∉ x)
    (hy : (10 : UInt8) ∉ y) (heq : x ++ 10 :: r = y ++ 10 :: s) :
    x = y ∧ r = s := by
  induction x generalizing y with
  | nil =>
    cases y with
    | nil => exact ⟨rfl, (List.cons.inj heq).2⟩
    | cons d y =>
      have hd : 10 = d := (List.cons.inj heq).1
      simp [← hd] at hy
  | cons c x ih =>
    cases y with
    | nil =>
      have hc : c = 10 := (List.cons.inj heq).1
      simp [hc] at hx
    | cons d y =>
      obtain ⟨rfl, hrest⟩ := List.cons.inj heq
      rw [List.mem_cons, not_or] at hx hy
      obtain ⟨rfl, hrs⟩ := ih hx.2 hy.2 hrest
      exact ⟨rfl, hrs⟩

/-- A text is its lines in one way. -/
theorem lines_inj : ∀ {ls ms : List Bytes}, (∀ l ∈ ls, IsLine l) →
    (∀ m ∈ ms, IsLine m) → ls.flatten = ms.flatten → ls = ms
  | [], [], _, _, _ => rfl
  | [], m :: ms, _, hm, heq => by
    obtain ⟨x, rfl, -⟩ := hm m (.head _)
    simp at heq
  | l :: ls, [], hl, _, heq => by
    obtain ⟨x, rfl, -⟩ := hl l (.head _)
    simp at heq
  | l :: ls, m :: ms, hl, hm, heq => by
    obtain ⟨x, rfl, hx⟩ := hl l (.head _)
    obtain ⟨y, rfl, hy⟩ := hm m (.head _)
    simp only [List.flatten_cons, List.append_assoc,
      List.singleton_append] at heq
    obtain ⟨rfl, hrest⟩ := append_newline_inj hx hy heq
    rw [lines_inj (fun l h => hl l (.tail _ h))
      (fun m h => hm m (.tail _ h)) hrest]

theorem linesAfter_flatten (b : Bytes) : (linesAfter b).flatten = b := by
  induction b with
  | nil => rfl
  | cons c rest ih =>
    rw [linesAfter]
    split
    next hc => simp [ih, hc]
    next hc =>
      cases hl : linesAfter rest with
      | nil =>
        rw [hl] at ih
        simp [← ih]
      | cons l ls =>
        rw [hl] at ih
        simp [← ih]

/-- What ends in a newline is lines throughout. -/
theorem linesAfter_isLine {b : Bytes} (hb : b.getLast? = some 10) :
    ∀ l ∈ linesAfter b, IsLine l := by
  induction b with
  | nil => cases hb
  | cons c rest ih =>
    rw [linesAfter]
    cases hrest : rest with
    | nil =>
      rw [hrest] at hb
      cases hb
      simp [linesAfter, IsLine]
    | cons d ds =>
      have hlast : rest.getLast? = some 10 := by
        rw [hrest] at hb ⊢
        simpa using hb
      rw [← hrest]
      split
      next hc =>
        intro l hl
        rcases List.mem_cons.mp hl with rfl | hl
        · exact ⟨[], rfl, by simp⟩
        · exact ih hlast l hl
      next hc =>
        cases hls : linesAfter rest with
        | nil =>
          have := linesAfter_flatten rest
          rw [hls] at this
          rw [← this] at hlast
          cases hlast
        | cons l ls =>
          rw [hls] at ih
          intro m hm
          rcases List.mem_cons.mp hm with rfl | hm
          · obtain ⟨x, rfl, hx⟩ := ih hlast l (.head _)
            refine ⟨c :: x, rfl, ?_⟩
            rw [List.mem_cons, not_or]
            exact ⟨Ne.symm hc, hx⟩
          · exact ih hlast m (.tail _ hm)

-- ====== the blank line

theorem blankLine_cons {c d : UInt8} {r : Bytes} :
    blankLine (c :: d :: r) = none ↔
      ¬(c = 10 ∧ d = 10) ∧ blankLine (d :: r) = none := by
  rw [blankLine]
  split
  next h => simp [h]
  next h => simp [h]

/-- The first blank line stands after headers that end in a newline and
have none. -/
theorem blankLine_append (r : Bytes) (hx : blankLine (x ++ [10]) = none) :
    blankLine (x ++ 10 :: 10 :: r) = some x.length := by
  induction x with
  | nil => rfl
  | cons c x ih =>
    cases x with
    | nil =>
      have hc := (blankLine_cons.mp hx).1
      rw [List.cons_append, List.nil_append, blankLine, if_neg hc]
      rfl
    | cons d x =>
      obtain ⟨hcd, hrest⟩ := blankLine_cons.mp hx
      rw [List.cons_append, List.cons_append, blankLine, if_neg hcd,
        ← List.cons_append, ih hrest]
      rfl

/-- And that is how a text with a blank line is. -/
theorem blankLine_some : ∀ {b : Bytes} {sep : Nat}, blankLine b = some sep →
    ∃ x r, b = x ++ 10 :: 10 :: r ∧ x.length = sep ∧
      blankLine (x ++ [10]) = none
  | [], _, hb => by cases hb
  | [_], _, hb => by cases hb
  | c :: d :: rest, sep, hb => by
    rw [blankLine] at hb
    split at hb
    next h =>
      cases hb
      exact ⟨[], rest, by simp [h.1, h.2], rfl, rfl⟩
    next h =>
      obtain ⟨n, hn, rfl⟩ := Option.map_eq_some_iff.mp hb
      obtain ⟨x, r, hx, hlen, hnone⟩ := blankLine_some hn
      refine ⟨c :: x, r, by rw [hx]; rfl, by simp [hlen], ?_⟩
      cases x with
      | nil =>
        cases hx
        exact blankLine_cons.mpr ⟨h, hnone⟩
      | cons e x =>
        cases hx
        exact blankLine_cons.mpr ⟨h, hnone⟩

theorem blankLine_prefix : ∀ {x y : Bytes}, blankLine (x ++ y) = none →
    blankLine x = none
  | [], _, _ => rfl
  | [_], _, _ => rfl
  | c :: d :: x, y, h => by
    obtain ⟨hcd, hrest⟩ := blankLine_cons.mp h
    exact blankLine_cons.mpr ⟨hcd, blankLine_prefix hrest⟩

-- ====== the headers

/-- What the loop has made of the lines it has read: nothing signed yet,
a signature being unfolded, or a header after one. -/
def Scanned (lines : List Bytes) (s : Scan) : Prop :=
  (s.sigs = 0 ∧ s.inSig = false ∧ s.payload = lines.flatten ∧ s.sig = []) ∨
    (s.sigs = 1 ∧ s.inSig = true ∧ ∃ before v conts,
      lines = before ++ (str "gpgsig " ++ v ++ [10]) :: conts ∧
        before ≠ [] ∧ (∀ l ∈ conts, l.head? = some 32) ∧
        s.payload = before.flatten ∧
        s.sig = v ++ 10 :: (conts.map (List.drop 1)).flatten) ∨
    s.afterSig = true

/-- A header is kept in the payload, or is the signature's. -/
theorem scanHeader_ok {id line key value : Bytes} {first : Bool} {s s' : Scan}
    (h : scanHeader id first line key value s = .ok s') :
    (s'.sigs = s.sigs ∧ s'.inSig = s.inSig ∧ s'.afterSig = s.afterSig ∧
      s'.payload = s.payload ++ line ∧ s'.sig = s.sig) ∨
    (key = str "gpgsig" ∧ first = false ∧ s.sigs = 0 ∧ s' = { s with
      sigs := s.sigs + 1
      inSig := true
      sig := s.sig ++ value ++ [10] }) := by
  obtain ⟨hfirst, h⟩ := passed h
  split at h
  · obtain ⟨-, h⟩ := passed h
    split at h
    · cases h
      exact .inl ⟨rfl, rfl, rfl, rfl, rfl⟩
    · cases h
    · cases h
  split at h
  · split at h
    · cases h
      exact .inl ⟨rfl, rfl, rfl, rfl, rfl⟩
    · cases h
    · cases h
  next htree _ =>
    split at h
    next hkey =>
      obtain ⟨hsigs, ⟨⟩⟩ := passed h
      refine .inr ⟨hkey, ?_, Nat.eq_zero_of_not_pos hsigs, rfl⟩
      simpa [htree] using hfirst
    · obtain ⟨-, ⟨⟩⟩ := passed h
      exact .inl ⟨rfl, rfl, rfl, rfl, rfl⟩

theorem chomp_line : chomp (x ++ [10]) = x := by
  simp [chomp]

/-- One more line. -/
theorem scanLine_scanned {id : Bytes} {lines : List Bytes} {line : Bytes}
    {s s' : Scan} (hline : IsLine line) (hs : Scanned lines s)
    (hstep : scanLine id lines.isEmpty line s = .ok s') :
    Scanned (lines ++ [line]) s' := by
  unfold scanLine at hstep
  split at hstep
  next hcont =>
    obtain ⟨-, hstep⟩ := passed hstep
    split at hstep
    next hin =>
      cases hstep
      rcases hs with ⟨-, hout, -⟩ | hs | hafter
      · rw [hin] at hout
        cases hout
      · obtain ⟨hsigs, -, before, v, conts, hlines, hne, hconts, hpay, hsig⟩ :=
          hs
        refine .inr (.inl ⟨hsigs, hin, before, v, conts ++ [line], ?_, hne,
          ?_, hpay, ?_⟩)
        · rw [hlines]
          simp
        · intro l hl
          rcases List.mem_append.mp hl with hl | hl
          · exact hconts l hl
          · rw [List.mem_singleton.mp hl]
            exact hcont
        · simp [hsig]
      · exact .inr (.inr hafter)
    next hin =>
      cases hstep
      rcases hs with ⟨hsigs, hout, hpay, hsig⟩ | ⟨-, hin', -⟩ | hafter
      · refine .inl ⟨hsigs, hout, ?_, hsig⟩
        simp [hpay]
      · exact absurd hin' hin
      · exact .inr (.inr hafter)
  next hcont =>
    dsimp only at hstep
    split at hstep
    · cases hstep
    rename_i key value hcut
    obtain ⟨-, hstep⟩ := passed hstep
    have hok := scanHeader_ok hstep
    -- a header after the signature's is one wherever it stands
    have hlater (h : s.afterSig = true ∨ s.inSig = true) :
        s'.afterSig = true := by
      rcases hok with ⟨-, -, h₃, -⟩ | ⟨-, -, -, rfl⟩
      · rw [h₃, Bool.or_eq_true]
        exact h
      · exact (Bool.or_eq_true ..).mpr h
    rcases hs with ⟨hsigs, hout, hpay, hsig⟩ | ⟨-, hin, -⟩ | hafter
    · rcases hok with ⟨h₁, h₂, h₃, h₄, h₅⟩ | ⟨rfl, hfirst, -, rfl⟩
      · refine .inl ⟨h₁.trans hsigs, h₂, ?_, h₅.trans hsig⟩
        rw [h₄]
        simp [hpay]
      · obtain ⟨x, rfl, -⟩ := hline
        rw [chomp_line] at hcut
        refine .inr (.inl ⟨by simp [hsigs], rfl, lines, value, [], ?_, ?_,
          by simp, hpay, by simp [hsig]⟩)
        · rw [cut_eq_some hcut]
          simp [show str "gpgsig " = str "gpgsig" ++ [32] by decide]
        · rintro rfl
          cases hfirst
    · exact .inr (.inr (hlater (.inr hin)))
    · exact .inr (.inr (hlater (.inl hafter)))

/-- All of them. -/
theorem scanLines_scanned {id : Bytes} : ∀ {rest lines : List Bytes}
    {s s' : Scan}, (∀ l ∈ rest, IsLine l) → Scanned lines s →
    scanLines id lines.isEmpty rest s = .ok s' → Scanned (lines ++ rest) s'
  | [], lines, s, s', _, hs, hrun => by
    cases hrun
    simpa using hs
  | line :: rest, lines, s, s', hlines, hs, hrun => by
    rw [scanLines] at hrun
    split at hrun
    · cases hrun
    rename_i s₁ hstep
    have hs₁ := scanLine_scanned (hlines line (.head _)) hs hstep
    have hfalse : (lines ++ [line]).isEmpty = false := by simp
    rw [← hfalse] at hrun
    have := scanLines_scanned
      (fun l hl => hlines l (.tail _ hl)) hs₁ hrun
    simpa using this

-- ====== the commit

/-- An accepted SSH signature is the armor of the blob under it. -/
theorem signatureKind_armor {lib : Lib} {sig : Bytes}
    (h : signatureKind lib sig = .ok .sshSig) :
    sig = armorSSH lib (canonicalSSHArmor lib sig).1 := by
  unfold signatureKind at h
  split at h
  · split at h
    · cases h
    rename_i blob harmor
    rw [harmor]
    unfold canonicalSSHArmor at harmor
    split at harmor
    · cases harmor
    dsimp only at harmor
    split at harmor
    · cases harmor
    · cases harmor
    · obtain ⟨rfl, heq⟩ := Prod.mk.inj harmor
      exact eq_of_beq heq
  split at h
  · cases h
  · cases h

/-- Lines, one at least, end in a newline. -/
theorem flatten_lines_eq {ls : List Bytes} (hne : ls ≠ [])
    (hls : ∀ l ∈ ls, IsLine l) : ∃ x, ls.flatten = x ++ [10] := by
  obtain ⟨init, last, rfl⟩ : ∃ init last, ls = init ++ [last] :=
    ⟨ls.dropLast, ls.getLast hne, (List.dropLast_append_getLast hne).symm⟩
  obtain ⟨x, rfl, -⟩ := hls last (by simp)
  exact ⟨init.flatten ++ x, by simp⟩

/-- The parts of an accepted SSH-signed commit: headers, the signature's
header folded, the blank line and the message. -/
structure Parts (lib : Lib) (raw : Bytes) (c : Commit) (x v : Bytes)
    (conts : List Bytes) (r : Bytes) : Prop where
  raw_eq : raw = (x ++ [10]) ++ (str "gpgsig " ++ v ++ 10 :: conts.flatten) ++
    10 :: r
  payload_eq : c.payload = x ++ 10 :: 10 :: r
  no_blank : blankLine (x ++ [10]) = none
  value : (10 : UInt8) ∉ v
  conts_line : ∀ l ∈ conts, ∃ y, l = 32 :: (y ++ [10]) ∧ (10 : UInt8) ∉ y
  signature_eq : c.signature = v ++ 10 :: (conts.map (List.drop 1)).flatten
  armor : c.signature = armorSSH lib (canonicalSSHArmor lib c.signature).1

theorem parseCommit_parts {lib : Lib} {raw : Bytes} {c : Commit}
    (h : parseCommit lib raw = .ok c) (hk : c.kind = .sshSig) :
    ∃ x v conts r, Parts lib raw c x v conts r := by
  obtain ⟨-, h⟩ := passed h
  dsimp only at h
  split at h
  · cases h
  rename_i sep hsep
  obtain ⟨y, r, rfl, rfl, hblank⟩ := blankLine_some hsep
  have hsplit : y ++ 10 :: 10 :: r = (y ++ [10]) ++ 10 :: r := by simp
  have htake : (y ++ 10 :: 10 :: r).take (y.length + 1) = y ++ [10] := by
    rw [hsplit]
    exact List.take_left' (by simp)
  have hdrop : (y ++ 10 :: 10 :: r).drop (y.length + 1) = 10 :: r := by
    rw [hsplit]
    exact List.drop_left' (by simp)
  rw [htake, hdrop] at h
  have hlines := linesAfter_isLine (b := y ++ [10]) (by simp)
  split at h
  · cases h
  rename_i s hscan
  have hs : Scanned (linesAfter (y ++ [10])) s := by
    have hstart : Scanned [] ⟨[], [], false, 0, false, [], []⟩ :=
      .inl ⟨rfl, rfl, rfl, rfl⟩
    simpa using scanLines_scanned hlines hstart hscan
  obtain ⟨-, h⟩ := passed h
  split at h
  · cases h
    cases hk
  next hsigs =>
    obtain ⟨hafter, h⟩ := passed h
    split at h
    · cases h
    rename_i kind hkind
    cases h
    dsimp only at hk
    subst hk
    rcases hs with ⟨hzero, -⟩ | hs | htrue
    · exact absurd hzero (by simp [not_not.mp hsigs])
    · obtain ⟨-, -, before, v, conts, hsplit, hne, hconts, hpay,
        hsig⟩ := hs
      rw [hsplit] at hlines
      obtain ⟨x, hx⟩ := flatten_lines_eq hne fun l hl =>
        hlines l (List.mem_append_left _ hl)
      have hheader : y ++ [10] = (x ++ [10]) ++
          (str "gpgsig " ++ v ++ 10 :: conts.flatten) := by
        rw [← linesAfter_flatten (y ++ [10]), hsplit, ← hx]
        simp
      refine ⟨x, v, conts, r, ?_, ?_, ?_, ?_, ?_, hsig,
        signatureKind_armor hkind⟩
      · rw [← hheader]
        simp
      · dsimp only
        rw [hpay, hx]
        simp
      · rw [hheader] at hblank
        exact blankLine_prefix hblank
      · obtain ⟨z, hz, hno⟩ := hlines (str "gpgsig " ++ v ++ [10])
          (by simp)
        rw [← (List.append_inj_left' hz rfl)] at hno
        exact fun hv => hno (List.mem_append_right _ hv)
      · intro l hl
        obtain ⟨z, rfl, hno⟩ := hlines l (List.mem_append_right _
          (.tail _ hl))
        have hhead := hconts _ hl
        cases z with
        | nil => cases hhead
        | cons d z =>
          cases hhead
          exact ⟨z, rfl, fun hz => hno (.tail _ hz)⟩
    · exact absurd htrue hafter

/-- Continuation lines are determined by what follows their space. -/
theorem conts_inj {ls ms : List Bytes}
    (hl : ∀ l ∈ ls, ∃ y, l = 32 :: (y ++ [10]) ∧ (10 : UInt8) ∉ y)
    (hm : ∀ m ∈ ms, ∃ y, m = 32 :: (y ++ [10]) ∧ (10 : UInt8) ∉ y)
    (heq : (ls.map (List.drop 1)).flatten = (ms.map (List.drop 1)).flatten) :
    ls = ms := by
  have hline {cs : List Bytes}
      (hcs : ∀ c ∈ cs, ∃ y, c = 32 :: (y ++ [10]) ∧ (10 : UInt8) ∉ y) :
      ∀ d ∈ cs.map (List.drop 1), IsLine d := by
    intro d hd
    obtain ⟨c, hc, rfl⟩ := List.mem_map.mp hd
    obtain ⟨y, rfl, hy⟩ := hcs c hc
    exact ⟨y, rfl, hy⟩
  have hback {cs : List Bytes}
      (hcs : ∀ c ∈ cs, ∃ y, c = 32 :: (y ++ [10]) ∧ (10 : UInt8) ∉ y) :
      (cs.map (List.drop 1)).map (32 :: ·) = cs := by
    rw [List.map_map]
    refine (List.map_congr_left fun c hc => ?_).trans (List.map_id cs)
    obtain ⟨y, rfl, -⟩ := hcs c hc
    rfl
  rw [← hback hl, lines_inj (hline hl) (hline hm) heq, hback hm]

/-- Non-malleability: an accepted SSH-signed commit is a function of its
payload and the blob under its armor. -/
theorem signed_commit_unique {lib : Lib} {r₁ r₂ : Bytes} {c₁ c₂ : Commit}
    (h₁ : parseCommit lib r₁ = .ok c₁) (h₂ : parseCommit lib r₂ = .ok c₂)
    (hk₁ : c₁.kind = .sshSig) (hk₂ : c₂.kind = .sshSig)
    (hpayload : c₁.payload = c₂.payload)
    (hblob : (canonicalSSHArmor lib c₁.signature).1 =
      (canonicalSSHArmor lib c₂.signature).1) : r₁ = r₂ ∧ c₁.id = c₂.id := by
  obtain ⟨x₁, v₁, conts₁, m₁, p₁⟩ := parseCommit_parts h₁ hk₁
  obtain ⟨x₂, v₂, conts₂, m₂, p₂⟩ := parseCommit_parts h₂ hk₂
  -- where the headers end in the payload
  have hlen : x₁.length = x₂.length := by
    have hb₁ := blankLine_append m₁ p₁.no_blank
    have hb₂ := blankLine_append m₂ p₂.no_blank
    rw [← p₁.payload_eq, hpayload, p₂.payload_eq, hb₂] at hb₁
    exact (Option.some.inj hb₁).symm
  have hbody : x₁ ++ 10 :: 10 :: m₁ = x₂ ++ 10 :: 10 :: m₂ := by
    rw [← p₁.payload_eq, hpayload, p₂.payload_eq]
  obtain ⟨rfl, hrest⟩ := List.append_inj hbody hlen
  cases hrest
  -- the signature's lines, from its armor
  have hsig : v₁ ++ 10 :: (conts₁.map (List.drop 1)).flatten =
      v₂ ++ 10 :: (conts₂.map (List.drop 1)).flatten := by
    rw [← p₁.signature_eq, ← p₂.signature_eq, p₁.armor, p₂.armor, hblob]
  obtain ⟨rfl, hconts⟩ := append_newline_inj p₁.value p₂.value hsig
  have hraw : r₁ = r₂ := by
    rw [p₁.raw_eq, p₂.raw_eq, conts_inj p₁.conts_line p₂.conts_line hconts]
  subst hraw
  rw [h₁] at h₂
  cases h₂
  exact ⟨rfl, rfl⟩

-- ====== an example

/-- The bytes of a hexadecimal text. -/
def bytesOfHex : Bytes → Bytes
  | a :: b :: rest => (16 * digit a + digit b) :: bytesOfHex rest
  | _ => []
where
  digit (c : UInt8) : UInt8 := if c < 58 then c - 48 else c - 87

/-- The libraries where an example asks them: SHA-1 of the texts listed,
each with its sum in hexadecimal, base64 of one blob, and SSHSIG's magic
with nothing after it. -/
def tableLib (sums : List (Bytes × String)) : Lib where
  sha1 := fun b => (bytesOfHex (str ((sums.lookup b).getD "")) ++
    List.replicate 20 0).take 20
  sha1_length := fun _ => by simp
  encode64 := fun b => if b = str "SSHSIG" then str "U1NIU0lH" else []
  decode64 := fun b => if b = str "U1NIU0lH" then some (str "SSHSIG") else none
  unmarshalEnvelope := fun _ => none
  unmarshalInner := fun _ => none
  rsaSize := fun _ => none
  bound := id

def exampleHeaders : Bytes :=
  str "tree 4b825dc642cb6eb9a060e54bf8d69288fbee4904\n" ++
    str "author a <a> 0 +0000\n"

def exampleCommit : Bytes :=
  exampleHeaders ++ str "gpgsig -----BEGIN SSH SIGNATURE-----\n U1NIU0lH\n" ++
    str " -----END SSH SIGNATURE-----\n" ++ str "\nfirst\n"

def commitLib : Lib := tableLib [(objectText (str "commit") exampleCommit,
  "c9bcfbfd3650f9f2f197eea0703d937b93f58b63")]

def exampleSignature : Bytes := armorSSH commitLib (str "SSHSIG")

/-- What `exampleCommit` is read as. -/
def exampleParsed : Commit where
  raw := exampleCommit
  id := str "c9bcfbfd3650f9f2f197eea0703d937b93f58b63"
  tree := str "4b825dc642cb6eb9a060e54bf8d69288fbee4904"
  parents := []
  kind := .sshSig
  signature := exampleSignature
  payload := exampleHeaders ++ str "\nfirst\n"

/-- No other bytes carry the signature of `exampleCommit`. -/
theorem signed_commit_unique_example :
    parseCommit commitLib exampleCommit = .ok exampleParsed ∧
      ∀ r c, parseCommit commitLib r = .ok c → c.kind = .sshSig →
        c.payload = exampleParsed.payload →
        (canonicalSSHArmor commitLib c.signature).1 = str "SSHSIG" →
        r = exampleCommit := by
  have hread : parseCommit commitLib exampleCommit = .ok exampleParsed := by
    decide +kernel
  have hblob : (canonicalSSHArmor commitLib exampleParsed.signature).1 =
      str "SSHSIG" := by decide +kernel
  refine ⟨hread, fun r c hr hk hp hb => ?_⟩
  exact (signed_commit_unique hr hread hk rfl hp (hb.trans hblob.symm)).1

end Hotserve.Bundle
