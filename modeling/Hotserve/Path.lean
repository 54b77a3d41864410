/-
Go's package `path` over byte strings: `Clean`, `Join`, `Dir` and `Base`
by what their documentation says. A path is its components glued by
slashes, and `Clean` is a stack machine over them, so what is proved of
a path is proved of its list of components.
-/
import Hotserve.Text

namespace Hotserve.Path

open Bytes

-- ====== components

/-- The components with slashes between them. -/
def glue : List Bytes → Bytes
  | [] => []
  | [c] => c
  | c :: cs => c ++ 47 :: glue cs

/-- A component that names something: not empty, not `.`, not `..`. -/
def plain (c : Bytes) : Bool := c != [] && c != str "." && c != str ".."

/-- One component, on the stack of those before it, the last on top. -/
def push (rooted : Bool) (stack : List Bytes) (c : Bytes) : List Bytes :=
  if c = [] ∨ c = str "." then stack
  else if c = str ".." then
    match stack with
    | [] => if rooted then [] else [str ".."]
    | top :: rest => if top = str ".." then str ".." :: stack else rest
  else c :: stack

/-- The components left of a path once `.` and `..` are worked off, the
last on top. -/
def stack (p : Bytes) : List Bytes :=
  (split 47 p).foldl (push (p.head? == some 47)) []

/-- `path.Clean`. -/
def clean (p : Bytes) : Bytes :=
  let out := glue (stack p).reverse
  if p.head? == some 47 then 47 :: out
  else if out = [] then str "." else out

/-- `path.Join`. -/
def join (elems : List Bytes) : Bytes :=
  match elems.dropWhile (· == []) with
  | [] => []
  | es => clean (glue es)

/-- `path.Dir`: what is up to the last slash, cleaned. -/
def dir (p : Bytes) : Bytes :=
  clean ((p.reverse.dropWhile (· != 47)).reverse)

/-- `path.Base`: the last component. -/
def base (p : Bytes) : Bytes :=
  if p = [] then str "."
  else
    match (p.reverse.dropWhile (· == 47)).takeWhile (· != 47) with
    | [] => str "/"
    | last => last.reverse

/-- The components of a relative path; `.` has none. -/
def comps (p : Bytes) : List Bytes := if p = str "." then [] else split 47 p

variable {c p : Bytes} {cs ds st : List Bytes} {rooted : Bool}

-- ====== split and glue

theorem glue_cons (hcs : cs ≠ []) : glue (c :: cs) = c ++ 47 :: glue cs := by
  cases cs with
  | nil => exact absurd rfl hcs
  | cons d ds => rfl

theorem glue_split (p : Bytes) : glue (split 47 p) = p := by
  induction p with
  | nil => rfl
  | cons c rest ih =>
    rw [split]
    split
    next hc =>
      rw [glue_cons (split_ne_nil rest), ih, hc]
      rfl
    next hc =>
      cases hsplit : split 47 rest with
      | nil => exact absurd hsplit (split_ne_nil rest)
      | cons p ps =>
        rw [hsplit] at ih
        rw [← ih]
        cases ps with
        | nil => rfl
        | cons q qs => rfl

theorem split_glue (hne : cs ≠ []) (hcs : ∀ c ∈ cs, (47 : UInt8) ∉ c) :
    split 47 (glue cs) = cs := by
  induction cs with
  | nil => exact absurd rfl hne
  | cons c cs ih =>
    have hc : (47 : UInt8) ∉ c := hcs c (.head _)
    cases cs with
    | nil => exact split_of_not_mem hc
    | cons d ds =>
      rw [glue_cons (by simp), split_append, split_of_not_mem hc,
        ih (by simp) fun x hx => hcs x (List.mem_cons_of_mem _ hx)]
      rfl

theorem glue_ne_nil (hcs : ∀ c ∈ cs, c ≠ []) (hne : cs ≠ []) :
    glue cs ≠ [] := by
  cases cs with
  | nil => exact absurd rfl hne
  | cons c cs =>
    cases cs with
    | nil => exact hcs c (.head _)
    | cons d cs => simp [glue]

/-- A list of components is read back from its text. -/
theorem glue_inj (hcs : ∀ c ∈ cs, c ≠ [] ∧ (47 : UInt8) ∉ c)
    (hds : ∀ d ∈ ds, d ≠ [] ∧ (47 : UInt8) ∉ d) (heq : glue cs = glue ds) :
    cs = ds := by
  by_cases hc : cs = []
  · subst hc
    by_contra hd
    exact glue_ne_nil (fun d hm => (hds d hm).1) (Ne.symm hd) heq.symm
  by_cases hd : ds = []
  · subst hd
    exact absurd heq (glue_ne_nil (fun c hm => (hcs c hm).1) hc)
  rw [← split_glue hc fun c hm => (hcs c hm).2, heq,
    split_glue hd fun d hm => (hds d hm).2]

-- ====== clean

theorem plain_iff : plain c = true ↔ c ≠ [] ∧ c ≠ str "." ∧ c ≠ str ".." := by
  simp [plain, and_assoc]

theorem push_plain (hc : plain c = true) : push rooted st c = c :: st := by
  obtain ⟨hnil, hdot, hup⟩ := plain_iff.mp hc
  unfold push
  rw [if_neg (by simp [hnil, hdot]), if_neg hup]

/-- Plain components only pile up. -/
theorem foldl_push_plain (hcs : ∀ c ∈ cs, plain c = true) :
    cs.foldl (push rooted) st = cs.reverse ++ st := by
  induction cs generalizing st with
  | nil => rfl
  | cons c cs ih =>
    rw [List.foldl_cons, push_plain (hcs c List.mem_cons_self),
      ih fun d hd => hcs d (List.mem_cons_of_mem _ hd)]
    simp

/-- What is left of a relative path: plain components over the steps out
of where it starts. -/
theorem foldl_push_shape (hst : ∃ ns k, st = ns ++ List.replicate k (str "..") ∧
      ∀ n ∈ ns, plain n = true) :
    ∃ ns k, cs.foldl (push false) st = ns ++ List.replicate k (str "..") ∧
      ∀ n ∈ ns, plain n = true := by
  induction cs generalizing st with
  | nil => exact hst
  | cons c cs ih =>
    rw [List.foldl_cons]
    refine ih ?_
    obtain ⟨ns, k, rfl, hns⟩ := hst
    unfold push
    split
    · exact ⟨ns, k, rfl, hns⟩
    split
    next hne hup =>
      cases ns with
      | cons n ns =>
        have hn := (plain_iff.mp (hns n (.head _))).2.2
        refine ⟨ns, k, ?_, fun m hm => hns m (.tail _ hm)⟩
        rw [List.cons_append]
        exact if_neg hn
      | nil =>
        cases k with
        | zero => exact ⟨[], 1, rfl, by simp⟩
        | succ k => exact ⟨[], k + 2, by simp [List.replicate_succ], by simp⟩
    next hne hup =>
      rw [not_or] at hne
      refine ⟨c :: ns, k, rfl, fun m hm => ?_⟩
      rcases List.mem_cons.mp hm with rfl | hm
      · exact plain_iff.mpr ⟨hne.1, hne.2, hup⟩
      · exact hns m hm

/-- What is on the stack was a component, or is a step out. -/
theorem mem_foldl_push (hc : c ∈ cs.foldl (push rooted) st) :
    c ∈ st ∨ c ∈ cs ∨ c = str ".." := by
  induction cs generalizing st with
  | nil => exact .inl hc
  | cons d cs ih =>
    rcases ih hc with hc | hc | hc
    · unfold push at hc
      split at hc
      · exact .inl hc
      split at hc
      · split at hc
        · split at hc
          · cases hc
          · exact .inr (.inr (List.mem_singleton.mp hc))
        next top rest =>
          split at hc
          · rcases List.mem_cons.mp hc with hc | hc
            · exact .inr (.inr hc)
            · exact .inl hc
          · exact .inl (.tail _ hc)
      · rcases List.mem_cons.mp hc with rfl | hc
        · exact .inr (.inl (.head _))
        · exact .inl hc
    · exact .inr (.inl (.tail _ hc))
    · exact .inr (.inr hc)

theorem slash_not_mem_stack (hc : c ∈ stack p) : (47 : UInt8) ∉ c := by
  rcases mem_foldl_push hc with hc | hc | rfl
  · cases hc
  · exact not_mem_split hc
  · decide

/-- A relative path leads out of where it starts. -/
def outside (p : Bytes) : Bool := p == str ".." || (str "../").isPrefixOf p

/-- A first step out stays at the bottom. -/
theorem foldl_push_out (cs st : List Bytes) :
    ∃ st', cs.foldl (push false) (st ++ [str ".."]) = st' ++ [str ".."] := by
  induction cs generalizing st with
  | nil => exact ⟨st, rfl⟩
  | cons c cs ih =>
    have hpush : ∃ st₁, push false (st ++ [str ".."]) c =
        st₁ ++ [str ".."] := by
      unfold push
      split
      · exact ⟨st, rfl⟩
      split
      · cases st with
        | nil => exact ⟨[str ".."], rfl⟩
        | cons top st =>
          by_cases htop : top = str ".."
          · exact ⟨str ".." :: top :: st, if_pos htop⟩
          · exact ⟨st, if_neg htop⟩
      · exact ⟨c :: st, rfl⟩
    obtain ⟨st₁, hst₁⟩ := hpush
    rw [List.foldl_cons, hst₁]
    exact ih st₁

theorem outside_glue (ds : List Bytes) :
    outside (glue (str ".." :: ds)) = true := by
  cases ds with
  | nil => decide
  | cons d ds =>
    rw [glue_cons (by simp), outside, Bool.or_eq_true]
    right
    rw [List.isPrefixOf_iff_prefix]
    exact ⟨glue (d :: ds), rfl⟩

/-- Cleaning a path that leads out leaves one that does. -/
theorem outside_clean (h : outside p = true) : outside (clean p) = true := by
  have hparts : ∃ ds, split 47 p = str ".." :: ds ∧
      (p.head? == some 47) = false := by
    rw [outside, Bool.or_eq_true, beq_iff_eq, List.isPrefixOf_iff_prefix] at h
    rcases h with rfl | ⟨rest, rfl⟩
    · exact ⟨[], by decide, by decide⟩
    · have hsplit : split 47 (str ".." ++ 47 :: rest) =
          split 47 (str "..") ++ split 47 rest := split_append _ rest
      exact ⟨split 47 rest, hsplit, rfl⟩
  obtain ⟨ds, hsplit, hfalse⟩ := hparts
  obtain ⟨st, hst⟩ := foldl_push_out ds []
  have hstack : stack p = st ++ [str ".."] := by
    rw [stack, hfalse, hsplit, List.foldl_cons]
    exact hst
  have hout := outside_glue st.reverse
  have hne : glue (str ".." :: st.reverse) ≠ [] := by
    intro hnil
    rw [hnil] at hout
    cases hout
  rw [clean, hfalse, hstack]
  simpa [hne] using hout

/-- A name: a plain component without a slash. -/
def Name (c : Bytes) : Prop := plain c = true ∧ (47 : UInt8) ∉ c

theorem Name.ne_nil (h : Name c) : c ≠ [] := (plain_iff.mp h.1).1

/-- What begins with a name is relative. -/
theorem Name.head (h : Name c) (rest : Bytes) :
    ((c ++ rest).head? == some 47) = false := by
  cases c with
  | nil => exact absurd rfl h.ne_nil
  | cons x c =>
    have hx : x ≠ 47 := fun heq => h.2 (heq ▸ (.head _))
    simpa using hx

/-- The text of a relative path's components. -/
def rel (cs : List Bytes) : Bytes := if cs = [] then str "." else glue cs

/-- What a relative path that stays inside is cleaned to. -/
theorem clean_inside (hrel : p.head? ≠ some 47)
    (hin : outside (clean p) = false) :
    ∃ cs, (∀ c ∈ cs, Name c) ∧ clean p = rel cs := by
  obtain ⟨ns, k, hstack, hns⟩ : ∃ ns k, (split 47 p).foldl (push false) [] =
        ns ++ List.replicate k (str "..") ∧ ∀ n ∈ ns, plain n = true :=
    foldl_push_shape ⟨[], 0, rfl, by simp⟩
  have hfalse : (p.head? == some 47) = false := by
    rw [beq_eq_false_iff_ne]
    exact hrel
  have hst : stack p = ns ++ List.replicate k (str "..") := by
    rw [stack, hfalse]
    exact hstack
  have hclean : clean p =
      if glue (stack p).reverse = [] then str "." else
        glue (stack p).reverse := by
    rw [clean, hfalse]
    rfl
  rw [hst, List.reverse_append, List.reverse_replicate] at hclean
  -- a step out would be the first component
  cases k with
  | succ k =>
    rw [List.replicate_succ, List.cons_append] at hclean
    have hout := outside_glue (List.replicate k (str "..") ++ ns.reverse)
    rw [if_neg (fun hnil => by rw [hnil] at hout; cases hout)] at hclean
    rw [hclean, hout] at hin
    cases hin
  | zero =>
    have hname : ∀ c ∈ ns.reverse, Name c := by
      intro c hc
      refine ⟨hns c (List.mem_reverse.mp hc),
        slash_not_mem_stack (p := p) ?_⟩
      rw [hst]
      simpa using hc
    refine ⟨ns.reverse, hname, ?_⟩
    rw [hclean, rel, List.replicate_zero, List.nil_append]
    by_cases hnil : ns.reverse = []
    · rw [hnil]
      rfl
    · rw [if_neg (glue_ne_nil (fun c hc => (hname c hc).ne_nil) hnil),
        if_neg hnil]

theorem comps_rel (hcs : ∀ c ∈ cs, Name c) : comps (rel cs) = cs := by
  unfold rel
  split
  next hnil => rw [hnil]; rfl
  next hne =>
    have hsplit := split_glue hne fun c hc => (hcs c hc).2
    rw [comps, if_neg, hsplit]
    intro hdot
    rw [hdot, show split 47 (str ".") = [str "."] by decide] at hsplit
    have hplain := (hcs (str ".") (hsplit ▸ List.mem_singleton_self _)).1
    exact absurd hplain (by decide)

/-- A clean relative path that stays inside has plain components. -/
theorem comps_plain (hrel : p.head? ≠ some 47) (hclean : clean p = p)
    (hin : outside p = false) : ∀ c ∈ comps p, plain c = true := by
  obtain ⟨cs, hcs, heq⟩ := clean_inside hrel (by rwa [hclean])
  rw [← hclean, heq, comps_rel hcs]
  exact fun c hc => (hcs c hc).1

-- ====== join

theorem join_cons (hc : c ≠ []) : join (c :: cs) = clean (glue (c :: cs)) := by
  rw [join, List.dropWhile_cons_of_neg (by simpa using hc)]

/-- What is on the stack of a rooted path is a plain component. -/
theorem stack_rooted_plain (hst : ∀ c ∈ st, plain c = true) :
    ∀ c ∈ cs.foldl (push true) st, plain c = true := by
  induction cs generalizing st with
  | nil => exact hst
  | cons d cs ih =>
    refine ih ?_
    unfold push
    split
    · exact hst
    split
    · split
      · simp
      next top rest =>
        have htop := (plain_iff.mp (hst top (.head _))).2.2
        rw [if_neg htop]
        exact fun c hc => hst c (.tail _ hc)
    next hne hup =>
      rw [not_or] at hne
      intro c hc
      rcases List.mem_cons.mp hc with rfl | hc
      · exact plain_iff.mpr ⟨hne.1, hne.2, hup⟩
      · exact hst c hc

/-- A path beneath a name under a rooted one: its components come last. -/
theorem join_rooted {root name : Bytes} (hroot : root.head? = some 47)
    (hname : plain name = true) (hslash : (47 : UInt8) ∉ name)
    (hp : ∀ c ∈ comps p, plain c = true) : join [root, name, p] =
      47 :: glue ((stack root).reverse ++ name :: comps p) := by
  have hne : root ≠ [] := by
    rintro rfl
    cases hroot
  have htext : join [root, name, p] = clean (root ++ 47 :: (name ++ 47 :: p)) :=
    join_cons hne
  have hhead : (root ++ 47 :: (name ++ 47 :: p)).head? = some 47 := by
    rw [List.head?_append, hroot]
    rfl
  have hroot' : (root.head? == some 47) = true := by
    rw [hroot]
    rfl
  have htail : (split 47 p).foldl (push true) (name :: stack root) =
      (comps p).reverse ++ name :: stack root := by
    unfold comps at hp ⊢
    split
    next hdot =>
      subst hdot
      rfl
    next hdot =>
      rw [if_neg hdot] at hp
      exact foldl_push_plain hp
  rw [htext, clean, stack, hhead, split_append, split_append,
    split_of_not_mem hslash, List.foldl_append, List.singleton_append,
    List.foldl_cons]
  have hst : (split 47 root).foldl (push (some (47 : UInt8) == some 47)) [] =
      stack root := by
    rw [stack, hroot]
  rw [hst, push_plain hname]
  simp only [beq_self_eq_true, if_true]
  rw [htail]
  simp

theorem slash_not_mem_comps (hc : c ∈ comps p) : (47 : UInt8) ∉ c := by
  unfold comps at hc
  split at hc
  · cases hc
  · exact not_mem_split hc

theorem comps_inj {q : Bytes} (heq : comps p = comps q) : p = q := by
  unfold comps at heq
  split at heq
  next hp =>
    split at heq
    next hq => rw [hp, hq]
    next => exact absurd heq.symm (split_ne_nil q)
  next =>
    split at heq
    · exact absurd heq (split_ne_nil p)
    · rw [← glue_split p, heq, glue_split]

/-- Different clean paths land at different places. -/
theorem join_rooted_inj {root name q : Bytes} (hroot : root.head? = some 47)
    (hname : plain name = true) (hslash : (47 : UInt8) ∉ name)
    (hp : ∀ c ∈ comps p, plain c = true) (hq : ∀ c ∈ comps q, plain c = true)
    (heq : join [root, name, p] = join [root, name, q]) : p = q := by
  have hparts : ∀ {r : Bytes}, (∀ c ∈ comps r, plain c = true) →
      ∀ c ∈ (stack root).reverse ++ name :: comps r,
        c ≠ [] ∧ (47 : UInt8) ∉ c := by
    intro r hr c hc
    rcases List.mem_append.mp hc with hc | hc
    · have hc := List.mem_reverse.mp hc
      have hplain : plain c = true := by
        rw [stack, hroot] at hc
        exact stack_rooted_plain (by simp) c hc
      exact ⟨(plain_iff.mp hplain).1, slash_not_mem_stack hc⟩
    rcases List.mem_cons.mp hc with rfl | hc
    · exact ⟨(plain_iff.mp hname).1, hslash⟩
    · exact ⟨(plain_iff.mp (hr c hc)).1, slash_not_mem_comps hc⟩
  rw [join_rooted hroot hname hslash hp,
    join_rooted hroot hname hslash hq] at heq
  have hglue := glue_inj (hparts hp) (hparts hq) (List.cons.inj heq).2
  exact comps_inj (List.cons.inj (List.append_cancel_left hglue)).2

-- ====== texts of plain components

theorem push_nil (rooted : Bool) : push rooted st [] = st :=
  if_pos (.inl rfl)

section

variable (hcs : ∀ c ∈ cs, Name c)
include hcs

/-- The components of a text pile up; of an empty one there is nothing. -/
theorem foldl_split_glue :
    (split 47 (glue cs)).foldl (push rooted) st = cs.reverse ++ st := by
  cases cs with
  | nil => exact push_nil rooted
  | cons c cs =>
    rw [split_glue (by simp) fun x hx => (hcs x hx).2,
      foldl_push_plain fun x hx => (hcs x hx).1]

theorem stack_text : stack (47 :: glue cs) = cs.reverse := by
  have hsplit : split 47 (47 :: glue cs) = [] :: split 47 (glue cs) :=
    split_append [] (glue cs)
  rw [stack, hsplit, List.foldl_cons, push_nil, foldl_split_glue hcs,
    List.append_nil]

theorem clean_text : clean (47 :: glue cs) = 47 :: glue cs := by
  rw [clean, stack_text hcs, List.reverse_reverse]
  rfl

end

/-- What is left of an absolute path is names. -/
theorem name_of_mem_stack (hp : p.head? = some 47) (hc : c ∈ stack p) :
    Name c := by
  refine ⟨?_, slash_not_mem_stack hc⟩
  rw [stack, hp] at hc
  exact stack_rooted_plain (by simp) c hc

theorem clean_rooted (hp : p.head? = some 47) :
    clean p = 47 :: glue (stack p).reverse := by
  rw [clean, hp]
  rfl

theorem clean_clean (hp : p.head? = some 47) : clean (clean p) = clean p := by
  rw [clean_rooted hp]
  exact clean_text fun c hc => name_of_mem_stack hp (List.mem_reverse.mp hc)

theorem join_text (hcs : ∀ c ∈ cs, Name c) (hds : ∀ d ∈ ds, Name d) :
    join [47 :: glue cs, glue ds] = 47 :: glue (cs ++ ds) := by
  have htext : join [47 :: glue cs, glue ds] =
      clean ((47 :: glue cs) ++ 47 :: glue ds) := join_cons (by simp)
  have hstack : (split 47 (47 :: glue cs)).foldl (push true) [] =
      cs.reverse := stack_text hcs
  rw [htext, clean_rooted rfl, stack]
  have hhead : ((47 :: glue cs ++ 47 :: glue ds).head? == some 47) = true := rfl
  rw [hhead, split_append, List.foldl_append, hstack, foldl_split_glue hds]
  simp

theorem join_names (hc : Name c) (hds : ∀ d ∈ ds, Name d) :
    join [c, glue ds] = glue (c :: ds) := by
  have htext : join [c, glue ds] = clean (c ++ 47 :: glue ds) :=
    join_cons hc.ne_nil
  have hhead : ((c ++ 47 :: glue ds).head? == some 47) = false := hc.head _
  have hne : glue (c :: ds) ≠ [] := glue_ne_nil (List.forall_mem_cons.mpr
    ⟨hc.ne_nil, fun d hd => (hds d hd).ne_nil⟩) (by simp)
  have hstack : stack (c ++ 47 :: glue ds) = ds.reverse ++ [c] := by
    rw [stack, hhead, split_append, split_of_not_mem hc.2,
      List.singleton_append, List.foldl_cons, push_plain hc.1,
      foldl_split_glue hds]
  have hrev : (ds.reverse ++ [c]).reverse = c :: ds := by simp
  rw [htext, clean, hhead, hstack, hrev]
  simp only [Bool.false_eq_true, if_false]
  exact if_neg hne

theorem glue_append (hcs : cs ≠ []) (hds : ds ≠ []) :
    glue (cs ++ ds) = glue cs ++ 47 :: glue ds := by
  induction cs with
  | nil => exact absurd rfl hcs
  | cons c cs ih =>
    cases cs with
    | nil => exact glue_cons hds
    | cons d cs =>
      rw [List.cons_append, glue_cons (by simp), ih (by simp),
        glue_cons (List.cons_ne_nil d cs), List.append_assoc]
      rfl

/-- The text before the last slash. -/
theorem text_concat : ∃ t, 47 :: glue (cs ++ [c]) = t ++ 47 :: c ∧
      (t = 47 :: glue cs ∨ t = [] ∧ cs = []) := by
  cases cs with
  | nil => exact ⟨[], rfl, .inr ⟨rfl, rfl⟩⟩
  | cons d cs =>
    refine ⟨47 :: glue (d :: cs), ?_, .inl rfl⟩
    rw [glue_append (by simp) (by simp)]
    rfl

theorem name_chars (hc : Name c) : ∀ x ∈ c.reverse, (x != 47) = true := by
  intro x hx
  have hne : x ≠ 47 := fun h => hc.2 (h ▸ List.mem_reverse.mp hx)
  simpa using hne

theorem drop_name (hc : Name c) (t : Bytes) :
    (t ++ 47 :: c).reverse.dropWhile (· != 47) = 47 :: t.reverse := by
  rw [List.reverse_append, List.reverse_cons, List.append_assoc,
    List.dropWhile_append_of_pos (name_chars hc)]
  rfl

theorem dir_text (hcs : ∀ x ∈ cs, Name x) (hc : Name c) :
    dir (47 :: glue (cs ++ [c])) = 47 :: glue cs := by
  obtain ⟨t, ht, hcase⟩ := text_concat
  rw [dir, ht, drop_name hc, List.reverse_cons, List.reverse_reverse]
  rcases hcase with rfl | ⟨rfl, rfl⟩
  · have hjoin : join [47 :: glue cs, glue []] = 47 :: glue (cs ++ []) :=
      join_text hcs (by simp)
    rw [List.append_nil, join_cons (by simp)] at hjoin
    exact hjoin
  · rfl

/-- `path.Dir` of a relative path is its components but the last. -/
theorem dir_rel (hcs : ∀ x ∈ cs, Name x) (hc : Name c) :
    dir (rel (cs ++ [c])) = rel cs := by
  rw [rel, if_neg (by simp)]
  by_cases hnil : cs = []
  · subst hnil
    have hdrop : c.reverse.dropWhile (· != 47) = [] := by
      rw [← List.append_nil c.reverse,
        List.dropWhile_append_of_pos (name_chars hc)]
      rfl
    rw [List.nil_append, dir, show glue [c] = c from rfl, hdrop]
    rfl
  · have hhead : ((glue cs ++ [47]).head? == some 47) = false := by
      obtain ⟨x, xs, rfl⟩ := List.exists_cons_of_ne_nil hnil
      have hx := hcs x (.head _)
      cases xs with
      | nil => exact hx.head _
      | cons z xs =>
        rw [glue_cons (by simp), List.append_assoc]
        exact hx.head _
    have hstack : stack (glue cs ++ [47]) = cs.reverse := by
      rw [stack, hhead, split_append, List.foldl_append,
        foldl_split_glue hcs, List.append_nil]
      exact push_nil false
    rw [glue_append hnil (by simp), dir, show glue [c] = c from rfl,
      drop_name hc, List.reverse_cons, List.reverse_reverse, clean, hhead,
      hstack, List.reverse_reverse, rel, if_neg hnil]
    simp only [Bool.false_eq_true, if_false]
    exact if_neg (glue_ne_nil (fun c hc => (hcs c hc).ne_nil) hnil)

theorem base_text (hc : Name c) : base (47 :: glue (cs ++ [c])) = c := by
  obtain ⟨t, ht, -⟩ := text_concat
  have hne : c.reverse ≠ [] := by simpa using hc.ne_nil
  have hmem : ∀ x ∈ c.reverse, x ≠ 47 := fun x hx h =>
    hc.2 (h ▸ List.mem_reverse.mp hx)
  have hrev : (t ++ 47 :: c).reverse = c.reverse ++ 47 :: t.reverse := by simp
  have hdrop : (c.reverse ++ 47 :: t.reverse).dropWhile (· == 47) =
      c.reverse ++ 47 :: t.reverse := by
    cases hr : c.reverse with
    | nil => exact absurd hr hne
    | cons x r =>
      have hx : x ≠ 47 := hmem x (hr ▸ (.head _))
      rw [List.cons_append, List.dropWhile_cons_of_neg (by simpa using hx)]
  have htake : (c.reverse ++ 47 :: t.reverse).takeWhile (· != 47) =
      c.reverse := by
    rw [List.takeWhile_append_of_pos (name_chars hc)]
    simp
  rw [base, ht, if_neg (by simp), hrev, hdrop, htake]
  cases hr : c.reverse with
  | nil => exact absurd hr hne
  | cons x r =>
    change (x :: r).reverse = c
    rw [← hr, List.reverse_reverse]

/-- A path's text ends in no slash, but for the root's. -/
theorem getLast?_text (hcs : ∀ c ∈ cs, Name c) (hne : cs ≠ []) :
    (47 :: glue cs).getLast? ≠ some 47 := by
  induction cs with
  | nil => exact absurd rfl hne
  | cons c cs ih =>
    have hc := hcs c (.head _)
    cases cs with
    | nil =>
      intro h
      rw [glue, List.getLast?_cons_of_ne_nil hc.ne_nil] at h
      exact hc.2 (List.mem_of_getLast? h)
    | cons d cs =>
      have hrest := ih (fun x hx => hcs x (.tail _ hx))
        (by simp)
      rw [glue_cons (by simp), ← List.cons_append,
        List.getLast?_append_of_ne_nil _ (by simp)]
      exact hrest

end Hotserve.Path
