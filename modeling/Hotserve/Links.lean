/-
Where a path leads in a static tree of directories, files and symbolic
links.

A walk goes through a path's components from the directory it stands in
and follows the links it meets, so many at most. It ends at a place, at a
component that is missing, or nowhere. `Tree.place` then takes missing
final components as made where the walk stopped. For a path with no `.`
and `..` and no dangling link, `missing_split` says what that comes to:
the longest part of it that is there, with the rest put after it as it is.
-/
import Hotserve.Path
import Mathlib.Data.List.Induction

namespace Hotserve.Links

open Bytes Path

/-- A place: the names down to it from the root, no link among them. -/
abbrev Place := List Bytes

inductive Node
  | dir
  | file
  | link (text : Bytes)
  deriving DecidableEq

/-- What stands at each place; an entry stands in a directory. -/
structure Tree where
  node : Place → Option Node
  root : node [] = some .dir
  parent : ∀ p c, node (p ++ [c]) ≠ none → node p = some .dir

/-- What a list of entries puts at a place; the root is a directory. -/
def entryAt (entries : List (Place × Node)) (p : Place) : Option Node :=
  if p = [] then some .dir else entries.lookup p

/-- The tree of a list of entries, each in a directory. -/
def Tree.ofEntries (entries : List (Place × Node))
    (h : ∀ e ∈ entries, entryAt entries e.1.dropLast = some .dir) : Tree where
  node := entryAt entries
  root := rfl
  parent := fun p c hne => by
    obtain ⟨n, hn⟩ := Option.ne_none_iff_exists'.mp hne
    rw [entryAt, if_neg (by simp)] at hn
    obtain ⟨l₁, l₂, heq, -⟩ := List.lookup_eq_some_iff.mp hn
    have hdir := h (p ++ [c], n) (heq ▸ by simp)
    rwa [List.dropLast_concat] at hdir

/-- How a walk ends. -/
inductive Walk
  | found (p : Place)
  /-- The first of `rest` is not in the directory at `p`. -/
  | missing (p : Place) (rest : List Bytes)
  /-- Not a directory on the way, or too many links. -/
  | stuck
  deriving DecidableEq

/-- Where a walk leads, missing final components taken as made. -/
def Walk.place : Walk → Option Place
  | .found p => some p
  | .missing p rest =>
    if str ".." ∈ rest then none else some (p ++ rest.filter plain)
  | .stuck => none

def Walk.there : Walk → Bool
  | .found _ => true
  | _ => false

def Walk.gone : Walk → Bool
  | .missing _ _ => true
  | _ => false

namespace Tree

/-- Down the components, to the end or to the first link, which `jump`
goes on from. -/
def descend (t : Tree) (jump : Place → List Bytes → Walk) :
    Place → List Bytes → Walk
  | here, [] => .found here
  | here, c :: rest =>
    if t.node here ≠ some .dir then .stuck
    else if c = [] ∨ c = str "." then t.descend jump here rest
    else if c = str ".." then t.descend jump here.dropLast rest
    else
      match t.node (here ++ [c]) with
      | none => .missing here (c :: rest)
      | some (.link text) =>
        jump (if text.head? = some 47 then [] else here)
          (split 47 text ++ rest)
      | some _ => t.descend jump (here ++ [c]) rest

/-- A walk that follows `n` links at most. -/
def walk (t : Tree) : Nat → Place → List Bytes → Walk
  | 0 => t.descend fun _ _ => .stuck
  | n + 1 => t.descend (t.walk n)

/-- After `pre`, `c` is a link. -/
def linkAfter (t : Tree) (n : Nat) (pre : List Bytes) (c : Bytes) : Bool :=
  match t.walk n [] pre with
  | .found p =>
    match t.node (p ++ [c]) with
    | some (.link _) => true
    | _ => false
  | _ => false

/-- A link the path goes through, beyond `pre`, leads to something
missing. -/
def dangles (t : Tree) (n : Nat) (pre : List Bytes) : List Bytes → Bool
  | [] => false
  | c :: rest =>
    t.linkAfter n pre c && Walk.gone (t.walk n [] (pre ++ [c])) ||
      t.dangles n (pre ++ [c]) rest

/-- No link stands on the path as it is spelled, beyond `pre`. -/
def direct (t : Tree) (pre : Place) : List Bytes → Bool
  | [] => true
  | c :: rest =>
    (match t.node (pre ++ [c]) with
      | some (.link _) => false
      | _ => true) && t.direct (pre ++ [c]) rest

variable {t : Tree}

-- ====== the link limit

variable {here p : Place} {cs pre rest : List Bytes} {n : Nat}

theorem descend_congr {jump jump' : Place → List Bytes → Walk}
    (hjump : ∀ p cs, jump p cs ≠ .stuck → jump' p cs = jump p cs)
    (h : t.descend jump here cs ≠ .stuck) :
    t.descend jump' here cs = t.descend jump here cs := by
  induction cs generalizing here with
  | nil => rfl
  | cons c cs ih =>
    simp only [descend] at h ⊢
    split at h
    · exact absurd rfl h
    rename_i hdir
    rw [if_neg hdir, if_neg hdir]
    split at h
    next hdot =>
      rw [if_pos hdot, if_pos hdot]
      exact ih h
    next hdot =>
      rw [if_neg hdot, if_neg hdot]
      split at h
      next hup =>
        rw [if_pos hup, if_pos hup]
        exact ih h
      next hup =>
        rw [if_neg hup, if_neg hup]
        split at h
        · rfl
        · exact hjump _ _ h
        · exact ih h

/-- A walk that ends does so under any larger limit. -/
theorem walk_mono {m : Nat} (hle : n ≤ m)
    (h : t.walk n here cs ≠ .stuck) : t.walk m here cs = t.walk n here cs := by
  induction n generalizing m here cs with
  | zero =>
    cases m with
    | zero => rfl
    | succ m => exact descend_congr (fun _ _ h => absurd rfl h) h
  | succ n ih =>
    cases m with
    | zero => exact absurd hle (by omega)
    | succ m => exact descend_congr (fun _ _ h => ih (by omega) h) h

-- ====== walking further

/-- Where a walk of the limit `n` goes from its first link. -/
def jump (t : Tree) : Nat → Place → List Bytes → Walk
  | 0 => fun _ _ => .stuck
  | n + 1 => t.walk n

theorem walk_eq (n : Nat) : t.walk n = t.descend (t.jump n) := by
  cases n with
  | zero => rfl
  | succ n => rfl

/-- `f post` is the walk that goes on with `post` from where a walk has
ended; its limit is what the first has left. -/
def Onward (t : Tree) (n : Nat) (f : List Bytes → Walk) : Walk → Prop
  | .found p => ∃ m ≤ n, ∀ post, f post = t.walk m p post
  | .missing p rest => ∀ post, f post = .missing p (rest ++ post)
  | .stuck => ∀ post, f post = .stuck

theorem Onward.mono {m : Nat} (hle : n ≤ m) {f : List Bytes → Walk}
    {w : Walk} (h : t.Onward n f w) : t.Onward m f w := by
  cases w with
  | found p =>
    obtain ⟨k, hk, hf⟩ := h
    exact ⟨k, Nat.le_trans hk hle, hf⟩
  | missing p rest => exact h
  | stuck => exact h

theorem descend_append
    (hjump : ∀ p cs, t.Onward n (fun post => t.jump n p (cs ++ post))
      (t.jump n p cs)) (here : Place) :
    t.Onward n (fun post => t.descend (t.jump n) here (pre ++ post))
      (t.descend (t.jump n) here pre) := by
  induction pre generalizing here with
  | nil => exact ⟨n, Nat.le_refl n, fun post => by rw [walk_eq]; rfl⟩
  | cons c pre ih =>
    simp only [List.cons_append, descend]
    split
    · exact fun _ => rfl
    split
    · exact ih here
    split
    · exact ih here.dropLast
    split
    · exact fun _ => rfl
    · simp only [← List.append_assoc]
      exact hjump _ _
    · exact ih (here ++ [c])

theorem walk_append (n : Nat) (here : Place) (pre : List Bytes) :
    t.Onward n (fun post => t.walk n here (pre ++ post))
      (t.walk n here pre) := by
  induction n generalizing here pre with
  | zero =>
    rw [walk_eq]
    refine descend_append (fun p cs => ?_) here
    exact fun _ => rfl
  | succ n ih =>
    rw [walk_eq]
    exact descend_append (fun p cs => (ih p cs).mono (Nat.le_succ n)) here

/-- A walk that found a place goes on from there. -/
theorem walk_found_append (h : t.walk n here pre = .found p) :
    ∃ m ≤ n, ∀ post, t.walk n here (pre ++ post) = t.walk m p post := by
  have hon := walk_append (t := t) n here pre
  rw [h] at hon
  exact hon

theorem walk_missing_append
    (h : t.walk n here pre = .missing p rest) (post : List Bytes) :
    t.walk n here (pre ++ post) = .missing p (rest ++ post) := by
  have hon := walk_append (t := t) n here pre
  rw [h] at hon
  exact hon post

theorem walk_stuck_append (h : t.walk n here pre = .stuck) (post : List Bytes) :
    t.walk n here (pre ++ post) = .stuck := by
  have hon := walk_append (t := t) n here pre
  rw [h] at hon
  exact hon post

-- ====== one component

/-- One plain component, from where a walk stands. -/
theorem walk_plain {c : Bytes} (hc : plain c = true) :
    t.walk n here (c :: rest) =
      if t.node here ≠ some .dir then .stuck
      else
        match t.node (here ++ [c]) with
        | none => .missing here (c :: rest)
        | some (.link text) =>
          t.jump n (if text.head? = some 47 then [] else here)
            (split 47 text ++ rest)
        | some _ => t.walk n (here ++ [c]) rest := by
  obtain ⟨hnil, hdot, hup⟩ := plain_iff.mp hc
  rw [walk_eq, descend, if_neg (show ¬ (c = [] ∨ c = str ".") by
    simp [hnil, hdot]), if_neg hup]

/-- Empty components are walked over. -/
theorem walk_empty (hdir : t.node here = some .dir) :
    t.walk n here ([] :: rest) = t.walk n here rest := by
  rw [walk_eq, descend, if_neg (fun h => h hdir), if_pos (Or.inl rfl)]

/-- The components of an absolute path's text. -/
theorem walk_text (hcs : ∀ c ∈ cs, (47 : UInt8) ∉ c) :
    t.walk n [] (split 47 (47 :: glue cs)) = t.walk n [] cs := by
  have hsplit : split 47 (47 :: glue cs) = [] :: split 47 (glue cs) :=
    split_append [] (glue cs)
  rw [hsplit, walk_empty t.root]
  cases cs with
  | nil => exact walk_empty t.root
  | cons c cs => rw [split_glue (by simp) hcs]

-- ====== the first missing

/-- A path's walk that ends at something missing: its longest part that is
there, and then the component that is missing, or a link to something
missing. -/
theorem missing_split (hcs : ∀ c ∈ cs, plain c = true)
    (h : t.walk n [] cs = .missing p rest) :
    ∃ pre c post q, cs = pre ++ c :: post ∧ t.walk n [] pre = .found q ∧
      Walk.gone (t.walk n [] (pre ++ [c])) = true ∧
      (t.linkAfter n pre c = true ∨ p = q ∧ rest = c :: post) := by
  induction cs using List.reverseRecOn generalizing p rest with
  | nil =>
    rw [walk_eq] at h
    cases h
  | append_singleton ds c ih =>
    have hc : plain c = true := hcs c (by simp)
    cases hds : t.walk n [] ds with
    | stuck =>
      rw [walk_stuck_append hds] at h
      cases h
    | missing q r =>
      have hap := walk_missing_append hds [c]
      rw [hap] at h
      cases h
      obtain ⟨pre, d, post, q', rfl, hfound, hgone, hlink⟩ :=
        ih (fun x hx => hcs x (List.mem_append_left _ hx)) hds
      refine ⟨pre, d, post ++ [c], q', by simp, hfound, hgone, ?_⟩
      rcases hlink with hlink | ⟨rfl, rfl⟩
      · exact .inl hlink
      · exact .inr ⟨rfl, rfl⟩
    | found q =>
      refine ⟨ds, c, [], q, rfl, hds, by rw [h]; rfl, ?_⟩
      obtain ⟨m, -, hm⟩ := walk_found_append hds
      rw [hm, walk_plain hc] at h
      split at h
      · cases h
      split at h
      · cases h
        exact .inr ⟨rfl, rfl⟩
      next text hnode =>
        left
        simp only [linkAfter, hds, hnode]
      next =>
        rw [walk_eq] at h
        cases h

theorem dangles_eq_false
    (h : t.dangles n pre cs = false) {ds post : List Bytes} {c : Bytes}
    (heq : cs = ds ++ c :: post) : t.linkAfter n (pre ++ ds) c = false ∨
      Walk.gone (t.walk n [] (pre ++ ds ++ [c])) = false := by
  induction ds generalizing pre cs with
  | nil =>
    subst heq
    rw [List.nil_append, dangles, Bool.or_eq_false_iff,
      Bool.and_eq_false_iff] at h
    rw [List.append_nil]
    exact h.1
  | cons d ds ih =>
    subst heq
    rw [List.cons_append, dangles, Bool.or_eq_false_iff] at h
    have := ih h.2 rfl
    simpa using this

/-- Where a path with no dangling link on it leads: to what is there, or
to its missing rest in the deepest directory that is. -/
theorem place_of_not_dangles
    (hcs : ∀ c ∈ cs, plain c = true) (hd : t.dangles n [] cs = false)
    (h : Walk.place (t.walk n [] cs) = some p) : t.walk n [] cs = .found p ∨
      ∃ pre c post q, cs = pre ++ c :: post ∧ t.walk n [] pre = .found q ∧
        Walk.gone (t.walk n [] (pre ++ [c])) = true ∧ p = q ++ c :: post := by
  cases hw : t.walk n [] cs with
  | stuck =>
    rw [hw] at h
    cases h
  | found q =>
    rw [hw] at h
    cases h
    exact .inl rfl
  | missing q rest =>
    obtain ⟨pre, c, post, q', heq, hfound, hgone, hlink⟩ :=
      missing_split hcs hw
    rcases hlink with hlink | ⟨rfl, rfl⟩
    · rcases dangles_eq_false hd heq with hno | hno
      · rw [List.nil_append, hlink] at hno
        cases hno
      · rw [List.nil_append, hgone] at hno
        cases hno
    · refine .inr ⟨pre, c, post, q, heq, hfound, hgone, ?_⟩
      have hrest : ∀ x ∈ c :: post, plain x = true := fun x hx =>
        hcs x (heq ▸ List.mem_append_right _ hx)
      have hup : str ".." ∉ c :: post := fun hx =>
        (plain_iff.mp (hrest _ hx)).2.2 rfl
      rw [hw, Walk.place, if_neg hup, List.filter_eq_self.mpr hrest] at h
      cases h
      rfl

-- ====== its names

/-- A walk's end is made of names and of what is left of the path. -/
def Named : Walk → Prop
  | .found q => ∀ c ∈ q, Name c
  | .missing q rest => (∀ c ∈ q, Name c) ∧ ∀ c ∈ rest, (47 : UInt8) ∉ c
  | .stuck => True

theorem descend_named {jump : Place → List Bytes → Walk}
    (hjump : ∀ p cs, (∀ c ∈ p, Name c) → (∀ c ∈ cs, (47 : UInt8) ∉ c) →
      Named (jump p cs)) (hhere : ∀ c ∈ here, Name c)
    (hcs : ∀ c ∈ cs, (47 : UInt8) ∉ c) : Named (t.descend jump here cs) := by
  induction cs generalizing here with
  | nil => exact hhere
  | cons c cs ih =>
    have hrest : ∀ x ∈ cs, (47 : UInt8) ∉ x := fun x hx =>
      hcs x (.tail _ hx)
    simp only [descend]
    split
    · trivial
    split
    · exact ih hhere hrest
    next hdot =>
      split
      · exact ih (fun x hx => hhere x (List.dropLast_subset here hx)) hrest
      next hup =>
        split
        · exact ⟨hhere, hcs⟩
        · refine hjump _ _ (fun x hx => ?_) (fun x hx => ?_)
          · split at hx
            · cases hx
            · exact hhere x hx
          · rcases List.mem_append.mp hx with hx | hx
            · exact not_mem_split hx
            · exact hrest x hx
        · rw [not_or] at hdot
          have hc : Name c := ⟨plain_iff.mpr ⟨hdot.1, hdot.2, hup⟩,
            hcs c (.head _)⟩
          refine ih (fun x hx => ?_) hrest
          rcases List.mem_append.mp hx with hx | hx
          · exact hhere x hx
          · rw [List.mem_singleton.mp hx]
            exact hc

theorem walk_named
    (hhere : ∀ c ∈ here, Name c) (hcs : ∀ c ∈ cs, (47 : UInt8) ∉ c) :
    Named (t.walk n here cs) := by
  induction n generalizing here cs with
  | zero =>
    refine descend_named (fun p cs _ _ => ?_) hhere hcs
    trivial
  | succ n ih => exact descend_named (fun _ _ hp hc => ih hp hc) hhere hcs

/-- A place is made of names. -/
theorem Named.place {w : Walk} {q : Place} (h : Named w)
    (hq : w.place = some q) : ∀ c ∈ q, Name c := by
  cases w with
  | stuck => cases hq
  | found p =>
    cases hq
    exact h
  | missing p rest =>
    rw [Walk.place] at hq
    split at hq
    · cases hq
    · cases hq
      intro c hc
      rcases List.mem_append.mp hc with hc | hc
      · exact h.1 c hc
      · obtain ⟨hmem, hplain⟩ := List.mem_filter.mp hc
        exact ⟨hplain, h.2 c hmem⟩

-- ====== no link on the path

theorem walk_direct
    (hcs : ∀ c ∈ cs, plain c = true) (hd : t.direct here cs = true)
    (h : Walk.place (t.walk n here cs) = some p) : p = here ++ cs := by
  induction cs generalizing here with
  | nil =>
    rw [walk_eq] at h
    cases h
    simp
  | cons c cs ih =>
    have hrest : ∀ x ∈ cs, plain x = true := fun x hx =>
      hcs x (.tail _ hx)
    rw [direct, Bool.and_eq_true] at hd
    rw [walk_plain (hcs c List.mem_cons_self)] at h
    split at h
    · cases h
    split at h
    next hnode =>
      have hup : str ".." ∉ c :: cs := fun hx =>
        (plain_iff.mp (hcs _ hx)).2.2 rfl
      rw [Walk.place, if_neg hup, List.filter_eq_self.mpr hcs] at h
      cases h
      rfl
    next text hnode =>
      rw [hnode] at hd
      cases hd.1
    next => rw [ih hrest hd.2 h]; simp

end Tree

end Hotserve.Links
