/-
Go's os.Root over a directory that starts empty and is only added to:
`MkdirAll`, an open that creates, `Symlink` and `Link`.

A path is walked from the root a component at a time; links are followed,
so many at most, and a step that would leave the root is refused. What is
missing on the way is made by `MkdirAll`, through links too; an open that
creates makes the file a link to nothing leads to.

Nothing is taken away, so a walk that does not end at something missing
is the same in every later tree (`walk_sub`). What a path with no
dangling link on it makes stands where a part of the path leads
(`ensure_makes`, `openFile_makes`): that is `Part`.
-/
import Hotserve.Links

namespace Hotserve.Rooted

open Bytes Path Links
open Hotserve.Links.Tree (walk_eq walk_plain walk_mono walk_found_append
  walk_missing_append walk_stuck_append missing_split dangles_eq_false
  walk_direct)

-- ====== the tree

/-- One more entry, in a directory. -/
def put (t : Tree) (p : Place) (c : Bytes) (n : Node)
    (hdir : t.node p = some .dir) (hnew : t.node (p ++ [c]) = none) : Tree where
  node := fun q => if q = p ++ [c] then some n else t.node q
  root := by
    rw [if_neg (by simp)]
    exact t.root
  parent := fun q d hne => by
    -- nothing stands in what is new
    have hq : q ≠ p ++ [c] := by
      rintro rfl
      rw [if_neg (by simp)] at hne
      rw [t.parent _ d hne] at hnew
      cases hnew
    rw [if_neg hq]
    split at hne
    next heq =>
      rw [(List.append_inj' heq rfl).1]
      exact hdir
    · exact t.parent q d hne

/-- A directory that was empty, and the places made in it since. -/
structure Dest where
  tree : Tree
  made : List Place
  nodup : made.Nodup
  mem_made : ∀ p, p ∈ made ↔ p ≠ [] ∧ tree.node p ≠ none

namespace Dest

def empty : Dest where
  tree :=
    { node := fun p => if p = [] then some .dir else none
      root := rfl
      parent := fun p c hne => by simp at hne }
  made := []
  nodup := .nil
  mem_made := fun p => by simp

/-- An entry made in a directory, where there is none. -/
def put (d : Dest) (p : Place) (c : Bytes) (n : Node) : Option Dest :=
  if h : d.tree.node p = some .dir ∧ d.tree.node (p ++ [c]) = none then
    some
      { tree := Rooted.put d.tree p c n h.1 h.2
        made := (p ++ [c]) :: d.made
        nodup := List.nodup_cons.mpr
          ⟨fun hm => ((d.mem_made _).mp hm).2 h.2, d.nodup⟩
        mem_made := fun q => by
          rw [List.mem_cons, d.mem_made q, Rooted.put]
          dsimp only
          split
          next heq => simp [heq]
          next hne => simp [hne] }
  else none

end Dest

-- ====== the walk

/-- How a walk ends. -/
inductive Walk
  | found (p : Place)
  | missing (p : Place) (rest : List Bytes)
  | notDir
  /-- It would leave the root, or follows too many links. -/
  | refused
  deriving DecidableEq

def descend (t : Tree) (jump : Place → List Bytes → Walk) :
    Place → List Bytes → Walk
  | here, [] => .found here
  | here, c :: rest =>
    if t.node here ≠ some .dir then .notDir
    else if c = [] ∨ c = str "." then descend t jump here rest
    else if c = str ".." then
      if here = [] then .refused else descend t jump here.dropLast rest
    else
      match t.node (here ++ [c]) with
      | none => .missing here (c :: rest)
      | some (.link text) =>
        if text.head? = some 47 then .refused
        else jump here (split 47 text ++ rest)
      | some _ => descend t jump (here ++ [c]) rest

/-- A walk that follows `n` links at most. -/
def walk (t : Tree) : Nat → Place → List Bytes → Walk
  | 0 => descend t fun _ _ => .refused
  | n + 1 => descend t (walk t n)

/-- `rootMaxSymlinks`. -/
def maxSymlinks : Nat := 8

/-- `Root.Stat`. -/
def stat (t : Tree) (cs : List Bytes) : Walk := walk t maxSymlinks [] cs

-- ====== the operations

namespace Dest

/-- `Root.Stat` of a directory. -/
def isDir (d : Dest) (cs : List Bytes) : Bool :=
  match stat d.tree cs with
  | .found p => d.tree.node p == some .dir
  | _ => false

/-- `MkdirAll` from a place on: what is missing is made, and a link in the
last place must lead to a directory. -/
def ensureIn (full : List Bytes)
    (jump : Dest → Place → List Bytes → Option Dest) :
    Dest → Place → List Bytes → Option Dest
  | d, _, [] => some d
  | d, here, c :: rest =>
    if d.tree.node here ≠ some .dir then none
    else if c = [] ∨ c = str "." then ensureIn full jump d here rest
    else if c = str ".." then
      if here = [] then none else ensureIn full jump d here.dropLast rest
    else
      match d.tree.node (here ++ [c]) with
      | none =>
        match d.put here c .dir with
        | none => none
        | some d => ensureIn full jump d (here ++ [c]) rest
      | some .dir => ensureIn full jump d (here ++ [c]) rest
      | some .file => none
      | some (.link text) =>
        if rest = [] then if d.isDir full then some d else none
        else if text.head? = some 47 then none
        else jump d here (split 47 text ++ rest)

def ensure (full : List Bytes) :
    Nat → Dest → Place → List Bytes → Option Dest
  | 0 => ensureIn full fun _ _ _ => none
  | n + 1 => ensureIn full (ensure full n)

/-- `Root.MkdirAll`. -/
def mkdirAll (d : Dest) (cs : List Bytes) : Option Dest :=
  d.ensure cs maxSymlinks [] cs

/-- `Root.OpenFile` to write, creating. -/
def openFile (d : Dest) (cs : List Bytes) : Option Dest :=
  match stat d.tree cs with
  | .found p => if d.tree.node p = some .file then some d else none
  | .missing p [c] => d.put p c .file
  | _ => none

/-- An entry in the place a path names: its last component is not
followed. -/
def place (d : Dest) (cs : List Bytes) (n : Node) : Option Dest :=
  match cs.getLast?, stat d.tree cs.dropLast with
  | some c, .found p => d.put p c n
  | _, _ => none

/-- `Root.Symlink`; there is no link with an empty text. -/
def symlink (d : Dest) (text : Bytes) (cs : List Bytes) : Option Dest :=
  if text = [] then none else d.place cs (.link text)

/-- `Root.Link`: another name for what the last component of `old` is. -/
def link (d : Dest) (old new : List Bytes) : Option Dest :=
  match old.getLast?, stat d.tree old.dropLast with
  | some c, .found p =>
    match d.tree.node (p ++ [c]) with
    | some .file => d.place new .file
    | some (.link text) => d.place new (.link text)
    | _ => none
  | _, _ => none

end Dest

-- ====== growth

/-- Every entry of `t` is in `t'`, as it was. -/
def Sub (t t' : Tree) : Prop := ∀ p, t.node p ≠ none → t'.node p = t.node p

theorem Sub.refl (t : Tree) : Sub t t := fun _ _ => rfl

theorem Sub.trans {t t' t'' : Tree} (h : Sub t t') (h' : Sub t' t'') :
    Sub t t'' := fun p hp =>
  (h' p (by rw [h p hp]; exact hp)).trans (h p hp)

variable {t t' : Tree} {d d' : Dest}

variable {p here q : Place} {c : Bytes} {n : Node} {cs rest : List Bytes}

theorem put_eq_some (h : d.put p c n = some d') :
    d.tree.node p = some .dir ∧ d.tree.node (p ++ [c]) = none ∧
      d'.made = (p ++ [c]) :: d.made ∧ ∀ q, d'.tree.node q =
        if q = p ++ [c] then some n else d.tree.node q := by
  unfold Dest.put at h
  split at h
  next hok =>
    cases h
    exact ⟨hok.1, hok.2, rfl, fun _ => rfl⟩
  · cases h

theorem put_sub (h : d.put p c n = some d') : Sub d.tree d'.tree := by
  obtain ⟨-, hnew, -, hnode⟩ := put_eq_some h
  intro q hq
  rw [hnode, if_neg]
  rintro rfl
  exact hq hnew

/-- A walk in the root is the walk of the tree, where it ends in one. -/
def Agree : Walk → Links.Walk → Prop
  | .found p, w => w = .found p
  | .missing p rest, w => w = .missing p rest
  | _, _ => True

theorem descend_agree {jump : Place → List Bytes → Walk}
    {jump' : Place → List Bytes → Links.Walk}
    (hjump : ∀ p cs, Agree (jump p cs) (jump' p cs)) (here : Place) :
    Agree (descend t jump here cs) (t.descend jump' here cs) := by
  induction cs generalizing here with
  | nil => rfl
  | cons c cs ih =>
    simp only [descend, Tree.descend]
    split
    · trivial
    split
    · exact ih here
    split
    · split
      · trivial
      · exact ih here.dropLast
    cases t.node (here ++ [c]) with
    | none => rfl
    | some node =>
      cases node with
      | dir => exact ih (here ++ [c])
      | file => exact ih (here ++ [c])
      | link text =>
        dsimp only
        split
        · trivial
        · exact hjump here _

theorem walk_agree (n : Nat) (here : Place) (cs : List Bytes) :
    Agree (walk t n here cs) (t.walk n here cs) := by
  induction n generalizing here cs with
  | zero =>
    refine descend_agree (fun p cs => ?_) here
    trivial
  | succ n ih => exact descend_agree ih here

theorem stat_found
    (h : stat t cs = .found p) : t.walk maxSymlinks [] cs = .found p := by
  have hagree := walk_agree (t := t) maxSymlinks [] cs
  rw [stat] at h
  rwa [h] at hagree

theorem stat_missing (h : stat t cs = .missing p rest) :
    t.walk maxSymlinks [] cs = .missing p rest := by
  have hagree := walk_agree (t := t) maxSymlinks [] cs
  rw [stat] at h
  rwa [h] at hagree

theorem descend_sub {jump jump' : Place → List Bytes → Links.Walk}
    (hsub : Sub t t')
    (hjump : ∀ p cs q, jump p cs = .found q → jump' p cs = .found q)
    (h : t.descend jump here cs = .found q) :
    t'.descend jump' here cs = .found q := by
  induction cs generalizing here with
  | nil => exact h
  | cons c cs ih =>
    simp only [Tree.descend] at h ⊢
    split at h
    · cases h
    rename_i hdir
    rw [not_not] at hdir
    rw [if_neg (by rw [hsub here (by rw [hdir]; simp)]; simp [hdir])]
    split at h
    next hdot => rw [if_pos hdot]; exact ih h
    next hdot =>
      rw [if_neg hdot]
      split at h
      next hup => rw [if_pos hup]; exact ih h
      next hup =>
        rw [if_neg hup]
        split at h
        · cases h
        next text hnode =>
          rw [hsub _ (by rw [hnode]; simp), hnode]
          exact hjump _ _ _ h
        next node hlink hnode =>
          rw [hsub _ (by rw [hnode]; simp), hnode]
          cases node with
          | link text => exact absurd rfl (hlink text)
          | dir => exact ih h
          | file => exact ih h

/-- A place a walk leads to is where it leads in every later tree. -/
theorem walk_sub (hsub : Sub t t') {n : Nat} (h : t.walk n here cs = .found q) :
    t'.walk n here cs = .found q := by
  induction n generalizing here q cs with
  | zero => exact descend_sub hsub (fun _ _ _ h => by cases h) h
  | succ n ih => exact descend_sub hsub (fun _ _ _ h => ih h) h

/-- Straight down through directories. -/
theorem walk_down {n : Nat} (hcs : ∀ c ∈ cs, plain c = true)
    (hdirs : ∀ ds, ds <+: cs → t.node (here ++ ds) = some .dir) :
    t.walk n here cs = .found (here ++ cs) := by
  induction cs generalizing here with
  | nil =>
    rw [walk_eq]
    simp [Tree.descend]
  | cons c cs ih =>
    have hhere : t.node here = some .dir := by
      simpa using hdirs [] (List.nil_prefix)
    have hc : t.node (here ++ [c]) = some .dir :=
      hdirs [c] (by simp)
    rw [walk_plain (hcs c List.mem_cons_self), hc, if_neg (by simp [hhere])]
    rw [ih (fun x hx => hcs x (List.mem_cons_of_mem _ hx))]
    · simp
    · intro ds hds
      have := hdirs (c :: ds) (List.cons_prefix_cons.mpr ⟨rfl, hds⟩)
      simpa using this

-- ====== what is made

/-- Where the entry a path names stands, its last component not followed. -/
def spot (t : Tree) (cs : List Bytes) : Option Place :=
  match cs.getLast?, t.walk maxSymlinks [] cs.dropLast with
  | some c, .found q => some (q ++ [c])
  | _, _ => none

theorem spot_concat (h : t.walk maxSymlinks [] cs = .found q) :
    spot t (cs ++ [c]) = some (q ++ [c]) := by
  simp [spot, h]

theorem spot_sub (hsub : Sub t t')
    (h : spot t cs = some p) : spot t' cs = some p := by
  unfold spot at h ⊢
  split at h
  next c q hlast hwalk =>
    rw [hlast, walk_sub hsub hwalk]
    exact h
  · cases h

/-- Every place made since is where a part of a path leads. -/
structure Makes (d d' : Dest) (cs : List Bytes) : Prop where
  sub : Sub d.tree d'.tree
  made : ∀ p ∈ d'.made, p ∈ d.made ∨ ∃ ds, ds <+: cs ∧ spot d'.tree ds = some p

theorem Makes.refl (d : Dest) (cs : List Bytes) : Makes d d cs :=
  ⟨Sub.refl _, fun _ hp => .inl hp⟩

theorem Makes.trans {d'' : Dest} {ds : List Bytes} (h : Makes d d' ds)
    (hpre : ds <+: cs) (h' : Makes d' d'' cs) : Makes d d'' cs where
  sub := h.sub.trans h'.sub
  made := fun p hp => by
    rcases h'.made p hp with hp | hp
    · rcases h.made p hp with hp | ⟨es, hes, hspot⟩
      · exact .inl hp
      · exact .inr ⟨es, hes.trans hpre, spot_sub h'.sub hspot⟩
    · exact .inr hp

/-- An entry put where a walk leads. -/
theorem put_makes (hwalk : d.tree.walk maxSymlinks [] cs = .found q)
    (h : d.put q c n = some d') : Makes d d' (cs ++ [c]) where
  sub := put_sub h
  made := fun p hp => by
    rw [(put_eq_some h).2.2.1, List.mem_cons] at hp
    rcases hp with rfl | hp
    · exact .inr ⟨cs ++ [c], List.prefix_rfl,
        spot_concat (walk_sub (put_sub h) hwalk)⟩
    · exact .inl hp

theorem place_makes (h : d.place cs n = some d') : Makes d d' cs := by
  unfold Dest.place at h
  split at h
  next c p hlast hstat =>
    have hcs : cs = cs.dropLast ++ [c] :=
      (List.dropLast_append_getLast? c hlast).symm
    rw [hcs]
    exact put_makes (stat_found hstat) h
  · cases h

theorem link_makes {old new : List Bytes} (h : d.link old new = some d') :
    Makes d d' new := by
  unfold Dest.link at h
  split at h
  · split at h
    · exact place_makes h
    · exact place_makes h
    · cases h
  · cases h

theorem symlink_makes {text : Bytes}
    (h : d.symlink text cs = some d') : Makes d d' cs := by
  unfold Dest.symlink at h
  split at h
  · cases h
  · exact place_makes h

/-- Where the path's walk ends at something missing, it is a component of
the path itself that is missing. -/
def Spelled (t : Tree) (cs : List Bytes) : Prop :=
  ∀ p rest, t.walk maxSymlinks [] cs = .missing p rest →
    ∃ pre, cs = pre ++ rest ∧ t.walk maxSymlinks [] pre = .found p

/-- No link dangles on a part of a path where none does on the path. -/
theorem dangles_part {n : Nat} {pre ds : List Bytes}
    (h : t.dangles n pre (cs ++ ds) = false) : t.dangles n pre cs = false := by
  induction cs generalizing pre with
  | nil => rfl
  | cons c cs ih =>
    rw [List.cons_append, Tree.dangles, Bool.or_eq_false_iff] at h
    rw [Tree.dangles, Bool.or_eq_false_iff]
    exact ⟨h.1, ih h.2⟩

/-- A path with no dangling link on it. -/
theorem spelled_of_not_dangles (hcs : ∀ c ∈ cs, plain c = true)
    (hd : t.dangles maxSymlinks [] cs = false) : Spelled t cs := by
  intro p rest h
  obtain ⟨pre, c, post, q, heq, hfound, hgone, hlink⟩ := missing_split hcs h
  rcases hlink with hlink | ⟨rfl, rfl⟩
  · rcases dangles_eq_false hd heq with hno | hno
    · rw [List.nil_append, hlink] at hno
      cases hno
    · rw [List.nil_append, hgone] at hno
      cases hno
  · exact ⟨pre, heq, hfound⟩

theorem descend_missing {jump : Place → List Bytes → Links.Walk}
    (hjump : ∀ p cs q c rest, jump p cs = .missing q (c :: rest) →
      t.node (q ++ [c]) = none)
    (h : t.descend jump here cs = .missing q (c :: rest)) :
    t.node (q ++ [c]) = none := by
  induction cs generalizing here with
  | nil => cases h
  | cons x cs ih =>
    simp only [Tree.descend] at h
    split at h
    · cases h
    split at h
    · exact ih h
    split at h
    · exact ih h
    split at h
    next hnode =>
      cases h
      exact hnode
    · exact hjump _ _ _ _ _ h
    · exact ih h

/-- What a walk found missing is not there. -/
theorem walk_missing {n : Nat} (h : t.walk n here cs = .missing q (c :: rest)) :
    t.node (q ++ [c]) = none := by
  induction n generalizing here q cs c rest with
  | zero => exact descend_missing (fun _ _ _ _ _ h => by cases h) h
  | succ n ih => exact descend_missing (fun _ _ _ _ _ h => ih h) h

/-- A path whose last component is not in the directory it leads to. -/
theorem spelled_concat
    (hc : plain c = true) (hwalk : t.walk maxSymlinks [] cs = .found q)
    (hnew : t.node (q ++ [c]) = none) : Spelled t (cs ++ [c]) := by
  intro p rest h
  obtain ⟨m, -, hm⟩ := walk_found_append hwalk
  rw [hm, walk_plain hc, hnew] at h
  split at h
  · cases h
  · cases h
    exact ⟨cs, rfl, hwalk⟩

theorem openFile_makes (hs : Spelled d.tree cs)
    (h : d.openFile cs = some d') : Makes d d' cs := by
  unfold Dest.openFile at h
  split at h
  · split at h
    · cases h
      exact Makes.refl d cs
    · cases h
  next p c hstat =>
    obtain ⟨pre, rfl, hpre⟩ := hs p [c] (stat_missing hstat)
    exact put_makes hpre h
  · cases h

-- ====== MkdirAll

/-- How `MkdirAll` goes on from its first link. -/
def hop (full : List Bytes) : Nat → Dest → Place → List Bytes → Option Dest
  | 0 => fun _ _ _ => none
  | n + 1 => Dest.ensure full n

theorem ensure_eq (full : List Bytes) (n : Nat) :
    Dest.ensure full n = Dest.ensureIn full (hop full n) := by
  cases n with
  | zero => rfl
  | succ n => rfl

section

variable {full : List Bytes}

variable {here q : Place} {n : Nat} {rest pre : List Bytes} {c : Bytes}

theorem ensureIn_same {jump : Place → List Bytes → Links.Walk}
    {jump' : Dest → Place → List Bytes → Option Dest}
    (hjump : ∀ p cs, Walk.gone (jump p cs) = false →
      ∀ d', jump' d p cs = some d' → d' = d)
    {cs : List Bytes} (hgone : (d.tree.descend jump here cs).gone = false)
    (h : d.ensureIn full jump' here cs = some d') : d' = d := by
  induction cs generalizing here with
  | nil =>
    cases h
    rfl
  | cons c cs ih =>
    simp only [Tree.descend, Dest.ensureIn] at hgone h
    split at h
    · cases h
    rename_i hdir
    rw [if_neg hdir] at hgone
    split at h
    next hdot => exact ih (by rwa [if_pos hdot] at hgone) h
    next hdot =>
      rw [if_neg hdot] at hgone
      split at h
      next hup =>
        rw [if_pos hup] at hgone
        split at h
        · cases h
        · exact ih hgone h
      next hup =>
        rw [if_neg hup] at hgone
        split at h
        next hnode =>
          rw [hnode] at hgone
          cases hgone
        next hnode => exact ih (by rwa [hnode] at hgone) h
        next => cases h
        next text hnode =>
          rw [hnode] at hgone
          dsimp only at hgone
          split at h
          · split at h
            · cases h
              rfl
            · cases h
          · split at h
            · cases h
            next habs =>
              rw [if_neg habs] at hgone
              exact hjump _ _ hgone _ h

/-- Where nothing is missing, nothing is made. -/
theorem ensure_same {cs : List Bytes}
    (hgone : (d.tree.walk n here cs).gone = false)
    (h : d.ensure full n here cs = some d') : d' = d := by
  induction n generalizing here cs d' with
  | zero => exact ensureIn_same (fun _ _ _ _ h => by cases h) hgone h
  | succ n ih => exact ensureIn_same (fun _ _ hg _ h => ih hg h) hgone h

theorem ensureIn_found {jump : Place → List Bytes → Links.Walk}
    (hrest : rest ≠ []) (hjump : ∀ p cs q d', jump p cs = .found q →
      hop full n d p (cs ++ rest) = some d' →
      ∃ m, d.ensure full m q rest = some d')
    (hwalk : d.tree.descend jump here pre = .found q)
    (h : d.ensureIn full (hop full n) here (pre ++ rest) = some d') :
    ∃ m, d.ensure full m q rest = some d' := by
  induction pre generalizing here with
  | nil =>
    cases hwalk
    exact ⟨n, by rw [ensure_eq]; exact h⟩
  | cons c pre ih =>
    rw [List.cons_append] at h
    simp only [Tree.descend, Dest.ensureIn] at hwalk h
    split at h
    · cases h
    rename_i hdir
    rw [if_neg hdir] at hwalk
    split at h
    next hdot => exact ih (by rwa [if_pos hdot] at hwalk) h
    next hdot =>
      rw [if_neg hdot] at hwalk
      split at h
      next hup =>
        rw [if_pos hup] at hwalk
        split at h
        · cases h
        · exact ih hwalk h
      next hup =>
        rw [if_neg hup] at hwalk
        split at h
        next hnode =>
          rw [hnode] at hwalk
          cases hwalk
        next hnode => exact ih (by rwa [hnode] at hwalk) h
        next => cases h
        next text hnode =>
          rw [hnode] at hwalk
          dsimp only at hwalk
          rw [if_neg (by simp [hrest])] at h
          split at h
          · cases h
          next habs =>
            rw [if_neg habs] at hwalk
            rw [← List.append_assoc] at h
            exact hjump _ _ _ _ hwalk h

/-- `MkdirAll` goes on from the place a part of the path leads to. -/
theorem ensure_found (hrest : rest ≠ [])
    (hwalk : d.tree.walk n here pre = .found q)
    (h : d.ensure full n here (pre ++ rest) = some d') :
    ∃ m, d.ensure full m q rest = some d' := by
  induction n generalizing here q pre d' with
  | zero =>
    rw [ensure_eq] at h
    exact ensureIn_found hrest (fun _ _ _ _ hw => by cases hw) hwalk h
  | succ n ih =>
    rw [ensure_eq] at h
    refine ensureIn_found hrest (fun p cs q d' hw h => ?_) hwalk h
    exact ih hw h

/-- From a component that is missing, the rest is made straight down. -/
structure Fresh (d d' : Dest) (q : Place) (rest : List Bytes) : Prop where
  sub : Sub d.tree d'.tree
  dirs : ∀ ds, ds <+: rest → d'.tree.node (q ++ ds) = some .dir
  below : ∀ x, d'.tree.node (q ++ rest ++ [x]) = none
  made : ∀ p ∈ d'.made, p ∈ d.made ∨ ∃ ds, ds <+: rest ∧ ds ≠ [] ∧ p = q ++ ds

/-- Nothing is in what is missing. -/
theorem node_below {p : Place} (h : t.node p = none) (x : Bytes) :
    t.node (p ++ [x]) = none := by
  by_contra hne
  rw [t.parent p x hne] at h
  cases h

theorem ensure_missing
    (hc : plain c = true) (hnew : d.tree.node (q ++ [c]) = none)
    (h : d.ensure full n q (c :: rest) = some d') :
    ∃ d₁, d.put q c .dir = some d₁ ∧
      d₁.ensure full n (q ++ [c]) rest = some d' := by
  obtain ⟨hnil, hdot, hup⟩ := plain_iff.mp hc
  rw [ensure_eq, Dest.ensureIn,
    if_neg (show ¬ (c = [] ∨ c = str ".") by simp [hnil, hdot]),
    if_neg hup, hnew] at h
  split at h
  · cases h
  dsimp only at h
  split at h
  · cases h
  next d₁ hput =>
    rw [ensure_eq]
    exact ⟨d₁, hput, h⟩

theorem Fresh.put (h : d.put q c .dir = some d') : Fresh d d' q [c] where
  sub := put_sub h
  dirs := fun ds hds => by
    obtain ⟨hdir, -, -, hnode⟩ := put_eq_some h
    rw [hnode]
    cases ds with
    | nil => simp [hdir]
    | cons x ds =>
      obtain ⟨rfl, hnil⟩ := List.cons_prefix_cons.mp hds
      rw [List.prefix_nil.mp hnil, if_pos rfl]
  below := fun x => by
    obtain ⟨-, hnew, -, hnode⟩ := put_eq_some h
    rw [hnode, if_neg (by simp)]
    exact node_below hnew x
  made := fun p hp => by
    rw [(put_eq_some h).2.2.1, List.mem_cons] at hp
    rcases hp with rfl | hp
    · exact .inr ⟨[c], List.prefix_rfl, by simp, rfl⟩
    · exact .inl hp

/-- One more directory above. -/
theorem Fresh.cons {d₁ : Dest}
    (hput : d.put q c .dir = some d₁) (h : Fresh d₁ d' (q ++ [c]) rest) :
    Fresh d d' q (c :: rest) where
  sub := (put_sub hput).trans h.sub
  dirs := fun ds hds => by
    cases ds with
    | nil =>
      obtain ⟨hdir, -⟩ := put_eq_some hput
      have hsub := (put_sub hput).trans h.sub
      rw [List.append_nil, hsub q (by simp [hdir]), hdir]
    | cons x ds =>
      obtain ⟨rfl, hpre⟩ := List.cons_prefix_cons.mp hds
      simpa using h.dirs ds hpre
  below := fun x => by simpa using h.below x
  made := fun p hp => by
    rcases h.made p hp with hp | ⟨ds, hds, hne, rfl⟩
    · rcases (Fresh.put hput).made p hp with hp | ⟨ds, hds, hne, rfl⟩
      · exact .inl hp
      · refine .inr ⟨ds, hds.trans ?_, hne, rfl⟩
        simp
    · exact .inr ⟨c :: ds, List.cons_prefix_cons.mpr ⟨rfl, hds⟩, by simp,
        by simp⟩

theorem ensure_fresh (hcs : ∀ x ∈ c :: rest, plain x = true)
    (hnew : d.tree.node (q ++ [c]) = none)
    (h : d.ensure full n q (c :: rest) = some d') :
    Fresh d d' q (c :: rest) := by
  induction rest generalizing d q c with
  | nil =>
    obtain ⟨d₁, hput, h⟩ := ensure_missing (hcs c (by simp)) hnew h
    rw [ensure_eq] at h
    cases h
    exact Fresh.put hput
  | cons c' rest ih =>
    obtain ⟨d₁, hput, h⟩ := ensure_missing (hcs c (by simp)) hnew h
    refine Fresh.cons hput (ih (fun x hx => hcs x ?_) ?_ h)
    · exact .tail _ hx
    · exact (Fresh.put hput).below c'

/-- What is made straight down is where the path's parts lead. -/
theorem Fresh.makes (h : Fresh d d' q rest) (hrest : ∀ c ∈ rest, plain c = true)
    (hwalk : d.tree.walk maxSymlinks [] pre = .found q) :
    Makes d d' (pre ++ rest) ∧
      d'.tree.walk maxSymlinks [] (pre ++ rest) = .found (q ++ rest) := by
  -- the part above each is walked to, then straight down
  have hdown : ∀ ds, ds <+: rest →
      d'.tree.walk maxSymlinks [] (pre ++ ds) = .found (q ++ ds) := by
    intro ds hds
    obtain ⟨m, -, hm⟩ := walk_found_append (walk_sub h.sub hwalk)
    rw [hm]
    exact walk_down (fun c hc => hrest c (hds.subset hc))
      fun es hes => h.dirs es (hes.trans hds)
  refine ⟨⟨h.sub, fun p hp => ?_⟩, hdown rest List.prefix_rfl⟩
  rcases h.made p hp with hp | ⟨ds, hds, hne, rfl⟩
  · exact .inl hp
  · obtain ⟨es, c, rfl⟩ := (List.eq_nil_or_concat' ds).resolve_left hne
    refine .inr ⟨pre ++ (es ++ [c]), ?_, ?_⟩
    · exact (List.prefix_append_right_inj pre).mpr hds
    · rw [← List.append_assoc, ← List.append_assoc]
      exact spot_concat (hdown es ((List.prefix_append es [c]).trans hds))

end

/-- `MkdirAll` of a path with no dangling link on it makes nothing, or
makes its missing rest. -/
theorem mkdirAll_cases (hcs : ∀ c ∈ cs, plain c = true)
    (hs : Spelled d.tree cs) (h : d.mkdirAll cs = some d') :
    d' = d ∨ Makes d d' cs ∧ ∃ q, d'.tree.walk maxSymlinks [] cs = .found q ∧
        ∀ x, d'.tree.node (q ++ [x]) = none := by
  unfold Dest.mkdirAll at h
  cases hw : d.tree.walk maxSymlinks [] cs with
  | found p => exact .inl (ensure_same (by rw [hw]; rfl) h)
  | stuck => exact .inl (ensure_same (by rw [hw]; rfl) h)
  | missing p rest =>
    obtain ⟨pre, rfl, hpre⟩ := hs p rest hw
    obtain ⟨m, -, hm⟩ := walk_found_append hpre
    rw [hm] at hw
    cases rest with
    | nil =>
      rw [walk_eq] at hw
      cases hw
    | cons c rest =>
      have hrest : ∀ x ∈ c :: rest, plain x = true := fun x hx =>
        hcs x (List.mem_append_right _ hx)
      obtain ⟨k, hk⟩ := ensure_found (by simp) hpre h
      have hfresh := ensure_fresh hrest (walk_missing hw) hk
      obtain ⟨hmakes, hwalk⟩ := hfresh.makes hrest hpre
      exact .inr ⟨hmakes, _, hwalk, hfresh.below⟩

end Hotserve.Rooted
