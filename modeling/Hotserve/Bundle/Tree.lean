/-
Tree objects (box/proof/tree.go): the scan over a tree's bytes, which
stops where its visitor says, and the two things the proofs do with it.
`parseTree` holds the entries to git's order and to one entry a name;
`Tree.entry` looks a name up, and takes the first.

The scan hands a visitor the entry with its id in hex, where the source
hands the twenty bytes and each visitor encodes them.
-/
import Hotserve.Bundle.Object
import Hotserve.Check

namespace Hotserve.Bundle

open Bytes

def maxTree : Nat := 1048576

/-- The tree modes git writes. -/
inductive Mode
  | file
  | executable
  | symlink
  | submodule
  | dir
  deriving DecidableEq

/-- A mode as a tree spells it. -/
def readMode (b : Bytes) : Option Mode :=
  if b = str "100644" then some .file
  else if b = str "100755" then some .executable
  else if b = str "120000" then some .symlink
  else if b = str "160000" then some .submodule
  else if b = str "40000" then some .dir
  else none

structure Entry where
  mode : Mode
  name : Bytes
  id : Bytes
  deriving DecidableEq

structure Tree where
  raw : Bytes
  id : Bytes
  deriving DecidableEq

-- ====== the scan

def treeRefusal (id : Bytes) (why : String) : Refusal :=
  refuse (str "bundle: tree " ++ id ++ str ": " ++ str why) [id]

/-- What an entry's name may not be. -/
def badName (name : Bytes) : Bool :=
  name == [] || name == str "." || name == str ".." || name.contains 47

/-- One entry off the front of a tree's bytes: `<mode> <name>\0<id>`. -/
def takeEntry (id rest : Bytes) : Except Refusal (Entry × Bytes) :=
  match cut 32 rest with
  | none => .error (treeRefusal id "a truncated entry")
  | some (mode, after) =>
    match readMode mode with
    | none => .error (treeRefusal id "an entry mode git does not write")
    | some mode =>
      match cut 0 after with
      | none => .error (treeRefusal id "a truncated entry")
      | some (name, after) =>
        if after.length < 20 then
          .error (treeRefusal id "a truncated entry")
        else if badName name then
          .error (treeRefusal id
            "an entry name that is not one path component")
        else
          .ok (⟨mode, name, hexEncode (after.take 20)⟩, after.drop 20)

/-- The parts of an entry that is taken. -/
theorem takeEntry_ok {id rest rest' : Bytes} {e : Entry}
    (h : takeEntry id rest = .ok (e, rest')) :
    ∃ mode after after', cut 32 rest = some (mode, after) ∧
      readMode mode = some e.mode ∧ cut 0 after = some (e.name, after') ∧
      20 ≤ after'.length ∧ badName e.name = false ∧
      e.id = hexEncode (after'.take 20) ∧ rest' = after'.drop 20 := by
  unfold takeEntry at h
  split at h
  · cases h
  rename_i mode after hcut
  split at h
  · cases h
  rename_i m hmode
  split at h
  · cases h
  rename_i name after' hcut'
  obtain ⟨hlen, h⟩ := passed h
  obtain ⟨hgood, ⟨⟩⟩ := passed h
  exact ⟨mode, after, after', hcut, hmode, hcut', Nat.not_lt.mp hlen,
    Bool.not_eq_true _ ▸ hgood, rfl, rfl⟩

/-- An entry is taken off what is left. -/
theorem takeEntry_length {id rest rest' : Bytes} {e : Entry}
    (h : takeEntry id rest = .ok (e, rest')) : rest'.length < rest.length := by
  obtain ⟨mode, after, after', hcut, -, hcut', -, -, -, rfl⟩ := takeEntry_ok h
  have h₁ := cut_length hcut
  have h₂ := cut_length hcut'
  rw [List.length_drop]
  omega

/-- `Tree.scan`: every entry to the visitor, which carries a state and
says whether to go on. -/
def scan {σ : Type} (id : Bytes) (visit : σ → Entry → σ × Bool) (rest : Bytes)
    (s : σ) : σ × Option Refusal :=
  if rest = [] then (s, none)
  else
    match _h : takeEntry id rest with
    | .error bad => (s, some bad)
    | .ok (e, rest') =>
      match visit s e with
      | (s, false) => (s, none)
      | (s, true) => scan id visit rest' s
termination_by rest.length
decreasing_by exact takeEntry_length _h

/-- `Tree.entry`: the first entry of that name. -/
def Tree.entry (t : Tree) (name : Bytes) : Except Refusal (Option Entry) :=
  let visit := fun (found : Option Entry) (e : Entry) =>
    if e.name ≠ name then (found, true) else (some e, false)
  match scan t.id visit t.raw none with
  | (_, some bad) => .error bad
  | (found, none) => .ok found

/-- `Tree.Entries`: every entry, in order. -/
def Tree.entries (t : Tree) : Except Refusal (List Entry) :=
  match scan t.id (fun out e => (out ++ [e], true)) t.raw [] with
  | (_, some bad) => .error bad
  | (out, none) => .ok out

-- ====== the order

/-- `bytes.Compare`. -/
def bytesCompare : Bytes → Bytes → Int
  | [], [] => 0
  | [], _ :: _ => -1
  | _ :: _, [] => 1
  | c :: a, d :: b =>
    if c < d then -1 else if d < c then 1 else bytesCompare a b

/-- The byte of a name at the end of the shorter one: a directory's name
is read as though it ended in `/`. -/
def nextByte (n : Nat) (s : Bytes) (dir : Bool) : Int :=
  match s[n]? with
  | some c => c.toNat
  | none => if dir then 47 else 0

/-- `compareTreeNames`, git's `base_name_compare`. -/
def compareTreeNames (a : Bytes) (aDir : Bool) (b : Bytes) (bDir : Bool) :
    Int :=
  let n := min a.length b.length
  let c := bytesCompare (a.take n) (b.take n)
  if c ≠ 0 then c else nextByte n a aDir - nextByte n b bDir

/-- What `ParseTree` carries over the entries: the last one, the files
whose directory twin could still follow (the last pushed first), and
its refusal. -/
structure Order where
  prev : Option (Bytes × Bool)
  cands : List Bytes
  bad : Option Refusal

/-- An entry against the one before it. -/
def againstPrev (id : Bytes) (prev : Option (Bytes × Bool)) (name : Bytes)
    (dir : Bool) : Option Refusal :=
  match prev with
  | none => none
  | some (prevName, prevDir) =>
    if prevName = name then
      some (treeRefusal id "an entry name appears twice")
    else if 0 < compareTreeNames prevName prevDir name dir then
      some (treeRefusal id "entries are not in git's order")
    else none

/-- The candidates an entry has not sorted past. -/
def popPast (name : Bytes) (dir : Bool) (cands : List Bytes) : List Bytes :=
  cands.dropWhile fun c => decide (compareTreeNames c true name dir < 0)

/-- `ParseTree`'s visitor. -/
def visitOrder (id : Bytes) (s : Order) (e : Entry) : Order × Bool :=
  let dir := e.mode == .dir
  match againstPrev id s.prev e.name dir with
  | some bad => ({ s with bad := some bad }, false)
  | none =>
    let cands := popPast e.name dir s.cands
    if dir ∧ cands.head? = some e.name then
      ({ s with
          cands := cands
          bad := some (treeRefusal id "an entry name appears twice") }, false)
    else
      ({ s with
          prev := some (e.name, dir)
          cands := if dir then cands else e.name :: cands }, true)

/-- `ParseTree`. -/
def parseTree (lib : Lib) (raw : Bytes) : Except Refusal Tree :=
  if maxTree < raw.length then
    .error (refuse (str "bundle: a tree object is larger than 1 MiB") [])
  else
    let t : Tree := ⟨raw, objectID lib (str "tree") raw⟩
    match scan t.id (visitOrder t.id) raw ⟨none, [], none⟩ with
    | (_, some bad) => .error bad
    | (s, none) =>
      match s.bad with
      | some bad => .error bad
      | none => .ok t

end Hotserve.Bundle
