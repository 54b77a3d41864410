/-
The two trees of a restore (backups/restore): what was fetched, which is
finite and does not change, and what is restored into. A path is its
components, none for `.`: every path here is a clean one relative to the
shared dir, so `path.Dir` drops the last and `path.Join` adds one.
-/
import Hotserve.Backup.Nofollow
import Hotserve.Backup.Decl
import Mathlib.Data.List.Sort

namespace Hotserve.Restore

open Bytes Fs
open Backup (OpenErr lookAt Config sidecars)

/-- A clean path relative to a directory. -/
abbrev Rel := List Bytes

/-- The path as a string. -/
def shown (rel : Rel) : Bytes := if rel = [] then str "." else Path.glue rel

/-- `rel + suffix`, which names something beside `rel`. -/
def beside (rel : Rel) (suffix : Bytes) : Rel :=
  match rel with
  | [] => [str "." ++ suffix]
  | _ => rel.dropLast ++ [rel.getLastD [] ++ suffix]

-- ====== opening

/-- `nofollow.Open` from a directory on, component by component. -/
def descend (t : Tree) (dirOnly : Bool) : Rel → Rel → Except OpenErr Unit
  | _, [] => .ok ()
  | cur, part :: rest =>
    match lookAt (t.stat (cur ++ [part])) rest.isEmpty dirOnly with
    | .error e => .error e
    | .ok () => descend t dirOnly (cur ++ [part]) rest

/-- `nofollow.Open`. -/
def openAt (t : Tree) (rel : Rel) (dirOnly : Bool) : Except OpenErr Unit :=
  match rel with
  | [] => lookAt (t.stat []) true dirOnly
  | _ => descend t dirOnly [] rel

/-- What stands at `rel` itself, reached through no link. -/
def statAt (t : Tree) (rel : Rel) : Option Stat :=
  match rel with
  | [] => t.stat []
  | _ =>
    match openAt t rel.dropLast false with
    | .error _ => none
    | .ok () => t.stat rel

/-- A directory tree: what is in a directory is in one that is there. -/
structure Rooted (t : Tree) : Prop where
  root : ∃ st, t.stat [] = some st ∧ st.kind = .dir
  parent : ∀ rel name st, t.stat (rel ++ [name]) = some st →
    ∃ d, t.stat rel = some d ∧ d.kind = .dir

-- ====== what was fetched

/-- What was fetched: every entry, with its place. -/
structure Snapshot where
  entries : List (Rel × Stat)
  data : Nat → Bytes
  root : ∃ st, entries.lookup [] = some st ∧ st.kind = .dir
  parent : ∀ e ∈ entries, e.1 ≠ [] →
    ∃ st, entries.lookup e.1.dropLast = some st ∧ st.kind = .dir
  /-- One place an entry. -/
  nodup : (entries.map Prod.fst).Nodup
  /-- One inode is one file, which counts its names. -/
  inode : ∀ e ∈ entries, ∀ f ∈ entries, e.2.ino = f.2.ino →
    e.2 = f.2 ∧ (e.1 ≠ f.1 → 1 < e.2.nlink)
  ino_ne : ∀ e ∈ entries, e.2.ino ≠ 0

namespace Snapshot

def tree (s : Snapshot) : Tree := ⟨fun rel => s.entries.lookup rel, s.data⟩

/-- `dirNames`: the names in a directory, sorted. -/
def names (s : Snapshot) (rel : Rel) : List Bytes :=
  (s.entries.filterMap fun e =>
    if e.1.dropLast = rel then e.1.getLast? else none).insertionSort (· ≤ ·)

/-- As deep as the tree goes. -/
def depth (s : Snapshot) : Nat := (s.entries.map (·.1.length)).foldr max 0

end Snapshot

end Hotserve.Restore
