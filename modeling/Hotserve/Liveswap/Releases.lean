/-
The order of an app's releases (liveswap/state.go): `newestFirst`, the
list an operator picks a rollback target from (`listReleases`,
`runningFirst`) and what a deploy prunes (`gcReleases`).

The app's directory is read as it stands: a release directory has its
modification time, where `Info` reads it, and a record is what
`openRecord` and `recordHead` make of the file at the version's name.
`gcReleases` hands back the directory it leaves; its log lines are left
out.
-/
import Hotserve.Compare
import Hotserve.StrMap
import Hotserve.Liveswap.Units

namespace Hotserve.Liveswap

open Bytes
open Compare (thenBy sortBy)

-- ====== what is on disk

/-- An entry of releases/. -/
structure ReleaseEntry where
  name : Bytes
  isDir : Bool
  /-- `Info().ModTime()`. -/
  mtime : Option Int
  deriving DecidableEq

/-- releases/ as `os.ReadDir` lists it: a name once. -/
structure ReleaseDir where
  entries : List ReleaseEntry
  nodup : (entries.map ReleaseEntry.name).Nodup

/-- What is left when a name is removed. -/
def ReleaseDir.without (dir : ReleaseDir) (name : Bytes) : ReleaseDir where
  entries := dir.entries.filter fun e => e.name != name
  nodup := dir.nodup.sublist (List.filter_sublist.map _)

/-- What stands at a version's name among the records. -/
inductive RecordAt
  | absent
  /-- A file that does not prove itself that version's record. -/
  | foreign
  | deploy (written : Int) (failed : Bool)
  | unreadable (err : Bytes)
  deriving DecidableEq

/-- `orderRecords`' records dir: none yet, or one to look in. -/
abbrev Records := Option (Bytes → RecordAt)

/-- An app's directory, as far as the order of its releases goes. -/
structure AppDirs where
  /-- `linkAt(d.releases)`: what is not the directory it names, and why. -/
  linked : Option (Bytes × Bytes)
  releases : Except Bytes ReleaseDir
  /-- `orderRecords`. -/
  records : Except Bytes Records

-- ====== the order

/-- `release`. -/
structure Release where
  name : Bytes
  deployed : Int
  failed : Bool
  byMtime : Bool
  notRelease : Bool
  deriving DecidableEq

/-- `recordedDeploy`: when the record was written, and whether that
deploy failed. -/
def recordedDeploy (records : Records) (version : Bytes) :
    Except Bytes (Option (Int × Bool)) :=
  match records with
  | none => .ok none
  | some look =>
    if !validVersion version then .ok none
    else
      match look version with
      | .absent => .ok none
      | .unreadable err => .error err
      | .foreign => .ok none
      | .deploy written failed => .ok (some (written, failed))

/-- `placeRelease`: the place, if it has one, and a record that could not
be read. -/
def placeRelease (records : Records) (e : ReleaseEntry) :
    Option Release × Option Bytes :=
  let byMtime := e.mtime.map fun t => ⟨e.name, t, false, true, false⟩
  match recordedDeploy records e.name with
  | .ok (some (written, failed)) =>
    (some ⟨e.name, written, failed, false, false⟩, none)
  | .ok none => (byMtime, none)
  | .error err => (byMtime, some err)

/-- `rank`: a name's place among `first`, those not `""`. -/
def rank (first : List Bytes) (name : Bytes) : Nat :=
  first.findIdx fun f => f ≠ [] && name == f

/-- `tier`. -/
def tier (r : Release) : Nat :=
  if r.notRelease then 3 else if r.byMtime then 2 else if r.failed then 1 else 0

/-- The comparison of releases of one rank. -/
def newerInRank : Release → Release → Bool :=
  thenBy tier (fun x y => decide (x < y)) <|
    thenBy Release.deployed (fun x y => decide (y < x)) fun a b =>
      decide (b.name < a.name)

/-- The comparison of `newestFirst`. -/
def newer (first : List Bytes) : Release → Release → Bool :=
  thenBy (fun r => rank first r.name) (fun x y => decide (x < y)) newerInRank

/-- `newestFirst`. -/
def newestFirst (rels : List Release) (first : List Bytes) : List Release :=
  sortBy (newer first) rels

-- ====== the list

/-- One entry's release in the status's order. -/
def listPlace (records : Records) (e : ReleaseEntry) : Option Release :=
  if e.isDir && validVersion e.name then (placeRelease records e).1 else none

/-- `listReleases`: the versions, and those of them placed by mtime.
Records that cannot be read place their releases by mtime. -/
def listReleases (d : AppDirs) : List Bytes × List Bytes :=
  match d.releases with
  | .error _ => ([], [])
  | .ok dir =>
    let records := match d.records with
      | .ok records => records
      | .error _ => none
    let rels := newestFirst (dir.entries.filterMap (listPlace records)) []
    (rels.map Release.name, (rels.filter Release.byMtime).map Release.name)

/-- `runningFirst`. -/
def runningFirst (list : List Bytes) (running : Bytes) : List Bytes :=
  let i := list.idxOf running
  if 0 < i ∧ i < list.length then
    running :: (list.take i ++ list.drop (i + 1))
  else list

-- ====== pruning

/-- `os.RemoveAll` of a name under releases/, where it works. -/
def AppDirs.removeAll (works : Bytes → Bool) (d : AppDirs) (name : Bytes) :
    AppDirs :=
  match d.releases with
  | .error _ => d
  | .ok dir =>
    if works name then { d with releases := .ok (dir.without name) } else d

/-- The crash orphans of extraction. -/
def orphans (entries : List ReleaseEntry) : List Bytes :=
  (entries.filter fun e =>
    e.isDir && (str ".extract-").isPrefixOf e.name).map ReleaseEntry.name

/-- One entry's release in GC's order; a release whose record cannot be
read is held out of it. -/
def gcPlace (records : Records) (e : ReleaseEntry) : Option Release :=
  if !e.isDir || (str ".").isPrefixOf e.name then none
  else if !validVersion e.name then some ⟨e.name, 0, false, false, true⟩
  else
    match placeRelease records e with
    | (_, some _) => none
    | (r, none) => r

/-- Whether the release at place `i` of GC's order goes. -/
def pruned (keep : Nat) (protect : Bytes) (i : Nat) (r : Release) : Bool :=
  !((decide (i < keep) && !r.notRelease) || r.name == protect)

/-- What GC prunes of the releases in its order. -/
def pruneList (keep : Nat) (protect : Bytes) (rels : List Release) :
    List Bytes :=
  (rels.zipIdx.filter fun p => pruned keep protect p.2 p.1).map
    fun p => p.1.name

/-- `gcReleases`, with what `os.RemoveAll` works on. -/
def gcReleases (works : Bytes → Bool) (d : AppDirs) (keep : Nat)
    (protect previous : Bytes) : AppDirs :=
  match d.linked, d.releases with
  | some _, _ => d
  | none, .error _ => d
  | none, .ok dir =>
    let swept := (orphans dir.entries).foldl (AppDirs.removeAll works) d
    match d.records with
    | .error _ => swept
    | .ok records =>
      let rels := newestFirst (dir.entries.filterMap (gcPlace records))
        [protect, previous]
      (pruneList keep protect rels).foldl (AppDirs.removeAll works) swept

/-- The versions on disk: the directories named as one. -/
def AppDirs.versions (d : AppDirs) : List Bytes :=
  match d.releases with
  | .error _ => []
  | .ok dir =>
    (dir.entries.filter fun e => e.isDir && validVersion e.name).map
      ReleaseEntry.name

end Hotserve.Liveswap
