/-
What a backup run that says ok owes: every declared path was given to
restic as it was found, and is in the snapshot this run made. It is
stated over what the units answered, not over what the run made of it.
-/
import Hotserve.Backup.Engine

namespace Hotserve.Backup

open Bytes Fs

/-- The node one line of a listing gives for a path, if it is one. -/
def nodeOn (json : Json) (path line : Bytes) : Option LsNode :=
  match json.line (dropCR line) with
  | some n =>
    if n.structType = str "node" ∧ n.path = path then some n.node else none
  | none => none

/-- The listing's last node at a path. -/
def lastNode (json : Json) (raw path : Bytes) : Option LsNode :=
  ((scanLines raw).filterMap (nodeOn json path)).getLast?

/-- What stands at a path, reached through no link. -/
structure Reached (t : Tree) (p : Bytes) (st : Stat) : Prop where
  found : t.stat (Path.comps p) = some st
  no_link : ∀ pre, pre <+: Path.comps p → pre ≠ [] →
    ∃ s, t.stat pre = some s ∧ s.kind ≠ .link

/-- A database in the snapshot: the listing's last word on its place is
a file that is not empty. -/
def HoldsDatabase (json : Json) (raw place : Bytes) : Prop :=
  ∃ node, lastNode json raw place = some node ∧ node.type_ = str "file" ∧
    node.size ≠ 0

/-- A declared file or directory in the snapshot: the listing's last word
on its place is the very inode that was pinned. -/
def HoldsFile (json : Json) (raw place : Bytes) (st : Stat) : Prop :=
  ∃ node, lastNode json raw place = some node ∧
    (node.type_ = str "file" ∨ node.type_ = str "dir") ∧
    node.inode = some st.ino ∧ node.uid = st.uid ∧ node.gid = st.gid

/-- The dump unit's answer, when it answered OK about exactly the
declared databases. -/
def DumpedAll (env : Env) (decl : Config) : Prop :=
  ∃ o raw rs, env.dump = .ok (o, .ok raw) ∧ env.json.results raw = some rs ∧
    rs.map DumpResult.path = decl.sqlite ∧ ∀ r ∈ rs, r.class_ = dumpOK

/-- The run's view of the declared paths. -/
def runView (env : Env) (name staging : Bytes) (decl : Config) : View :=
  view env name staging (env.dir ++ str "/" ++ name ++ str ".plan.json") decl

/-- What the run's upload unit is given to read. -/
def runBinds (env : Env) (name staging : Bytes) (decl : Config) : List Bind :=
  (runView env name staging decl).binds ++
    [⟨env.dir ++ str "/" ++ name ++ str ".exclude", str "/backup-exclude"⟩]

/-- A complete backup. -/
structure Complete (env : Env) (name : Bytes) (decl : Config) (app : App) :
    Prop where
  cleaned_before : ∃ o, env.cleanBefore = .ok o ∧ o.ok = true
  cleaned_after : ∃ o, env.cleanAfter = .ok o ∧ o.ok = true
  /-- Exactly one item a declared path, each ok. -/
  items : app.items.map (fun it => Declared.mk it.kind it.path) = decl.declared
  items_nodup : decl.declared.Nodup
  items_ok : ∀ it ∈ app.items, it.ok = true
  dumped : decl.sqlite ≠ [] → DumpedAll env decl
  /-- restic exited 0, and the snapshot is its own summary's. -/
  uploaded : ∃ staging o out id, env.staging = .ok staging ∧
    env.upload (runBinds env name staging decl)
      (runView env name staging decl).masked = .ok (o, out) ∧ o.ok = true ∧
    summaryID env.json out = id ∧ isSnapshotID id = true ∧
    app.snapshot = some ⟨id, env.now, some env.now⟩
  /-- The listing of that snapshot, of the directories its items are in,
  bears every item out. -/
  listed : ∃ snap o raw, app.snapshot = some snap ∧
    env.verify snap.id (parents (want (backupBase name) app.items)) =
      .ok (o, .ok raw) ∧ o.ok = true ∧
    (∀ p ∈ decl.sqlite, HoldsDatabase env.json raw
      (itemPath (backupBase name) .sqlite p)) ∧
    (∀ p ∈ decl.files, ∃ st, Reached (env.shared p) p st ∧
      (st.kind = .file ∨ st.kind = .dir) ∧
      HoldsFile env.json raw (itemPath (backupBase name) .files p) st)

end Hotserve.Backup
