/-
What the proofs are about: a repository, and what a commit of it holds.
A repository is its objects, found by their ids; it holds what its trees
name, other repositories' commits apart. A commit's tree is read here
from the repository alone: no bundle, no cap, no order of lookup.
-/
import Hotserve.Bundle.Read

namespace Hotserve.Bundle

open Bytes

inductive ObjectKind
  | commit
  | tree
  | blob
  deriving DecidableEq

def ObjectKind.text : ObjectKind → Bytes
  | .commit => str "commit"
  | .tree => str "tree"
  | .blob => str "blob"

structure Object where
  kind : ObjectKind
  raw : Bytes
  deriving DecidableEq

def Object.id (lib : Lib) (o : Object) : Bytes := objectID lib o.kind.text o.raw

/-- The entries of a tree's bytes, if git could have written them. -/
def treeEntries (lib : Lib) (raw : Bytes) : Option (List Entry) :=
  match parseTree lib raw with
  | .error _ => none
  | .ok t => t.entries.toOption

/-- A repository: objects, and with a tree what its entries name. -/
structure Repo (lib : Lib) where
  objects : List Object
  closed : ∀ t ∈ objects, t.kind = .tree →
    ∀ e ∈ (treeEntries lib t.raw).getD [], e.mode ≠ .submodule →
      ∃ o ∈ objects, o.id lib = e.id

namespace Repo

variable {lib : Lib}

variable (repo : Repo lib)

/-- The object of an id. -/
def get (id : Bytes) : Option Object :=
  repo.objects.find? (·.id lib == id)

/-- The entries of the tree of an id. -/
def tree (id : Bytes) : Option (List Entry) :=
  match repo.get id with
  | some ⟨.tree, raw⟩ => treeEntries lib raw
  | _ => none

/-- The content of the blob of an id. -/
def blob (id : Bytes) : Option Bytes :=
  match repo.get id with
  | some ⟨.blob, raw⟩ => some raw
  | _ => none

/-- The repository has the commit's tree. -/
def HasCommit (c : Commit) : Prop :=
  ∃ o ∈ repo.objects, o.id lib = c.tree

/-- The directory a list of names leads to, from a tree. -/
inductive Dir (repo : Repo lib) : Bytes → List Bytes → Bytes → Prop
  | here {id : Bytes} : Dir repo id [] id
  | down {id last : Bytes} {es : List Entry} {e : Entry} {names : List Bytes}
      (entries : repo.tree id = some es) (mem : e ∈ es) (isDir : e.mode = .dir)
      (more : Dir repo e.id names last) : Dir repo id (e.name :: names) last

/-- A regular file and its content, in a tree at a path. -/
def File (root : Bytes) (dirs : List Bytes) (name content : Bytes) : Prop :=
  ∃ id es e, repo.Dir root dirs id ∧ repo.tree id = some es ∧ e ∈ es ∧
    e.name = name ∧ e.mode.regular ∧ repo.blob e.id = some content

/-- A `<VAR>.age` file. -/
def isSecret (e : Entry) : Bool :=
  e.mode.regular && (cutSuffix (str ".age") e.name).isSome

/-- The variable of a `<VAR>.age` file, with the file's content. -/
def secret (e : Entry) : Option SecretVar := do
  let name ← cutSuffix (str ".age") e.name
  let data ← repo.blob e.id
  return ⟨name, e.id, data⟩

/-- An app's directory: every `<VAR>.age` file, in the tree's order. -/
def secretApp (e : Entry) : Option SecretApp := do
  let es ← repo.tree e.id
  let vars ← (es.filter isSecret).mapM repo.secret
  return ⟨e.name, vars⟩

/-- A secrets directory: every directory in it, in the tree's order. -/
def secretApps (id : Bytes) : Option (List SecretApp) := do
  let es ← repo.tree id
  (es.filter (·.mode == .dir)).mapM repo.secretApp

/-- The secrets beside a file: none if its directory has no `secrets`,
else all that `secrets` holds. -/
def SecretsBeside (root : Bytes) (dirs : List Bytes) (s : Secrets) : Prop :=
  ∃ id es, repo.Dir root dirs id ∧ repo.tree id = some es ∧
    (((∀ e ∈ es, e.name ≠ str "secrets") ∧ s = ⟨[], []⟩) ∨
      ∃ e ∈ es, e.name = str "secrets" ∧ e.mode = .dir ∧ s.tree = e.id ∧
        repo.secretApps e.id = some s.apps)

end Repo

-- ====== the bundle's part

/-- The objects of the bundled trees and blobs. -/
def carried (trees : Trees) (blobs : Blobs) : List Object :=
  (trees.map fun p => ⟨.tree, p.2.raw⟩) ++ blobs.map fun p => ⟨.blob, p.2⟩

/-- No two of the objects share an id. -/
def NoCollision (lib : Lib) (objects : List Object) : Prop :=
  ∀ o ∈ objects, ∀ p ∈ objects, o.id lib = p.id lib → o = p

/-- Every tree on the way down is bundled. -/
def HoldsWay {lib : Lib} (repo : Repo lib) (trees : Trees) (root : Bytes)
    (dirs : List Bytes) : Prop :=
  ∀ way id, way <+: dirs → repo.Dir root way id → ∃ t, (id, t) ∈ trees

end Hotserve.Bundle
