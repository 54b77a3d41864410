/-
Reading a bundle (box/proof/bundle.go): a gzip tarball of regular files
with fixed names, each with its cap. What gzip and tar make of the bytes
is a `Stream`: the archive's files in order, what `Next` answers after
them, and what is found on the way to the stream's end.
-/
import Hotserve.Bundle.Prove

namespace Hotserve.Bundle

open Bytes

/-- What `streamRefusal` tells apart. -/
inductive StreamErr
  | tooLarge
  | gzip
  | tar
  deriving DecidableEq

/-- A file of the archive: its header, and what reading it answers. -/
structure TarEntry where
  regular : Bool
  name : Bytes
  size : Int
  data : Except StreamErr Bytes

structure Stream where
  files : List TarEntry
  /-- What `Next` answers after the files: the end, or an error. -/
  next : Option StreamErr
  /-- Whether the rest of the stream reads to its end. -/
  drained : Bool
  /-- Whether the limit was reached. -/
  full : Bool

def maxTrees : Nat := Box.maxDepth + 1 + Box.maxSecretApps

def maxBlobs : Nat := Box.maxSecretApps * maxSecretVars

def maxChain : Nat := 500

structure Bundle where
  path : Bytes
  caddyfile : Bytes
  commit : Commit
  parents : List Commit
  trees : Trees
  blobs : Blobs
  deriving DecidableEq

def streamRefusal : StreamErr → Refusal
  | .tooLarge => refuse (str "bundle: larger than 16 MiB") []
  | .gzip => refuse (str "bundle: not a gzip stream") []
  | .tar => refuse (str "bundle: not a tar stream") []

/-- `strings.CutPrefix`. -/
def cutPrefix (pre b : Bytes) : Option Bytes :=
  if pre.isPrefixOf b then some (b.drop pre.length) else none

/-- `entryCap`. -/
def entryCap (name : Bytes) : Option Nat :=
  if name = str "path" then some (Box.maxPath + 1)
  else if name = str "Caddyfile" then some Box.maxCaddyfile
  else if name = str "commit" then some maxCommit
  else
    match cutPrefix (str "parents/") name with
    | some rest =>
      if rest.length = 4 ∧ rest.all Box.isDigit then some maxCommit else none
    | none =>
      match cutPrefix (str "trees/") name with
      | some id => if Box.isID id then some maxTree else none
      | none =>
        match cutPrefix (str "blobs/") name with
        | some id => if Box.isID id then some maxSecretFile else none
        | none => none

/-- `strconv.Atoi` of digits. -/
def atoi (digits : Bytes) : Nat :=
  digits.foldl (fun n d => 10 * n + (d.toNat - 48)) 0

/-- What the loop over the files carries. -/
structure Reading where
  path : Bytes
  caddyfile : Bytes
  commit : Option Commit
  parents : List (Nat × Commit)
  trees : Trees
  blobs : Blobs
  seen : List Bytes

variable (lib : Lib) (r : Reading)

/-- A tree, filed under the id it must hash to. -/
def readTree (id data : Bytes) : Except Refusal Reading :=
  if r.trees.length = maxTrees then
    .error (refuse (str ("bundle: more than " ++ toString maxTrees ++
      " trees")) [])
  else
    match parseTree lib data with
    | .error bad => .error bad
    | .ok t =>
      if t.id ≠ id then
        .error (refuse (str "bundle: trees/" ++ id ++
          str " does not hash to its name") [id])
      else .ok { r with trees := (id, t) :: r.trees }

/-- A blob, filed under the id it must hash to. -/
def readBlob (id data : Bytes) : Except Refusal Reading :=
  if r.blobs.length = maxBlobs then
    .error (refuse (str ("bundle: more than " ++ toString maxBlobs ++
      " blobs")) [])
  else if objectID lib (str "blob") data ≠ id then
    .error (refuse (str "bundle: blob " ++ id ++
      str " does not hash to its name") [id])
  else .ok { r with blobs := (id, data) :: r.blobs }

/-- A parent, by its place. -/
def readParent (name digits data : Bytes) : Except Refusal Reading :=
  let n := atoi digits
  if n = 0 ∨ maxChain - 1 < n then
    .error (refuse (str "bundle: " ++ lib.bound name ++
      str " is outside parents/0001 to parents/0499") [])
  else
    match parseCommit lib data with
    | .error bad => .error bad
    | .ok c => .ok { r with parents := (n, c) :: r.parents }

/-- `strings.TrimSuffix(s, "\n")`, as for a header's line. -/
def readPath (data : Bytes) : Except Refusal Reading :=
  match splitPath (chomp data) with
  | .error bad => .error bad
  | .ok _ => .ok { r with path := chomp data }

/-- A file of the bundle, by its name. -/
def readNamed (name data : Bytes) : Except Refusal Reading :=
  if name = str "path" then readPath r data
  else if name = str "Caddyfile" then .ok { r with caddyfile := data }
  else if name = str "commit" then
    match parseCommit lib data with
    | .error bad => .error bad
    | .ok c => .ok { r with commit := some c }
  else
    match cutPrefix (str "parents/") name with
    | some digits => readParent lib r name digits data
    | none =>
      match cutPrefix (str "trees/") name with
      | some id => readTree lib r id data
      | none =>
        match cutPrefix (str "blobs/") name with
        | some id => readBlob lib r id data
        | none => .ok r

/-- One file of the archive. -/
def readFile (f : TarEntry) : Except Refusal Reading :=
  let shown := lib.bound f.name
  if !f.regular then
    .error (refuse (str "bundle: " ++ shown ++ str " is not a regular file") [])
  else if f.name ∈ r.seen then
    .error (refuse (str "bundle: " ++ shown ++ str " appears twice") [])
  else
    match entryCap f.name with
    | none =>
      .error (refuse (str "bundle: " ++ shown ++
        str " is not a bundle file") [])
    | some limit =>
      if f.size < 0 ∨ (limit : Int) < f.size then
        .error (refuse (str "bundle: " ++ shown ++
          str (" is larger than its cap of " ++ toString limit ++
            " bytes")) [])
      else
        match f.data with
        | .error why => .error (streamRefusal why)
        | .ok data =>
          readNamed lib { r with seen := f.name :: r.seen } f.name data

/-- The parents `0001` to `n`, if none is missing. -/
def inSequence (parents : List (Nat × Commit)) : Except Refusal (List Commit) :=
  (List.range parents.length).mapM fun i =>
    match parents.lookup (i + 1) with
    | none => .error (refuse
        (str "bundle: parents/ is not a sequence from 0001") [])
    | some c => .ok c

def noFile (name : String) : Refusal :=
  refuse (str ("bundle: no " ++ name ++ " file")) []

/-- What is left to check once every file is in. -/
def finishBundle : Except Refusal Bundle :=
  if str "path" ∉ r.seen then .error (noFile "path")
  else if str "Caddyfile" ∉ r.seen then .error (noFile "Caddyfile")
  else
    match r.commit with
    | none => .error (noFile "commit")
    | some commit =>
      if r.caddyfile = [] then
        .error (refuse (str "bundle: Caddyfile is empty") [])
      else
        match inSequence r.parents with
        | .error bad => .error bad
        | .ok parents =>
          .ok ⟨r.path, r.caddyfile, commit, parents, r.trees, r.blobs⟩

/-- `ReadBundle`, of what gzip and tar make of the bytes: `none` if it is
no gzip stream. -/
def readBundle (stream : Option Stream) : Except Refusal Bundle :=
  match stream with
  | none => .error (streamRefusal .gzip)
  | some s =>
    match s.files.foldlM (readFile lib) ⟨[], [], none, [], [], [], []⟩ with
    | .error bad => .error bad
    | .ok r =>
      match s.next with
      | some why => .error (streamRefusal why)
      | none =>
        if !s.drained then .error (streamRefusal .gzip)
        else if s.full then .error (streamRefusal .tooLarge)
        else finishBundle r

end Hotserve.Bundle
