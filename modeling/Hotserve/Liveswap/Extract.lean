/-
Unpacking an artifact (liveswap/extract.go): the checks of the validate
pass, the caps of every pass, the count of what the entries make, and the
write pass through an os.Root.

The gzip and tar readers are an `Archive`: its entries in order, each with
how much of the decompressed stream had been read when its header was, and
when its content was. A `Lib` stands for SHA-256, for the quoting of texts
and for the texts of the system's own errors.
-/
import Hotserve.Rooted

namespace Hotserve.Liveswap.Extract

open Bytes Path Rooted

structure Lib where
  sum256 : Bytes → Bytes
  /-- `%q` of a string and of a byte, and `%d`. -/
  quote : Bytes → Bytes
  quoteByte : UInt8 → Bytes
  itoa : Int → Bytes
  /-- The Root's refusal to make a path, or to resolve one. -/
  refused : Bytes → Bytes

-- ====== the archive

/-- `tar.Header`: the fields the extraction reads. -/
structure Header where
  name : Bytes
  typeflag : UInt8
  linkname : Bytes
  size : Int

def typeReg : UInt8 := 48
def typeLink : UInt8 := 49
def typeSymlink : UInt8 := 50
def typeDir : UInt8 := 53
def typeXGlobalHeader : UInt8 := 103

/-- One entry: its header, its content's bytes, and the stream's position
behind each. The reader gives no more content than the header declares. -/
structure Entry where
  header : Header
  pos : Nat
  content : Nat
  drained : Nat
  fault : Option Bytes
  content_le : content ≤ header.size.toNat

/-- The entries, and what `Next` says after the last. -/
structure Archive where
  entries : List Entry
  pos : Nat
  fault : Option Bytes

structure ArchiveLimits where
  maxBytes : Int64
  maxEntries : Int

structure ArchiveStats where
  entries : Int
  bytes : Int
  deriving DecidableEq

/-- What the `LimitedReader` has left at a position. -/
def ArchiveLimits.room (lim : ArchiveLimits) (pos : Nat) : Int :=
  (lim.maxBytes + 1).toInt - pos

/-- An entry's content read to its end. -/
def Entry.read (lim : ArchiveLimits) (e : Entry) : Except Bytes Nat :=
  if lim.room e.drained < 0 then .error (str "unexpected EOF")
  else
    match e.fault with
    | some err => .error err
    | none => .ok e.content

/-- A failed entry, and how far the stream had been read. -/
structure Refusal where
  text : Bytes
  pos : Nat

-- ====== the checks

def maxEntryNameLen : Nat := 4096
def maxEntryComponentLen : Nat := 255

variable (lib : Lib)

/-- `checkNameLength`. -/
def checkNameLength (name : Bytes) : Except Bytes Unit :=
  if maxEntryNameLen ≤ name.length then
    .error (lib.itoa name.length ++ str " bytes exceeds PATH_MAX (" ++
      lib.itoa maxEntryNameLen ++ str " with its NUL)")
  else if (split 47 name).any (fun c => maxEntryComponentLen < c.length) then
    .error (str "has a component over " ++ lib.itoa maxEntryComponentLen ++
      str " bytes")
  else .ok ()

/-- `filepath.IsLocal`, on unix. -/
def isLocal (p : Bytes) : Bool :=
  if p.head? = some 47 ∨ p = [] then false
  else
    let dots := (split 47 p).any fun c => c == str "." || c == str ".."
    !outside (if dots then clean p else p)

/-- `safeRelPath`. -/
def safeRelPath (name : Bytes) : Except Bytes Bytes :=
  if clean name = str "." then .ok (str ".")
  else if !isLocal (clean name) then
    .error (str "path is not local to the archive root")
  else .ok (clean name)

/-- `linkTargetStaysInside`. -/
def linkTargetStaysInside (linkName target : Bytes)
    (relativeToLinkDir : Bool) : Except Bytes Unit :=
  if target.head? = some 47 then .error (str "absolute target")
  else
    let base := if relativeToLinkDir then dir linkName else str "."
    if outside (join [base, target]) then
      .error (str "target escapes archive root")
    else .ok ()

/-- What `validateEntry` says of a type it takes. -/
def validateType (hdr : Header) (name : Bytes) : Except Bytes Unit :=
  let arrow := lib.quote hdr.name ++ str " -> " ++ lib.quote hdr.linkname ++
    str ": "
  if hdr.typeflag = typeReg ∨ hdr.typeflag = typeDir then .ok ()
  else if hdr.typeflag = typeSymlink then
    (linkTargetStaysInside name hdr.linkname true).mapError
      (str "archive symlink " ++ arrow ++ ·)
  else if hdr.typeflag = typeLink then
    (linkTargetStaysInside name hdr.linkname false).mapError
      (str "archive hardlink " ++ arrow ++ ·)
  else
    .error (str "archive entry " ++ lib.quote hdr.name ++
      str " has unsupported type " ++ lib.quoteByte hdr.typeflag)

/-- `validateEntry`. -/
def validateEntry (lim : ArchiveLimits) (e : Entry) :
    Except Refusal Unit := do
  let hdr := e.header
  let early (err : Bytes) : Refusal := ⟨err, e.pos⟩
  (checkNameLength lib hdr.linkname).mapError
    (fun err => early (str "archive entry: link target: " ++ err))
  let name ← (safeRelPath hdr.name).mapError (fun err =>
    early (str "archive entry " ++ lib.quote hdr.name ++ str ": " ++ err))
  (validateType lib hdr name).mapError early
  let _ ← (e.read lim).mapError (fun err => ⟨err, e.drained⟩)
  return ()

/-- `extractArchive`'s own check, of the whole path. -/
def validate (destDir : Bytes) (lim : ArchiveLimits) (e : Entry) :
    Except Refusal Unit :=
  let under (name : Bytes) : Nat := destDir.length + 1 + name.length
  if maxEntryNameLen ≤ under e.header.name then
    .error ⟨str "archive entry name: " ++ lib.itoa (under e.header.name) ++
      str " bytes under the release directory exceeds PATH_MAX", e.pos⟩
  else if e.header.typeflag = typeLink ∧
      maxEntryNameLen ≤ under e.header.linkname then
    .error ⟨str "archive entry: hardlink target of " ++
      lib.itoa (under e.header.linkname) ++
      str " bytes under the release directory exceeds PATH_MAX", e.pos⟩
  else validateEntry lib lim e

-- ====== the counter

/-- `objectCounter.add`, from a path up; a path has no more parents than
bytes. -/
def addFrom : Nat → List Bytes → Bytes → Nat × List Bytes
  | 0, seen, _ => (0, seen)
  | fuel + 1, seen, p =>
    if p = str "." ∨ p = str "/" then (0, seen)
    else
      let key := lib.sum256 p
      -- a seen path has seen ancestors
      if key ∈ seen then (0, seen)
      else
        let (n, seen) := addFrom fuel (key :: seen) (dir p)
        (n + 1, seen)

/-- `objectCounter.add`. -/
def add (seen : List Bytes) (name : Bytes) : Nat × List Bytes :=
  let p := clean name
  addFrom lib p.length seen p

-- ====== the walk

/-- The variables of `walkArchive`'s loop. -/
structure Tally where
  entries : Int := 0
  declared : Int := 0
  seen : List Bytes := []

section

variable {σ : Type} (lim : ArchiveLimits)
  (fn : Entry → σ → Except Refusal Unit × σ)

def beyondCap : Bytes :=
  str "archive decompresses beyond the " ++ lib.itoa lim.maxBytes.toInt ++
    str "-byte cap"

/-- An entry against the caps: the tally it comes to. -/
def Tally.take (t : Tally) (e : Entry) : Except Bytes Tally :=
  let hdr := e.header
  if hdr.size < 0 ∨ lim.maxBytes.toInt - t.declared < hdr.size then
    .error (str "archive content declared beyond the " ++
      lib.itoa lim.maxBytes.toInt ++ str "-byte cap")
  else
    match checkNameLength lib hdr.name with
    | .error err => .error (str "archive entry name: " ++ err)
    | .ok _ =>
      let (n, seen) := add lib t.seen hdr.name
      if lim.maxEntries < t.entries + n then
        .error (str "archive creates more than " ++ lib.itoa lim.maxEntries ++
          str " files, directories and links (max_artifact_entries)")
      else .ok ⟨t.entries + n, t.declared + hdr.size, seen⟩

/-- `walkArchive`'s loop. -/
def walkEntries (a : Archive) :
    List Entry → Tally → σ → Except Bytes ArchiveStats × σ
  | [], t, s =>
    if lim.room a.pos ≤ 0 then (.error (beyondCap lib lim), s)
    else
      match a.fault with
      | some err => (.error (str "corrupt archive: " ++ err), s)
      | none =>
        (.ok ⟨t.entries,
          max (lim.maxBytes.toInt + 1 - lim.room a.pos) t.declared⟩, s)
  | e :: es, t, s =>
    -- the cap first: a stream that ends as the budget does is over it
    if lim.room e.pos ≤ 0 then (.error (beyondCap lib lim), s)
    else if e.header.typeflag = typeXGlobalHeader then
      walkEntries a es t s
    else
      match t.take lib lim e with
      | .error err => (.error err, s)
      | .ok t =>
        match fn e s with
        | (.error r, s) =>
          if lim.room r.pos ≤ 0 then (.error (beyondCap lib lim), s)
          else (.error r.text, s)
        | (.ok _, s) => walkEntries a es t s

/-- `walkArchive`. -/
def walkArchive (a : Archive) (s : σ) : Except Bytes ArchiveStats × σ :=
  walkEntries lib lim fn a a.entries {} s

end

-- ====== the write pass

/-- The destination, the `rootWriter`'s `lastDir`, and the bytes written to
regular files. -/
structure World where
  dest : Dest
  lastDir : Bytes
  written : Nat

def World.fresh : World := ⟨Dest.empty, [], 0⟩

/-- `rootWriter.parent`. -/
def parent (w : World) (dir : Bytes) : Except Bytes World :=
  if dir = w.lastDir then .ok w
  else
    match w.dest.mkdirAll (comps dir) with
    | none => .error (lib.refused dir)
    | some d => .ok { w with dest := d, lastDir := dir }

/-- What the Root made of a call. -/
def onRoot (w : World) (target : Bytes) :
    Option Dest → Except Bytes World
  | none => .error (lib.refused target)
  | some d => .ok { w with dest := d }

/-- `rootWriter.write`; what a failed call leaves is not kept. -/
def write (lim : ArchiveLimits) (e : Entry) (w : World) :
    Except Refusal World := do
  let hdr := e.header
  let early (err : Bytes) : Refusal := ⟨err, e.pos⟩
  let target ← (safeRelPath hdr.name).mapError early
  if hdr.typeflag = typeDir then
    (parent lib w target).mapError early
  else
    let w ← (parent lib w (dir target)).mapError early
    let cs := comps target
    if hdr.typeflag = typeReg then
      let w ← (onRoot lib w target (w.dest.openFile cs)).mapError early
      let n ← (e.read lim).mapError (fun err => ⟨err, e.drained⟩)
      return { w with written := w.written + n }
    else if hdr.typeflag = typeSymlink then
      (onRoot lib w target (w.dest.symlink hdr.linkname cs)).mapError early
    else if hdr.typeflag = typeLink then
      let src ← (safeRelPath hdr.linkname).mapError early
      (onRoot lib w target (w.dest.link (comps src) cs)).mapError early
    else
      .error (early (str "unsupported type " ++
        lib.quoteByte hdr.typeflag ++ str " reached extraction"))

/-- `rootWriter.entry`: the refusal names the entry. -/
def entry (lim : ArchiveLimits) (e : Entry) (w : World) :
    Except Refusal Unit × World :=
  match write lib lim e w with
  | .error r =>
    let text := str "archive entry " ++ lib.quote e.header.name ++
      str ": " ++ r.text
    (.error ⟨text, r.pos⟩, w)
  | .ok w => (.ok (), w)

/-- `checkLinksResolveInside`: a link the Root cannot follow. -/
def checkLinksResolveInside (d : Dest) : Except Bytes Unit :=
  let bad (p : Links.Place) : Option (Bytes × Bytes) :=
    match d.tree.node p with
    | some (.link text) =>
      if stat d.tree p = .refused then some (glue p, text) else none
    | _ => none
  match d.made.findSome? bad with
  | some (p, text) =>
    .error (str "archive symlink " ++ lib.quote p ++ str " -> " ++
      lib.quote text ++ str ": " ++ lib.refused p)
  | none => .ok ()

/-- `writeArchive`. -/
def writeArchive (lim : ArchiveLimits) (a : Archive) (w : World) :
    Except Bytes Unit × World :=
  match walkArchive lib lim (entry lib lim) a w with
  | (.error err, w) => (.error err, w)
  | (.ok _, w) => (checkLinksResolveInside lib w.dest, w)

/-- The validate pass, on a destination it has at hand. -/
def validateArchive (destDir : Bytes) (lim : ArchiveLimits) (a : Archive)
    (w : World) : Except Bytes ArchiveStats × World :=
  walkArchive lib lim (fun e w => (validate lib destDir lim e, w)) a w

/-- `extractArchive`. -/
def extractArchive (destDir : Bytes) (lim : ArchiveLimits) (a : Archive)
    (w : World) : Except Bytes ArchiveStats × World :=
  match validateArchive lib destDir lim a w with
  | (.error err, w) => (.error err, w)
  | (.ok stats, w) =>
    match writeArchive lib lim a w with
    | (.error err, w) => (.error err, w)
    | (.ok _, w) => (.ok stats, w)

end Hotserve.Liveswap.Extract
