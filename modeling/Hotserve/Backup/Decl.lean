/-
What an app declares about its backups (liveswap/backupdecl): which
paths of its shared dir are SQLite databases and which are plain files,
and the rules a declaration is held to before anything acts on it.

`quote` is Go's `%q`, which only error texts go through.
-/
import Hotserve.Check
import Hotserve.Path

namespace Hotserve.Backup

open Bytes

/-- One app's `backup` block. -/
structure Config where
  sqlite : List Bytes
  files : List Bytes
  deriving DecidableEq

/-- What a declared path is declared as. -/
inductive Kind
  | sqlite
  | files
  deriving DecidableEq

def Kind.word : Kind → Bytes
  | .sqlite => str "sqlite"
  | .files => str "files"

/-- `item`: one declared path. -/
structure Declared where
  kind : Kind
  path : Bytes
  deriving DecidableEq

/-- Every declared path, databases first. -/
def Config.declared (c : Config) : List Declared :=
  c.sqlite.map (Declared.mk .sqlite) ++ c.files.map (Declared.mk .files)

def sidecars : List Bytes := [str "-wal", str "-shm", str "-journal"]

def pathLimit : Nat := 400

variable (quote : Bytes → Bytes)

/-- `item.String`. -/
def Declared.text (i : Declared) : Bytes :=
  i.kind.word ++ str " " ++ quote i.path

/-- `strings.ContainsFunc(p, unicode.IsControl)`, of valid UTF-8: C0 and
DEL are bytes, C1 is what follows 0xC2. -/
def hasControl : Bytes → Bool
  | [] => false
  | [c] => c < 32 || c == 127
  | c :: d :: rest =>
    c < 32 || c == 127 || (c == 0xC2 && 0x80 ≤ d && d ≤ 0x9F) ||
      hasControl (d :: rest)

/-- `within`: `p` lies beneath `dir`. -/
def within (p dir : Bytes) : Bool :=
  p != dir && (dir == str "." || (dir ++ str "/").isPrefixOf p)

/-- `item.validate`: one path on its own. -/
def Declared.validate (i : Declared) :
    Except Bytes Unit := do
  let p := i.path
  let c := Path.clean p
  failIf (p == []) (i.text quote ++ str ": the path is empty")
  failIf (!validUTF8 p) (i.text quote ++
    str (": the path is not valid UTF-8, and the JSON config it is carried " ++
      "in cannot spell it"))
  failIf (hasControl p)
    (i.text quote ++ str ": the path contains a control character")
  failIf (p.any fun b => b == 123 || b == 125) (i.text quote ++
    str (": the path contains a placeholder (\x7b or \x7d), and a backup " ++
      "path takes none; it is relative to the app's shared dir already, " ++
      "so `\x7bshared_dir\x7d/app.db` is written `app.db`"))
  failIf (p.head? == some 47) (i.text quote ++
    str (": the path must be relative to the app's shared dir, " ++
      "not absolute"))
  failIf (decide (pathLimit < p.length)) (i.text quote ++
    str ": the path is " ++ str (toString p.length) ++
    str " bytes, and a backup path is " ++ str (toString pathLimit) ++
    str (" at most: sqlite3 does not open a path past its own limit " ++
      "as itself"))
  -- outside before unclean: the clean spelling is then no advice
  failIf (Path.outside c) (i.text quote ++
    str ": the path reaches outside the app's shared dir")
  failIf (c != p) (i.text quote ++
    str (": the path must be clean (no ., .. or doubled or trailing " ++
      "separators): write ") ++ quote c)
  failIf (i.kind == .sqlite && p == str ".") (i.text quote ++
    str (": names a directory, the shared dir itself; a sqlite path names " ++
      "one database file"))

/-- One half of `collide`: what a database does not leave to others. -/
def collideDatabase (db other : Declared) : Except Bytes Unit :=
  if db.kind ≠ .sqlite then .ok ()
  else do
    sidecars.forM fun suffix =>
      failIf (other.path == db.path ++ suffix ||
          within other.path (db.path ++ suffix))
        (other.text quote ++ str " belongs to the database " ++
          quote db.path ++ str ": its " ++ suffix ++
          str (" is part of it, not something to declare; " ++
            "remove that path"))
    failIf (within other.path db.path) (other.text quote ++ str " is under " ++
      quote db.path ++ str ", which is a database, not a directory")

/-- `collide`: why two paths cannot both be declared. -/
def collide (a b : Declared) : Except Bytes Unit :=
  if a.path = b.path then
    if a.kind = b.kind then
      .error (b.text quote ++ str " is declared more than once")
    else
      .error (quote b.path ++ str (" is declared as both sqlite and files; " ++
        "a database is declared as sqlite only"))
  else do
    collideDatabase quote a b
    collideDatabase quote b a
    failIf (a.kind == .files && b.kind == .files && within b.path a.path)
      (b.text quote ++ str " is already covered by " ++ a.text quote)
    failIf (a.kind == .files && b.kind == .files && within a.path b.path)
      (a.text quote ++ str " is already covered by " ++ b.text quote)

/-- Each path against those before it. -/
def collideAll (quote : Bytes → Bytes) :
    List Declared → List Declared → Except Bytes Unit
  | _, [] => .ok ()
  | before, b :: rest => do
    before.forM fun a => collide quote a b
    collideAll quote (before ++ [b]) rest

/-- `Config.Validate`. -/
def Config.validate (c : Config) :
    Except Bytes Unit := do
  failIf (c.sqlite.isEmpty && c.files.isEmpty)
    (str ("declares nothing: name at least one `sqlite <path>` or " ++
      "`files <path>`, relative to the app's shared dir"))
  c.declared.forM fun i => i.validate quote
  collideAll quote [] c.declared

end Hotserve.Backup
