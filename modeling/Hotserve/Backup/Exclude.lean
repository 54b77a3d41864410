/-
The exclude file of an upload (backups/engine/engine.go): every declared
database that sits inside a declared files path, and its sidecars, by
their paths in the unit's view, each as a line that is to match that path
alone.
-/
import Hotserve.Backup.Engine

namespace Hotserve.Backup

open Bytes

/-- `excludeEscaper.Replace`. -/
def excludeEscaper (s : Bytes) : Bytes :=
  s.flatMap fun c =>
    if c = 92 then [92, 92]
    else if c = 42 then [92, 42]
    else if c = 63 then [92, 63]
    else if c = 91 then [92, 91]
    else if c = 36 then [36, 36]
    else [c]

/-- `excludes`. -/
def excludes (app : Bytes) (decl : Config) : Bytes :=
  decl.files.flatMap fun p =>
    (decl.sqlite.filter fun db =>
        !(p != str "." && db != p && !(p ++ str "/").isPrefixOf db)).flatMap
      fun db => ([] :: sidecars).flatMap fun suffix =>
        excludeEscaper (Path.join [str "/backup", app, str "files", db] ++
          suffix) ++ str "\n"

end Hotserve.Backup
