/-
Opening a path beneath a directory without following a link anywhere in
it (backups/nofollow): one component at a time, each from the descriptor
of the one before, and what was opened is looked at before it is gone
through. A descriptor is the list of components that led to it.
-/
import Hotserve.Fs

namespace Hotserve.Backup

open Bytes Fs

/-- How an open fails. -/
inductive OpenErr
  | notExist
  | link
  | notDir
  | invalid
  | other (err : Bytes)
  deriving DecidableEq

/-- The look at one component that was opened: `last` is the path's own
end, `dirOnly` is O_DIRECTORY. -/
def lookAt (st : Option Stat) (last dirOnly : Bool) : Except OpenErr Unit :=
  match st with
  | none => .error .notExist
  | some st =>
    -- O_DIRECTORY is the kernel's own refusal, a link's included
    if last && dirOnly && st.kind != .dir then .error .notDir
    else if st.kind = .link then .error .link
    else if !last && st.kind != .dir then .error .notDir
    else .ok ()

/-- The walk from the directory `cur`, over the components left. -/
def walkFrom (t : Tree) (dirOnly : Bool) (single : Bool) :
    List Bytes → List Bytes → Except OpenErr (List Bytes)
  | cur, [] => .ok cur
  | cur, part :: rest =>
    if part == str ".." || part == [] || (part == str "." && !single) then
      .error .invalid
    else
      -- `.` alone is the directory itself
      let next := if part == str "." then cur else cur ++ [part]
      match lookAt (t.stat next) rest.isEmpty dirOnly with
      | .error e => .error e
      | .ok () => walkFrom t dirOnly single next rest

/-- `nofollow.Open`. -/
def nofollowOpen (t : Tree) (rel : Bytes) (dirOnly : Bool) :
    Except OpenErr (List Bytes) :=
  if rel == [] || rel.head? == some 47 then .error .invalid
  else
    let parts := split 47 rel
    walkFrom t dirOnly (parts.length == 1) [] parts

end Hotserve.Backup
