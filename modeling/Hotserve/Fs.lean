/-
A directory tree as a process beneath one of its directories sees it:
what stands at each path, and what each inode holds. A path is its list
of components, so names that are one file share an inode and nothing
else, and a symbolic link is an entry that leads nowhere by itself.
-/
import Hotserve.Bytes

namespace Hotserve.Fs

/-- What an inode is (`st_mode & S_IFMT`). -/
inductive Kind
  | file
  | dir
  | link
  | fifo
  | socket
  | device
  | special
  deriving DecidableEq

/-- What `stat` says of an inode. -/
structure Stat where
  kind : Kind
  ino : Nat
  nlink : Nat
  uid : Nat
  gid : Nat
  perm : Nat
  deriving DecidableEq

/-- A tree: the entry at each path, and each inode's bytes (a file's
content, a link's text). -/
structure Tree where
  stat : List Bytes → Option Stat
  data : Nat → Bytes

end Hotserve.Fs
