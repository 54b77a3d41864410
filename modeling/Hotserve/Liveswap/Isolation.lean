/-
What keeps one app's env file, and the admin socket, out of an app's view
(liveswap/sandbox.go `sandboxBaseView`, `supervisorPaths`,
`validateSandboxRoot`, `pathWithin`, `AdminSocketInView`,
`absAndCanonical`, `canonicalDeepest`, `validateEnvFileIsolation`;
liveswap/appdirs.go `newAppDirs`).

The host is its tree, which does not change, and what the functions read
besides: the working directory, Caddy's directories and the environment.
`Host.leads` is not the source's: it is where the kernel goes for a path.
-/
import Hotserve.Links

namespace Hotserve.Liveswap.Isolation

open Bytes Path Links

structure Host where
  tree : Tree
  /-- `os.Getwd`; none where it fails. -/
  wd : Option Bytes
  rooted : ∀ w, wd = some w → w.head? = some 47
  /-- `filepath.EvalSymlinks` of a path that is not absolute. -/
  evalRelative : Bytes → Option Bytes
  /-- `strconv.Quote`, of `%q`. -/
  quote : Bytes → Bytes
  appDataDir : Bytes
  appConfigDir : Bytes
  /-- The parts of `RUNTIME_DIRECTORY`. -/
  runtimeDirectory : List Bytes

variable (H : Host) (p : Bytes)

/-- `filepath.IsAbs`. -/
def isAbs : Bool := p.head? == some 47

def sandboxBaseView : List Bytes :=
  [str "/usr", str "/bin", str "/sbin", str "/lib", str "/lib64",
    str "/lib32", str "/libx32", str "/etc/ssl/certs",
    str "/etc/ssl/openssl.cnf", str "/etc/ca-certificates",
    str "/etc/pki/tls/certs", str "/etc/resolv.conf", str "/etc/hosts",
    str "/etc/hostname", str "/etc/nsswitch.conf", str "/etc/passwd",
    str "/etc/group", str "/etc/localtime", str "/etc/alternatives",
    str "/etc/ld.so.cache", str "/etc/ld.so.conf", str "/etc/ld.so.conf.d",
    str "/run/systemd/resolve"]

def sandboxMotelPaths : List Bytes :=
  [str "/var/lib/motel", str "/run/motel", str "/etc/motel",
    str "/etc/liveswap", str "/var/lib/motel-box"]

/-- `backupdecl.DefaultRoot`. -/
def defaultRoot : Bytes := str "/var/lib/liveswap"

/-- An empty root is the default. -/
def rootOr (root : Bytes) : Bytes := if root = [] then defaultRoot else root

/-- `strings.TrimSuffix(dir, "/")`. -/
def trimSlash (dir : Bytes) : Bytes :=
  if dir.getLast? = some 47 then dir.dropLast else dir

def pathWithin (p dir : Bytes) : Bool :=
  p == dir || (trimSlash dir ++ [47]).isPrefixOf p

structure AppDirs where
  releases : Bytes
  shared : Bytes

def newAppDirs (root name : Bytes) : AppDirs :=
  let app := join [root, name]
  { releases := join [app, str "releases"], shared := join [app, str "shared"] }

namespace Host

/-- The links Go follows. -/
def goLinks : Nat := 255

/-- `filepath.EvalSymlinks`. -/
def evalSymlinks : Option Bytes :=
  if isAbs p then
    match H.tree.walk goLinks [] (split 47 p) with
    | .found q => some (47 :: glue q)
    | _ => none
  else H.evalRelative p

/-- `filepath.Abs`, cleaned as the callers do. -/
def absolute : Option Bytes :=
  if p = [] then none
  else if isAbs p then some (clean p)
  else H.wd.map fun w => clean (join [w, p])

-- Each turn takes one component off, so the fuel outlasts it.
def canonicalFrom (H : Host) (p : Bytes) : Nat → Bytes → Bytes → Bytes
  | 0, _, _ => p
  | fuel + 1, cur, rest =>
    match H.evalSymlinks cur with
    | some c => join [c, rest]
    | none =>
      if dir cur = cur then p
      else H.canonicalFrom p fuel (dir cur) (join [base cur, rest])

def canonicalDeepest : Bytes :=
  H.canonicalFrom p (p.length + 1) p []

def absAndCanonical : List Bytes :=
  match H.absolute p with
  | none => []
  | some a =>
    let c := H.canonicalDeepest a
    if c ≠ a then [a, c] else [a]

-- ====== the liveswap root

def supervisorPaths : List Bytes :=
  (sandboxMotelPaths ++ [H.appDataDir, H.appConfigDir] ++
    H.runtimeDirectory).flatMap fun p =>
      match H.absolute p with
      | none => []
      | some a =>
        match H.evalSymlinks a with
        | some c => if c ≠ a then [a, c] else [a]
        | none => [a]

/-- The two digits of a byte in `%04X`. -/
def hexByte (c : UInt8) : Bytes :=
  let digit (d : UInt8) : UInt8 := if d < 10 then 48 + d else 55 + d
  [digit (c / 16), digit (c % 16)]

/-- The source ranges over runes; each that it looks for is one byte, and
no longer one has such a byte. -/
def unitSyntaxChar : Option Bytes :=
  p.findSome? fun c =>
    if c = 32 then some (str "a space")
    else if c = 58 then some (str "a colon")
    else if c = 92 then some (str "a backslash")
    else if c = 34 ∨ c = 39 then some (str "a quote")
    else if c < 0x20 ∨ c = 0x7f then
      some (str "a control character (U+00" ++ hexByte c ++ str ")")
    else none

/-- The error a root is refused with, or none. -/
def validateSandboxRoot (root : Bytes) : Option Bytes :=
  let roots :=
    match H.evalSymlinks root with
    | some c => if c ≠ root then [root, c] else [root]
    | none => [root]
  roots.findSome? fun r =>
    ((unitSyntaxChar r).map fun c =>
      (if r ≠ root then
        str "root " ++ H.quote root ++ str ", which resolves to " ++
          H.quote r ++ str ","
      else str "root " ++ H.quote root) ++ str " contains " ++ c ++
      str ", which a systemd unit file cannot carry in a path: the apps' " ++
      str "bind mounts would not survive a daemon-reload; use a root of " ++
      str "plain characters (the default is /var/lib/liveswap)").or <|
    (H.supervisorPaths.findSome? fun h =>
      if pathWithin r h then
        some (str "root " ++ H.quote root ++ str " is inside " ++ h ++
          str ", which holds motel's own keys, sockets and env files; use " ++
          str "a root outside it (the default is /var/lib/liveswap)")
      else none).or <|
    sandboxBaseView.findSome? fun b =>
      if pathWithin r b then
        some (str "root " ++ H.quote root ++ str " is inside " ++ b ++
          str ", which is bound read-only into every app's sandbox — every " ++
          str "app's data would be readable by every other; use a root " ++
          str "outside the base view (the default is /var/lib/liveswap)")
      else if pathWithin b r then
        some (str "root " ++ H.quote root ++ str " contains " ++ b ++
          str ", which is bound read-only into every app's sandbox — an app " ++
          str "whose name lands on that path would have its releases and " ++
          str "shared dir readable by every other app; use a root that " ++
          str "neither sits inside nor contains a base-view entry (the " ++
          str "default is /var/lib/liveswap)")
      else none

-- ====== the two checks

/-- The clean socket path, and where its directory leads if that is
another. -/
def socketPaths (path : Bytes) : List Bytes :=
  match H.evalSymlinks (dir path) with
  | some d =>
    let p := join [d, base path]
    if p ≠ path then [path, p] else [path]
  | none => [path]

def socketRoots (root : Bytes) : List Bytes :=
  match H.evalSymlinks root with
  | some c => if c ≠ clean root then [clean root, c] else [clean root]
  | none => [clean root]

/-- What makes a socket at `path` reachable from a sandbox, or `""`. -/
def adminSocketInView (root path : Bytes) : Bytes :=
  let root := rootOr root
  let path := clean path
  ((H.socketPaths path).findSome? fun p =>
    ((H.socketRoots root).findSome? fun r =>
      if pathWithin p r then
        some (path ++ str " is under the liveswap root " ++ root ++
          str ", where an app's shared and release directories are bound " ++
          str "into its sandbox, writable")
      else none).or <|
    sandboxBaseView.findSome? fun b =>
      if pathWithin p b then
        some (path ++ str " is under " ++ b ++
          str ", which is bound read-only into every app's sandbox, and " ++
          str "connecting to a socket is no write")
      else none).getD []

end Host

/-- The part of an app's config that is read here. -/
structure AppConfig where
  envFile : Bytes

/-- `App.Apps`, in the order a range visits it; the order says only which
error comes first. -/
abbrev Apps := List (Bytes × Option AppConfig)

def validateEnvFileIsolation (root : Bytes) (apps : Apps) : Option Bytes :=
  apps.findSome? fun (name, cfg) =>
    match cfg with
    | none => none
    | some cfg =>
      if cfg.envFile = [] then none
      else
        (H.absAndCanonical cfg.envFile).findSome? fun f =>
          (sandboxBaseView.findSome? fun b =>
            if pathWithin f b then
              some (str "app " ++ name ++ str ": env_file " ++
                H.quote cfg.envFile ++ str " is inside " ++ b ++
                str ", which is bound read-only into EVERY app's sandbox" ++
                str " — every other app on this box could read it; keep " ++
                str "env files outside the base view (the documented " ++
                str "location is /etc/motel, which no app may name)")
            else none).or <|
          apps.findSome? fun (other, ocfg) =>
            if other = name ∨ ocfg.isNone then none
            else
              let od := newAppDirs root other
              [(od.shared, str "shared dir", str "read and rewrite"),
                (od.releases, str "release dirs",
                  str "read and rewrite")].findSome? fun (path, what, rw) =>
                (H.absAndCanonical path).findSome? fun dp =>
                  if pathWithin f dp then
                    some (str "app " ++ name ++ str ": env_file " ++
                      H.quote cfg.envFile ++ str " is inside app " ++
                      other ++ str "'s " ++ what ++ str " " ++
                      H.quote path ++ str ", which is bound into " ++
                      other ++ str "'s own sandbox — " ++ other ++
                      str " could " ++ rw ++ str " it; move the env file" ++
                      str " outside the liveswap root (the documented " ++
                      str "location is /etc/motel)")
                  else none

-- ====== where a path leads

namespace Host

/-- The links the kernel follows. -/
def kernelLinks : Nat := 40

/-- The path from the root. -/
def full : Option Bytes :=
  if p = [] then none
  else if isAbs p then some p
  else H.wd.map fun w => w ++ 47 :: p

/-- The kernel's walk of a path from the root. -/
def follow : Walk :=
  H.tree.walk kernelLinks [] (split 47 p)

/-- The place a path leads to. -/
def leads (H : Host) (p : Bytes) : Option Place :=
  (H.full p).bind fun a => (H.follow a).place

/-- A place is at or beneath where a path leads. -/
def beneath (e : Bytes) (q : Place) : Bool :=
  (H.leads e).any fun d => d.isPrefixOf q

end Host

end Hotserve.Liveswap.Isolation
