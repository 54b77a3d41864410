/-
The artifact allowlist (liveswap/allowlist.go): how an entry is read, the
form a URL's path must have, which entry admits a URL, and the URL the
fetch then uses.

Of Go's library, what is about Unicode is a `Lib`: `strings.ToLower`,
which is a letter's case on ASCII, `strings.EqualFold`, and the quoting
of texts in messages.
-/
import Hotserve.Path
import Hotserve.Url

namespace Hotserve.Liveswap.Allowlist

open Bytes Url

structure Lib where
  toLower : Bytes → Bytes
  toLower_ascii : ∀ s, isASCII s = true → toLower s = s.map lowerByte
  equalFold : Bytes → Bytes → Bool
  /-- `%q` of a string, of a byte, and of a string's first rune. -/
  quote : Bytes → Bytes
  quoteByte : UInt8 → Bytes
  quoteRune : Bytes → Bytes

/-- `artifactAllowEntry`. -/
structure ArtifactAllowEntry where
  host : Bytes
  pathPrefix : Bytes
  port : Bytes
  queryParams : List Bytes

variable (lib : Lib)

-- ====== an entry

/-- `validPortDecl`. -/
def validPortDecl (port : Bytes) : Except Bytes Unit :=
  let notValid := str "port " ++ lib.quote port ++
    str " is not a valid port number"
  if port = str "*" then
    .error (str ("port wildcards are not supported; declare the literal " ++
      "port (e.g. :8443)"))
  else if port = [] then
    .error (str ("dangling colon — declare a port number (e.g. :8443) or " ++
      "drop the colon"))
  else if 5 < port.length ∨ port.head? = some 48 then .error notValid
  else if !port.all (fun c => 48 ≤ c && c ≤ 57) then .error notValid
  else
    let n : Nat := port.foldl (fun n c => n * 10 + (c.toNat - 48)) 0
    if n < 1 ∨ 65535 < n then
      .error (str "port " ++ lib.quote port ++
        str " is out of range (1-65535)")
    else .ok ()

/-- A byte a parameter's name may have. -/
def isUnreserved (c : UInt8) : Bool :=
  isAlnum c || (str "-_.~").contains c

/-- `validQueryParamDecl`. -/
def validQueryParamDecl (name : Bytes) : Except Bytes Unit :=
  if name = [] then .error (str "empty query parameter name")
  else if name = str "*" then
    .error (str ("bare * would allow every query parameter; declare the " ++
      "names this endpoint actually uses"))
  else
    let base := trimSuffix (str "*") name
    if base = [] ∨ base.contains 42 then
      .error (str "query parameter " ++ lib.quote name ++
        str ": * is only valid as a trailing wildcard (e.g. X-Amz-*)")
    else
      match base.dropWhile isUnreserved with
      | [] => .ok ()
      | rest => .error (str "query parameter " ++ lib.quote name ++
          str " contains " ++ lib.quoteRune rest ++
          str "; names are unreserved characters only (A-Za-z0-9-._~)")

/-- `strings.Cut`, with whether it found one. -/
def cutAt (sep : UInt8) (s : Bytes) : Bytes × Option Bytes :=
  match cut sep s with
  | some (before, after) => (before, some after)
  | none => (s, none)

/-- The path an entry is pinned to, from what follows its host. -/
def parsePrefix (s rest : Bytes) : Except Bytes Bytes :=
  if rest = [] then .ok []
  else
    let p := Path.clean (str "/" ++ rest)
    if p = str "/" ∨ p ≠ str "/" ++ trimSuffix (str "/") rest then
      .error (str "artifact_allowlist entry " ++ lib.quote s ++
        str (" has a non-canonical path prefix (no dot segments or doubled " ++
          "slashes)"))
    else .ok (p ++ str "/")

/-- The parameters an entry declares. -/
def parseParams (s : Bytes) (queryDecl : Option Bytes) :
    Except Bytes (List Bytes) :=
  match queryDecl with
  | none => .ok []
  | some [] => .error (str "artifact_allowlist entry " ++ lib.quote s ++
      str (" has a dangling ? — declare parameter names (e.g. ?job) or drop " ++
        "the ?"))
  | some decl => (split 38 decl).mapM fun name =>
    match validQueryParamDecl lib name with
    | .error e => .error (str "artifact_allowlist entry " ++ lib.quote s ++
        str ": " ++ e)
    | .ok () => .ok name

/-- The port an entry is pinned to. -/
def parsePort (s : Bytes) (port : Option Bytes) : Except Bytes Bytes :=
  match port with
  | none => .ok []
  | some port =>
    match validPortDecl lib port with
    | .error e => .error (str "artifact_allowlist entry " ++ lib.quote s ++
        str ": " ++ e)
    | .ok () => .ok port

/-- `parseAllowlistEntry`. -/
def parseAllowlistEntry (s : Bytes) : Except Bytes ArtifactAllowEntry :=
  let entry := str "artifact_allowlist entry " ++ lib.quote s
  if s = [] then .error (str "empty artifact_allowlist entry")
  else if includes (str "://") s then
    .error (entry ++ str (" must not include a scheme; use " ++
      "host[/path/][?param...] (https is enforced separately)"))
  else if s.contains 37 then
    .error (entry ++ str (" must be literal (no percent-encoding): the " ++
      "entry's own bytes become the outgoing URL prefix"))
  else
    let (hostAndPath, queryDecl) := cutAt 63 s
    let (hostPort, rest) := cutAt 47 hostAndPath
    let (host, port) := cutAt 58 hostPort
    if host = [] ∨ host.any fun c => (str " \t@:").contains c then
      .error (entry ++ str " has no usable host")
    else do
      let port ← parsePort lib s port
      let pathPrefix ← parsePrefix lib s (rest.getD [])
      let queryParams ← parseParams lib s queryDecl
      return ⟨lib.toLower host, pathPrefix, port, queryParams⟩

/-- `parseAllowlist`. -/
def parseAllowlist (entries : List Bytes) :
    Except Bytes (List ArtifactAllowEntry) :=
  entries.mapM (parseAllowlistEntry lib)

-- ====== the path

/-- What is refused in a segment of a path. -/
def badSegment (seg : Bytes) : Option Bytes :=
  if seg = [] then
    some (str "path has an empty segment (doubled or trailing slash)")
  else
    match pathUnescape seg with
    | none => some (str "path has a dot segment")
    | some dec =>
      if dec = str "." ∨ dec = str ".." then
        some (str "path has a dot segment")
      else if dec.contains 92 then
        some (str "path segment contains a backslash")
      else if !validUTF8 dec then
        some (str "path segment does not decode to valid UTF-8")
      else if dec.any fun c => c < 0x20 || c == 0x7f then
        some (str "path segment contains a control byte")
      else none

/-- `canonicalEscapedPath`. -/
def canonicalEscapedPath (u : URL) : Except Bytes Bytes :=
  let ep := u.escapedPath
  if ep = [] then .ok []
  else if ep.head? ≠ some 47 then
    .error (str "path " ++ lib.quote ep ++ str " is not rooted")
  else
    let low := lib.toLower ep
    if includes (str "%2f") low then
      .error (str "path contains an encoded slash")
    else if includes (str "%5c") low then
      .error (str "path contains a backslash")
    else
      match (split 47 (ep.drop 1)).findSome? badSegment with
      | some bad => .error bad
      | none => .ok ep

-- ====== the query

/-- `isQueryByte`. -/
def isQueryByte (b : UInt8) : Bool :=
  isAlnum b || (str "-._~!$&'()*+,;=:@/?%").contains b

namespace ArtifactAllowEntry

variable (e : ArtifactAllowEntry)

/-- `String`: the entry in its config syntax. -/
def string : Bytes :=
  e.host ++ (if e.port ≠ [] then str ":" ++ e.port else []) ++
    trimSuffix (str "/") e.pathPrefix ++
    (if e.queryParams.length > 0 then
      str "?" ++ (str "&").intercalate e.queryParams else [])

/-- `portAllowed`. -/
def portAllowed (u : URL) : Bool := u.port == e.port

def portDescription : Bytes :=
  if e.port = [] then str "the scheme's default port"
  else str "port " ++ e.port

/-- One declared parameter admits a name: itself, or a family's. -/
def paramAdmits (p name : Bytes) : Bool :=
  if (str "*").isSuffixOf p then
    (p.take (p.length - 1)).isPrefixOf name
  else name == p

/-- `queryParamAllowed`. -/
def queryParamAllowed (name : Bytes) : Bool :=
  e.queryParams.any fun p => paramAdmits p name

/-- The name of a component of a query. -/
def compName (comp : Bytes) : Bytes := (cutAt 61 comp).1

/-- What is refused in a component of a query. -/
def badComponent (comp : Bytes) : Option Bytes :=
  let name := compName comp
  if name = [] then
    some (str "query string has a component with no parameter name")
  else if name.any fun c => (str "%+").contains c then
    some (str "query parameter name " ++ lib.quote name ++
      str " is encoded; parameter names must be literal bytes")
  else if e.queryParamAllowed name then none
  else if e.queryParams.length = 0 then
    some (str "query parameter " ++ lib.quote name ++
      str " is not permitted: allowlist entry " ++ lib.quote e.string ++
      str (" declares no query parameters — if this endpoint legitimately " ++
        "uses it, declare it in the entry: ") ++
      lib.quote (e.string ++ str "?" ++ name))
  else
    some (str "query parameter " ++ lib.quote name ++
      str " is not among the parameters declared by allowlist entry " ++
      lib.quote e.string ++
      str " — add it to the entry if this endpoint legitimately uses it")

/-- `vetQuery`. -/
def vetQuery (rawQuery : Bytes) : Except Bytes Unit :=
  if rawQuery = [] then .ok ()
  else
    match rawQuery.findIdx? (· == 59) with
    | some i => .error (str "query string contains a raw semicolon at byte " ++
        str (toString i) ++ str (", which some servers treat as a parameter " ++
          "separator; percent-encode it (%3B)"))
    | none =>
      match rawQuery.findIdx? fun b => !isQueryByte b with
      | some i => .error (str "query string contains " ++
          lib.quoteByte (rawQuery.getD i 0) ++ str " at byte " ++
          str (toString i) ++ str ("; only RFC 3986 query characters are " ++
            "allowed — percent-encode everything else"))
      | none =>
        match (split 38 rawQuery).findSome? (e.badComponent lib) with
        | some bad => .error bad
        | none => .ok ()

-- ====== the match

/-- Whether the entry's host and path cover a URL. -/
def covers (e : ArtifactAllowEntry) (u : URL) (ep : Bytes) : Bool :=
  lib.equalFold u.hostname e.host &&
    (e.pathPrefix == [] || ep == trimSuffix (str "/") e.pathPrefix ||
      e.pathPrefix.isPrefixOf ep)

/-- Why an entry that covers a URL does not admit it. -/
def refuses (u : URL) : Option Bytes :=
  if !e.portAllowed u then
    some (str "url uses port " ++ lib.quote u.port ++
      str " but allowlist entry " ++ lib.quote e.string ++
      str " admits only " ++ e.portDescription ++
      str " — declare the port in the entry (e.g. " ++
      lib.quote (e.host ++ str ":" ++ u.port) ++
      str ") if this host really serves artifacts there")
  else
    match e.vetQuery lib u.rawQuery with
    | .error err => some err
    | .ok () => none

/-- `pinnedURLString`. -/
def pinnedURLString (u : URL) (escapedPath : Bytes) : Except Bytes Bytes :=
  let scheme := if u.scheme = str "http" then str "http" else str "https"
  if !e.portAllowed u then
    .error (str "internal: url port " ++ lib.quote u.port ++
      str " was not admitted by entry " ++ lib.quote e.string)
  else
    let hostport := e.host ++ if e.port ≠ [] then str ":" ++ e.port else []
    match if u.rawQuery ≠ [] then e.vetQuery lib u.rawQuery else .ok () with
    | .error err => .error (str "internal: " ++ err)
    | .ok () =>
      let query := if u.rawQuery ≠ [] then str "?" ++ u.rawQuery else []
      if e.pathPrefix ≠ [] then
        let cfg := trimSuffix (str "/") e.pathPrefix
        let suffix := trimPrefix cfg escapedPath
        if suffix ≠ [] ∧ suffix.head? ≠ some 47 then
          .error (str "internal: path " ++ lib.quote escapedPath ++
            str " does not sit on the pinned prefix boundary " ++
            lib.quote e.pathPrefix)
        else .ok (scheme ++ str "://" ++ hostport ++ cfg ++ suffix ++ query)
      else if escapedPath = [] then
        .ok (scheme ++ str "://" ++ hostport ++ query)
      else .ok (scheme ++ str "://" ++ hostport ++ str "/" ++
        escapedPath.drop 1 ++ query)

end ArtifactAllowEntry

/-- `describeAllowlist`. -/
def describeAllowlist (entries : List ArtifactAllowEntry) : Bytes :=
  (str ", ").intercalate (entries.map ArtifactAllowEntry.string)

/-- The loop of `matchAllowlist`: the first entry that admits, or the
first refusal of one that covers. -/
def firstMatch (u : URL) (ep : Bytes) :
    List ArtifactAllowEntry → Option Bytes →
      Except (Option Bytes) ArtifactAllowEntry
  | [], nearMiss => .error nearMiss
  | e :: es, nearMiss =>
    if e.covers lib u ep then
      match e.refuses lib u with
      | some why => firstMatch u ep es (nearMiss.or (some why))
      | none => .ok e
    else firstMatch u ep es nearMiss

/-- `matchAllowlist`. -/
def matchAllowlist (entries : List ArtifactAllowEntry) (u : URL) :
    Except Bytes (ArtifactAllowEntry × Bytes) :=
  match canonicalEscapedPath lib u with
  | .error e => .error e
  | .ok ep =>
    match firstMatch lib u ep entries none with
    | .ok e => .ok (e, ep)
    | .error (some nearMiss) => .error nearMiss
    | .error none => .error (str "not covered by artifact_allowlist (" ++
        describeAllowlist entries ++ str ")")

end Hotserve.Liveswap.Allowlist
