/-
The grammars of the names the box reads and writes: request ids,
digests, commit ids, app and variable names, repository paths
(box/exchange.go, box/tokens.go, box/envfiles.go, box/proof/prove.go,
box/proof/object.go, liveswap/app.go). The source writes two of them as
regular expressions, `^[a-z0-9-]{1,63}$` for an app and
`^[A-Za-z_][A-Za-z0-9_]*$` for a variable.
-/
import Hotserve.Bytes

namespace Hotserve.Box

open Bytes

-- ====== caps

/-- `proof.MaxCaddyfile`. -/
def maxCaddyfile : Nat := 1048576

/-- `maxEnvRead`: an installed env file as root reads it. -/
def maxEnvRead : Nat := 66560

def maxSecretApps : Nat := 32

/-- `maxSecretNames`, which is `proof.MaxBlobs`. -/
def maxSecretNames : Nat := 8192

def maxVarName : Nat := 128

def maxPath : Nat := 4096

def maxDepth : Nat := 32

-- ====== grammars

def isRequestID (s : Bytes) : Bool := s.length == 32 && isLowerHex s

def isDigest (s : Bytes) : Bool := s.length == 64 && isLowerHex s

/-- `proof.IsID`: a git object's name. -/
def isID (s : Bytes) : Bool := s.length == 40 && isLowerHex s

def isLower (c : UInt8) : Bool := 97 ≤ c && c ≤ 122

def isUpper (c : UInt8) : Bool := 65 ≤ c && c ≤ 90

def isDigit (c : UInt8) : Bool := 48 ≤ c && c ≤ 57

/-- `appName.MatchString`. -/
def appName (s : Bytes) : Bool :=
  1 ≤ s.length && s.length ≤ 63 &&
    s.all fun c => isLower c || isDigit c || c == 45

/-- `envKeyRe.MatchString`. -/
def envKeyRe : Bytes → Bool
  | [] => false
  | c :: rest =>
    (isLower c || isUpper c || c == 95) &&
      rest.all fun d => isLower d || isUpper d || isDigit d || d == 95

/-- The names the shell resets at its start. -/
def shellOwnedEnvKey (s : Bytes) : Bool :=
  s == str "IFS" || s == str "OPTIND" || s == str "PPID" || s == str "PWD"

def validEnvKey (s : Bytes) : Bool := envKeyRe s && !shellOwnedEnvKey s

/-- `secretName`: `<app>/<VAR>`. -/
def secretName (s : Bytes) : Bool :=
  match cut 47 s with
  | none => false
  | some (app, v) =>
    appName app && decide (v.length ≤ maxVarName) && validEnvKey v

-- ====== paths

def isControl (c : UInt8) : Bool := c < 32 || c == 127

/-- A component a repository path may have. -/
def safeComponent (p : Bytes) : Bool :=
  p != [] && p != str "." && p != str ".."

/-- `proof.SplitPath`: the components, or a refusal. -/
def splitPath (path : Bytes) : Except Bytes (List Bytes) :=
  let bad := str "bundle: path is not a relative path of safe components"
  if path == [] || decide (maxPath < path.length) || path.any isControl then
    .error bad
  else
    let parts := split 47 path
    if decide (maxDepth < parts.length) || !parts.all safeComponent then
      .error bad
    else .ok parts

end Hotserve.Box
