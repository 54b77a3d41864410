/-
An app's units (liveswap/names.go, liveswap/socket.go,
liveswap/runner_systemd.go): the names they are given and read back by,
and what the manager reports of one.

The name's expression is built from the app, version and nonce
expressions as the source builds it, less their anchors.
-/
import Hotserve.Regex
import Hotserve.Box.Names

namespace Hotserve.Liveswap

open Bytes
open Box (isLower isUpper isDigit)

-- ====== names

/-- `[a-z0-9-]{1,63}`. -/
def appNameRe : Regex :=
  .rep (fun c => isLower c || isDigit c || c == 45) 1 63

/-- `[A-Za-z0-9_-]`, what a version may begin with. -/
def versionFirst (c : UInt8) : Bool :=
  isUpper c || isLower c || isDigit c || c == 95 || c == 45

/-- `[A-Za-z0-9_-][A-Za-z0-9._-]{0,63}`. -/
def versionRe : Regex :=
  .seq (.rep versionFirst 1 1) (.rep (fun c => versionFirst c || c == 46) 0 63)

/-- `[0-9a-f]`. -/
def isHex (c : UInt8) : Bool := isDigit c || (97 ≤ c && c ≤ 102)

/-- `[0-9a-f]{16}`. -/
def nonceRe : Regex := .rep isHex 16 16

def validVersion (v : Bytes) : Bool := versionRe.matchString v

def unitPrefix : Bytes := str "motel-"

/-- `unitNameRe`: `motel-(app)\.(version)\.(nonce)(\.prestart)?\.service`. -/
def unitNameRe : Regex :=
  .seq (.lit unitPrefix) <| .seq (.group appNameRe) <| .seq (.lit (str ".")) <|
    .seq (.group versionRe) <| .seq (.lit (str ".")) <|
    .seq (.group nonceRe) <| .seq (.opt (.group (.lit (str ".prestart")))) <|
    .lit (str ".service")

/-- What a unit's name is made of (`startSpec`). -/
structure StartSpec where
  app : Bytes
  version : Bytes
  nonce : Bytes
  probe : Bool

/-- Why there is no name: of `app` and `version`, or of the nonce. -/
inductive NameError
  | underivable (app version : Bytes)
  | badNonce (app version nonce : Bytes)
  deriving DecidableEq

/-- The name of an app's unit, put together. -/
def joinName (app version nonce : Bytes) (oneshot : Bool) : Bytes :=
  unitPrefix ++ app ++ str "." ++ version ++ str "." ++ nonce ++
    (if oneshot then str ".prestart" else []) ++ str ".service"

/-- `unitName`. A probe's name has an underscore, which no app's has. -/
def unitName (spec : StartSpec) (oneshot : Bool) : Except NameError Bytes :=
  if !spec.probe &&
      (!appNameRe.matchString spec.app || !validVersion spec.version) then
    .error (.underivable spec.app spec.version)
  else if !nonceRe.matchString spec.nonce then
    .error (.badNonce spec.app spec.version spec.nonce)
  else if spec.probe then
    .ok (unitPrefix ++ str "sandboxprobe_" ++ spec.nonce ++ str ".service")
  else
    let name := joinName spec.app spec.version spec.nonce oneshot
    if !unitNameRe.matchString name then
      .error (.underivable spec.app spec.version)
    else .ok name

/-- The app of one of our unit names. -/
def unitApp (name : Bytes) : Option Bytes :=
  (unitNameRe.submatch name).bind (·[0]?)

/-- `unitBelongsTo`. -/
def unitBelongsTo (name app : Bytes) : Bool := unitApp name == some app

/-- Whether it is a pre_start's name, and the version that prepares. -/
def unitPreStart (name : Bytes) : Option Bytes :=
  match unitNameRe.submatch name with
  | none => none
  | some m => if m[3]? = some [] then none else m[1]?

/-- The nonce of one of our unit names. -/
def unitNonce (name : Bytes) : Option Bytes :=
  (unitNameRe.submatch name).bind (·[2]?)

-- ====== states

/-- `LoadState=`. -/
inductive LoadState
  | loaded | notFound | badSetting | error | masked | stub | merged
  deriving DecidableEq

/-- `ActiveState=`; `none` is a unit the manager does not know. -/
inductive ActiveState
  | none | active | reloading | activating | deactivating | maintenance
  | refreshing | inactive | failed
  deriving DecidableEq

/-- What the manager holds of a unit, as far as a sweep reads it. -/
structure UnitState where
  load : LoadState
  active : ActiveState
  stopTimeout : Nat
  deriving DecidableEq

namespace UnitState

def loaded (s : UnitState) : Bool := s.load == .loaded

/-- A unit the manager still holds with no process to it. -/
def leftover (s : UnitState) : Bool := s.loaded || s.active == .failed

/-- The active state alone decides. -/
def running (s : UnitState) : Bool :=
  match s.active with
  | .none | .inactive | .failed => false
  | _ => true

/-- `defaultStopTimeout`, in seconds. -/
def defaultStopTimeout : Nat := 10

/-- How long a stop can take before the manager's SIGKILL lands. -/
def stopBudget (s : UnitState) (grace : Nat) : Nat :=
  if grace < s.stopTimeout then s.stopTimeout
  else if grace = 0 then defaultStopTimeout
  else grace

end UnitState

end Hotserve.Liveswap
