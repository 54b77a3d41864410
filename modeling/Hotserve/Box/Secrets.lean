/-
The secrets of a push, opened (box/secrets.go): each value decrypted with
the box's key, held to the value rules, and each app's rendered to the
env file the box installs. The age library is a `Key`: what it makes of
a file, and the recipient the refusals name.
-/
import Hotserve.Liveswap.EnvFile
import Hotserve.Bundle.Prove
import Hotserve.Box.Record
import Hotserve.Path

namespace Hotserve.Box

open Bytes
open Liveswap (Quote renderEnvFile hasLineBreak)
open Bundle (SecretVar SecretApp Secrets cutSuffix maxSecretFile)

/-- `maxEnvFile`: one app's env file as rendered. -/
def maxEnvFile : Nat := 65536

/-- What age makes of a file. -/
inductive Age
  /-- `NoIdentityMatchError`. -/
  | unmatched
  | refused
  /-- Its payload, or none when that was changed or cut short. -/
  | payload (plain : Option Bytes)

/-- The box's key. -/
structure Key where
  recipient : Bytes
  decrypt : Bytes → Age

def ageIntro : Bytes := str "age-encryption.org/v1\n"

def ageArmor : Bytes := str "-----BEGIN AGE ENCRYPTED FILE-----"

/-- `openSecret`. -/
def openSecret (k : Key) (data shown secrets : Bytes) : Except Bytes Bytes :=
  let cutShort := .error (shown ++ str (" does not decrypt: its payload was " ++
    "changed or cut short after it was encrypted"))
  match k.decrypt data with
  | .unmatched =>
    .error (shown ++ str " is not encrypted to this box's key (" ++
      k.recipient ++ str "): put that key first in " ++ secrets ++
      str "/recipients and run make rekey")
  | .refused =>
    if ageArmor.isPrefixOf data then
      .error (shown ++ str (" does not decrypt: it is ASCII-armored " ++
        "(age -a); the box reads age's binary form"))
    else if !ageIntro.isPrefixOf data then
      .error (shown ++ str " does not decrypt: it is not an age file")
    else
      .error (shown ++ str (" does not decrypt: its header is not one age " ++
        "reads, or was changed after it was encrypted"))
  | .payload none => cutShort
  | .payload (some plain) =>
    if maxSecretFile < plain.length then cutShort else .ok plain

/-- A decrypted file less one newline at its end. -/
def lessNewline (plain : Bytes) : Bytes :=
  match cutSuffix [13, 10] plain with
  | some v => v
  | none =>
    match cutSuffix [10] plain with
    | some v => v
    | none => plain

/-- `secretValue`. -/
def secretValue (plain name : Bytes) : Except Bytes Bytes :=
  let v := lessNewline plain
  if hasLineBreak v then .error (name ++ str ": the value has a line break")
  else if v.contains 0 then .error (name ++ str ": the value has a NUL byte")
  else if !validUTF8 v then .error (name ++ str ": the value is not UTF-8")
  else .ok v

/-- `secretsShown`. -/
def secretsShown (h : Host) (caddyfile : Bytes) : Bytes :=
  let dir := Path.dir caddyfile
  if dir = str "." then str "secrets" else h.bound (dir ++ str "/secrets")

/-- The first line of every env file the box writes. -/
def envFileHeaderLine : Bytes :=
  str ("# Written by motel from the box's repository; a push that changes " ++
    "these secrets replaces this file.")

def envFileHeader : Bytes := envFileHeaderLine ++ [10]

/-- `openedApp`. -/
structure OpenedApp where
  name : Bytes
  vars : List Bytes
  file : Bytes
  deriving DecidableEq

/-- One variable, as `KEY=VALUE`. -/
def openVar (k : Key) (secrets app : Bytes) (v : SecretVar) :
    Except Bytes Bytes := do
  let plain ← openSecret k v.data
    (secrets ++ str "/" ++ app ++ str "/" ++ v.name ++ str ".age") secrets
  let value ← secretValue plain (app ++ str "/" ++ v.name)
  return v.name ++ 61 :: value

/-- One app. -/
def openApp (quote : Quote) (k : Key) (secrets : Bytes) (a : SecretApp) :
    Except Bytes OpenedApp := do
  let pairs ← a.vars.mapM (openVar k secrets a.name)
  match renderEnvFile quote pairs with
  | .error e => .error (str "rendering " ++ a.name ++ str "'s env file: " ++ e)
  | .ok body =>
    if maxEnvFile < body.length then
      .error (str "app " ++ a.name ++ str ("'s env file would be " ++
        toString body.length ++ " bytes; the cap is " ++ toString maxEnvFile))
    else .ok ⟨a.name, a.vars.map (·.name), envFileHeader ++ body⟩

/-- `openSecrets`. -/
def openSecrets (h : Host) (quote : Quote) (k : Key) (s : Secrets)
    (caddyfile : Bytes) : Except Bytes (List OpenedApp) :=
  s.apps.mapM (openApp quote k (secretsShown h caddyfile))

end Hotserve.Box
