/-
Git objects' ids and the refusals of the proof package
(box/proof/object.go, box/proof/refusal.go). What is outside the
package is a `Lib`: SHA-1, base64, `ssh.Unmarshal` into the two records
the package has for a signature, the reading of an SSH public key, and
`Bound`, which only messages go through.
-/
import Hotserve.Box.Names
import Hotserve.Text

namespace Hotserve.Bundle

open Bytes

/-- An SSHSIG blob. -/
structure Envelope where
  version : Nat
  publicKey : Bytes
  namespace_ : Bytes
  reserved : Bytes
  hashAlg : Bytes
  signature : Bytes

/-- The libraries the package leans on. -/
structure Lib where
  sha1 : Bytes → Bytes
  sha1_length : ∀ b, (sha1 b).length = 20
  encode64 : Bytes → Bytes
  decode64 : Bytes → Option Bytes
  unmarshalEnvelope : Bytes → Option Envelope
  /-- The format and the blob of a signature; the rest is its own. -/
  unmarshalInner : Bytes → Option (Bytes × Bytes)
  /-- The modulus size of the RSA key an SSH public key is, if it is
  one. -/
  rsaSize : Bytes → Option Nat
  bound : Bytes → Bytes

/-- `hex.EncodeToString`. -/
def hexEncode (b : Bytes) : Bytes :=
  b.flatMap fun c => [hexDigit (c.toNat / 16), hexDigit (c.toNat % 16)]

/-- What is hashed for an object: its kind, its size and its bytes. -/
def objectText (kind raw : Bytes) : Bytes :=
  kind ++ str " " ++ str (toString raw.length) ++ 0 :: raw

/-- `ObjectID`. -/
def objectID (lib : Lib) (kind raw : Bytes) : Bytes :=
  hexEncode (lib.sha1 (objectText kind raw))

inductive IdForm
  | bad
  | sha1
  | sha256
  deriving DecidableEq

/-- `formOfID`. -/
def formOfID (s : Bytes) : IdForm :=
  if !isLowerHex s then .bad
  else if s.length = 40 then .sha1
  else if s.length = 64 then .sha256
  else .bad

/-- `Refusal`: one line, and the ids it names. -/
structure Refusal where
  msg : Bytes
  ids : List Bytes
  deriving DecidableEq

/-- `refuse`: a message and the ids among its arguments. -/
def refuse (msg : Bytes) (oids : List Bytes) : Refusal :=
  ⟨msg, (oids.filter Box.isID).eraseDups⟩

def sha256RepoRefusal (id : Bytes) : Refusal :=
  refuse (id ++ str " is in a SHA-256 repository, which the box does not read")
    [id]

end Hotserve.Bundle
