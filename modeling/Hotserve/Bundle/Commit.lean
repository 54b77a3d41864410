/-
Reading a commit object (box/proof/commit.go): the headers up to the
first blank line, the signature unfolded out of them, and the one
spelling of it that is accepted. The id of a commit covers the
signature's place and armor and the signature does not, so every freedom
in them would be a second id for one signed payload.
-/
import Hotserve.Bundle.Object

namespace Hotserve.Bundle

open Bytes

def maxCommit : Nat := 65536

inductive SigKind
  | unsigned
  | sshSig
  | openPGPSig
  | otherSig
  deriving DecidableEq

structure Commit where
  raw : Bytes
  id : Bytes
  tree : Bytes
  parents : List Bytes
  kind : SigKind
  signature : Bytes
  payload : Bytes
  deriving DecidableEq

-- ====== the armor

/-- The base64 in lines of 70 characters, the last one as it comes. -/
def wrap70 (b64 : Bytes) : Bytes :=
  if 70 < b64.length then b64.take 70 ++ 10 :: wrap70 (b64.drop 70) else b64
termination_by b64.length

def armorBegin : Bytes := str "-----BEGIN SSH SIGNATURE-----\n"

def armorEnd : Bytes := str "-----END SSH SIGNATURE-----\n"

/-- `ArmorSSH`: the one armor of a blob. -/
def armorSSH (lib : Lib) (blob : Bytes) : Bytes :=
  armorBegin ++ wrap70 (lib.encode64 blob) ++ 10 :: armorEnd

/-- `canonicalSSHArmor`: the blob under an armor, and whether the armor
is the blob's own. -/
def canonicalSSHArmor (lib : Lib) (sig : Bytes) : Bytes × Bool :=
  if sig.length < armorBegin.length + armorEnd.length ∨
      !armorBegin.isPrefixOf sig ∨ !armorEnd.isSuffixOf sig then ([], false)
  else
    let body := (sig.drop armorBegin.length).take
      (sig.length - armorBegin.length - armorEnd.length)
    match lib.decode64 (body.filter (· != 10)) with
    | none => ([], false)
    | some [] => ([], false)
    | some blob => (blob, sig == armorSSH lib blob)

-- ====== the blob

/-- Ed25519's group order. -/
def ed25519Order : Nat :=
  7237005577332262213973186563042994240857116359379907606001950938285454250989

/-- A little-endian number. -/
def littleEndian : Bytes → Nat
  | [] => 0
  | c :: rest => c.toNat + 256 * littleEndian rest

/-- What the signature itself is held to, by its format. -/
def canonicalInner (lib : Lib) (key format blob : Bytes) : Bytes :=
  if format = str "ssh-ed25519" ∨ format = str "sk-ssh-ed25519@openssh.com" then
    if blob.length = 64 ∧ ed25519Order ≤ littleEndian (blob.drop 32) then
      str ("the Ed25519 signature's S is not below the group order, where " ++
        "every signer writes it: the box reads one spelling of a signature, " ++
        "since the commit's id covers its bytes and ssh-keygen verifies S " ++
        "and S + L alike")
    else []
  else if format = str "rsa-sha2-512" ∨ format = str "rsa-sha2-256" ∨
      format = str "ssh-rsa" then
    match lib.rsaSize key with
    | none => []
    | some size =>
      if blob.length ≠ size then
        str ("the RSA signature is not the length of the key's modulus, " ++
          "where ssh-keygen writes it: the box reads one spelling of a " ++
          "signature, since the commit's id covers its bytes and " ++
          "ssh-keygen pads a shorter one and verifies it alike")
      else []
  else []

/-- `canonicalSignature`: why the blob is not spelled the one way, or
`""`. -/
def canonicalSignature (lib : Lib) (blob : Bytes) : Bytes :=
  match lib.unmarshalEnvelope (trimPrefix (str "SSHSIG") blob) with
  | none => []
  | some sig =>
    if sig.reserved ≠ [] then
      str ("the SSH signature's reserved field is not empty, where " ++
        "ssh-keygen writes it empty: the box reads one spelling of a " ++
        "signature, since the commit's id covers its bytes and ssh-keygen " ++
        "verifies over an empty field whatever the envelope holds")
    else
      match lib.unmarshalInner sig.signature with
      | none => []
      | some (format, blob) => canonicalInner lib sig.publicKey format blob

-- ====== the headers

/-- `bytes.Index` of a blank line: where the first two newlines in a row
begin. -/
def blankLine : Bytes → Option Nat
  | [] => none
  | [_] => none
  | c :: d :: rest =>
    if c = 10 ∧ d = 10 then some 0
    else (blankLine (d :: rest)).map (· + 1)

/-- The lines of a text, each with its newline; what follows the last
newline is one more, unless it is empty. -/
def linesAfter : Bytes → List Bytes
  | [] => []
  | c :: rest =>
    if c = 10 then [10] :: linesAfter rest
    else
      match linesAfter rest with
      | [] => [[c]]
      | l :: ls => (c :: l) :: ls

/-- `printableASCII`. -/
def printableASCII (b : Bytes) : Bool := b.all fun c => 32 < c && c ≤ 126

/-- What the loop over the headers carries. -/
structure Scan where
  payload : Bytes
  sig : Bytes
  inSig : Bool
  sigs : Nat
  afterSig : Bool
  tree : Bytes
  parents : List Bytes

def notTree : Refusal :=
  refuse (str "bundle: commit: the first header is not tree") []

/-- One header that is not a continuation: its name and its value. -/
def scanHeader (id : Bytes) (first : Bool) (line key value : Bytes) (s : Scan) :
    Except Refusal Scan :=
  let kept := { s with payload := s.payload ++ line }
  if first ∧ key ≠ str "tree" then .error notTree
  else if key = str "tree" then
    if !first then
      .error (refuse (str "bundle: commit: a second tree header") [])
    else
      match formOfID value with
      | .sha1 => .ok { kept with tree := value }
      | .sha256 => .error (sha256RepoRefusal id)
      | .bad => .error (refuse
          (str "bundle: commit: the tree id is not 40 hex characters") [])
  else if key = str "parent" then
    match formOfID value with
    | .sha1 => .ok { kept with parents := s.parents ++ [value] }
    | .sha256 => .error (sha256RepoRefusal id)
    | .bad => .error (refuse
        (str "bundle: commit: a parent id is not 40 hex characters") [])
  else if key = str "gpgsig" then
    if 0 < s.sigs then
      .error (refuse (str "bundle: commit: more than one gpgsig header") [])
    else
      -- not part of the payload
      .ok { s with
        sigs := s.sigs + 1
        inSig := true
        sig := s.sig ++ value ++ [10] }
  else if key = str "gpgsig-sha256" then .error (sha256RepoRefusal id)
  else .ok kept

/-- `bytes.TrimSuffix(line, "\n")`. -/
def chomp (line : Bytes) : Bytes :=
  if line.getLast? = some 10 then line.dropLast else line

/-- One line of the headers. -/
def scanLine (id : Bytes) (first : Bool) (line : Bytes) (s : Scan) :
    Except Refusal Scan :=
  if line.head? = some 32 then
    -- a continuation of the header above
    if first then .error notTree
    else if s.inSig then .ok { s with sig := s.sig ++ line.drop 1 }
    else .ok { s with payload := s.payload ++ line }
  else
    let s := { s with afterSig := s.afterSig || s.inSig, inSig := false }
    match cut 32 (chomp line) with
    | none => .error (refuse
        (str "bundle: commit: a header line is not `name value`") [])
    | some (key, value) =>
      if key = [] ∨ !printableASCII key then
        .error (refuse
          (str "bundle: commit: a header line is not `name value`") [])
      else scanHeader id first line key value s

/-- The loop over the headers. -/
def scanLines (id : Bytes) : Bool → List Bytes → Scan → Except Refusal Scan
  | _, [], s => .ok s
  | first, line :: rest, s =>
    match scanLine id first line s with
    | .error e => .error e
    | .ok s => scanLines id false rest s

/-- What the gpgsig header holds, and whether it is spelled the one
way. -/
def signatureKind (lib : Lib) (sig : Bytes) : Except Refusal SigKind :=
  if (str "-----BEGIN SSH SIGNATURE-----").isPrefixOf sig then
    match canonicalSSHArmor lib sig with
    | (_, false) => .error (refuse
        (str ("bundle: commit: the SSH signature is not armored as " ++
          "ssh-keygen writes it (its base64 in lines of 70 characters " ++
          "between the BEGIN and END lines, and nothing else): the box " ++
          "reads one spelling of a signature, since the commit's id covers " ++
          "the armor and the signature does not — sign with ssh-keygen, " ++
          "git's own gpg.ssh.program")) [])
    | (blob, true) =>
      let why := canonicalSignature lib blob
      if why ≠ [] then .error (refuse (str "bundle: commit: " ++ why) [])
      else .ok .sshSig
  else if (str "-----BEGIN PGP SIGNATURE-----").isPrefixOf sig then
    .ok .openPGPSig
  else .ok .otherSig

/-- `ParseCommit`. -/
def parseCommit (lib : Lib) (raw : Bytes) : Except Refusal Commit :=
  if maxCommit < raw.length then
    .error (refuse (str "bundle: commit object is larger than 64 KiB") [])
  else
    let id := objectID lib (str "commit") raw
    match blankLine raw with
    | none => .error (refuse (str ("bundle: commit: no blank line between " ++
        "the headers and the message")) [])
    | some sep =>
      match scanLines id true (linesAfter (raw.take (sep + 1)))
          ⟨[], [], false, 0, false, [], []⟩ with
      | .error e => .error e
      | .ok s =>
        let c : Commit :=
          { raw := raw
            id := id
            tree := s.tree
            parents := s.parents
            kind := .unsigned
            signature := []
            -- the blank line and the message, verbatim
            payload := s.payload ++ raw.drop (sep + 1) }
        if s.tree = [] then .error notTree
        else if s.sigs ≠ 1 then .ok c
        else if s.afterSig then
          .error (refuse (str ("bundle: commit: the gpgsig header is not " ++
            "the last header, where git writes it: the box reads one " ++
            "place for a signature, since the commit's id covers the " ++
            "header's place and the signature does not")) [])
        else
          match signatureKind lib s.sig with
          | .error e => .error e
          | .ok kind => .ok { c with signature := s.sig, kind := kind }

end Hotserve.Bundle
