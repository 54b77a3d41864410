/-
The chain a bundle carries (box/proof/chain.go): first parents from HEAD
to the baseline, linked by hash. HEAD is always on it; when HEAD is the
baseline it is alone, and no parent may be bundled.
-/
import Hotserve.Bundle.Read

namespace Hotserve.Bundle

open Bytes

/-- `%04d`. -/
def fourDigits (n : Nat) : Bytes :=
  let digits := str (toString n)
  List.replicate (4 - digits.length) 48 ++ digits

def descendRefusal (head baseline : Bytes) : Refusal :=
  refuse (head ++ str " does not descend from the commit this box runs (" ++
    baseline ++ str (") along main's first-parent line. If the box already " ++
      "runs a later commit, nothing is wrong. If a branch merged main into " ++
      "itself before it was fast-forwarded, rebase it onto main and " ++
      "force-push. Only if main was rewritten below ") ++ baseline ++
    str " does motel box baseline " ++ head ++
    str ", as root on the box, reset trust to " ++ head ++
    str ", whose ancestors the box will then never examine")
    [head, baseline, baseline, head, head]

def chainTooLong (head baseline : Bytes) : Refusal :=
  refuse (str "the chain from " ++ baseline ++ str " to " ++ head ++
    str (" is longer than " ++ toString maxChain ++
      " commits; run motel box baseline ") ++ head ++
    str " as root on the box") [baseline, head, head]

/-- Whether the walk ends at a commit: it is the baseline, or the
baseline's child. -/
def atBaseline (c : Commit) (baseline : Bytes) : Bool :=
  c.id == baseline || c.parents.head? == some baseline

/-- The walk from `cur`, the last of `chain`, over the parents from the
`i`th on. -/
def chainFrom (head : Commit) (baseline : Bytes) :
    Nat → List Commit → Commit → List Commit → Except Refusal (List Commit)
  | _, chain, cur, [] =>
    if atBaseline cur baseline then .ok chain
    -- a history longer than the cap fills the chain exactly
    else if chain.length = maxChain ∧ cur.parents ≠ [] then
      .error (chainTooLong head.id baseline)
    else .error (descendRefusal head.id baseline)
  | i, chain, cur, p :: parents =>
    if atBaseline cur baseline then
      .error (refuse (str "bundle: parents/" ++ fourDigits (i + 1) ++
        str " is past the end of the chain") [])
    else
      match cur.parents with
      | [] => .error (descendRefusal head.id baseline)
      | first :: _ =>
        if p.id ≠ first then
          .error (refuse (str "bundle: parents/" ++ fourDigits (i + 1) ++
            str " is not the first parent of " ++ cur.id) [cur.id])
        else if chain.length = maxChain then
          .error (chainTooLong head.id baseline)
        else chainFrom head baseline (i + 1) (chain ++ [p]) p parents

/-- `Chain`. -/
def chain (head : Commit) (parents : List Commit) (baseline : Bytes) :
    Except Refusal (List Commit) :=
  chainFrom head baseline 0 [head] head parents

end Hotserve.Bundle
