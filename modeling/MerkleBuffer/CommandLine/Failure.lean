/-
How a command can fail, and how a failure is reported: what failed, and then
the causes behind it, numbered if there are several.
-/
import MerkleBuffer.Error

namespace MerkleBuffer.CommandLine

/-- The failure of a command. -/
inductive Failure where
  | error (e : Error)
  /-- The store file at a path could not be opened -/
  | opening (path : String) (e : Error)
  | invalidHash (text : String)
  | tooManyValues
deriving DecidableEq, Repr

namespace Failure

/-- What failed. -/
def message : Failure → String
  | error e => e.message
  | opening path _ => s!"opening node store {path}"
  | invalidHash text => s!"Invalid hash: {text}"
  | tooManyValues => "at most 256 values per trie"

/-- The causes behind a failure, each the cause of the one before. -/
def causes : Failure → List String
  | error e => e.cause?.toList
  | opening _ e => e.message :: e.cause?.toList
  | _ => []

/-- A cause on a line of its own, behind its number. -/
def numbered (cause : String) (n : Nat) : String :=
  let number := toString n
  "\n" ++ String.ofList (List.replicate (5 - number.length) ' ') ++ number ++ ": " ++ cause

/-- The causes as they are reported. -/
def causesText : List String → String
  | [] => ""
  | [cause] => "\n\nCaused by:\n    " ++ cause
  | causes => "\n\nCaused by:" ++ String.join (causes.mapIdx fun n cause => numbered cause n)

/-- The report of a failure. -/
def report (f : Failure) : String := "Error: " ++ f.message ++ causesText f.causes ++ "\n"

end Failure

end MerkleBuffer.CommandLine
