import StagedJoin.Diagnostic

/-!
Reports about a broken invariant of the compiler. They name the place in the
code where the break was noticed.
-/
namespace StagedJoin

structure CodeSite where
  file : String
  line : Nat
  column : Nat
  function : String
  module : String
  deriving DecidableEq, Repr

namespace CodeSite

def unknown : CodeSite := ⟨"unknown", 0, 0, "unknown", "unknown"⟩

/-- What follows the last slash. -/
def lastSegment (path : List Char) : List Char :=
  (path.reverse.takeWhile (· ≠ '/')).reverse

/-- Drops every `.rs`, from left to right. -/
def dropExtensions : List Char → List Char
  | '.' :: 'r' :: 's' :: rest => dropExtensions rest
  | c :: rest => c :: dropExtensions rest
  | [] => []

def errorId (site : CodeSite) : String :=
  "ERR-" ++ String.ofList (dropExtensions (lastSegment site.file.toList)) ++ ":" ++
    toString site.line

def position (site : CodeSite) : String :=
  site.file ++ ":" ++ toString site.line ++ ":" ++ toString site.column

end CodeSite

namespace Diagnostic

def internalCode : String := "INTERNAL_ERROR"

def libraryVersion : String := "0.1.0"

def internalErrorAt (site : CodeSite) (reason : String) : Diagnostic where
  report := {
    code := internalCode
    message := "Internal error [" ++ site.errorId ++ "]: " ++ reason
    label := some ("Internal invariant violated at " ++ site.position)
    help := some
      ("This is an internal error that should never occur in normal operation.\n\n" ++
        "Please file a bug report and include the following information:\n" ++
        "Error ID: " ++ site.errorId ++ "\n" ++
        "Location: " ++ site.position ++ "\n" ++
        "Module: " ++ site.module ++ "\n" ++
        "Version: " ++ libraryVersion)
    notes := [
      "Error occurred in function: " ++ site.function,
      "This error indicates an internal inconsistency in the query compiler."] }

def internalError (reason : String) : Diagnostic := internalErrorAt .unknown reason

end Diagnostic

end StagedJoin
