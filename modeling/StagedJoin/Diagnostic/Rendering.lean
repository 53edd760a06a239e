import StagedJoin.Diagnostic

/-!
Diagnostics as text for a terminal. A located report shows the line it points at
and underlines the fragment; each cause follows its report, two blanks deeper.
-/
namespace StagedJoin

namespace Text

/-- The lines of a text. A line ends before a newline and one carriage return
in front of it; nothing follows the last newline. -/
def splitLines : List Char → List (List Char)
  | [] => []
  | '\n' :: rest => [] :: splitLines rest
  | '\r' :: '\n' :: rest => [] :: splitLines rest
  | c :: rest =>
    match splitLines rest with
    | [] => [[c]]
    | line :: lines => (c :: line) :: lines

/-- Line `number` of a text, counted from 1, where 0 is read as 1; empty past the end. -/
def getLine (text : String) (number : Nat) : String :=
  String.ofList ((splitLines text.toList).getD (number - 1) [])

def spaces (n : Nat) : String := String.ofList (List.replicate n ' ')

/-- Puts blanks in front of a text up to a width. -/
def padLeft (width : Nat) (text : String) : String := spaces (width - text.length) ++ text

end Text

namespace Report

/-- The line shown for a report at a given line number: from the statement, or
the fragment's own text where no statement is known. -/
def sourceLine (r : Report) (text : String) (line : Nat) : String :=
  match r.statement with
  | some statement => Text.getLine statement line
  | none => text

/-- Blanks before the underline. -/
def markerOffset (r : Report) (column : Nat) : Nat :=
  match r.statement with
  | some _ => column
  | none => 0

def marker (text : String) : String := String.ofList (List.replicate (max text.length 1) '^')

def fragmentLines (r : Report) : List String :=
  match r.fragment with
  | .absent => []
  | .internal text => ["  in `" ++ text ++ "`"]
  | .statement text line column =>
    let width := max (toString line).length 2
    let gutter := Text.padLeft width ""
    ["  --> line " ++ toString line ++ ", column " ++ toString column,
      " " ++ Text.padLeft width (toString line) ++ " │ " ++ r.sourceLine text line,
      " " ++ gutter ++ " │ " ++ Text.spaces (r.markerOffset column) ++ marker text] ++
    match r.label with
    | some label => [" " ++ gutter ++ " = " ++ label]
    | none => []

def lines (r : Report) : List String :=
  ["error[" ++ r.code ++ "]: " ++ r.message] ++ r.fragmentLines ++
    r.help.toList.map ("help: " ++ ·) ++ r.notes.map ("note: " ++ ·)

end Report

namespace Diagnostic

/-- Lines of the causes at and below a depth. -/
def causeLines (depth : Nat) : List Report → List String
  | [] => []
  | r :: rest =>
    (Text.spaces (2 * (depth - 1)) ++ "caused by:") ::
      r.lines.map (Text.spaces (2 * depth) ++ ·) ++ causeLines (depth + 1) rest

def lines (d : Diagnostic) : List String := d.report.lines ++ causeLines 1 d.causes

/-- Every line ends with a newline. -/
def render (d : Diagnostic) : String := String.join (d.lines.map (· ++ "\n"))

end Diagnostic

end StagedJoin
