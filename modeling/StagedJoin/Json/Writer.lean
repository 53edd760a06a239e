import StagedJoin.Decimal
import StagedJoin.Json

/-!
JSON text without blanks.
-/
namespace StagedJoin.Json

/-- Floats are positional from 1e-5 up to 1e16; of two nearest shortest decimals
the even one is written. -/
def floatStyle : DecimalStyle where
  least := -5
  greatest := 15
  exponentPlus := true
  halfWay := .even

def numberText : JsonNumber → String
  | .integer n => toString n
  | .float x =>
    match x.magnitude with
    | .finite _ _ => floatStyle.text x
    | _ => "null"

def hexDigit (n : Nat) : Char := (Nat.toDigits 16 n).headD '0'

/-- Only quotes, backslashes and control characters are escaped. -/
def escapeChar (c : Char) : List Char :=
  if c = '"' then ['\\', '"']
  else if c = '\\' then ['\\', '\\']
  else if c = '\x08' then ['\\', 'b']
  else if c = '\x0c' then ['\\', 'f']
  else if c = '\n' then ['\\', 'n']
  else if c = '\r' then ['\\', 'r']
  else if c = '\t' then ['\\', 't']
  else if c.toNat < 0x20 then
    ['\\', 'u', '0', '0', hexDigit (c.toNat / 16), hexDigit (c.toNat % 16)]
  else [c]

def stringText (s : String) : String :=
  String.ofList ('"' :: s.toList.flatMap escapeChar ++ ['"'])

mutual

def text : Json → String
  | .null => "null"
  | .boolean b => if b then "true" else "false"
  | .number n => n.elim "null" numberText
  | .string s => stringText (s.getD "")
  | .array items => "[" ++ String.intercalate "," (itemTexts items) ++ "]"
  | .object fields => "\x7b" ++ String.intercalate "," (fieldTexts fields) ++ "\x7d"

def itemTexts : List Json → List String
  | [] => []
  | j :: rest => j.text :: itemTexts rest

def fieldTexts : List (Option String × Json) → List String
  | [] => []
  | (key, j) :: rest => (stringText (key.getD "") ++ ":" ++ j.text) :: fieldTexts rest

end

end StagedJoin.Json
