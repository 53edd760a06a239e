import StagedJoin.Json.Number

/-!
Reading JSON text. Each reader takes the characters that are left and answers
with what it has read and what is left behind it.
-/
namespace StagedJoin.Json

/-- A character of a string, or a code unit written as an escape. -/
inductive StringPart where
  | char (c : Char)
  | unit (code : Nat)
  deriving DecidableEq, Repr

def isLead (code : Nat) : Bool := 0xd800 ≤ code && code < 0xdc00

def isTrail (code : Nat) : Bool := 0xdc00 ≤ code && code < 0xe000

def pairedCode (lead trail : Nat) : Nat := 0x10000 + (lead - 0xd800) * 0x400 + (trail - 0xdc00)

/-- The characters of a string; `none` if it has half of a surrogate pair. -/
def decodeParts : List StringPart → Option (List Char)
  | [] => some []
  | .char c :: rest => (decodeParts rest).map (c :: ·)
  | .unit lead :: .unit trail :: rest =>
    if isLead lead then
      if isTrail trail then (decodeParts rest).map (Char.ofNat (pairedCode lead trail) :: ·)
      else none
    else if isTrail lead then none
    else (decodeParts (.unit trail :: rest)).map (Char.ofNat lead :: ·)
  | .unit code :: rest =>
    if isLead code || isTrail code then none
    else (decodeParts rest).map (Char.ofNat code :: ·)

def isSpace (c : Char) : Bool := c = ' ' || c = '\n' || c = '\t' || c = '\r'

def skipSpace (s : List Char) : List Char := s.dropWhile isSpace

def hexValue? (c : Char) : Option Nat :=
  if '0' ≤ c ∧ c ≤ '9' then some (c.toNat - '0'.toNat)
  else if 'a' ≤ c ∧ c ≤ 'f' then some (c.toNat - 'a'.toNat + 10)
  else if 'A' ≤ c ∧ c ≤ 'F' then some (c.toNat - 'A'.toNat + 10)
  else none

def hexUnit? (a b c d : Char) : Option Nat := do
  return (((← hexValue? a) * 16 + (← hexValue? b)) * 16 + (← hexValue? c)) * 16 + (← hexValue? d)

/-- The character that a short escape stands for. -/
def shortEscape? (c : Char) : Option Char :=
  if c = '"' then some '"'
  else if c = '\\' then some '\\'
  else if c = '/' then some '/'
  else if c = 'b' then some '\x08'
  else if c = 'f' then some '\x0c'
  else if c = 'n' then some '\n'
  else if c = 'r' then some '\r'
  else if c = 't' then some '\t'
  else none

def consPart (part : StringPart) : Option (List StringPart × List Char) →
    Option (List StringPart × List Char)
  | some (parts, rest) => some (part :: parts, rest)
  | none => none

/-- Reads the inside of a string and the quote behind it. -/
def readParts : List Char → Option (List StringPart × List Char)
  | [] => none
  | '"' :: rest => some ([], rest)
  | '\\' :: 'u' :: a :: b :: c :: d :: rest =>
    match hexUnit? a b c d with
    | some code => consPart (.unit code) (readParts rest)
    | none => none
  | '\\' :: c :: rest =>
    match shortEscape? c with
    | some c => consPart (.char c) (readParts rest)
    | none => none
  | c :: rest =>
    if c = '\\' ∨ c.toNat < 0x20 then none else consPart (.char c) (readParts rest)

def readString (s : List Char) : Option (Option String × List Char) :=
  match readParts s with
  | some (parts, rest) => some ((decodeParts parts).map String.ofList, rest)
  | none => none

def isDigit (c : Char) : Bool := '0' ≤ c && c ≤ '9'

def digitValue (c : Char) : Nat := c.toNat - '0'.toNat

/-- One or more digits. -/
def readDigits (s : List Char) : Option (List Nat × List Char) :=
  match s.takeWhile isDigit with
  | [] => none
  | digits => some (digits.map digitValue, s.dropWhile isDigit)

/-- The whole part of a number, which has no zero in front. -/
def readWhole : List Char → Option (List Nat × List Char)
  | '0' :: c :: rest => if isDigit c then none else some ([0], c :: rest)
  | ['0'] => some ([0], [])
  | s => readDigits s

def readFraction : List Char → Option (Option (List Nat) × List Char)
  | '.' :: rest =>
    match readDigits rest with
    | some (digits, rest) => some (some digits, rest)
    | none => none
  | s => some (none, s)

/-- The sign of an exponent. -/
def readExponentSign : List Char → Bool × List Char
  | '+' :: rest => (false, rest)
  | '-' :: rest => (true, rest)
  | s => (false, s)

def readExponent : List Char → Option (Option (Bool × List Nat) × List Char)
  | c :: rest =>
    if c = 'e' ∨ c = 'E' then
      let (negative, rest) := readExponentSign rest
      match readDigits rest with
      | some (digits, rest) => some (some (negative, digits), rest)
      | none => none
    else some (none, c :: rest)
  | [] => some (none, [])

def readNumber (negative : Bool) (s : List Char) : Option (Json × List Char) := do
  let (whole, s) ← readWhole s
  let (fraction, s) ← readFraction s
  let (exponent, s) ← readExponent s
  return (.number (NumberToken.value ⟨negative, whole, fraction, exponent⟩), s)

mutual

/-- Reads a value behind blanks. -/
def readValue : Nat → List Char → Option (Json × List Char)
  | 0, _ => none
  | fuel + 1, s =>
    match skipSpace s with
    | 'n' :: 'u' :: 'l' :: 'l' :: rest => some (.null, rest)
    | 't' :: 'r' :: 'u' :: 'e' :: rest => some (.boolean true, rest)
    | 'f' :: 'a' :: 'l' :: 's' :: 'e' :: rest => some (.boolean false, rest)
    | '-' :: rest => readNumber true rest
    | '"' :: rest =>
      match readString rest with
      | some (text, rest) => some (.string text, rest)
      | none => none
    | '[' :: rest =>
      match skipSpace rest with
      | ']' :: rest => some (.array [], rest)
      | rest =>
        match readItems fuel rest with
        | some (items, rest) => some (.array items, rest)
        | none => none
    | '\x7b' :: rest =>
      match skipSpace rest with
      | '\x7d' :: rest => some (.object [], rest)
      | rest =>
        match readFields fuel rest with
        | some (fields, rest) => some (.object fields, rest)
        | none => none
    | rest => readNumber false rest

/-- Reads items up to the closing bracket. -/
def readItems : Nat → List Char → Option (List Json × List Char)
  | 0, _ => none
  | fuel + 1, s =>
    match readValue fuel s with
    | none => none
    | some (item, rest) =>
      match skipSpace rest with
      | ',' :: rest =>
        match readItems fuel rest with
        | some (items, rest) => some (item :: items, rest)
        | none => none
      | ']' :: rest => some ([item], rest)
      | _ => none

/-- Reads fields up to the closing brace. -/
def readFields : Nat → List Char → Option (List (Option String × Json) × List Char)
  | 0, _ => none
  | fuel + 1, s =>
    match skipSpace s with
    | '"' :: rest =>
      match readString rest with
      | none => none
      | some (key, rest) =>
        match skipSpace rest with
        | ':' :: rest =>
          match readValue fuel rest with
          | none => none
          | some (item, rest) =>
            match skipSpace rest with
            | ',' :: rest =>
              match readFields fuel rest with
              | some (fields, rest) => some ((key, item) :: fields, rest)
              | none => none
            | '\x7d' :: rest => some ([(key, item)], rest)
            | _ => none
        | _ => none
    | _ => none

end

/-- Reads a text that holds one value and blanks. Two steps for each character are enough. -/
def parse (text : String) : Option Json :=
  let s := text.toList
  match readValue (2 * s.length + 2) s with
  | some (j, rest) => if (skipSpace rest).isEmpty then some j else none
  | none => none

end StagedJoin.Json
