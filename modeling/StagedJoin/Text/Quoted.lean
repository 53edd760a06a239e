import StagedJoin.Text.Unprintable
import StagedJoin.Text.Extending

/-!
Text in double quotes. A quote, a backslash and the usual control characters get
a short escape; every other character that is unprintable or extends the one
before it is written by its code point in hexadecimal.
-/
namespace StagedJoin.Text

def isPlain (c : Char) : Bool :=
  if c.toNat < 127 then 32 ≤ c.toNat else !isExtending c && !isUnprintable c

def escapeChar (c : Char) : List Char :=
  if c = '"' then ['\\', '"']
  else if c = '\\' then ['\\', '\\']
  else if c = '\n' then ['\\', 'n']
  else if c = '\r' then ['\\', 'r']
  else if c = '\t' then ['\\', 't']
  else if c = '\x00' then ['\\', '0']
  else if isPlain c then [c]
  else ['\\', 'u', '\x7b'] ++ Nat.toDigits 16 c.toNat ++ ['\x7d']

def quoted (s : String) : String :=
  String.ofList ('"' :: s.toList.flatMap escapeChar ++ ['"'])

end StagedJoin.Text
