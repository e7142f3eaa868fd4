import BrakeCheck.Text.Visibility

/-!
# Quoted text

How an offending text is quoted inside a message: between double quotes, with every character
that would not be seen as itself spelled out.

## Main definitions

* `escape` — the written form of one character.
* `quote` — the written form of a whole text.
-/

namespace BrakeCheck.Text

/-- The digits of a code point in base sixteen, in lower case and without leading zeros. -/
def hexDigits (code : Nat) : List Char := Nat.toDigits 16 code

/-- The written form of one character inside a quoted text. -/
def escape (c : Char) : List Char :=
  if c = '\x00' then ['\\', '0']
  else if c = '\t' then ['\\', 't']
  else if c = '\r' then ['\\', 'r']
  else if c = '\n' then ['\\', 'n']
  else if c = '"' then ['\\', '"']
  else if c = '\\' then ['\\', '\\']
  else if isExtending c || isInvisible c then
    ['\\', 'u', '\x7b'] ++ hexDigits c.toNat ++ ['\x7d']
  else [c]

/-- A text between double quotes, each character in its written form. -/
def quote (s : String) : String :=
  String.ofList ('"' :: s.toList.flatMap escape ++ ['"'])

end BrakeCheck.Text
