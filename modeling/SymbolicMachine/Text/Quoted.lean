import SymbolicMachine.Text.Unprintable
/-!
# Quoted text

The quoted form of a text inside a message: it stands between double quotes, and whatever
would not be visible there is spelled out.  Quotes and backslashes take a backslash, tab,
line feed, carriage return and the null character have letters, and every other character
without a visible form is given by its code point in braces.
-/
namespace SymbolicMachine.Text

/-- The lower-case hexadecimal digits of a number, without leading zeros. -/
def hexDigits (n : Nat) : List Char := Nat.toDigits 16 n

def escape (c : Char) : List Char :=
  if c = '\x00' then ['\\', '0']
  else if c = '\t' then ['\\', 't']
  else if c = '\r' then ['\\', 'r']
  else if c = '\n' then ['\\', 'n']
  else if c = '\\' then ['\\', '\\']
  else if c = '"' then ['\\', '"']
  else if isUnprintable c then ['\\', 'u', '\x7b'] ++ hexDigits c.toNat ++ ['\x7d']
  else [c]

def quoted (text : String) : String :=
  String.ofList ('"' :: text.toList.flatMap escape ++ ['"'])

end SymbolicMachine.Text
