import SingleFile.Json.Writer
import SingleFile.Text.Unicode

/-!
# Quoted text

A text between double quotes.  Quotes, backslashes and what does not show in print are escaped; the
single quote and all other characters stay.
-/

namespace SingleFile.Quoted

/-- The hexadecimal digits of a number, without zeros in front; `fuel` bounds their number. -/
def hexDigits : Nat → Nat → List Char
  | 0, _ => []
  | fuel + 1, n => if n < 16 then [Json.hexDigit n] else hexDigits fuel (n / 16) ++ [Json.hexDigit (n % 16)]

def stays (c : Char) : Bool := Unicode.isPrintable c && !Unicode.isMark c

def escape (c : Char) : List Char :=
  if c = '"' then ['\\', '"']
  else if c = '\\' then ['\\', '\\']
  else if c = '\t' then ['\\', 't']
  else if c = '\n' then ['\\', 'n']
  else if c = '\r' then ['\\', 'r']
  else if c = '\x00' then ['\\', '0']
  else if stays c then [c]
  else ['\\', 'u', '\x7b'] ++ hexDigits 6 c.toNat ++ ['\x7d']

def encode (cs : List Char) : List Char := '"' :: (cs.flatMap escape ++ ['"'])

end SingleFile.Quoted
