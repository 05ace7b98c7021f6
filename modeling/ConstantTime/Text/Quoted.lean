/-
# Quoted text

Messages show names between double quotes, on one line and in printable
characters only, so that a blank, a line end or a stray control character in a
name can be seen.

| character                         | written as                     |
|-----------------------------------|--------------------------------|
| quote, backslash                  | `\"`, `\\`                     |
| bell … carriage return            | `\a` `\b` `\t` `\n` `\v` `\f` `\r` |
| other ASCII controls              | two hexadecimal digits, `\x01` |
| printable characters              | themselves                     |
| others below 0x10000              | four digits, `\u200b`          |
| the rest                          | eight digits, `\U000e0001`     |
-/

import ConstantTime.Text.Printable

namespace ConstantTime
namespace Text

/-- A number in lower-case hexadecimal, filled with zeros to a width. -/
def hex (width n : Nat) : String :=
  let digits := Nat.toDigits 16 n
  String.ofList (List.replicate (width - digits.length) '0' ++ digits)

/-- One character of quoted text. -/
def quoteChar (c : Char) : String :=
  if c = '\x22' then "\\\""
  else if c = '\\' then "\\\\"
  else if isPrintable c then String.singleton c
  else
    match c.toNat with
    | 7 => "\\a"
    | 8 => "\\b"
    | 9 => "\\t"
    | 10 => "\\n"
    | 11 => "\\v"
    | 12 => "\\f"
    | 13 => "\\r"
    | n =>
      if n < 0x80 then "\\x" ++ hex 2 n
      else if n < 0x10000 then "\\u" ++ hex 4 n
      else "\\U" ++ hex 8 n

/-- A text between double quotes. -/
def quote (s : String) : String :=
  "\"" ++ String.join (s.toList.map quoteChar) ++ "\""

/-- A list of words as messages show it: between brackets, with blanks. -/
def bracketed (words : List String) : String :=
  "[" ++ String.intercalate " " words ++ "]"

end Text
end ConstantTime
