-- SUMMARY: Quoted text, with escapes for what cannot be shown.
import SchemaQuery.Text.Printable

/-!
# Quoted text

A quoted text stands between double quotes. Quotes, backslashes and the common
controls are escaped by a backslash and a letter; any other character that is
not printable is written by its code point in lower-case hexadecimal.
-/

namespace SchemaQuery.Text

/-- The written form of a character inside quotes. -/
def quoteChar (c : Char) : String :=
  match c with
  | '\x00' => "\\0"
  | '\t' => "\\t"
  | '\r' => "\\r"
  | '\n' => "\\n"
  | '"' => "\\\""
  | '\\' => "\\\\"
  | c =>
    if isPrintable c then String.singleton c
    else "\\u\x7b" ++ String.ofList (Nat.toDigits 16 c.toNat) ++ "\x7d"

def quote (s : String) : String :=
  "\"" ++ String.join (s.toList.map quoteChar) ++ "\""

/-- Quoted texts in brackets, divided by commas. -/
def quoteList (ss : List String) : String :=
  "[" ++ ", ".intercalate (ss.map quote) ++ "]"

end SchemaQuery.Text
