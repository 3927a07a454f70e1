import GraphStack.Text.Glyph
import GraphStack.Text.Hexadecimal

/-!
# Quoted texts

`quoted` writes a text between double quotes so that every character of it can be seen: the quote,
the backslash, tab, line feed, carriage return and NUL have escapes of two characters, and any
other character without a glyph of its own is written as `\u` and its code point in braces.
-/

namespace GraphStack.Text

def codePointEscape (c : Char) : String := "\\u\x7b" ++ hexDigits c.toNat ++ "\x7d"

def quotedChar (c : Char) : String :=
  match c with
  | '\x00' => "\\0"
  | '\t' => "\\t"
  | '\n' => "\\n"
  | '\r' => "\\r"
  | '"' => "\\\""
  | '\\' => "\\\\"
  | _ => if hasGlyph c then String.singleton c else codePointEscape c

def quoted (s : String) : String :=
  "\"" ++ s.toList.foldl (fun text c => text ++ quotedChar c) "" ++ "\""

end GraphStack.Text
