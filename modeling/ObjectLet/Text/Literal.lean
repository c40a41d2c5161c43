import ObjectLet.Text.Visible

/-!
# Text between quotes

A text is written between double quotes with everything in it that would not show, or would end it,
replaced by an escape.
-/

set_option autoImplicit false

namespace ObjectLet.Text

/-- The digits of a number to base 16, in small letters. -/
def hex (n : Nat) : String := String.ofList (Nat.toDigits 16 n)

/-- How a character is written between double quotes. -/
def literalChar (c : Char) : String :=
  match c with
  | '\x00' => "\\0"
  | '\t' => "\\t"
  | '\r' => "\\r"
  | '\n' => "\\n"
  | '"' => "\\\""
  | '\\' => "\\\\"
  | c => if isVisible c then String.singleton c else "\\u\x7b" ++ hex c.toNat ++ "\x7d"

/-- How a text is written between double quotes. -/
def literal (s : String) : String := "\"" ++ String.join (s.toList.map literalChar) ++ "\""

end ObjectLet.Text
