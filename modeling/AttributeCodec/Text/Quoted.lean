import AttributeCodec.Text.Unprintable

namespace AttributeCodec.Text

def escapedCodePoint (c : Char) : List Char :=
  ['\\', 'u', '{'] ++ Nat.toDigits 16 c.toNat ++ ['}']

def escaped (c : Char) : List Char :=
  match c with
  | '\x00' => ['\\', '0']
  | '\t' => ['\\', 't']
  | '\n' => ['\\', 'n']
  | '\r' => ['\\', 'r']
  | '"' => ['\\', '"']
  | '\\' => ['\\', '\\']
  | c => if isUnprintable c then escapedCodePoint c else [c]

def quoted (text : String) : String := .ofList ('"' :: text.toList.flatMap escaped ++ ['"'])

end AttributeCodec.Text
