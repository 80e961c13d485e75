import Dialogue.Text.Unprintable

/-!
# Quoted text

How a text is shown inside the description of a value: in double quotes, with the quote, the
backslash, the four common controls and everything unprintable escaped.
-/

namespace Dialogue.Text

def hex (n : Nat) : String :=
  String.ofList (Nat.toDigits 16 n)

def codePoint (c : Char) : String :=
  "\\u\x7b" ++ hex c.toNat ++ "\x7d"

def escape (c : Char) : String :=
  if c = '"' then "\\\""
  else if c = '\\' then "\\\\"
  else if c = '\t' then "\\t"
  else if c = '\n' then "\\n"
  else if c = '\r' then "\\r"
  else if c = '\x00' then "\\0"
  else if isUnprintable c then codePoint c
  else c.toString

def quote (s : String) : String :=
  "\"" ++ s.foldl (fun acc c => acc ++ escape c) "" ++ "\""

end Dialogue.Text
