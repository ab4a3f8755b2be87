/-!
# Quoted characters

A quoted character says exactly which character it is. The quote around it and
the backslash are escaped, and four controls have an escape of one letter. Of
the others, those that leave a mark of their own are shown as they are, and the
rest are written as their code point in hexadecimal.

Which characters leave a mark of their own differs from one edition of the
Unicode standard to the next, as each of them assigns more code points. So the
characters that are shown are given by whoever asks for the text.
-/

namespace PatternSyntax

/-- A code point as a backslash escape, in lowercase hexadecimal without
leading zeros. -/
def codePointEscape (c : Char) : String :=
  "\\u\x7b" ++ String.ofList (Nat.toDigits 16 c.toNat) ++ "\x7d"

def escapeInside (shown : Char → Bool) (c : Char) : String :=
  if c = '\x00' then "\\0"
  else if c = '\t' then "\\t"
  else if c = '\r' then "\\r"
  else if c = '\n' then "\\n"
  else if c = '\\' ∨ c = '\'' then "\\" ++ String.singleton c
  else if shown c then String.singleton c
  else codePointEscape c

def quoteChar (shown : Char → Bool) (c : Char) : String :=
  "'" ++ escapeInside shown c ++ "'"

end PatternSyntax
