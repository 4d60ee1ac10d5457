import ThemeSheet.Token.Basic
import ThemeSheet.Token.Name

/-!
# The written form of tokens

Error messages quote tokens in one written form, whatever their source text
was: escapes stand only where they are needed and numbers show their value.
-/

namespace ThemeSheet

def hexEscape (c : Char) : List Char := '\\' :: hexDigits c.toNat ++ [' ']

def charEscape (c : Char) : List Char := ['\\', c]

def needsHexEscape (c : Char) : Bool := c.toNat < 0x20 || c == '\x7f'

def writeNameChar (c : Char) : List Char :=
  if c = '\x00' then [replacement]
  else if isNameChar c then [c]
  else if needsHexEscape c then hexEscape c
  else charEscape c

def writeName (name : List Char) : List Char := name.flatMap writeNameChar

/-- Writes what follows an optional hyphen: a digit there would not start an
identifier. -/
def writeNameBody : List Char → List Char
  | c :: rest =>
      if c.isDigit then hexEscape c ++ writeName rest else writeName (c :: rest)
  | [] => []

def writeIdentifier : List Char → List Char
  | '-' :: '-' :: rest => '-' :: '-' :: writeName rest
  | ['-'] => charEscape '-'
  | '-' :: rest => '-' :: writeNameBody rest
  | name => writeNameBody name

def writeStringChar (c : Char) : List Char :=
  if c = '"' ∨ c = '\\' then charEscape c
  else if c = '\x00' then [replacement]
  else if needsHexEscape c then hexEscape c
  else [c]

def writeOpenString (text : List Char) : List Char :=
  '"' :: text.flatMap writeStringChar

def writeString (text : List Char) : List Char := writeOpenString text ++ ['"']

def writeUrlChar (c : Char) : List Char :=
  if needsHexEscape c || c == ' ' then hexEscape c
  else if c ∈ ['(', ')', '"', '\'', '\\'] then charEscape c
  else [c]

/-- A unit that could be read as an exponent has its first letter escaped. -/
def writeUnit (unit : List Char) : List Char :=
  match unit with
  | c :: rest =>
      if (c = 'e' ∨ c = 'E') ∧ (rest.isEmpty ∨ rest.head? = some '-') then
        hexEscape 'e' ++ writeName rest
      else writeIdentifier unit
  | [] => []

def Token.written : Token → List Char
  | ident name => writeIdentifier name
  | atKeyword name => '@' :: writeIdentifier name
  | idHash name => '#' :: writeIdentifier name
  | hash name => '#' :: writeName name
  | quoted text => writeString text
  | badString text => writeOpenString text
  | url address => "url(".toList ++ address.flatMap writeUrlChar ++ [')']
  | badUrl contents => "url(".toList ++ contents ++ [')']
  | function name => writeIdentifier name ++ ['(']
  | number numeral => numeral.writeValue numeral.toFloat32
  | percentage numeral => numeral.writeValue numeral.percentToFloat32 ++ ['%']
  | dimension numeral unit =>
      numeral.writeValue numeral.toFloat32 ++ writeUnit unit
  | whitespace => [' ']
  | comment => "/**/".toList
  | colon => [':']
  | semicolon => [';']
  | comma => [',']
  | delim c => [c]
  | comparison c => [c, '=']
  | commentOpen => "<!--".toList
  | commentClose => "-->".toList
  | opening bracket => [bracket.opening]
  | closing bracket => [bracket.closing]

end ThemeSheet
