import ThemeSheet.Token.Numeral
import ThemeSheet.Token.Quoted
import ThemeSheet.Token.Url

/-!
# Reading tokens

Every text is a row of tokens: a character that begins nothing else is a
token of its own.  So reading tokens cannot fail, and the sources of the
tokens make up the text.
-/

namespace ThemeSheet

/-- How many characters a comment takes after its slash and star.  A comment
that is not closed runs to the end of the text. -/
def commentWidth : List Char → Nat
  | '*' :: '/' :: _ => 2
  | _ :: rest => commentWidth rest + 1
  | [] => 0

def readWord (text : List Char) : Token × Nat :=
  let (name, width) := readName text
  match text.drop width with
  | '(' :: rest =>
      if name.map Char.toLower = "url".toList then
        match readUrl rest with
        | some (token, more) => (token, width + 1 + more)
        | none => (.function name, width + 1)
      else (.function name, width + 1)
  | _ => (.ident name, width)

def readHash (text : List Char) : Option (Token × Nat) :=
  let (name, width) := readName text
  if startsName text then some (.idHash name, width)
  else if name.isEmpty then none
  else some (.hash name, width)

def readMark (c : Char) (rest : List Char) : Token × Nat :=
  match c, rest with
  | ':', _ => (.colon, 0)
  | ';', _ => (.semicolon, 0)
  | ',', _ => (.comma, 0)
  | '(', _ => (.opening .round, 0)
  | ')', _ => (.closing .round, 0)
  | '[', _ => (.opening .square, 0)
  | ']', _ => (.closing .square, 0)
  | '\x7b', _ => (.opening .curly, 0)
  | '\x7d', _ => (.closing .curly, 0)
  | '"', _ => readQuoted c rest
  | '\'', _ => readQuoted c rest
  | '#', _ => (readHash rest).getD (.delim c, 0)
  | '@', _ =>
      if startsName rest then
        let (name, width) := readName rest
        (.atKeyword name, width)
      else (.delim c, 0)
  | '/', '*' :: rest => (.comment, 1 + commentWidth rest)
  | '<', '!' :: '-' :: '-' :: _ => (.commentOpen, 3)
  | '~', '=' :: _ => (.comparison c, 1)
  | '|', '=' :: _ => (.comparison c, 1)
  | '^', '=' :: _ => (.comparison c, 1)
  | '$', '=' :: _ => (.comparison c, 1)
  | '*', '=' :: _ => (.comparison c, 1)
  | _, _ => (.delim c, 0)

def startsCommentClose : List Char → Bool
  | '-' :: '-' :: '>' :: _ => true
  | _ => false

def Token.behindFirst (read : Token × Nat) : Token × Nat :=
  (read.1, read.2 - 1)

def Token.read (c : Char) (rest : List Char) : Token × Nat :=
  let text := c :: rest
  if isSpace c then (.whitespace, (rest.takeWhile isSpace).length)
  else if Numeral.startsAt text then behindFirst (readNumber text)
  else if startsCommentClose text then (.commentClose, 2)
  else if startsName text then behindFirst (readWord text)
  else readMark c rest

def lex (text : List Char) : List Lexeme :=
  Span.readWhile (fun c rest => some (Token.read c rest)) text

/-- Nothing of the text is lost. -/
theorem sources_lex (text : List Char) : Span.sources (lex text) = text :=
  Span.sources_readWhile_of_forall_isSome _ (fun _ _ => rfl) text

end ThemeSheet
