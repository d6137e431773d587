import CubeAxis.Toml.Scalar

namespace CubeAxis.Toml

/-- Control characters other than the tab may not be written out. -/
def isPlain (c : Char) : Bool :=
  c == '\t' || (' ' ≤ c && c != '\x7f')

/-- The character of a code point; surrogates and what lies beyond have none. -/
def scalarValue? (n : Nat) : Option Char :=
  if h : n.isValidChar then some (Char.ofNatAux n h) else none

/-- A character by the hexadecimal digits of its code point. -/
def codePoint (width : Nat) (cs : List Char) : Option (Char × List Char) := do
  let digits := cs.take width
  guard (digits.length == width && digits.all (isDigitBelow 16))
  return (← scalarValue? (digitsValue 16 digits), cs.drop width)

/-- What follows a backslash. -/
def escape : List Char → Option (Char × List Char)
  | 'b' :: cs => some ('\x08', cs)
  | 't' :: cs => some ('\t', cs)
  | 'n' :: cs => some ('\n', cs)
  | 'f' :: cs => some ('\x0c', cs)
  | 'r' :: cs => some ('\r', cs)
  | '"' :: cs => some ('"', cs)
  | '\\' :: cs => some ('\\', cs)
  | 'u' :: cs => codePoint 4 cs
  | 'U' :: cs => codePoint 8 cs
  | _ => none

def prepend (c : Char) (r : Option (List Char × List Char)) : Option (List Char × List Char) :=
  r.map fun (s, rest) => (c :: s, rest)

/-- The rest of a one-line string after its opening quote. Escapes count only in
double quotes. `fuel` bounds the length. -/
def oneLine (quote : Char) : (fuel : Nat) → List Char → Option (List Char × List Char)
  | 0, _ => none
  | _, [] => none
  | fuel + 1, c :: cs =>
    if c == quote then some ([], cs)
    else if c == '\\' && quote == '"' then
      (escape cs).bind fun (e, rest) => prepend e (oneLine quote fuel rest)
    else if isPlain c then prepend c (oneLine quote fuel cs)
    else none

/-- Drops a line end, a bare line feed or one after a carriage return. -/
def lineEnd? : List Char → Option (List Char)
  | '\n' :: cs => some cs
  | '\r' :: '\n' :: cs => some cs
  | _ => none

def isBlank (c : Char) : Bool := c == ' ' || c == '\t'

def skipBlanks (cs : List Char) : List Char := cs.dropWhile isBlank

/-- Skips blanks and line ends. -/
def skipSpace : (fuel : Nat) → List Char → List Char
  | 0, cs => cs
  | fuel + 1, cs =>
    let cs := skipBlanks cs
    match lineEnd? cs with
    | some rest => skipSpace fuel rest
    | none => cs

/-- The rest of a string of several lines. Up to two quotes may stand before the
closing three, and line ends are read as line feeds. In double quotes a
backslash at the end of a line skips all space up to the next character. -/
def manyLines (quote : Char) : (fuel : Nat) → List Char → Option (List Char × List Char)
  | 0, _ => none
  | _, [] => none
  | fuel + 1, c :: cs =>
    let (quotes, rest) := (c :: cs).span (· == quote)
    if 3 ≤ quotes.length then
      if quotes.length ≤ 5 then some (quotes.drop 3, rest) else none
    else if c == quote then prepend c (manyLines quote fuel cs)
    else if c == '\\' && quote == '"' then
      match lineEnd? (skipBlanks cs) with
      | some rest => manyLines quote fuel (skipSpace fuel rest)
      | none => (escape cs).bind fun (e, rest) => prepend e (manyLines quote fuel rest)
    else match lineEnd? (c :: cs) with
      | some rest => prepend '\n' (manyLines quote fuel rest)
      | none => if isPlain c then prepend c (manyLines quote fuel cs) else none

/-- A string on one line, its opening quote still there. -/
def quotedLine : List Char → Option (String × List Char)
  | '"' :: cs => (oneLine '"' (cs.length + 1) cs).map fun (s, rest) => (String.ofList s, rest)
  | '\'' :: cs => (oneLine '\'' (cs.length + 1) cs).map fun (s, rest) => (String.ofList s, rest)
  | _ => none

/-- The rest of a string of several lines; a line end right after the opening
quotes does not count. -/
def quotedLines (quote : Char) (cs : List Char) : Option (String × List Char) :=
  (manyLines quote (cs.length + 1) ((lineEnd? cs).getD cs)).map
    fun (s, rest) => (String.ofList s, rest)

/-- A string in any of the four notations. -/
def quoted : List Char → Option (String × List Char)
  | '"' :: '"' :: '"' :: cs => quotedLines '"' cs
  | '\'' :: '\'' :: '\'' :: cs => quotedLines '\'' cs
  | cs => quotedLine cs

end CubeAxis.Toml
