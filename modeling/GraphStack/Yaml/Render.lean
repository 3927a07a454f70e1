import GraphStack.Yaml.Schema

/-!
# Written scalars

How a text is written as the value of a key of a block mapping that is not indented. A text with a
line feed is literal, one that a plain scalar would not mean is between single quotes, and all else
is plain, as far as the text can be written so. Single quotes stand in for a plain scalar, and
double quotes, with everything escaped that is no printable character of a line, for any style.
-/

namespace GraphStack.Yaml.Render

def isPrintable (c : Char) : Bool :=
  c = '\n' || (' ' ≤ c && c ≤ '~')
    || ('\u00a0' ≤ c && c != byteOrderMark && c != '\ufffe' && c != '\uffff')

def isSpace (c : Char) : Bool := c = ' '

def hasPair (p q : Char → Bool) : List Char → Bool
  | [] => false
  | c :: cs => (p c && cs.head?.any q) || hasPair p q cs

def startsLikeDocument : List Char → Bool
  | '-' :: '-' :: '-' :: _ => true
  | '.' :: '.' :: '.' :: _ => true
  | _ => false

/-- The first character would be read as an indicator. -/
def startsLikeIndicator : List Char → Bool
  | [] => false
  | c :: cs =>
    ['#', ',', '[', ']', '\x7b', '\x7d', '&', '*', '!', '|', '>', '\'', '"', '%', '@',
      '\x60'].contains c
      || ((c = '-' || c = '?') && atSpaceOrEnd cs)

/-- A colon would be read as the end of a key, or a number sign as the start of a comment. -/
def hasInnerIndicator : List Char → Bool
  | [] => false
  | c :: cs =>
    (c = ':' && atSpaceOrEnd cs) || ((isBlank c || isBreak c) && cs.head? == some '#')
      || hasInnerIndicator cs

def allowsPlain (cs : List Char) : Bool :=
  cs.all (fun c => isPrintable c && !isBreak c) && !cs.head?.any isSpace && !cs.getLast?.any isSpace
    && !startsLikeDocument cs && !startsLikeIndicator cs && !hasInnerIndicator cs

def allowsSingle (cs : List Char) : Bool :=
  cs.all isPrintable && !hasPair isBreak isSpace cs && !hasPair isSpace isBreak cs

def allowsLiteral (cs : List Char) : Bool :=
  cs.all isPrintable && !hasPair isSpace isBreak cs && !cs.getLast?.any isSpace

/-- Without a tag the text, written plain, would not mean a text. -/
def needsQuotes (s : String) : Bool :=
  hasLeadingZero s.toList ||
    match untagged s with
    | .text _ => false
    | _ => true

def styleOf (s : String) : Style :=
  if s.contains '\n' then if allowsLiteral s.toList then .literal else .double
  else if !needsQuotes s && allowsPlain s.toList then .plain
  else if allowsSingle s.toList then .single
  else .double

def escapeName? : Char → Option Char
  | '\x00' => some '0'
  | '\x07' => some 'a'
  | '\x08' => some 'b'
  | '\t' => some 't'
  | '\n' => some 'n'
  | '\x0b' => some 'v'
  | '\x0c' => some 'f'
  | '\r' => some 'r'
  | '\x1b' => some 'e'
  | '"' => some '"'
  | '\\' => some '\\'
  | c =>
    if c = nextLine then some 'N'
    else if c = lineSeparator then some 'L'
    else if c = paragraphSeparator then some 'P'
    else none

def escape (c : Char) : List Char :=
  match escapeName? c with
  | some name => ['\\', name]
  | none =>
    if !isPrintable c then
      if c.toNat ≤ 0xFF then '\\' :: 'x' :: Text.hexField 2 c.toNat
      else if c.toNat ≤ 0xFFFF then '\\' :: 'u' :: Text.hexField 4 c.toNat
      else '\\' :: 'U' :: Text.hexField 8 c.toNat
    else [c]

def double (cs : List Char) : List Char := '"' :: cs.flatMap escape ++ ['"']

def margin : List Char := [' ', ' ']

/-- The inside of single quotes; a line that goes on after a line end is indented. -/
def singleFrom (broken : Bool) : List Char → List Char
  | [] => if broken then margin else []
  | c :: cs =>
    if isBreak c then c :: singleFrom true cs
    else if isSpace c then c :: singleFrom broken cs
    else
      (if broken then margin else []) ++ (if c = '\'' then [c, c] else [c]) ++ singleFrom false cs

def single (cs : List Char) : List Char := '\'' :: singleFrom false cs ++ ['\'']

def literalFrom (broken : Bool) : List Char → List Char
  | [] => []
  | c :: cs =>
    if isBreak c then c :: literalFrom true cs
    else (if broken then margin else []) ++ c :: literalFrom false cs

/-- The indentation is given where the text begins with a space or a line end. -/
def literalIndent (cs : List Char) : List Char :=
  if cs.head?.any fun c => isSpace c || isBreak c then ['2'] else []

/-- What becomes of the last line ends: there is none, one after text, or there are more. -/
def literalChomp (cs : List Char) : List Char :=
  match cs.reverse with
  | [] => ['-']
  | c :: before =>
    if !isBreak c then ['-']
    else if before.head?.all isBreak then ['+']
    else []

def literal (cs : List Char) : List Char :=
  '|' :: literalIndent cs ++ literalChomp cs ++ '\n' :: literalFrom true cs

def scalar (s : String) : List Char :=
  match styleOf s with
  | .plain => s.toList
  | .single => single s.toList
  | .literal => literal s.toList
  | _ => double s.toList

/-- A line of a block mapping; a scalar that ends its line needs no further line end. -/
def field (key : String) (value : List Char) : List Char :=
  key.toList ++ ':' :: ' ' :: value ++ if value.getLast?.any isBreak then [] else ['\n']

end GraphStack.Yaml.Render
