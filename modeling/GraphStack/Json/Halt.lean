import GraphStack.Reading.Mismatch

/-!
# Where and why reading a JSON text stops

A reader is a function from the characters still to be read to a result and the characters left.
When it cannot go on it gives a `Halt`: the problem, the unread characters, and how many bytes
past their start it had already taken or looked at. `Halt.place` turns this into the line and the
column that the message shows; both count from the bytes read, so the column is 0 when the last
byte read was a line feed.
-/

namespace GraphStack.Json

inductive Problem
  | endInList
  | endInObject
  | endInString
  | endInValue
  | expectedColon
  | expectedListCommaOrEnd
  | expectedObjectCommaOrEnd
  | expectedIdent
  | expectedValue
  | invalidEscape
  | invalidNumber
  | numberOutOfRange
  | controlCharacter
  | keyNotString
  | loneSurrogate
  | unfinishedSurrogate
  | trailingComma
  | trailingCharacters
  | mismatch (m : Mismatch)
  deriving DecidableEq, Repr

def wording : Wording := ⟨"null", Layout.json⟩

namespace Problem

def message : Problem → String
  | endInList => "EOF while parsing a list"
  | endInObject => "EOF while parsing an object"
  | endInString => "EOF while parsing a string"
  | endInValue => "EOF while parsing a value"
  | expectedColon => "expected `:`"
  | expectedListCommaOrEnd => "expected `,` or `]`"
  | expectedObjectCommaOrEnd => "expected `,` or `\x7d`"
  | expectedIdent => "expected ident"
  | expectedValue => "expected value"
  | invalidEscape => "invalid escape"
  | invalidNumber => "invalid number"
  | numberOutOfRange => "number out of range"
  | controlCharacter => "control character (\\u0000-\\u001F) found while parsing a string"
  | keyNotString => "key must be a string"
  | loneSurrogate => "lone leading surrogate in hex escape"
  | unfinishedSurrogate => "unexpected end of hex escape"
  | trailingComma => "trailing comma"
  | trailingCharacters => "trailing characters"
  | mismatch m => m.message wording

end Problem

structure Halt where
  problem : Problem
  unread : List Char
  beyond : Nat
  deriving Repr

abbrev Step (α : Type) := Except Halt (α × List Char)

def Halt.here (problem : Problem) (unread : List Char) : Halt := ⟨problem, unread, 0⟩

/-- Stops at the next character, whose first byte counts as read; at the end nothing is left to
count. -/
def Halt.atNext (problem : Problem) (unread : List Char) : Halt :=
  ⟨problem, unread, if unread.isEmpty then 0 else 1⟩

def byteLength (cs : List Char) : Nat := cs.foldl (fun n c => n + c.utf8Size) 0

def Halt.bytesRead (h : Halt) (text : List Char) : Nat :=
  byteLength text - byteLength h.unread + h.beyond

structure Place where
  line : Nat
  column : Nat
  deriving DecidableEq, Repr

/-- The place after `bytes` bytes of the text, from a place `column` bytes into `line`. -/
def Place.after (line column : Nat) : List Char → Nat → Place
  | [], bytes => ⟨line, column + bytes⟩
  | c :: cs, bytes =>
    if bytes < c.utf8Size then ⟨line, column + bytes⟩
    else if c = '\n' then after (line + 1) 0 cs (bytes - c.utf8Size)
    else after line (column + c.utf8Size) cs (bytes - c.utf8Size)

def Halt.place (h : Halt) (text : List Char) : Place := Place.after 1 0 text (h.bytesRead text)

def Halt.message (h : Halt) (text : List Char) : String :=
  let place := h.place text
  h.problem.message ++ " at line " ++ toString place.line ++ " column " ++ toString place.column

def isSpace (c : Char) : Bool := c = ' ' || c = '\n' || c = '\t' || c = '\r'

def skipSpace (cs : List Char) : List Char := cs.dropWhile isSpace

theorem length_skipSpace_le (cs : List Char) : (skipSpace cs).length ≤ cs.length :=
  (List.dropWhile_sublist isSpace).length_le

end GraphStack.Json
