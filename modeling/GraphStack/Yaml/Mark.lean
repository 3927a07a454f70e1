/-!
# Places in a YAML text

A `Mark` counts the bytes, the lines and the characters of the line before a place. `Cursor` is
the unread rest of a text with its mark. Lines end at a line feed, a carriage return, both in this
order, U+0085, U+2028 or U+2029; the last two are kept where a line end becomes text, the others
become a line feed.
-/

namespace GraphStack.Yaml

structure Mark where
  index : Nat
  line : Nat
  column : Nat
  deriving DecidableEq, Repr

def Mark.start : Mark := ⟨0, 0, 0⟩

def Mark.atStart (m : Mark) : Bool := m.line = 0 && m.column = 0

def Mark.sameLineAndColumn (m n : Mark) : Bool := m.line = n.line && m.column = n.column

/-- Lines and columns are shown from 1 on. -/
def Mark.text (m : Mark) : String :=
  "line " ++ toString (m.line + 1) ++ " column " ++ toString (m.column + 1)

def nextLine : Char := '\u0085'

def lineSeparator : Char := '\u2028'

def paragraphSeparator : Char := '\u2029'

def byteOrderMark : Char := '\ufeff'

def isBreak (c : Char) : Bool :=
  c = '\n' || c = '\r' || c = nextLine || c = lineSeparator || c = paragraphSeparator

def isBlank (c : Char) : Bool := c = ' ' || c = '\t'

/-- A carriage return that the line feed after it completes. -/
def joinsNext (c : Char) (rest : List Char) : Bool := c = '\r' && rest.head? == some '\n'

/-- What a line end contributes to a text. -/
def keptBreak (c : Char) : Char :=
  if c = lineSeparator ∨ c = paragraphSeparator then c else '\n'

def atBreakOrEnd : List Char → Bool
  | [] => true
  | c :: _ => isBreak c

def atSpaceOrEnd : List Char → Bool
  | [] => true
  | c :: _ => isBlank c || isBreak c

def isWordChar (c : Char) : Bool := c.isAlphanum || c = '_' || c = '-'

/-- Three hyphens or three points and then a space, a line end or the end of the text. -/
def atDocumentIndicator : List Char → Bool
  | '-' :: '-' :: '-' :: rest => atSpaceOrEnd rest
  | '.' :: '.' :: '.' :: rest => atSpaceOrEnd rest
  | _ => false

def Mark.past (m : Mark) (c : Char) (rest : List Char) : Mark :=
  if isBreak c && !joinsNext c rest then ⟨m.index + c.utf8Size, m.line + 1, 0⟩
  else ⟨m.index + c.utf8Size, m.line, m.column + 1⟩

structure Cursor where
  rest : List Char
  mark : Mark
  deriving Repr

namespace Cursor

def advance : Nat → List Char → Mark → Cursor
  | 0, cs, m => ⟨cs, m⟩
  | _ + 1, [], m => ⟨[], m⟩
  | n + 1, c :: cs, m => advance n cs (m.past c cs)

def skip (n : Nat) (c : Cursor) : Cursor := advance n c.rest c.mark

def upTo (c : Cursor) (rest : List Char) : Cursor := c.skip (c.rest.length - rest.length)

def ofText (text : List Char) : Cursor := ⟨text, .start⟩

theorem rest_advance (n : Nat) (cs : List Char) (m : Mark) : (advance n cs m).rest = cs.drop n := by
  induction n generalizing cs m with
  | zero => rfl
  | succ n ih => cases cs <;> simp [advance, ih]

@[simp] theorem rest_skip (n : Nat) (c : Cursor) : (c.skip n).rest = c.rest.drop n :=
  rest_advance n c.rest c.mark

theorem rest_upTo {c : Cursor} {rest : List Char} (h : rest <:+ c.rest) :
    (c.upTo rest).rest = rest := by
  obtain ⟨read, hr⟩ := h
  simp [upTo, ← hr]

end Cursor

end GraphStack.Yaml
