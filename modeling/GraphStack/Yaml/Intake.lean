/-!
# How far a text can be read

A text is taken in by portions of 16384 bytes; a character that does not fit into a portion opens
the next one. A portion with a character that no YAML text may hold is not taken in: only what
stands before the portion is readable, and looking further meets the forbidden character.
-/

namespace GraphStack.Yaml

structure Intake where
  readable : List Char
  /-- The offset of the forbidden character that ends the readable text. -/
  forbidden : Option Nat
  deriving Repr

namespace Intake

def isAllowed (c : Char) : Bool :=
  c = '\t' || c = '\n' || c = '\r' || (' ' ≤ c && c ≤ '~') || c = '\u0085'
    || ('\u00a0' ≤ c && c ≤ '\ufffd') || 0x10000 ≤ c.toNat

def portionSize : Nat := 16384

/-- A place in a text, by the bytes and by the characters before it, with the bytes that its portion
still takes and the characters before that portion. -/
structure Place where
  offset : Nat
  number : Nat
  room : Nat
  portion : Nat
  deriving Repr

namespace Place

def start : Place := ⟨0, 0, portionSize, 0⟩

def opening (p : Place) (size : Nat) : Place :=
  if size ≤ p.room then p else { p with room := portionSize, portion := p.number }

def past (p : Place) (size : Nat) : Place :=
  { p with offset := p.offset + size, number := p.number + 1, room := p.room - size }

end Place

def forbidden? (p : Place) : List Char → Option Place
  | [] => none
  | c :: cs =>
    let p := p.opening c.utf8Size
    if isAllowed c then forbidden? (p.past c.utf8Size) cs else some p

def ofText (text : List Char) : Intake :=
  match forbidden? .start text with
  | none => ⟨text, none⟩
  | some p => ⟨text.take p.portion, some p.offset⟩

end Intake
end GraphStack.Yaml
