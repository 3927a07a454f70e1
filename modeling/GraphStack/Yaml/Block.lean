import GraphStack.Yaml.Failure

/-!
# Block scalars

A block scalar is literal or folded. Its header may say how far its lines are indented and what
becomes of the line ends after its last line: by default one is kept, `-` drops them and `+` keeps
them all. Without an indicator the widest of the leading lines up to the first with text gives the
indentation.
-/

namespace GraphStack.Yaml.Block

inductive Chomp
  | strip
  | clip
  | keep
  deriving DecidableEq, Repr

structure Header where
  chomp : Chomp
  /-- How much deeper than the parent the lines are indented, where the header says so. -/
  increment : Option Nat
  deriving DecidableEq, Repr

def chompOf? : Char → Option Chomp
  | '+' => some .keep
  | '-' => some .strip
  | _ => none

def readIncrement (cs : List Char) : Step (Option Nat) :=
  match cs with
  | [] => .ok (none, [])
  | c :: rest =>
    if c = '0' then .error ⟨.zeroIndentation, .blockScalar, cs, 1⟩
    else if c.isDigit then .ok (some (c.toNat - '0'.toNat), rest)
    else .ok (none, cs)

def readChomp (cs : List Char) : Chomp × List Char :=
  match cs with
  | [] => (.clip, [])
  | c :: rest =>
    match chompOf? c with
    | some chomp => (chomp, rest)
    | none => (.clip, cs)

/-- The two indicators, in either order. -/
def readIndicators (cs : List Char) : Step Header :=
  match cs.head?.bind chompOf? with
  | some chomp =>
    match readIncrement cs.tail with
    | .error e => .error e
    | .ok (increment, rest) => .ok (⟨chomp, increment⟩, rest)
  | none =>
    match readIncrement cs with
    | .error e => .error e
    | .ok (none, rest) => .ok (⟨.clip, none⟩, rest)
    | .ok (some n, rest) =>
      let (chomp, rest) := readChomp rest
      .ok (⟨chomp, some n⟩, rest)

def dropComment (cs : List Char) : List Char :=
  match cs.dropWhile isBlank with
  | '#' :: rest => rest.dropWhile (!isBreak ·)
  | rest => rest

def dropLineEnd : List Char → List Char
  | [] => []
  | c :: cs => if joinsNext c cs then cs.tail else if isBreak c then cs else c :: cs

def readHeader (cs : List Char) : Step Header :=
  match readIndicators cs with
  | .error e => .error e
  | .ok (header, rest) =>
    let rest := dropComment rest
    if atBreakOrEnd rest then .ok (header, dropLineEnd rest)
    else .error ⟨.expectedCommentOrBreak, .blockScalar, rest, 1⟩

/-- What is known of a scalar before one of its lines: the text so far, the end of the last line
with text, the ends of the empty lines since then, and whether that last line began with a blank.
The lists are in reverse. -/
structure Lines where
  done : List Char
  lineEnd : Option Char
  empty : List Char
  indented : Bool
  deriving Repr

namespace Lines

/-- Folding joins two lines that do not begin with a blank: with a space if no line is empty between
them, by the ends of the empty lines otherwise. -/
def startLine (folded : Bool) (b : Lines) (c : Char) : Lines :=
  let kept :=
    if folded && b.lineEnd == some '\n' && !b.indented && !isBlank c then
      if b.empty.isEmpty then [' '] else b.empty
    else b.empty ++ b.lineEnd.toList
  ⟨kept ++ b.done, none, [], isBlank c⟩

def push (b : Lines) (c : Char) : Lines := { b with done := c :: b.done }

def finish (chomp : Chomp) (b : Lines) : List Char :=
  match chomp with
  | .strip => b.done.reverse
  | .clip => (b.lineEnd.toList ++ b.done).reverse
  | .keep => (b.empty ++ b.lineEnd.toList ++ b.done).reverse

end Lines

/-- The lines at an indentation. `column` counts the spaces of a line as long as its text has not
begun. -/
def readLines (folded : Bool) (indent : Nat) (b : Lines) (column : Option Nat) :
    List Char → Step Lines
  | [] => .ok (b, [])
  | c :: cs =>
    if joinsNext c cs then readLines folded indent b column cs
    else
      match column with
      | none =>
        if isBreak c then
          readLines folded indent { b with lineEnd := some (keptBreak c) } (some 0) cs
        else readLines folded indent (b.push c) none cs
      | some k =>
        if c = ' ' ∧ k < indent then readLines folded indent b (some (k + 1)) cs
        else if c = '\t' ∧ k < indent then .error ⟨.tabInIndentation, .blockScalar, c :: cs, 1⟩
        else if isBreak c then
          readLines folded indent { b with empty := keptBreak c :: b.empty } (some 0) cs
        else if k = indent then readLines folded indent ((b.startLine folded c).push c) none cs
        else .ok (b, c :: cs)

/-- The lines before the first text, where no indentation is given. -/
structure Lead where
  widest : Nat
  column : Nat
  empty : List Char
  deriving Repr

def readLead (l : Lead) : List Char → Step Lead
  | [] => .ok ({ l with widest := max l.widest l.column }, [])
  | c :: cs =>
    if c = ' ' then readLead { l with column := l.column + 1 } cs
    else if c = '\t' then .error ⟨.tabInIndentation, .blockScalar, c :: cs, 1⟩
    else if joinsNext c cs then readLead l cs
    else if isBreak c then
      readLead ⟨max l.widest l.column, 0, keptBreak c :: l.empty⟩ cs
    else .ok ({ l with widest := max l.widest l.column }, c :: cs)

/-- The text of a block scalar from after its first character on, below a parent with this
indentation; the top level has -1. -/
def read (folded : Bool) (parent : Int) (cs : List Char) : Step (List Char) :=
  match readHeader cs with
  | .error e => .error e
  | .ok (header, rest) =>
    let lines := match header.increment with
      | some n => readLines folded (parent.toNat + n) ⟨[], none, [], false⟩ (some 0) rest
      | none =>
        match readLead ⟨0, 0, []⟩ rest with
        | .error e => .error e
        | .ok (lead, rest) =>
          let indent := max lead.widest (max (parent + 1).toNat 1)
          readLines folded indent ⟨[], none, lead.empty, false⟩ (some lead.column) rest
    match lines with
    | .error e => .error e
    | .ok (b, rest) => .ok (b.finish header.chomp, rest)

end GraphStack.Yaml.Block
