import GraphStack.Yaml.Failure
import GraphStack.Yaml.Gap

/-!
# Plain scalars

A plain scalar ends before a colon that a space, a line end or the end follows, before ` #`, before
a line that starts a document or ends one, in block style before a line indented less than the
margin, and in flow style before the flow indicators.
-/

namespace GraphStack.Yaml.Plain

def isFlowEnd (c : Char) : Bool := c = ',' || c = '[' || c = ']' || c = '\x7b' || c = '\x7d'

/-- A plain scalar can begin with a character that is no indicator, with a hyphen that no blank
follows, and in block style also with `?` or `:` where text follows. -/
def starts (inFlow : Bool) (c : Char) (rest : List Char) : Bool :=
  if c = '-' then !(rest.head?.any isBlank)
  else if c = '?' ∨ c = ':' then !inFlow && !atSpaceOrEnd rest
  else
    !isBlank c && !isBreak c && !isFlowEnd c
      && !(['#', '&', '*', '!', '|', '>', '\'', '"', '%', '@', '\x60'].contains c)

structure Result where
  text : List Char
  brokeLine : Bool
  deriving Repr

def finish (done : List Char) (gap : Gap) (ahead : Nat) (unread : List Char) :
    Step (Seen Result) :=
  .ok (⟨⟨done.reverse, gap.endsLine⟩, ahead⟩, unread)

/-- A colon that would be read differently with and without a space in flow style. -/
def isFlowColon (inFlow : Bool) (c : Char) (rest : List Char) : Bool :=
  inFlow && c = ':' && rest.head?.any fun d => d = '?' || isFlowEnd d

def endsBefore (inFlow : Bool) (c : Char) (rest : List Char) : Bool :=
  (c = ':' && atSpaceOrEnd rest) || (inFlow && isFlowEnd c)

/-- The scalar ends before this word, which starts a comment or is a document indicator. -/
def endsAtWord (gap : Gap) (word : List Char) : Bool :=
  (gap.atLineStart && atDocumentIndicator word) || (!gap.isNothing && word.head? == some '#')

/-- `since` counts the characters from the start of the last word on. -/
def readFrom (inFlow : Bool) (margin : Int) (done : List Char) (gap : Gap) (since : Nat) :
    List Char → Step (Seen Result)
  | [] => finish done gap 1 []
  | c :: cs =>
    if joinsNext c cs then readFrom inFlow margin done gap (since + 1) cs
    else if isBreak c then readFrom inFlow margin done (gap.lineEnd c) (since + 1) cs
    else if isBlank c then
      if c = '\t' ∧ gap.before margin then
        .error ⟨.tabBeforeText, .plainScalar, c :: cs, lookAhead 1 since⟩
      else readFrom inFlow margin done (gap.blank c) (since + 1) cs
    else if !inFlow && gap.before margin then finish done gap (lookAhead 1 since) (c :: cs)
    else
      let since := if gap.isNothing then since else 0
      if endsAtWord gap (c :: cs) || endsBefore inFlow c cs then
        finish done gap (lookAhead 2 since) (c :: cs)
      else if isFlowColon inFlow c cs then
        .error ⟨.unexpectedColon, .plainScalar, c :: cs, lookAhead 2 since⟩
      else readFrom inFlow margin (c :: (gap.text ++ done)) .nothing (since + 1) cs

def read (inFlow : Bool) (margin : Int) (cs : List Char) : Step (Seen Result) :=
  readFrom inFlow margin [] .nothing 0 cs

end GraphStack.Yaml.Plain
