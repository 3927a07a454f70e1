import GraphStack.Yaml.Mark

/-!
# Why a YAML text cannot be read

A `Problem` has its message, and often an `Activity` that was under way and the mark where that
began. The message of a `Failure` shows both marks, a mark at the very start of the text excepted;
the mark of the activity is shown only where it differs from the mark of the problem.
-/

namespace GraphStack.Yaml

inductive Activity
  | nextToken
  | simpleKey
  | directive
  | versionDirective
  | tagDirectiveLine
  | scanTagHandle
  | parseTagHandle
  | tagDirectiveUri
  | tag
  | tagUri
  | anchor
  | aliasName
  | blockScalar
  | quotedScalar
  | quotedEscape
  | plainScalar
  | node
  | blockNode
  | flowNode
  | blockCollection
  | blockMapping
  | flowSequence
  | flowMapping
  deriving DecidableEq, Repr

inductive Problem
  | noTokenStarts
  | expectedColon
  | entryNotAllowed
  | keyNotAllowed
  | valueNotAllowed
  | expectedDirectiveName
  | notAlphabetical
  | unknownDirective
  | expectedCommentOrBreak
  | expectedVersion
  | expectedDigitOrPoint
  | longVersion
  | expectedSpace
  | expectedSpaceOrBreak
  | expectedExclamation
  | expectedClosingAngle
  | expectedTagUri
  | expectedEscapedOctet
  | wrongLeadingOctet
  | wrongTrailingOctet
  | expectedWord
  | zeroIndentation
  | tabInIndentation
  | tabBeforeText
  | documentIndicator
  | endOfStream
  | unknownEscape
  | expectedHexadecimal
  | invalidCharacterCode
  | unexpectedColon
  | expectedDocumentStart
  | duplicateVersion
  | incompatibleVersion
  | duplicateTagDirective
  | undefinedHandle
  | expectedContent
  | expectedHyphen
  | expectedKey
  | expectedCommaOrBracket
  | expectedCommaOrBrace
  deriving DecidableEq, Repr

inductive Failure
  | controlCharacter (offset : Nat)
  | malformed (problem : Problem) (mark : Mark) (activity : Option (Activity × Mark))
  | unknownAnchor (mark : Mark)
  deriving DecidableEq, Repr

namespace Activity

def message : Activity → String
  | nextToken => "while scanning for the next token"
  | simpleKey => "while scanning a simple key"
  | directive => "while scanning a directive"
  | versionDirective => "while scanning a %YAML directive"
  | tagDirectiveLine => "while scanning a %TAG directive"
  | scanTagHandle => "while scanning a tag directive"
  | parseTagHandle => "while parsing a tag directive"
  | tagDirectiveUri => "while parsing a %TAG directive"
  | tag => "while scanning a tag"
  | tagUri => "while parsing a tag"
  | anchor => "while scanning an anchor"
  | aliasName => "while scanning an alias"
  | blockScalar => "while scanning a block scalar"
  | quotedScalar => "while scanning a quoted scalar"
  | quotedEscape => "while parsing a quoted scalar"
  | plainScalar => "while scanning a plain scalar"
  | node => "while parsing a node"
  | blockNode => "while parsing a block node"
  | flowNode => "while parsing a flow node"
  | blockCollection => "while parsing a block collection"
  | blockMapping => "while parsing a block mapping"
  | flowSequence => "while parsing a flow sequence"
  | flowMapping => "while parsing a flow mapping"

end Activity

namespace Problem

def message : Problem → String
  | noTokenStarts => "found character that cannot start any token"
  | expectedColon => "could not find expected ':'"
  | entryNotAllowed => "block sequence entries are not allowed in this context"
  | keyNotAllowed => "mapping keys are not allowed in this context"
  | valueNotAllowed => "mapping values are not allowed in this context"
  | expectedDirectiveName => "could not find expected directive name"
  | notAlphabetical => "found unexpected non-alphabetical character"
  | unknownDirective => "found unknown directive name"
  | expectedCommentOrBreak => "did not find expected comment or line break"
  | expectedVersion => "did not find expected version number"
  | expectedDigitOrPoint => "did not find expected digit or '.' character"
  | longVersion => "found extremely long version number"
  | expectedSpace => "did not find expected whitespace"
  | expectedSpaceOrBreak => "did not find expected whitespace or line break"
  | expectedExclamation => "did not find expected '!'"
  | expectedClosingAngle => "did not find the expected '>'"
  | expectedTagUri => "did not find expected tag URI"
  | expectedEscapedOctet => "did not find URI escaped octet"
  | wrongLeadingOctet => "found an incorrect leading UTF-8 octet"
  | wrongTrailingOctet => "found an incorrect trailing UTF-8 octet"
  | expectedWord => "did not find expected alphabetic or numeric character"
  | zeroIndentation => "found an indentation indicator equal to 0"
  | tabInIndentation => "found a tab character where an indentation space is expected"
  | tabBeforeText => "found a tab character that violates indentation"
  | documentIndicator => "found unexpected document indicator"
  | endOfStream => "found unexpected end of stream"
  | unknownEscape => "found unknown escape character"
  | expectedHexadecimal => "did not find expected hexadecimal number"
  | invalidCharacterCode => "found invalid Unicode character escape code"
  | unexpectedColon => "found unexpected ':'"
  | expectedDocumentStart => "did not find expected <document start>"
  | duplicateVersion => "found duplicate %YAML directive"
  | incompatibleVersion => "found incompatible YAML document"
  | duplicateTagDirective => "found duplicate %TAG directive"
  | undefinedHandle => "found undefined tag handle"
  | expectedContent => "did not find expected node content"
  | expectedHyphen => "did not find expected '-' indicator"
  | expectedKey => "did not find expected key"
  | expectedCommaOrBracket => "did not find expected ',' or ']'"
  | expectedCommaOrBrace => "did not find expected ',' or '\x7d'"

end Problem

namespace Failure

def placed (text : String) (m : Mark) : String :=
  if m.atStart then text else text ++ " at " ++ m.text

def message : Failure → String
  | controlCharacter offset =>
    "control characters are not allowed"
      ++ (if offset = 0 then "" else " at position " ++ toString offset)
  | malformed problem mark activity =>
    placed problem.message mark ++
      match activity with
      | none => ""
      | some (a, m) =>
        ", " ++ (if m.sameLineAndColumn mark then a.message else placed a.message m)
  | unknownAnchor mark => placed "unknown anchor" mark

/-- A forbidden character is found when a portion is taken in, which is no place in the text. -/
def mark : Failure → Mark
  | controlCharacter _ => .start
  | malformed _ mark _ => mark
  | unknownAnchor mark => mark

end Failure

/-- Stops a reader of characters: the problem, the activity, what is unread at the problem, and how
many of the unread characters were looked at. -/
structure Halt where
  problem : Problem
  activity : Activity
  unread : List Char
  ahead : Nat
  deriving Repr

abbrev Step (α : Type) := Except Halt (α × List Char)

structure Seen (α : Type) where
  value : α
  ahead : Nat
  deriving Repr

/-- A reader that looks at the next character to see that it is done. -/
def peeking {α : Type} (read : List Char → Step α) (cs : List Char) : Step (Seen α) :=
  match read cs with
  | .error e => .error e
  | .ok (a, rest) => .ok (⟨a, 1⟩, rest)

/-- How many characters are looked at in the midst of a word, where `least` are needed here and four
were looked at `since` characters ago, at the start of the word. -/
def lookAhead (least since : Nat) : Nat := max least (4 - since)

def Halt.failure (h : Halt) (c : Cursor) (start : Mark) : Failure :=
  .malformed h.problem (c.upTo h.unread).mark (some (h.activity, start))

end GraphStack.Yaml
