import GraphStack.Yaml.Block
import GraphStack.Yaml.Intake
import GraphStack.Yaml.Plain
import GraphStack.Yaml.Quoted
import GraphStack.Yaml.Tag

/-!
# Tokens of a YAML text

`Tokens.ofText` splits a text into tokens. Indentation becomes tokens too: a block collection is
opened where its first entry is indented deeper than the collection around it, and closed where a
line is indented less.

A mapping key need not be announced: a scalar, an alias or a flow collection is one if a colon
follows it on the same line within 1024 bytes. Such a `PossibleKey` is remembered with the number
of tokens before it, so that its tokens are inserted there when the colon is met. When the text
cannot be split any further, the tokens from the first possible key on are unsettled and are not
given out. Splitting ends early where it has to look at characters behind the readable text.
-/

namespace GraphStack.Yaml

inductive Style
  | plain
  | single
  | double
  | literal
  | folded
  deriving DecidableEq, Repr

namespace Token

inductive Kind
  | directive (d : Directive)
  | documentStart
  | documentEnd
  | streamEnd
  | sequenceStart
  | mappingStart
  | blockEnd
  | flowSequenceStart
  | flowSequenceEnd
  | flowMappingStart
  | flowMappingEnd
  | blockEntry
  | flowEntry
  | key
  | value
  | aliasOf (name : String)
  | anchor (name : String)
  | tag (t : Tag)
  | scalar (text : String) (style : Style)
  deriving DecidableEq, Repr

end Token

structure Token where
  kind : Token.Kind
  start : Mark
  stop : Mark
  deriving DecidableEq, Repr

/-- The tokens of a text up to its end, at this mark, or up to where it cannot be read. -/
structure Tokens where
  list : List Token
  ending : Except Failure Mark

/-- A key that may begin behind so many tokens. Where it is required, nothing else can stand. -/
structure PossibleKey where
  required : Bool
  number : Nat
  mark : Mark
  deriving Repr

def PossibleKey.isStale (k : PossibleKey) (m : Mark) : Bool :=
  k.mark.line < m.line || k.mark.index + 1024 < m.index

/-- How far a text is split into tokens. The lists have the last or the innermost one first. -/
structure Scan where
  cursor : Cursor
  forbidden : Option Nat
  tokens : List Token
  /-- The columns of the open block collections. -/
  indents : List Nat
  /-- The possible key in the innermost flow collection, or outside of them. -/
  key : Option PossibleKey
  /-- The possible keys around the open flow collections. -/
  outerKeys : List (Option PossibleKey)
  /-- An unannounced key, or an entry of a block collection, may begin here. -/
  keyAllowed : Bool
  ended : Bool

namespace Scan

def ofIntake (i : Intake) : Scan := ⟨.ofText i.readable, i.forbidden, [], [], none, [], true, false⟩

def inFlow (s : Scan) : Bool := !s.outerKeys.isEmpty

def column (s : Scan) : Nat := s.cursor.mark.column

def indent (s : Scan) : Int :=
  match s.indents with
  | [] => -1
  | n :: _ => n

def failHere (s : Scan) (problem : Problem) : Failure := .malformed problem s.cursor.mark none

def missingColon (s : Scan) (k : PossibleKey) : Failure :=
  .malformed .expectedColon s.cursor.mark (some (.simpleKey, k.mark))

def push (s : Scan) (t : Token) : Scan := { s with tokens := t :: s.tokens }

def take (s : Scan) (kind : Token.Kind) (n : Nat) : Scan :=
  let behind := s.cursor.skip n
  { s.push ⟨kind, s.cursor.mark, behind.mark⟩ with cursor := behind }

/-- Looking at `n` characters of the unread text fails if it has fewer and ends at a forbidden
one. -/
def blocked? (s : Scan) (n : Nat) (unread : List Char) : Option Failure :=
  match s.forbidden with
  | none => none
  | some offset => if (unread.take n).length < n then some (.controlCharacter offset) else none

def look (s : Scan) (n : Nat) : Except Failure Scan :=
  match s.blocked? n s.cursor.rest with
  | some e => .error e
  | none => .ok s

def readToken {α : Type} (s : Scan) (n : Nat) (read : List Char → Step (Seen α))
    (kind : α → Token.Kind) : Except Failure Scan :=
  let start := s.cursor.mark
  let inner := s.cursor.skip n
  match read inner.rest with
  | .error h => .error ((s.blocked? h.ahead h.unread).getD (h.failure inner start))
  | .ok (a, rest) =>
    match s.blocked? a.ahead rest with
    | some e => .error e
    | none =>
      let behind := inner.upTo rest
      .ok { s.push ⟨kind a.value, start, behind.mark⟩ with cursor := behind }

def dropKey (s : Scan) : Except Failure Scan :=
  match s.key with
  | none => .ok s
  | some k => if k.required then .error (s.missingColon k) else .ok { s with key := none }

def offerKey (s : Scan) : Except Failure Scan :=
  if s.keyAllowed then
    match s.dropKey with
    | .error e => .error e
    | .ok s =>
      let required := !s.inFlow && s.indent == (s.column : Int)
      .ok { s with key := some ⟨required, s.tokens.length, s.cursor.mark⟩ }
  else .ok s

def dropStaleKeys (s : Scan) : Except Failure Scan :=
  let m := s.cursor.mark
  match (s.key :: s.outerKeys).findSome? (·.filter fun k => k.isStale m && k.required) with
  | some k => .error (s.missingColon k)
  | none =>
    let fresh (k : Option PossibleKey) := k.filter (!·.isStale m)
    .ok { s with key := fresh s.key, outerKeys := s.outerKeys.map fresh }

def settled (s : Scan) : List Token :=
  let keys := (s.key :: s.outerKeys).filterMap (·.map PossibleKey.number)
  s.tokens.reverse.take (keys.foldl min s.tokens.length)

def closeBlocks (s : Scan) (column : Int) : Scan :=
  if s.inFlow then s
  else
    let deeper (n : Nat) : Bool := column < n
    let closed := (s.indents.takeWhile deeper).map fun _ =>
      (⟨.blockEnd, s.cursor.mark, s.cursor.mark⟩ : Token)
    { s with indents := s.indents.dropWhile deeper, tokens := closed ++ s.tokens }

def openBlock (s : Scan) (kind : Token.Kind) : Scan :=
  if s.indent < s.column then
    { s.push ⟨kind, s.cursor.mark, s.cursor.mark⟩ with indents := s.column :: s.indents }
  else s

def insertKey (s : Scan) (k : PossibleKey) : Scan :=
  let since := s.tokens.take (s.tokens.length - k.number)
  let before := s.tokens.drop (s.tokens.length - k.number)
  let key : Token := ⟨.key, k.mark, k.mark⟩
  if !s.inFlow && s.indent < k.mark.column then
    { s with
      tokens := since ++ key :: ⟨.mappingStart, k.mark, k.mark⟩ :: before
      indents := k.mark.column :: s.indents }
  else { s with tokens := since ++ key :: before }

/-- Passes blanks, comments and line ends, and a byte order mark at the start of a line. A tab is
passed where no key may begin. -/
def toToken (inFlow keyAllowed comment : Bool) (m : Mark) : List Char → Bool × Cursor
  | [] => (keyAllowed, ⟨[], m⟩)
  | c :: cs =>
    let behind := m.past c cs
    if isBreak c then toToken inFlow (keyAllowed || !inFlow) false behind cs
    else if comment then toToken inFlow keyAllowed true behind cs
    else if c = ' ' || (c = '\t' && (inFlow || !keyAllowed)) then
      toToken inFlow keyAllowed false behind cs
    else if c = byteOrderMark && m.column = 0 then toToken inFlow keyAllowed false behind cs
    else if c = '#' then toToken inFlow keyAllowed true behind cs
    else (keyAllowed, ⟨c :: cs, m⟩)

def skipToToken (s : Scan) : Scan :=
  let (keyAllowed, cursor) := toToken s.inFlow s.keyAllowed false s.cursor.mark s.cursor.rest
  { s with keyAllowed, cursor }

/-- The end of the text counts as the start of a line. -/
def finish (s : Scan) : Except Failure Scan :=
  let m := s.cursor.mark
  let m : Mark := if m.column = 0 then m else ⟨m.index, m.line + 1, 0⟩
  let s := ({ s with cursor := ⟨[], m⟩ } : Scan).closeBlocks (-1)
  match s.dropKey with
  | .error e => .error e
  | .ok s => .ok { s with keyAllowed := false, ended := true }

/-- A directive from behind its `%` on, with the rest of its line. The character after the first of
the line end is looked at. -/
def readDirective (cs : List Char) : Step (Seen Directive) :=
  let name := cs.takeWhile isWordChar
  match Directive.readNamed name (cs.dropWhile isWordChar) with
  | .error e => .error e
  | .ok (d, rest) =>
    let rest := Block.dropComment rest
    let behind := Block.dropLineEnd rest
    if atBreakOrEnd rest then .ok (⟨d, 2 - (rest.length - behind.length)⟩, behind)
    else .error ⟨.expectedCommentOrBreak, .directive, rest, 1⟩

def leaveBlocks (s : Scan) : Except Failure Scan :=
  match (s.closeBlocks (-1)).dropKey with
  | .error e => .error e
  | .ok s => .ok { s with keyAllowed := false }

def directive (s : Scan) : Except Failure Scan :=
  match s.leaveBlocks with
  | .error e => .error e
  | .ok s => s.readToken 1 readDirective .directive

def documentIndicator (s : Scan) (kind : Token.Kind) : Except Failure Scan :=
  match s.leaveBlocks with
  | .error e => .error e
  | .ok s => .ok (s.take kind 3)

def openFlow (s : Scan) (kind : Token.Kind) : Except Failure Scan :=
  match s.offerKey with
  | .error e => .error e
  | .ok s =>
    let inner := { s with key := none, outerKeys := s.key :: s.outerKeys, keyAllowed := true }
    .ok (inner.take kind 1)

def closeFlow (s : Scan) (kind : Token.Kind) : Except Failure Scan :=
  match s.dropKey with
  | .error e => .error e
  | .ok s =>
    let outer := match s.outerKeys with
      | [] => s
      | k :: ks => { s with key := k, outerKeys := ks }
    .ok (({ outer with keyAllowed := false } : Scan).take kind 1)

def flowEntry (s : Scan) : Except Failure Scan :=
  match s.dropKey with
  | .error e => .error e
  | .ok s => .ok (({ s with keyAllowed := true } : Scan).take .flowEntry 1)

/-- A hyphen in flow style is left for the grammar to refuse. -/
def blockEntry (s : Scan) : Except Failure Scan :=
  if !s.inFlow && !s.keyAllowed then .error (s.failHere .entryNotAllowed)
  else
    match (if s.inFlow then s else s.openBlock .sequenceStart).dropKey with
    | .error e => .error e
    | .ok s => .ok (({ s with keyAllowed := true } : Scan).take .blockEntry 1)

def announcedKey (s : Scan) : Except Failure Scan :=
  if !s.inFlow && !s.keyAllowed then .error (s.failHere .keyNotAllowed)
  else
    match (if s.inFlow then s else s.openBlock .mappingStart).dropKey with
    | .error e => .error e
    | .ok s => .ok (({ s with keyAllowed := !s.inFlow } : Scan).take .key 1)

def value (s : Scan) : Except Failure Scan :=
  match s.key with
  | some k => .ok ({ s.insertKey k with key := none, keyAllowed := false }.take .value 1)
  | none =>
    if s.inFlow then .ok (({ s with keyAllowed := false } : Scan).take .value 1)
    else if !s.keyAllowed then .error (s.failHere .valueNotAllowed)
    else .ok ({ s.openBlock .mappingStart with keyAllowed := true }.take .value 1)

def keyToken {α : Type} (s : Scan) (n : Nat) (read : List Char → Step (Seen α))
    (kind : α → Token.Kind) : Except Failure Scan :=
  match s.offerKey with
  | .error e => .error e
  | .ok s => ({ s with keyAllowed := false } : Scan).readToken n read kind

def quoted (s : Scan) (read : List Char → Step (Seen (List Char))) (style : Style) :
    Except Failure Scan :=
  s.keyToken 1 read fun text => .scalar (String.ofList text) style

/-- After a plain scalar that was left over a line end, a key may begin. -/
def plain (s : Scan) : Except Failure Scan :=
  match s.offerKey with
  | .error e => .error e
  | .ok s =>
    match Plain.read s.inFlow (s.indent + 1) s.cursor.rest with
    | .error h =>
      .error ((s.blocked? h.ahead h.unread).getD (h.failure s.cursor s.cursor.mark))
    | .ok (r, rest) =>
      match s.blocked? r.ahead rest with
      | some e => .error e
      | none =>
        let behind := s.cursor.upTo rest
        let text := String.ofList r.value.text
        let t : Token := ⟨.scalar text .plain, s.cursor.mark, behind.mark⟩
        .ok { s.push t with cursor := behind, keyAllowed := r.value.brokeLine }

def block (s : Scan) (folded : Bool) : Except Failure Scan :=
  match s.dropKey with
  | .error e => .error e
  | .ok s =>
    let style := if folded then Style.folded else .literal
    let read := peeking (Block.read folded s.indent)
    ({ s with keyAllowed := true } : Scan).readToken 1 read fun text =>
      .scalar (String.ofList text) style

def tokenAt (s : Scan) (c : Char) (cs : List Char) : Except Failure Scan :=
  if s.column = 0 ∧ c = '%' then s.directive
  else if s.column = 0 ∧ atDocumentIndicator (c :: cs) then
    s.documentIndicator (if c = '-' then .documentStart else .documentEnd)
  else if c = '[' then s.openFlow .flowSequenceStart
  else if c = '\x7b' then s.openFlow .flowMappingStart
  else if c = ']' then s.closeFlow .flowSequenceEnd
  else if c = '\x7d' then s.closeFlow .flowMappingEnd
  else if c = ',' then s.flowEntry
  else if c = '-' ∧ atSpaceOrEnd cs then s.blockEntry
  else if c = '?' ∧ (s.inFlow ∨ atSpaceOrEnd cs) then s.announcedKey
  else if c = ':' ∧ (s.inFlow ∨ atSpaceOrEnd cs) then s.value
  else if c = '*' then s.keyToken 1 (peeking (readAnchor .aliasName)) .aliasOf
  else if c = '&' then s.keyToken 1 (peeking (readAnchor .anchor)) .anchor
  else if c = '!' then s.keyToken 0 (peeking (Tag.read s.inFlow)) .tag
  else if c = '|' ∧ !s.inFlow then s.block false
  else if c = '>' ∧ !s.inFlow then s.block true
  else if c = '\'' then s.quoted (Quoted.readSingle [] .nothing 0) .single
  else if c = '"' then s.quoted (Quoted.readDouble [] .nothing 0) .double
  else if Plain.starts s.inFlow c cs then s.plain
  else .error (.malformed .noTokenStarts s.cursor.mark (some (.nextToken, s.cursor.mark)))

/-- A document indicator has four characters, so as many are looked at before a token is read. -/
def next (s : Scan) : Except Failure Scan := do
  let s ← s.skipToToken.look 1
  let s ← s.dropStaleKeys
  let s ← (s.closeBlocks s.column).look 4
  match s.cursor.rest with
  | [] => s.finish
  | c :: cs => s.tokenAt c cs

/-- Up to `steps` further tokens. `before` is the scan before the last token, whose settled tokens
were given out. -/
def run (steps : Nat) (before s : Scan) : Tokens :=
  match s.dropStaleKeys with
  | .error e => ⟨before.settled, .error e⟩
  | .ok s =>
    if s.ended then ⟨s.tokens.reverse, .ok s.cursor.mark⟩
    else
      match steps with
      | 0 => ⟨s.settled, .ok s.cursor.mark⟩
      | steps + 1 =>
        match s.next with
        | .error e => ⟨s.settled, .error e⟩
        | .ok t => run steps s t

end Scan

/-- Every token takes a character, and one more step meets the end. -/
def Tokens.ofText (text : List Char) : Tokens :=
  let i := Intake.ofText text
  let s := Scan.ofIntake i
  Scan.run (i.readable.length + 1) s s

end GraphStack.Yaml
