import GraphStack.Yaml.Token

/-!
# Events of a YAML document

A document is a sequence of events: scalars, aliases, and the starts and ends of sequences and
mappings. Before a node may stand an anchor and a tag, whose handle stands for a prefix that the
document declares.
-/

namespace GraphStack.Yaml

structure Scalar where
  text : String
  tag : Option String
  style : Style
  deriving DecidableEq, Repr

inductive Event
  | aliasOf (name : String)
  | scalar (anchor : Option String) (s : Scalar)
  | sequenceStart (anchor : Option String)
  | sequenceEnd
  | mappingStart (anchor : Option String)
  | mappingEnd
  deriving DecidableEq, Repr

namespace Tokens

def peek (ts : Tokens) : Except Failure Token :=
  match ts.list with
  | t :: _ => .ok t
  | [] => ts.ending.map fun m => ⟨.streamEnd, m, m⟩

def skip (ts : Tokens) : Tokens := ⟨ts.list.tail, ts.ending⟩

def size (ts : Tokens) : Nat := ts.list.length

end Tokens

/-- The handles of a document with the prefixes that they stand for. -/
abbrev Handles := List (String × String)

def standardHandles : Handles := [("!", "!"), ("!!", "tag:yaml.org,2002:")]

def Tag.resolve? (t : Tag) (handles : Handles) : Option String :=
  if t.handle = "" then some t.suffix
  else ((handles ++ standardHandles).lookup t.handle).map (· ++ t.suffix)

structure Properties where
  anchor : Option String
  tag : Option (Tag × Mark)

namespace Properties

def none : Properties := ⟨.none, .none⟩

/-- An anchor, a tag, or both in either order, and the tokens behind them. -/
def read (ts : Tokens) : Except Failure (Properties × Tokens) := do
  let first ← ts.peek
  match first.kind with
  | .anchor name =>
    let second ← ts.skip.peek
    match second.kind with
    | .tag t => return (⟨some name, some (t, second.start)⟩, ts.skip.skip)
    | _ => return (⟨some name, .none⟩, ts.skip)
  | .tag t =>
    let second ← ts.skip.peek
    match second.kind with
    | .anchor name => return (⟨some name, some (t, first.start)⟩, ts.skip.skip)
    | _ => return (⟨.none, some (t, first.start)⟩, ts.skip)
  | _ => return (none, ts)

def resolveTag (p : Properties) (handles : Handles) (start : Mark) :
    Except Failure (Option String) :=
  match p.tag with
  | .none => .ok .none
  | some (t, mark) =>
    match t.resolve? handles with
    | some tag => .ok (some tag)
    | .none => .error (.malformed .undefinedHandle mark (some (.node, start)))

end Properties

end GraphStack.Yaml
