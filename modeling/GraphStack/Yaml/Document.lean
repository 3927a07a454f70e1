import GraphStack.Yaml.Move

/-!
# The first document of a YAML text

`Document.ofText` gives the entries of the first document, up to the first failure in it, and says
whether anything follows the document. An alias is an entry with the content of the node that its
name was given to. A name refers to a number: how many names were known when the name was given. A
name that is given twice can share its new number with a later name, and a number refers to the
last node that got it.
-/

namespace GraphStack.Yaml

inductive Item
  | scalar (s : Scalar)
  | sequenceStart
  | sequenceEnd
  | mappingStart
  | mappingEnd
  deriving DecidableEq, Repr

/-- An item with the mark where it is written; an alias takes both from the node it names. -/
structure Entry where
  item : Item
  mark : Mark
  aliased : Bool
  deriving DecidableEq, Repr

structure Document where
  entries : List Entry
  failure : Option Failure
  followed : Bool

namespace Document

def run (handles : Handles) (goals : List Goal) (ts : Tokens) :
    List (Event × Mark) × Except Failure Tokens :=
  match goals with
  | [] => ([], .ok ts)
  | g :: gs =>
    match h : Move.ofGoal handles g ts with
    | .error e => ([], .error e)
    | .ok m =>
      have := Move.shrinks_ofGoal h
      let (events, ending) := run handles (m.goals ++ gs) m.tokens
      (m.event.toList ++ events, ending)
termination_by (ts.size, Goal.totalWeight goals)
decreasing_by
  rcases this with hlt | ⟨heq, hlt⟩
  · exact Prod.Lex.left _ _ hlt
  · rw [heq]
    refine Prod.Lex.right _ ?_
    simp only [Goal.totalWeight, total_append, total_cons] at hlt ⊢
    omega

structure Declarations where
  versioned : Bool
  handles : Handles

def isSupported (major minor : Nat) : Bool := major = 1 && (minor = 1 || minor = 2)

def declare (d : Declarations) (directive : Directive) (mark : Mark) :
    Except Failure Declarations :=
  match directive with
  | .version major minor =>
    if d.versioned then .error (.malformed .duplicateVersion mark none)
    else if isSupported major minor then .ok { d with versioned := true }
    else .error (.malformed .incompatibleVersion mark none)
  | .tag handle uri =>
    if (d.handles.lookup handle).isSome then .error (.malformed .duplicateTagDirective mark none)
    else .ok { d with handles := d.handles ++ [(handle, uri)] }

def readDirectives (d : Declarations) (ending : Except Failure Mark) :
    List Token → Except Failure (Declarations × List Token)
  | [] =>
    match ending with
    | .error e => .error e
    | .ok m => .error (.malformed .expectedDocumentStart m none)
  | t :: ts =>
    match t.kind with
    | .directive directive =>
      match declare d directive t.start with
      | .error e => .error e
      | .ok d => readDirectives d ending ts
    | .documentStart => .ok (d, ts)
    | _ => .error (.malformed .expectedDocumentStart t.start none)

structure Opening where
  handles : Handles
  goal : Goal
  tokens : Tokens

/-- There is none in an empty text. -/
def opening? (ts : Tokens) : Except Failure (Option Opening) := do
  let t ← ts.peek
  match t.kind with
  | .streamEnd => return none
  | .directive _ | .documentStart =>
    let (d, rest) ← readDirectives ⟨false, []⟩ ts.ending ts.list
    return some ⟨d.handles, .content, ⟨rest, ts.ending⟩⟩
  | _ => return some ⟨[], .node true false, ts⟩

/-- The names given so far with their numbers, and the nodes that got the numbers, the last one
first. -/
structure Anchors where
  numbers : List (String × Nat)
  nodes : List (Nat × Entry)

namespace Anchors

def none : Anchors := ⟨[], []⟩

def give (a : Anchors) (name : String) (e : Entry) : Anchors :=
  let number := a.numbers.length
  let numbers :=
    if (a.numbers.lookup name).isSome then
      a.numbers.map fun p => if p.1 = name then (name, number) else p
    else (name, number) :: a.numbers
  ⟨numbers, (number, e) :: a.nodes⟩

def giveTo (a : Anchors) (name : Option String) (e : Entry) : Anchors :=
  match name with
  | .none => a
  | some name => a.give name e

end Anchors

inductive Reference
  | entry (e : Entry)
  | number (n : Nat)

/-- The events with their aliases resolved to numbers, up to an alias of an unknown name. -/
def link (a : Anchors) : List (Event × Mark) → List Reference × Anchors × Option Failure
  | [] => ([], a, none)
  | (event, mark) :: events =>
    let next (name : Option String) (item : Item) :=
      let e : Entry := ⟨item, mark, false⟩
      let (references, rest) := link (a.giveTo name e) events
      (Reference.entry e :: references, rest)
    match event with
    | .scalar name s => next name (.scalar s)
    | .sequenceStart name => next name .sequenceStart
    | .sequenceEnd => next none .sequenceEnd
    | .mappingStart name => next name .mappingStart
    | .mappingEnd => next none .mappingEnd
    | .aliasOf name =>
      match a.numbers.lookup name with
      | none => ([], a, some (.unknownAnchor mark))
      | some n =>
        let (references, rest) := link a events
        (.number n :: references, rest)

def resolve? (a : Anchors) : Reference → Option Entry
  | .entry e => some e
  | .number n => (a.nodes.lookup n).map fun e => { e with aliased := true }

/-- The document of these events. An unknown name is met before what ended the events. -/
def ofEvents (events : List (Event × Mark)) (failure : Option Failure) (followed : Bool) :
    Document :=
  let (references, anchors, unknown) := link .none events
  ⟨references.filterMap (resolve? anchors), unknown.or failure, followed⟩

def hasMore (ts : Tokens) : Bool :=
  let rest := ts.list.dropWhile (·.kind = .documentEnd)
  !rest.isEmpty || ts.ending.toOption.isNone

def ofOpening (o : Opening) : Document :=
  match run o.handles [o.goal] o.tokens with
  | (events, .error e) => ofEvents events (some e) false
  | (events, .ok rest) =>
    match rest.peek with
    | .error e => ofEvents events (some e) false
    | .ok _ => ofEvents events none (hasMore rest)

def ofText (text : String) : Document :=
  match opening? (.ofText text.toList) with
  | .error e => ⟨[], some e, false⟩
  | .ok none => ⟨[], none, false⟩
  | .ok (some o) => ofOpening o

end Document
end GraphStack.Yaml
