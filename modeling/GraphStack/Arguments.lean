import GraphStack.Fault
import GraphStack.Text.Outline
import GraphStack.Text.Quoted

/-!
# Arguments of a construction

A construction takes at most one payload, by position or under the keyword `data`. `Arguments`
collects what a call gives, positional and keyword arguments each in the order of the call;
`Arguments.payload?` accepts the three good shapes. The number of arguments is looked at before any
keyword.
-/

namespace GraphStack

structure Arguments (α : Type) where
  positional : List α
  keywords : List (String × α)
  deriving Repr

inductive ArgumentsError
  | tooMany (given : Nat)
  | unknownKeyword (name : String)
  deriving DecidableEq, Repr

namespace ArgumentsError

def message : ArgumentsError → String
  | tooMany given => "function takes at most 1 argument (" ++ toString given ++ " given)"
  | unknownKeyword name => "'" ++ name ++ "' is an invalid keyword argument for this function"

def fault (e : ArgumentsError) : Fault := .plain .argument e.message

end ArgumentsError

namespace Arguments

variable {α : Type}

def payloadKeyword : String := "data"

def empty : Arguments α := ⟨[], []⟩

def addPositional (a : Arguments α) (v : α) : Arguments α :=
  { a with positional := a.positional ++ [v] }

def addKeyword (a : Arguments α) (name : String) (v : α) : Arguments α :=
  { a with keywords := a.keywords ++ [(name, v)] }

/-- An argument given by position, or under a keyword. -/
def add (a : Arguments α) : Option String × α → Arguments α
  | (none, v) => a.addPositional v
  | (some name, v) => a.addKeyword name v

def ofCall (given : List (Option String × α)) : Arguments α := given.foldl add empty

def size (a : Arguments α) : Nat := a.positional.length + a.keywords.length

def isEmpty (a : Arguments α) : Bool := a.size = 0

/-- All values, the positional ones first. -/
def values (a : Arguments α) : List α := a.positional ++ a.keywords.map (·.2)

def payload? (a : Arguments α) : Except ArgumentsError (Option α) :=
  if 1 < a.size then .error (.tooMany a.size)
  else
    match a.keywords with
    | (name, v) :: _ =>
      if name = payloadKeyword then .ok (some v) else .error (.unknownKeyword name)
    | [] => .ok a.positional.head?

def same (eq : α → α → Bool) (a b : Arguments α) : Bool :=
  a.positional.length == b.positional.length && a.keywords.length == b.keywords.length
    && (a.positional.zip b.positional).all (fun (v, w) => eq v w)
    && (a.keywords.zip b.keywords).all (fun ((k, v), (l, w)) => k == l && eq v w)

def outline (inspect : α → Outline) (a : Arguments α) : Outline :=
  .record "NodeArgs"
    [("positional", .sequence (a.positional.map inspect)),
     ("keywords", .sequence (a.keywords.map fun (name, v) =>
       .applied "" [.atom (Text.quoted name), inspect v]))]

end Arguments
end GraphStack
