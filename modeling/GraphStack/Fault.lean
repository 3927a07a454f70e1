/-!
# Faults

A `Fault` is the report of a failed construction or of a configuration that cannot be read. It has
a kind, a message, perhaps help, a source text and a span in it, and the texts of its causes from
the nearest to the deepest. A label exists only where both the source and the span are known.
-/

namespace GraphStack

/-- A range of byte offsets. -/
structure Span where
  start : Nat
  stop : Nat
  deriving DecidableEq, Repr

namespace Span

def empty : Span := ⟨0, 0⟩

def point (offset : Nat) : Span := ⟨offset, offset + 1⟩

/-- The length that a label marks: at least one byte. -/
def marked (s : Span) : Nat := if s.start < s.stop then s.stop - s.start else 1

end Span

structure Source where
  name : String
  text : String
  deriving DecidableEq, Repr

inductive FaultKind
  | allocation
  | argument
  | config
  deriving DecidableEq, Repr

namespace FaultKind

def word : FaultKind → String
  | .allocation => "Allocation"
  | .argument => "Argument"
  | .config => "Config"

def typeName (k : FaultKind) : String := k.word ++ "Error"

def title : FaultKind → String
  | .allocation => "Allocation error"
  | .argument => "Argument error"
  | .config => "Configuration error"

end FaultKind

structure Fault where
  kind : FaultKind
  message : String
  help : Option String
  source : Option Source
  span : Option Span
  causes : List String
  deriving DecidableEq, Repr

structure Label where
  text : String
  offset : Nat
  length : Nat
  deriving DecidableEq, Repr

namespace Fault

def plain (kind : FaultKind) (message : String) : Fault := ⟨kind, message, none, none, none, []⟩

def display (f : Fault) : String := f.kind.title ++ ": " ++ f.message

def code (f : Fault) : String := "gss::" ++ f.kind.typeName

def label? (f : Fault) : Option Label :=
  match f.source, f.span with
  | some _, some span => some ⟨f.message, span.start, span.marked⟩
  | _, _ => none

/-- The fault with a plain error as its only cause, in place of any earlier one. -/
def because (f : Fault) (text : String) : Fault := { f with causes := [text] }

/-- The fault with another fault as its cause, in place of any earlier one. -/
def becauseOf (f cause : Fault) : Fault := { f with causes := cause.display :: cause.causes }

end Fault
end GraphStack
