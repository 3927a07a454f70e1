import GraphStack.Yaml.Mark

/-!
# Gaps between the words of a scalar

Blanks within a line stay. A line end with the blanks around it becomes one space, unless more line
ends follow: then these stay and the first is dropped. A first line end that is kept as it is, a
line or paragraph separator, stays as well.
-/

namespace GraphStack.Yaml

/-- What was passed since the last character of text; the lists are in reverse. After an escaped
line end there is no first line end to fold. -/
inductive Gap
  | blanks (passed : List Char)
  | lines (first : Option Char) (more : List Char) (column : Nat)
  deriving DecidableEq, Repr

namespace Gap

def nothing : Gap := .blanks []

def joined : Gap := .lines none [] 0

def blank (g : Gap) (c : Char) : Gap :=
  match g with
  | .blanks passed => .blanks (c :: passed)
  | .lines first more column => .lines first more (column + 1)

def lineEnd (g : Gap) (c : Char) : Gap :=
  match g with
  | .blanks _ => .lines (some (keptBreak c)) [] 0
  | .lines first more _ => .lines first (keptBreak c :: more) 0

def text : Gap → List Char
  | .blanks passed => passed
  | .lines none more _ => more
  | .lines (some first) more _ =>
    if first = '\n' then if more.isEmpty then [' '] else more else more ++ [first]

def endsLine : Gap → Bool
  | .blanks _ => false
  | .lines .. => true

def isNothing : Gap → Bool
  | .blanks passed => passed.isEmpty
  | .lines .. => false

/-- Nothing of the line was passed yet. -/
def atLineStart : Gap → Bool
  | .blanks _ => false
  | .lines _ _ column => column = 0

/-- A line has begun, and less than `margin` characters of it were passed. -/
def before (margin : Int) : Gap → Bool
  | .blanks _ => false
  | .lines _ _ column => column < margin

end Gap
end GraphStack.Yaml
