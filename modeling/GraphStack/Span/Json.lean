import GraphStack.Fault
import GraphStack.Json.Skip
import GraphStack.Text.Outline

/-!
# Spans as text

A span is written as a JSON object with the members `start` and `end`. `Span.ofJson` reads such an
object, in which other members are passed over, or a list of the two numbers.
-/

namespace GraphStack.Span

open GraphStack.Json

def startKey : String := "start"

def stopKey : String := "end"

def outline (s : Span) : Outline :=
  .record "Span" [(startKey, .ofNat s.start), (stopKey, .ofNat s.stop)]

def toJson (s : Span) : String :=
  "\x7b" ++ encodeString startKey ++ ":" ++ toString s.start ++ ","
    ++ encodeString stopKey ++ ":" ++ toString s.stop ++ "\x7d"

def typeName : String := "struct Span"

structure Draft where
  start : Option UInt64
  stop : Option UInt64

def readEnd (known : Option UInt64) (key : String) (cs : List Char) : Step UInt64 :=
  if known.isSome then .error (badKey (.duplicateField key) cs)
  else
    match skipColon cs with
    | .error e => .error e
    | .ok (_, rest) => readCount rest

def readField (d : Draft) (key : String) (cs : List Char) : Step Draft :=
  if key = startKey then
    match readEnd d.start key cs with
    | .error e => .error e
    | .ok (n, rest) => .ok ({ d with start := some n }, rest)
  else if key = stopKey then
    match readEnd d.stop key cs with
    | .error e => .error e
    | .ok (n, rest) => .ok ({ d with stop := some n }, rest)
  else
    match skipColon cs with
    | .error e => .error e
    | .ok (_, rest) =>
      match skipValue rest with
      | .error e => .error e
      | .ok (_, rest) => .ok (d, rest)

theorem length_readEnd {known : Option UInt64} {key : String} {cs rest : List Char} {n : UInt64}
    (h : readEnd known key cs = .ok (n, rest)) : rest.length ≤ cs.length := by
  unfold readEnd at h
  split at h
  · cases h
  · split at h
    · cases h
    · rename_i hc
      have := length_skipColon hc
      have := length_readCount h
      omega

theorem length_readField {d d' : Draft} {key : String} {cs rest : List Char}
    (h : readField d key cs = .ok (d', rest)) : rest.length ≤ cs.length := by
  unfold readField at h
  split at h
  · split at h
    · cases h
    · rename_i hr
      have := length_readEnd hr
      cases h
      omega
  · split at h
    · split at h
      · cases h
      · rename_i hr
        have := length_readEnd hr
        cases h
        omega
    · split at h
      · cases h
      · rename_i hc
        have := length_skipColon hc
        split at h
        · cases h
        · rename_i hv
          have := length_skipValue hv
          cases h
          omega

def member : Member Draft := ⟨readField, length_readField⟩

/-- A span lacks a member; the closing brace has been found by then. -/
def finish (d : Draft) (cs : List Char) : Step Span :=
  match d.start, d.stop with
  | some start, some stop =>
    match closeObject cs with
    | .error e => .error e
    | .ok (_, rest) => .ok (⟨start.toNat, stop.toNat⟩, rest)
  | none, _ => .error (badKey (.missingField startKey) cs)
  | _, none => .error (badKey (.missingField stopKey) cs)

def readObject (cs : List Char) : Step Span :=
  match readMembers member true ⟨none, none⟩ cs with
  | .error e => .error e
  | .ok (d, rest) => finish d rest

def tooShort (n : Nat) (cs : List Char) : Halt :=
  .here (.mismatch (.wrongLength n (typeName ++ " with 2 elements"))) (afterClose ']' cs)

def readElement (first : Bool) (index : Nat) (cs : List Char) : Step UInt64 :=
  match nextElement first cs with
  | .error e => .error e
  | .ok (.closed rest) => .error (tooShort index rest)
  | .ok (.element rest) => readCount rest

def readList (cs : List Char) : Step Span :=
  match readElement true 0 cs with
  | .error e => .error e
  | .ok (start, rest) =>
    match readElement false 1 rest with
    | .error e => .error e
    | .ok (stop, rest) =>
      match closeList rest with
      | .error e => .error e
      | .ok (_, rest) => .ok (⟨start.toNat, stop.toNat⟩, rest)

def readDocument (cs : List Char) : Except Halt Span :=
  let span := match skipSpace cs with
    | '\x7b' :: r => readObject r
    | '[' :: r => readList r
    | r => .error (misfit typeName r)
  match span with
  | .error e => .error e
  | .ok (s, rest) =>
    match endOfText rest with
    | .error e => .error e
    | .ok () => .ok s

def ofJson (text : String) : Except String Span :=
  match readDocument text.toList with
  | .ok s => .ok s
  | .error halt => .error (halt.message text.toList)

end GraphStack.Span
