import GraphStack.Config.Basic
import GraphStack.Json.Field
import GraphStack.Json.Members

/-!
# Configurations in JSON

`Config.ofJson` reads an object whose keys are among `label` and `max_live_nodes`, or a list of at
most these two values in this order; what is missing has its default. `Config.toJson` and
`Config.toJsonLines` write a configuration in one line and over several.
-/

namespace GraphStack.Config

open GraphStack.Json

def readField (d : Draft) (key : String) (cs : List Char) : Step Draft :=
  if key = labelKey then
    if d.label.isSome then .error (badKey (.duplicateField key) cs)
    else
      match skipColon cs with
      | .error e => .error e
      | .ok (_, rest) =>
        match readText rest with
        | .error e => .error e
        | .ok (label, rest) => .ok ({ d with label := some label }, rest)
  else if key = limitKey then
    if d.limit.isSome then .error (badKey (.duplicateField key) cs)
    else
      match skipColon cs with
      | .error e => .error e
      | .ok (_, rest) =>
        match readOptionalCount rest with
        | .error e => .error e
        | .ok (limit, rest) => .ok ({ d with limit := some limit }, rest)
  else .error (badKey (.unknownField key fieldNames) cs)

theorem length_readField {d d' : Draft} {key : String} {cs rest : List Char}
    (h : readField d key cs = .ok (d', rest)) : rest.length ≤ cs.length := by
  unfold readField at h
  split at h
  · split at h
    · cases h
    · split at h
      · cases h
      · rename_i hc
        have := length_skipColon hc
        split at h
        · cases h
        · rename_i hv
          have := length_readText hv
          cases h
          omega
  · split at h
    · split at h
      · cases h
      · split at h
        · cases h
        · rename_i hc
          have := length_skipColon hc
          split at h
          · cases h
          · rename_i hv
            have := length_readOptionalCount hv
            cases h
            omega
    · cases h

def member : Member Draft := ⟨readField, length_readField⟩

def readObject (cs : List Char) : Step Draft :=
  match readMembers member true .empty cs with
  | .error e => .error e
  | .ok (d, rest) =>
    match closeObject rest with
    | .error e => .error e
    | .ok (_, rest) => .ok (d, rest)

/-- The elements of a list, as far as there are any. -/
def readElements (cs : List Char) : Step Draft :=
  match nextElement true cs with
  | .error e => .error e
  | .ok (.closed rest) => .ok (.empty, rest)
  | .ok (.element rest) =>
    match readText rest with
    | .error e => .error e
    | .ok (label, rest) =>
      match nextElement false rest with
      | .error e => .error e
      | .ok (.closed rest) => .ok (⟨some label, none⟩, rest)
      | .ok (.element rest) =>
        match readOptionalCount rest with
        | .error e => .error e
        | .ok (limit, rest) => .ok (⟨some label, some limit⟩, rest)

def readList (cs : List Char) : Step Draft :=
  match readElements cs with
  | .error e => .error e
  | .ok (d, rest) =>
    match closeList rest with
    | .error e => .error e
    | .ok (_, rest) => .ok (d, rest)

def readDocument (cs : List Char) : Except Halt Config :=
  let draft := match skipSpace cs with
    | '\x7b' :: r => readObject r
    | '[' :: r => readList r
    | r => .error (misfit typeName r)
  match draft with
  | .error e => .error e
  | .ok (d, rest) =>
    match endOfText rest with
    | .error e => .error e
    | .ok () => .ok d.finish

/-- The length in bytes of the first `n` lines. -/
def linesLength : Nat → List Char → Nat
  | 0, _ => 0
  | _ + 1, [] => 0
  | n + 1, c :: cs => c.utf8Size + linesLength (if c = '\n' then n else n + 1) cs

/-- The offset of the byte at a line and column that count from 1, not beyond the last byte. -/
def offsetOf (text : List Char) (place : Place) : Nat :=
  min (linesLength (place.line - 1) text + (place.column - 1)) (byteLength text - 1)

def ofJsonNamed (name text : String) : Except Fault Config :=
  match readDocument text.toList with
  | .ok c => c.validated ⟨name, text⟩
  | .error halt =>
    let offset := offsetOf text.toList (halt.place text.toList)
    .error (malformed ⟨name, text⟩ (halt.message text.toList) (.point offset))

def jsonSourceName : String := "config.json"

def ofJson (text : String) : Except Fault Config := ofJsonNamed jsonSourceName text

def limitJson (c : Config) : String :=
  match c.maxLiveNodes with
  | none => "null"
  | some n => toString n.toNat

def toJson (c : Config) : String :=
  "\x7b" ++ encodeString labelKey ++ ":" ++ encodeString c.label ++ ","
    ++ encodeString limitKey ++ ":" ++ c.limitJson ++ "\x7d"

def toJsonLines (c : Config) : String :=
  "\x7b\n  " ++ encodeString labelKey ++ ": " ++ encodeString c.label ++ ",\n  "
    ++ encodeString limitKey ++ ": " ++ c.limitJson ++ "\n\x7d"

end GraphStack.Config
