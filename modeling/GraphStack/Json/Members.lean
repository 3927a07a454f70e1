import GraphStack.Json.Quoted

/-!
# Members of objects and elements of lists

`readMembers` goes through the members of an object and lets `Member.read` read the value of each,
from the end of its key on. `nextElement` finds the next element of a list. What is wrong with a
key is only reported once the reader has looked for the closing brace, so such a problem stops
after that brace when it follows the key.
-/

namespace GraphStack.Json

/-- A reader of one member's value, from the end of its key on, which never gives back more than it
was given. -/
structure Member (δ : Type) where
  read : δ → String → List Char → Step δ
  length_read : ∀ {d d' : δ} {key : String} {cs rest : List Char},
    read d key cs = .ok (d', rest) → rest.length ≤ cs.length

/-- The rest after a closing bracket, or from the next character on when there is none. -/
def afterClose (bracket : Char) (cs : List Char) : List Char :=
  match skipSpace cs with
  | c :: r => if c = bracket then r else c :: r
  | [] => []

def badKey (m : Mismatch) (cs : List Char) : Halt :=
  .here (.mismatch m) (afterClose '\x7d' cs)

def skipColon (cs : List Char) : Step Unit :=
  match skipSpace cs with
  | ':' :: r => .ok ((), r)
  | [] => .error (.atNext .endInObject [])
  | r => .error (.atNext .expectedColon r)

theorem length_skipColon {cs rest : List Char} (h : skipColon cs = .ok ((), rest)) :
    rest.length < cs.length := by
  have hs := length_skipSpace_le cs
  unfold skipColon at h
  split at h
  · rename_i hq
    rw [hq, List.length_cons] at hs
    cases h
    omega
  · cases h
  · cases h

/-- The text of the next key from after its opening quote on, or the rest at the closing brace. -/
inductive NextKey
  | key (cs : List Char)
  | closed (cs : List Char)

def nextKey (first : Bool) (cs : List Char) : Except Halt NextKey :=
  match skipSpace cs with
  | [] => .error (.atNext .endInObject [])
  | '\x7d' :: r => .ok (.closed ('\x7d' :: r))
  | c :: r =>
    if first then
      if c = '"' then .ok (.key r) else .error (.atNext .keyNotString (c :: r))
    else if c = ',' then
      match skipSpace r with
      | [] => .error (.atNext .endInValue [])
      | '"' :: r => .ok (.key r)
      | '\x7d' :: r => .error (.atNext .trailingComma ('\x7d' :: r))
      | r => .error (.atNext .keyNotString r)
    else .error (.atNext .expectedObjectCommaOrEnd (c :: r))

theorem length_nextKey {first : Bool} {cs rest : List Char}
    (h : nextKey first cs = .ok (.key rest)) : rest.length < cs.length := by
  have hs := length_skipSpace_le cs
  unfold nextKey at h
  split at h
  · cases h
  · cases h
  · rename_i c r _ hq
    rw [hq, List.length_cons] at hs
    have hr := length_skipSpace_le r
    split at h
    · split at h
      · cases h; omega
      · cases h
    · split at h
      · split at h
        · cases h
        · rename_i hq
          rw [hq, List.length_cons] at hr
          cases h
          omega
        · cases h
        · cases h
      · cases h

def readMembers {δ : Type} (m : Member δ) (first : Bool) (d : δ) (cs : List Char) : Step δ :=
  match hk : nextKey first cs with
  | .error e => .error e
  | .ok (.closed rest) => .ok (d, rest)
  | .ok (.key rest) =>
    match hd : decode rest with
    | .error e => .error e
    | .ok (key, rest') =>
      match hm : m.read d (String.ofList key) rest' with
      | .error e => .error e
      | .ok (d', rest'') =>
        have := length_nextKey hk
        have := length_decode hd
        have := m.length_read hm
        readMembers m false d' rest''
termination_by cs.length

def closeObject (cs : List Char) : Step Unit :=
  match skipSpace cs with
  | '\x7d' :: r => .ok ((), r)
  | ',' :: r => .error (.atNext .trailingComma (',' :: r))
  | [] => .error (.atNext .endInObject [])
  | r => .error (.atNext .trailingCharacters r)

/-- The rest at the next element of a list, or at the closing bracket. -/
inductive NextElement
  | element (cs : List Char)
  | closed (cs : List Char)

def nextElement (first : Bool) (cs : List Char) : Except Halt NextElement :=
  match skipSpace cs with
  | [] => .error (.atNext .endInList [])
  | ']' :: r => .ok (.closed (']' :: r))
  | c :: r =>
    if first then .ok (.element (c :: r))
    else if c = ',' then
      match skipSpace r with
      | [] => .error (.atNext .endInValue [])
      | ']' :: r => .error (.atNext .trailingComma (']' :: r))
      | r => .ok (.element r)
    else .error (.atNext .expectedListCommaOrEnd (c :: r))

def closeList (cs : List Char) : Step Unit :=
  match skipSpace cs with
  | ']' :: r => .ok ((), r)
  | ',' :: r =>
    match skipSpace r with
    | ']' :: r => .error (.atNext .trailingComma (']' :: r))
    | r => .error (.atNext .trailingCharacters r)
  | [] => .error (.atNext .endInList [])
  | r => .error (.atNext .trailingCharacters r)

def endOfText (cs : List Char) : Except Halt Unit :=
  match skipSpace cs with
  | [] => .ok ()
  | r => .error (.atNext .trailingCharacters r)

end GraphStack.Json
