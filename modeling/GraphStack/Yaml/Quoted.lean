import GraphStack.Text.Hexadecimal
import GraphStack.Yaml.Failure
import GraphStack.Yaml.Gap

/-!
# Quoted scalars

Between single quotes a doubled quote stands for one. Between double quotes a backslash begins an
escape: a letter, two, four or eight hexadecimal digits, or a line end that vanishes with the
blanks after it. Gaps fold as in plain scalars.
-/

namespace GraphStack.Yaml.Quoted

inductive Escape
  | char (c : Char)
  | code (digits : Nat)
  deriving DecidableEq, Repr

def escape? : Char → Option Escape
  | '0' => some (.char '\x00')
  | 'a' => some (.char '\x07')
  | 'b' => some (.char '\x08')
  | 't' => some (.char '\t')
  | '\t' => some (.char '\t')
  | 'n' => some (.char '\n')
  | 'v' => some (.char '\x0b')
  | 'f' => some (.char '\x0c')
  | 'r' => some (.char '\r')
  | 'e' => some (.char '\x1b')
  | ' ' => some (.char ' ')
  | '"' => some (.char '"')
  | '/' => some (.char '/')
  | '\\' => some (.char '\\')
  | 'N' => some (.char nextLine)
  | '_' => some (.char '\u00a0')
  | 'L' => some (.char lineSeparator)
  | 'P' => some (.char paragraphSeparator)
  | 'x' => some (.code 2)
  | 'u' => some (.code 4)
  | 'U' => some (.code 8)
  | _ => none

def hexNumber? (digits : List Char) : Option Nat :=
  digits.foldlM (fun n c => (Text.hexValue? c).map (16 * n + ·)) 0

def isCharacterCode (n : Nat) : Bool := n < 0xD800 || (0xDFFF < n && n ≤ 0x10FFFF)

def readCode (digits : Nat) (cs : List Char) : Step Char :=
  if cs.length < digits then .error ⟨.expectedHexadecimal, .quotedEscape, cs, digits⟩
  else
    match hexNumber? (cs.take digits) with
    | none => .error ⟨.expectedHexadecimal, .quotedEscape, cs, digits⟩
    | some n =>
      if isCharacterCode n then .ok (.ofNat n, cs.drop digits)
      else .error ⟨.invalidCharacterCode, .quotedEscape, cs, digits⟩

/-- The character of an escape, from the backslash on, `since` characters into a word. -/
def readEscape (since : Nat) (cs : List Char) : Step Char :=
  match cs.tail with
  | [] => .error ⟨.unknownEscape, .quotedEscape, cs, lookAhead 2 since⟩
  | e :: rest =>
    match escape? e with
    | none => .error ⟨.unknownEscape, .quotedEscape, cs, lookAhead 2 since⟩
    | some (.char c) => .ok (c, rest)
    | some (.code digits) => readCode digits rest

theorem length_readCode {digits : Nat} {cs rest : List Char} {c : Char}
    (h : readCode digits cs = .ok (c, rest)) : rest.length ≤ cs.length := by
  unfold readCode at h
  split at h
  · cases h
  · split at h
    · cases h
    · split at h
      · simp only [Except.ok.injEq, Prod.mk.injEq] at h
        obtain ⟨_, rfl⟩ := h
        simp
      · cases h

theorem length_readEscape {since : Nat} {cs rest : List Char} {c : Char}
    (h : readEscape since cs = .ok (c, rest)) : rest.length < cs.length := by
  unfold readEscape at h
  have ht : cs.tail.length = cs.length - 1 := List.length_tail
  split at h
  · cases h
  · rename_i e r hr
    rw [hr, List.length_cons] at ht
    split at h
    · cases h
    · simp only [Except.ok.injEq, Prod.mk.injEq] at h
      obtain ⟨_, rfl⟩ := h
      omega
    · have := length_readCode h
      omega

/-- The scalar ends at a quote that is `since` characters into a word. -/
def finish (done : List Char) (gap : Gap) (since : Nat) (unread : List Char) :
    Step (Seen (List Char)) :=
  .ok (⟨(gap.text ++ done).reverse, lookAhead 2 since - 1⟩, unread)

/-- `since` counts the characters from the start of the last word on. -/
def readSingle (done : List Char) (gap : Gap) (since : Nat) : List Char → Step (Seen (List Char))
  | [] => .error ⟨.endOfStream, .quotedScalar, [], 1⟩
  | c :: cs =>
    if gap.atLineStart && atDocumentIndicator (c :: cs) then
      .error ⟨.documentIndicator, .quotedScalar, c :: cs, 4⟩
    else if joinsNext c cs then readSingle done gap (since + 1) cs
    else if isBreak c then readSingle done (gap.lineEnd c) (since + 1) cs
    else if isBlank c then readSingle done (gap.blank c) (since + 1) cs
    else
      let since := if gap.isNothing then since else 0
      if c = '\'' then
        match cs with
        | '\'' :: rest => readSingle ('\'' :: (gap.text ++ done)) .nothing (since + 2) rest
        | _ => finish done gap since cs
      else readSingle (c :: (gap.text ++ done)) .nothing (since + 1) cs

def escapedLineEnd? : List Char → Option (List Char)
  | [] => none
  | c :: cs =>
    if joinsNext c cs then some cs.tail
    else if isBreak c then some cs
    else none

theorem length_escapedLineEnd? {cs rest : List Char} (h : escapedLineEnd? cs = some rest) :
    rest.length ≤ cs.length := by
  unfold escapedLineEnd? at h
  split at h
  · cases h
  · split at h
    · cases h
      simp
      omega
    · split at h
      · cases h
        simp
      · cases h

def readDouble (done : List Char) (gap : Gap) (since : Nat) (cs : List Char) :
    Step (Seen (List Char)) :=
  match cs with
  | [] => .error ⟨.endOfStream, .quotedScalar, [], 1⟩
  | c :: cs =>
    if gap.atLineStart && atDocumentIndicator (c :: cs) then
      .error ⟨.documentIndicator, .quotedScalar, c :: cs, 4⟩
    else if joinsNext c cs then readDouble done gap (since + 1) cs
    else if isBreak c then readDouble done (gap.lineEnd c) (since + 1) cs
    else if isBlank c then readDouble done (gap.blank c) (since + 1) cs
    else
      let since := if gap.isNothing then since else 0
      if c = '"' then finish done gap since cs
      else if c = '\\' then
        match h : escapedLineEnd? cs with
        | some rest =>
          have := length_escapedLineEnd? h
          readDouble (gap.text ++ done) .joined (since + 1) rest
        | none =>
          match h : readEscape since (c :: cs) with
          | .error e => .error e
          | .ok (d, rest) =>
            have := length_readEscape h
            readDouble (d :: (gap.text ++ done)) .nothing (since + 2) rest
      else readDouble (c :: (gap.text ++ done)) .nothing (since + 1) cs
termination_by cs.length
decreasing_by all_goals (simp only [List.length_cons] at *; omega)

end GraphStack.Yaml.Quoted
