import GraphStack.Text.Hexadecimal
import GraphStack.Yaml.Failure

/-!
# Tags, anchors and directives

A tag is a handle and a suffix; `!<…>` has the empty handle and `!` alone the empty handle with the
suffix `!`. In a suffix `%` escapes an octet, which is kept as the character of that number: the
tags with a meaning are ASCII, so no other reading of the octets would be told apart. A tag ends at
an octet of zero.
-/

namespace GraphStack.Yaml

structure Tag where
  handle : String
  suffix : String
  deriving DecidableEq, Repr

inductive Directive
  | version (major minor : Nat)
  | tag (handle : String) (uri : String)
  deriving DecidableEq, Repr

/-- The part of a document that a URI stands in. -/
inductive UriPlace
  | suffix
  | verbatim
  | directive
  deriving DecidableEq, Repr

namespace Tag

def isUriChar (place : UriPlace) (c : Char) : Bool :=
  isWordChar c || ";/?:@&=+$.!~*'()".toList.contains c
    || (place != .suffix && [',', '[', ']'].contains c)

def uriActivity (place : UriPlace) : Activity :=
  if place = .directive then .tagDirectiveUri else .tagUri

/-- The number of octets of a character, by its first octet. -/
def octetCount? (octet : Nat) : Option Nat :=
  if octet < 0x80 then some 1
  else if 0xC0 ≤ octet ∧ octet < 0xE0 then some 2
  else if 0xE0 ≤ octet ∧ octet < 0xF0 then some 3
  else if 0xF0 ≤ octet ∧ octet < 0xF8 then some 4
  else none

def isTrailingOctet (octet : Nat) : Bool := 0x80 ≤ octet && octet < 0xC0

def octet? : List Char → Option (Nat × List Char)
  | '%' :: a :: b :: rest =>
    match Text.hexValue? a, Text.hexValue? b with
    | some a, some b => some (16 * a + b, rest)
    | _, _ => none
  | _ => none

def readOctets (activity : Activity) (count : Nat) (cs : List Char) : Step (List Char) :=
  match count with
  | 0 => .ok ([], cs)
  | n + 1 =>
    match octet? cs with
    | none => .error ⟨.expectedEscapedOctet, activity, cs, 3⟩
    | some (octet, rest) =>
      if isTrailingOctet octet then
        match readOctets activity n rest with
        | .error e => .error e
        | .ok (more, rest) => .ok (.ofNat octet :: more, rest)
      else .error ⟨.wrongTrailingOctet, activity, cs, 3⟩

def readEscaped (activity : Activity) (cs : List Char) : Step (List Char) :=
  match octet? cs with
  | none => .error ⟨.expectedEscapedOctet, activity, cs, 3⟩
  | some (octet, rest) =>
    match octetCount? octet with
    | none => .error ⟨.wrongLeadingOctet, activity, cs, 3⟩
    | some count =>
      match readOctets activity (count - 1) rest with
      | .error e => .error e
      | .ok (more, rest) => .ok (.ofNat octet :: more, rest)

theorem length_octet? {cs rest : List Char} {n : Nat} (h : octet? cs = some (n, rest)) :
    rest.length < cs.length := by
  unfold octet? at h
  split at h
  · split at h
    · simp only [Option.some.injEq, Prod.mk.injEq] at h
      obtain ⟨_, rfl⟩ := h
      simp
      omega
    · cases h
  · cases h

theorem length_readOctets {activity : Activity} {count : Nat} {cs rest s : List Char}
    (h : readOctets activity count cs = .ok (s, rest)) : rest.length ≤ cs.length := by
  induction count generalizing cs rest s with
  | zero => cases h; exact Nat.le_refl _
  | succ n ih =>
    unfold readOctets at h
    split at h
    · cases h
    · rename_i ho
      have := length_octet? ho
      split at h
      · split at h
        · cases h
        · rename_i hr
          have := ih hr
          simp only [Except.ok.injEq, Prod.mk.injEq] at h
          obtain ⟨_, rfl⟩ := h
          omega
      · cases h

theorem length_readEscaped {activity : Activity} {cs rest s : List Char}
    (h : readEscaped activity cs = .ok (s, rest)) : rest.length < cs.length := by
  unfold readEscaped at h
  split at h
  · cases h
  · rename_i ho
    have := length_octet? ho
    split at h
    · cases h
    · split at h
      · cases h
      · rename_i hr
        have := length_readOctets hr
        simp only [Except.ok.injEq, Prod.mk.injEq] at h
        obtain ⟨_, rfl⟩ := h
        omega

def readUriFrom (place : UriPlace) (done : List Char) (cs : List Char) : Step (List Char) :=
  match cs with
  | [] => .ok (done.reverse, [])
  | c :: rest =>
    if c = '%' then
      match h : readEscaped (uriActivity place) (c :: rest) with
      | .error e => .error e
      | .ok (octets, rest') =>
        have := length_readEscaped h
        readUriFrom place (octets.reverse ++ done) rest'
    else if isUriChar place c then readUriFrom place (c :: done) rest
    else .ok (done.reverse, c :: rest)
termination_by cs.length
decreasing_by all_goals (simp only [List.length_cons] at *; omega)

/-- A URI that goes on from `read`; the two together are not empty. -/
def readUri (place : UriPlace) (read : List Char) (cs : List Char) : Step String :=
  match readUriFrom place [] cs with
  | .error e => .error e
  | .ok (uri, rest) =>
    if read.isEmpty && rest.length == cs.length then
      .error ⟨.expectedTagUri, uriActivity place, rest, 1⟩
    else .ok (String.ofList ((read.drop 1 ++ uri).takeWhile (· != '\x00')), rest)

/-- From an exclamation mark on: a handle such as `!` or `!name!`, or the start of a suffix. -/
def readHandle (cs : List Char) : List Char × List Char :=
  let word := cs.tail.takeWhile isWordChar
  match cs.tail.dropWhile isWordChar with
  | '!' :: rest => ('!' :: word ++ ['!'], rest)
  | rest => ('!' :: word, rest)

def readDirectiveHandle (cs : List Char) : Step String :=
  if cs.head? ≠ some '!' then .error ⟨.expectedExclamation, .scanTagHandle, cs, 1⟩
  else
    let (handle, rest) := readHandle cs
    if handle.getLast? = some '!' then .ok (String.ofList handle, rest)
    else .error ⟨.expectedExclamation, .parseTagHandle, rest, 1⟩

def readVerbatim (cs : List Char) : Step Tag :=
  match readUri .verbatim [] cs with
  | .error e => .error e
  | .ok (suffix, rest) =>
    match rest with
    | '>' :: rest => .ok (⟨"", suffix⟩, rest)
    | _ => .error ⟨.expectedClosingAngle, .tag, rest, 1⟩

def readShorthand (cs : List Char) : Step Tag :=
  let (handle, rest) := readHandle cs
  if 1 < handle.length ∧ handle.getLast? = some '!' then
    match readUri .suffix [] rest with
    | .error e => .error e
    | .ok (suffix, rest) => .ok (⟨String.ofList handle, suffix⟩, rest)
  else
    match readUri .suffix handle rest with
    | .error e => .error e
    | .ok (suffix, rest) => .ok (if suffix = "" then ⟨"", "!"⟩ else ⟨"!", suffix⟩, rest)

def read (inFlow : Bool) (cs : List Char) : Step Tag :=
  let tag := match cs.tail with
    | '<' :: rest => readVerbatim rest
    | _ => readShorthand cs
  match tag with
  | .error e => .error e
  | .ok (tag, rest) =>
    if atSpaceOrEnd rest || (inFlow && rest.head? == some ',') then .ok (tag, rest)
    else .error ⟨.expectedSpaceOrBreak, .tag, rest, 1⟩

end Tag

def endsAnchor (rest : List Char) : Bool :=
  atSpaceOrEnd rest || rest.head?.any ['?', ':', ',', ']', '\x7d', '%', '@', '\x60'].contains

/-- The name of an anchor or alias, from after its indicator on. -/
def readAnchor (activity : Activity) (cs : List Char) : Step String :=
  let name := cs.takeWhile isWordChar
  let rest := cs.dropWhile isWordChar
  if name.isEmpty || !endsAnchor rest then .error ⟨.expectedWord, activity, rest, 1⟩
  else .ok (String.ofList name, rest)

namespace Directive

def dropBlanks (cs : List Char) : List Char := cs.dropWhile isBlank

/-- Versions have at most nine digits. -/
def readNumber (cs : List Char) : Step Nat :=
  let digits := cs.takeWhile Char.isDigit
  if digits.isEmpty then .error ⟨.expectedVersion, .versionDirective, cs, 1⟩
  else if 9 < digits.length then .error ⟨.longVersion, .versionDirective, cs.drop 9, 1⟩
  else .ok (digits.foldl (fun n c => 10 * n + (c.toNat - '0'.toNat)) 0, cs.dropWhile Char.isDigit)

def readVersion (cs : List Char) : Step Directive :=
  match readNumber (dropBlanks cs) with
  | .error e => .error e
  | .ok (major, rest) =>
    match rest with
    | '.' :: rest =>
      match readNumber rest with
      | .error e => .error e
      | .ok (minor, rest) => .ok (.version major minor, rest)
    | _ => .error ⟨.expectedDigitOrPoint, .versionDirective, rest, 1⟩

def readTag (cs : List Char) : Step Directive :=
  match Tag.readDirectiveHandle (dropBlanks cs) with
  | .error e => .error e
  | .ok (handle, rest) =>
    if !(rest.head?.any isBlank) then .error ⟨.expectedSpace, .tagDirectiveLine, rest, 1⟩
    else
      match Tag.readUri .directive [] (dropBlanks rest) with
      | .error e => .error e
      | .ok (uri, rest) =>
        if atSpaceOrEnd rest then .ok (.tag handle uri, rest)
        else .error ⟨.expectedSpaceOrBreak, .tagDirectiveLine, rest, 1⟩

def readNamed (name : List Char) (cs : List Char) : Step Directive :=
  if name.isEmpty then .error ⟨.expectedDirectiveName, .directive, cs, 1⟩
  else if !atSpaceOrEnd cs then .error ⟨.notAlphabetical, .directive, cs, 1⟩
  else if name = "YAML".toList then readVersion cs
  else if name = "TAG".toList then readTag cs
  else .error ⟨.unknownDirective, .directive, cs, 1⟩

end Directive
end GraphStack.Yaml
