import GraphStack.Json.Halt
import GraphStack.Text.Hexadecimal

/-!
# JSON strings

`encode` writes a text as a JSON string: quote and backslash are escaped, the other characters
below the space have an escape of two characters or `\u` with four digits, and all else stands for
itself. `decode` reads the characters after the opening quote up to the closing one. Escapes
beyond the basic plane come as a pair of surrogates; a surrogate by itself is refused.
-/

namespace GraphStack.Json

def hexDigit (n : Nat) : Char := Nat.digitChar n

def encodeChar (c : Char) : List Char :=
  match c with
  | '"' => ['\\', '"']
  | '\\' => ['\\', '\\']
  | '\x08' => ['\\', 'b']
  | '\x0c' => ['\\', 'f']
  | '\n' => ['\\', 'n']
  | '\r' => ['\\', 'r']
  | '\t' => ['\\', 't']
  | c =>
    if c.toNat < 0x20 then ['\\', 'u', '0', '0', hexDigit (c.toNat / 16), hexDigit (c.toNat % 16)]
    else [c]

def encode (cs : List Char) : List Char := '"' :: cs.flatMap encodeChar ++ ['"']

def encodeString (s : String) : String := String.ofList (encode s.toList)

/-- Four hexadecimal digits. They are looked for among the next four bytes, so a text that ends
within four bytes ends too early whatever it holds. -/
def readHex (cs : List Char) : Step Nat :=
  if byteLength (cs.take 4) < 4 then .error ⟨.endInString, cs, byteLength cs⟩
  else
    match cs with
    | a :: b :: c :: d :: rest =>
      match Text.hexValue? a, Text.hexValue? b, Text.hexValue? c, Text.hexValue? d with
      | some a, some b, some c, some d => .ok (((a * 16 + b) * 16 + c) * 16 + d, rest)
      | _, _, _, _ => .error ⟨.invalidEscape, cs, 4⟩
    | _ => .error ⟨.invalidEscape, cs, 4⟩

/-- The second half of a surrogate pair, from the backslash on. -/
def readLowSurrogate (high : Nat) (cs : List Char) : Step Char :=
  match cs with
  | [] => .error (.here .endInString [])
  | '\\' :: rest =>
    match rest with
    | [] => .error (.here .endInString [])
    | 'u' :: rest =>
      match readHex rest with
      | .error e => .error e
      | .ok (low, rest) =>
        if 0xDC00 ≤ low ∧ low ≤ 0xDFFF then
          .ok (.ofNat (0x10000 + (high - 0xD800) * 0x400 + (low - 0xDC00)), rest)
        else .error (.here .loneSurrogate rest)
    | _ => .error (.atNext .unfinishedSurrogate rest)
  | _ => .error (.atNext .unfinishedSurrogate cs)

def readEscape (cs : List Char) : Step Char :=
  match cs with
  | [] => .error (.here .endInString [])
  | '"' :: rest => .ok ('"', rest)
  | '\\' :: rest => .ok ('\\', rest)
  | '/' :: rest => .ok ('/', rest)
  | 'b' :: rest => .ok ('\x08', rest)
  | 'f' :: rest => .ok ('\x0c', rest)
  | 'n' :: rest => .ok ('\n', rest)
  | 'r' :: rest => .ok ('\r', rest)
  | 't' :: rest => .ok ('\t', rest)
  | 'u' :: rest =>
    match readHex rest with
    | .error e => .error e
    | .ok (unit, rest) =>
      if 0xDC00 ≤ unit ∧ unit ≤ 0xDFFF then .error (.here .loneSurrogate rest)
      else if 0xD800 ≤ unit ∧ unit ≤ 0xDBFF then readLowSurrogate unit rest
      else .ok (.ofNat unit, rest)
  | _ => .error (.atNext .invalidEscape cs)

theorem length_readHex {cs rest : List Char} {n : Nat} (h : readHex cs = .ok (n, rest)) :
    rest.length + 4 = cs.length := by
  unfold readHex at h
  split at h
  · cases h
  · split at h
    · split at h
      · cases h; simp
      · cases h
    · cases h

theorem length_readLowSurrogate {high : Nat} {cs rest : List Char} {c : Char}
    (h : readLowSurrogate high cs = .ok (c, rest)) : rest.length < cs.length := by
  unfold readLowSurrogate at h
  split at h
  · cases h
  · split at h
    · cases h
    · split at h
      · cases h
      · rename_i hx
        have := length_readHex hx
        split at h
        · simp only [Except.ok.injEq, Prod.mk.injEq] at h
          obtain ⟨_, rfl⟩ := h
          simp; omega
        · cases h
    · cases h
  · cases h

theorem length_readEscape {cs rest : List Char} {c : Char}
    (h : readEscape cs = .ok (c, rest)) : rest.length < cs.length := by
  unfold readEscape at h
  split at h
  case h_10 =>
    split at h
    · cases h
    · rename_i hx
      have := length_readHex hx
      split at h
      · cases h
      · split at h
        · have := length_readLowSurrogate h
          simp; omega
        · simp only [Except.ok.injEq, Prod.mk.injEq] at h
          obtain ⟨_, rfl⟩ := h
          simp; omega
  all_goals cases h
  all_goals simp

/-- The text up to the closing quote, given what was read of it so far in reverse. -/
def decodeFrom (done : List Char) (cs : List Char) : Step (List Char) :=
  match cs with
  | [] => .error (.here .endInString [])
  | '"' :: rest => .ok (done.reverse, rest)
  | '\\' :: rest =>
    match h : readEscape rest with
    | .error e => .error e
    | .ok (c, rest') =>
      have := length_readEscape h
      decodeFrom (c :: done) rest'
  | c :: rest =>
    if c.toNat < 0x20 then .error (.atNext .controlCharacter cs)
    else decodeFrom (c :: done) rest
termination_by cs.length
decreasing_by all_goals (simp only [List.length_cons] at *; omega)

def decode (cs : List Char) : Step (List Char) := decodeFrom [] cs

theorem length_decodeFrom {cs rest s done : List Char} (h : decodeFrom done cs = .ok (s, rest)) :
    rest.length < cs.length := by
  fun_induction decodeFrom done cs with
  | case1 => cases h
  | case2 => cases h; simp
  | case3 => cases h
  | case4 done r c r' hr hl ih =>
    have := ih h
    simp; omega
  | case5 => cases h
  | case6 done c r _ _ _ ih =>
    have := ih h
    simp; omega

theorem length_decode {cs rest s : List Char} (h : decode cs = .ok (s, rest)) :
    rest.length < cs.length := length_decodeFrom h

end GraphStack.Json
