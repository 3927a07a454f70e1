import GraphStack.Json.Number
import GraphStack.Json.Quoted

/-!
# Values of fields

Readers for a text, a count below `2 ^ 64` and a count that may be `null`. A well-formed value of
another kind is a mismatch that stops after the value, or before the bracket of a list or object.
-/

namespace GraphStack.Json

def readWord (word cs : List Char) : Step Unit :=
  match word with
  | [] => .ok ((), cs)
  | w :: ws =>
    match cs with
    | [] => .error (.here .endInValue [])
    | c :: r => if c = w then readWord ws r else .error (.atNext .expectedIdent cs)

theorem length_readWord {word cs rest : List Char} (h : readWord word cs = .ok ((), rest)) :
    rest.length ≤ cs.length := by
  induction word generalizing cs with
  | nil => cases h; exact Nat.le_refl _
  | cons w ws ih =>
    unfold readWord at h
    split at h
    · cases h
    · split at h
      · have := ih h
        simp; omega
      · cases h

def afterWord (word : String) (found : Found) (expected : String) (cs : List Char) : Halt :=
  match readWord word.toList cs with
  | .error e => e
  | .ok (_, rest) => .here (.mismatch (.wrongType found expected)) rest

def afterNumber (expected : String) : Step Number → Halt
  | .error e => e
  | .ok (n, rest) => .here (.mismatch (.wrongType n.found expected)) rest

/-- How reading stops at a value that is not of the expected kind. -/
def misfit (expected : String) (cs : List Char) : Halt :=
  match cs with
  | 'n' :: r => afterWord "ull" .null expected r
  | 't' :: r => afterWord "rue" (.boolean true) expected r
  | 'f' :: r => afterWord "alse" (.boolean false) expected r
  | '-' :: r => afterNumber expected (readNumber false r)
  | '"' :: r =>
    match decode r with
    | .error e => e
    | .ok (s, rest) => .here (.mismatch (.wrongType (.text (String.ofList s)) expected)) rest
  | '[' :: _ => .here (.mismatch (.wrongType .sequence expected)) cs
  | '\x7b' :: _ => .here (.mismatch (.wrongType .mapping expected)) cs
  | c :: _ =>
    if isDigit c then afterNumber expected (readNumber true cs)
    else .atNext .expectedValue cs
  | [] => .atNext .endInValue []

def readText (cs : List Char) : Step String :=
  match skipSpace cs with
  | '"' :: r =>
    match decode r with
    | .error e => .error e
    | .ok (s, rest) => .ok (String.ofList s, rest)
  | r => .error (misfit "a string" r)

def countOf (n : Number) (rest : List Char) : Step UInt64 :=
  match n with
  | .natural n => .ok (.ofNat n, rest)
  | .negative k => .error (.here (.mismatch (.wrongValue (.integer k) "usize")) rest)
  | .float x => .error (.here (.mismatch (.wrongType (.float x) "usize")) rest)

def readCount (cs : List Char) : Step UInt64 :=
  match skipSpace cs with
  | '-' :: r =>
    match readNumber false r with
    | .error e => .error e
    | .ok (n, rest) => countOf n rest
  | c :: r =>
    if isDigit c then
      match readNumber true (c :: r) with
      | .error e => .error e
      | .ok (n, rest) => countOf n rest
    else .error (misfit "usize" (c :: r))
  | [] => .error (misfit "usize" [])

def readOptionalCount (cs : List Char) : Step (Option UInt64) :=
  match skipSpace cs with
  | 'n' :: r =>
    match readWord "ull".toList r with
    | .error e => .error e
    | .ok (_, rest) => .ok (none, rest)
  | r =>
    match readCount r with
    | .error e => .error e
    | .ok (n, rest) => .ok (some n, rest)

theorem length_readText {cs rest : List Char} {s : String} (h : readText cs = .ok (s, rest)) :
    rest.length ≤ cs.length := by
  have hs := length_skipSpace_le cs
  unfold readText at h
  split at h
  · rename_i hq
    rw [hq, List.length_cons] at hs
    split at h
    · cases h
    · rename_i hd
      have := length_decode hd
      cases h
      omega
  · cases h

theorem rest_countOf {n : Number} {rest rest' : List Char} {k : UInt64}
    (h : countOf n rest = .ok (k, rest')) : rest' = rest := by
  cases n <;> cases h
  rfl

theorem length_readCount {cs rest : List Char} {n : UInt64} (h : readCount cs = .ok (n, rest)) :
    rest.length ≤ cs.length := by
  have hs := length_skipSpace_le cs
  unfold readCount at h
  split at h
  · rename_i hq
    rw [hq, List.length_cons] at hs
    split at h
    · cases h
    · rename_i hd
      have := length_readNumber hd
      rw [rest_countOf h]
      omega
  · rename_i hq
    rw [hq] at hs
    split at h
    · split at h
      · cases h
      · rename_i hd
        have := length_readNumber hd
        rw [rest_countOf h]
        omega
    · cases h
  · cases h

theorem length_readOptionalCount {cs rest : List Char} {n : Option UInt64}
    (h : readOptionalCount cs = .ok (n, rest)) : rest.length ≤ cs.length := by
  have hs := length_skipSpace_le cs
  unfold readOptionalCount at h
  split at h
  · rename_i hq
    rw [hq, List.length_cons] at hs
    split at h
    · cases h
    · rename_i hd
      have := length_readWord hd
      cases h
      omega
  · split at h
    · cases h
    · rename_i hd
      have := length_readCount hd
      cases h
      omega

end GraphStack.Json
