import GraphStack.Json.Halt

/-!
# JSON numbers

`readNumber` reads a number from its first digit on. A number without fraction and exponent stays
an integer as long as 64 bits hold it; every other number becomes a double. The digits that no
longer fit 64 bits are dropped: before the point each counts one power of ten, after it none. The
double is the significand scaled by one power of ten, so it is rounded twice.
-/

namespace GraphStack.Json

inductive Number
  | natural (n : Nat)
  | negative (k : Int)
  | float (x : Double)
  deriving DecidableEq, Repr

def Number.found : Number → Found
  | .natural n => .integer n
  | .negative k => .integer k
  | .float x => .float x

def isDigit (c : Char) : Bool := '0' ≤ c && c ≤ '9'

def digitValue (c : Char) : Nat := c.toNat - '0'.toNat

/-- Adds digits to a number as long as the result is below the limit, and gives the digits left. -/
def absorb (limit : Nat) (n : Nat) : List Char → Nat × List Char
  | [] => (n, [])
  | c :: cs =>
    if n * 10 + digitValue c < limit then absorb limit (n * 10 + digitValue c) cs else (n, c :: cs)

/-- The significand scaled by a power of ten: steps of `1e308` downward as long as they are needed,
then one product or quotient. There is none if the result is too large. -/
def scale? (x : Double) (power : Int) : Option Double :=
  if x.isZero then some x
  else if 308 < power then none
  else if 0 ≤ power then
    let y := x.mulMagnitude (Double.ofNat (tenTo power.toNat))
    if y.isFinite then some y else none
  else if -308 ≤ power then some (x.divMagnitude (Double.ofNat (tenTo (-power).toNat)))
  else scale? (x.divMagnitude (Double.ofNat (tenTo 308))) (power + 308)
termination_by (-power).toNat

def signed (positive : Bool) (x : Double) : Double := if positive then x else x.neg

def finishFloat (positive : Bool) (significand : Nat) (power : Int) (rest : List Char) :
    Step Number :=
  match scale? (Double.ofNat significand) power with
  | some x => .ok (.float (signed positive x), rest)
  | none => .error (.here .numberOutOfRange rest)

def readExponent (positive : Bool) (significand : Nat) (power : Int) (cs : List Char) :
    Step Number :=
  let (upward, cs) := match cs with
    | '+' :: r => (true, r)
    | '-' :: r => (false, r)
    | r => (true, r)
  let digits := cs.takeWhile isDigit
  let rest := cs.dropWhile isDigit
  if digits.isEmpty then
    .error (.atNext (if cs.isEmpty then .endInValue else .invalidNumber) cs)
  else
    match absorb (twoTo 31) 0 digits with
    | (exponent, []) =>
      finishFloat positive significand (if upward then power + exponent else power - exponent) rest
    | (_, excess) =>
      if significand ≠ 0 ∧ upward then .error (.here .numberOutOfRange (excess.drop 1 ++ rest))
      else .ok (.float (signed positive (Double.ofNat 0)), rest)

def isExponentLetter (c : Char) : Bool := c = 'e' || c = 'E'

/-- The fraction, from after the point on; `power` counts the digits dropped before it. -/
def readFraction (positive : Bool) (significand : Nat) (power : Int) (cs : List Char) :
    Step Number :=
  let digits := cs.takeWhile isDigit
  let rest := cs.dropWhile isDigit
  if digits.isEmpty then
    .error (.atNext (if cs.isEmpty then .endInValue else .invalidNumber) cs)
  else
    let (significand, excess) := absorb (twoTo 64) significand digits
    let power := power - (digits.length - excess.length : Nat)
    match rest with
    | c :: r =>
      if isExponentLetter c then readExponent positive significand power r
      else finishFloat positive significand power rest
    | [] => finishFloat positive significand power rest

def wholeNumber (positive : Bool) (significand : Nat) : Number :=
  if positive then .natural significand
  else if significand = 0 ∨ twoTo 63 < significand then .float (Double.ofNat significand).neg
  else .negative (-(significand : Int))

def readNumber (positive : Bool) (cs : List Char) : Step Number :=
  let digits := cs.takeWhile isDigit
  let rest := cs.dropWhile isDigit
  match digits with
  | [] => .error (.atNext (if cs.isEmpty then .endInValue else .invalidNumber) cs)
  | '0' :: d :: ds => .error (.atNext .invalidNumber (d :: ds ++ rest))
  | _ =>
    let (significand, excess) := absorb (twoTo 64) 0 digits
    match rest with
    | '.' :: r => readFraction positive significand excess.length r
    | c :: r =>
      if isExponentLetter c then readExponent positive significand excess.length r
      else if excess.isEmpty then .ok (wholeNumber positive significand, rest)
      else finishFloat positive significand excess.length rest
    | [] =>
      if excess.isEmpty then .ok (wholeNumber positive significand, rest)
      else finishFloat positive significand excess.length rest

theorem length_dropWhile_le (p : Char → Bool) (cs : List Char) :
    (cs.dropWhile p).length ≤ cs.length := (List.dropWhile_sublist p).length_le

theorem rest_finishFloat {positive : Bool} {significand : Nat} {power : Int}
    {rest rest' : List Char} {n : Number}
    (h : finishFloat positive significand power rest = .ok (n, rest')) : rest' = rest := by
  unfold finishFloat at h
  split at h
  · cases h; rfl
  · cases h

theorem length_readExponent {positive : Bool} {significand : Nat} {power : Int}
    {cs rest : List Char} {n : Number}
    (h : readExponent positive significand power cs = .ok (n, rest)) :
    rest.length ≤ cs.length := by
  unfold readExponent at h
  have key : ∀ (upward : Bool) (r : List Char), r.length ≤ cs.length →
      (if (r.takeWhile isDigit).isEmpty then
        (.error (.atNext (if r.isEmpty then .endInValue else .invalidNumber) r) : Step Number)
      else
        match absorb (twoTo 31) 0 (r.takeWhile isDigit) with
        | (exponent, []) =>
          finishFloat positive significand
            (if upward then power + exponent else power - exponent) (r.dropWhile isDigit)
        | (_, excess) =>
          if significand ≠ 0 ∧ upward then
            .error (.here .numberOutOfRange (excess.drop 1 ++ r.dropWhile isDigit))
          else .ok (.float (signed positive (Double.ofNat 0)), r.dropWhile isDigit)) =
        .ok (n, rest) → rest.length ≤ cs.length := by
    intro upward r hr h
    have hd := length_dropWhile_le isDigit r
    split at h
    · cases h
    · split at h
      · rw [rest_finishFloat h]; omega
      · split at h
        · cases h
        · simp only [Except.ok.injEq, Prod.mk.injEq] at h
          rw [← h.2]; omega
  split at h
  rename_i hs
  split at hs
  · cases hs; exact key _ _ (by simp) h
  · cases hs; exact key _ _ (by simp) h
  · cases hs; exact key _ _ (Nat.le_refl _) h

theorem length_readFraction {positive : Bool} {significand : Nat} {power : Int}
    {cs rest : List Char} {n : Number}
    (h : readFraction positive significand power cs = .ok (n, rest)) :
    rest.length ≤ cs.length := by
  unfold readFraction at h
  have hd := length_dropWhile_le isDigit cs
  dsimp only at h
  split at h
  · cases h
  · split at h
    · rename_i c r hr
      rw [hr, List.length_cons] at hd
      split at h
      · have := length_readExponent h
        omega
      · rw [rest_finishFloat h]
        exact length_dropWhile_le isDigit cs
    · rw [rest_finishFloat h]
      exact length_dropWhile_le isDigit cs

theorem length_readNumber {positive : Bool} {cs rest : List Char} {n : Number}
    (h : readNumber positive cs = .ok (n, rest)) : rest.length < cs.length := by
  unfold readNumber at h
  have hd : cs.takeWhile isDigit ++ cs.dropWhile isDigit = cs := List.takeWhile_append_dropWhile
  have hl := congrArg List.length hd
  rw [List.length_append] at hl
  dsimp only at h
  split at h
  · cases h
  · cases h
  · rename_i hnil _
    have hpos : 0 < (cs.takeWhile isDigit).length := by
      rcases hc : cs.takeWhile isDigit with _ | ⟨c, r⟩
      · exact absurd hc hnil
      · simp
    split at h
    · rename_i r hr
      have := length_readFraction h
      rw [hr, List.length_cons] at hl
      omega
    · rename_i c r _ hr
      rw [hr, List.length_cons] at hl
      split at h
      · have := length_readExponent h
        omega
      · split at h
        · simp only [Except.ok.injEq, Prod.mk.injEq] at h
          rw [← h.2, hr, List.length_cons]; omega
        · rw [rest_finishFloat h, hr, List.length_cons]; omega
    · rename_i hr
      rw [hr, List.length_nil] at hl
      split at h
      · simp only [Except.ok.injEq, Prod.mk.injEq] at h
        rw [← h.2, hr, List.length_nil]; omega
      · rw [rest_finishFloat h, hr, List.length_nil]; omega

end GraphStack.Json
