import GraphStack.Json.Field
import GraphStack.Json.Members

/-!
# Values passed over

`skipValue` passes over the value of a member that nobody wants. It checks the grammar but forms no
value: numbers have no range, and surrogates in strings need not pair up.
-/

namespace GraphStack.Json

def skipExponent (cs : List Char) : Step Unit :=
  let cs := match cs with
    | '+' :: r => r
    | '-' :: r => r
    | r => r
  if (cs.takeWhile isDigit).isEmpty then .error (.atNext .invalidNumber cs)
  else .ok ((), cs.dropWhile isDigit)

def skipFraction (cs : List Char) : Step Unit :=
  let rest := cs.dropWhile isDigit
  if (cs.takeWhile isDigit).isEmpty then .error (.atNext .invalidNumber cs)
  else
    match rest with
    | c :: r => if isExponentLetter c then skipExponent r else .ok ((), rest)
    | [] => .ok ((), rest)

def skipNumber (cs : List Char) : Step Unit :=
  let rest := cs.dropWhile isDigit
  match cs.takeWhile isDigit with
  | [] => .error (.atNext .invalidNumber cs)
  | '0' :: d :: ds => .error (.atNext .invalidNumber (d :: ds ++ rest))
  | _ =>
    match rest with
    | '.' :: r => skipFraction r
    | c :: r => if isExponentLetter c then skipExponent r else .ok ((), rest)
    | [] => .ok ((), rest)

def skipEscape (cs : List Char) : Step Unit :=
  match cs with
  | [] => .error (.here .endInString [])
  | 'u' :: rest =>
    match readHex rest with
    | .error e => .error e
    | .ok (_, rest) => .ok ((), rest)
  | c :: rest =>
    if c ∈ ['"', '\\', '/', 'b', 'f', 'n', 'r', 't'] then .ok ((), rest)
    else .error (.atNext .invalidEscape cs)

theorem length_skipExponent {cs rest : List Char} (h : skipExponent cs = .ok ((), rest)) :
    rest.length ≤ cs.length := by
  unfold skipExponent at h
  dsimp only at h
  have key : ∀ r : List Char, r.length ≤ cs.length →
      (if (r.takeWhile isDigit).isEmpty then (.error (.atNext .invalidNumber r) : Step Unit)
      else .ok ((), r.dropWhile isDigit)) = .ok ((), rest) → rest.length ≤ cs.length := by
    intro r hr h
    have := length_dropWhile_le isDigit r
    split at h
    · cases h
    · cases h; omega
  revert h
  split
  · exact key _ (by simp)
  · exact key _ (by simp)
  · exact key _ (Nat.le_refl _)

theorem length_skipFraction {cs rest : List Char} (h : skipFraction cs = .ok ((), rest)) :
    rest.length ≤ cs.length := by
  unfold skipFraction at h
  have hd := length_dropWhile_le isDigit cs
  dsimp only at h
  split at h
  · cases h
  · split at h
    · rename_i hr
      rw [hr, List.length_cons] at hd
      split at h
      · have := length_skipExponent h
        omega
      · simp only [Except.ok.injEq, Prod.mk.injEq] at h
        rw [← h.2, hr]; simp; omega
    · rename_i hr
      simp only [Except.ok.injEq, Prod.mk.injEq] at h
      rw [← h.2, hr]; simp

theorem length_skipNumber {cs rest : List Char} (h : skipNumber cs = .ok ((), rest)) :
    rest.length < cs.length := by
  unfold skipNumber at h
  have hd : cs.takeWhile isDigit ++ cs.dropWhile isDigit = cs := List.takeWhile_append_dropWhile
  have hl := congrArg List.length hd
  rw [List.length_append] at hl
  dsimp only at h
  split at h
  · cases h
  · cases h
  · rename_i hnil _
    have hpos : 0 < (cs.takeWhile isDigit).length := by
      rcases hc : cs.takeWhile isDigit with _ | ⟨c, r⟩
      · exact absurd hc hnil
      · simp
    split at h
    · rename_i r hr
      have := length_skipFraction h
      rw [hr, List.length_cons] at hl
      omega
    · rename_i c r _ hr
      rw [hr, List.length_cons] at hl
      split at h
      · have := length_skipExponent h
        omega
      · simp only [Except.ok.injEq, Prod.mk.injEq] at h
        rw [← h.2, hr, List.length_cons]; omega
    · rename_i hr
      rw [hr, List.length_nil] at hl
      simp only [Except.ok.injEq, Prod.mk.injEq] at h
      rw [← h.2, hr, List.length_nil]; omega

theorem length_skipEscape {cs rest : List Char} (h : skipEscape cs = .ok ((), rest)) :
    rest.length < cs.length := by
  unfold skipEscape at h
  split at h
  · cases h
  · split at h
    · cases h
    · rename_i hx
      have := length_readHex hx
      cases h
      simp; omega
  · split at h
    · cases h; simp
    · cases h

def skipString (cs : List Char) : Step Unit :=
  match cs with
  | [] => .error (.here .endInString [])
  | '"' :: rest => .ok ((), rest)
  | '\\' :: rest =>
    match h : skipEscape rest with
    | .error e => .error e
    | .ok (_, rest') =>
      have := length_skipEscape h
      skipString rest'
  | c :: rest =>
    if c.toNat < 0x20 then .error (.here .controlCharacter cs)
    else skipString rest
termination_by cs.length
decreasing_by all_goals (simp only [List.length_cons] at *; omega)

theorem length_skipString {cs rest : List Char} (h : skipString cs = .ok ((), rest)) :
    rest.length < cs.length := by
  fun_induction skipString cs with
  | case1 => cases h
  | case2 => cases h; simp
  | case3 => cases h
  | case4 r _ r' hr hl ih =>
    have := ih h
    simp; omega
  | case5 => cases h
  | case6 c r _ _ _ ih =>
    have := ih h
    simp; omega

inductive Bracket
  | list
  | object
  deriving DecidableEq, Repr

namespace Bracket

def close : Bracket → Char
  | .list => ']'
  | .object => '\x7d'

def atEnd : Bracket → Problem
  | .list => .endInList
  | .object => .endInObject

def atOther : Bracket → Problem
  | .list => .expectedListCommaOrEnd
  | .object => .expectedObjectCommaOrEnd

end Bracket

/-- The key before a value of an object, colon included; a list has none. -/
def skipKey (b : Bracket) (cs : List Char) : Step Unit :=
  match b with
  | .list => .ok ((), cs)
  | .object =>
    match skipSpace cs with
    | [] => .error (.atNext .endInObject [])
    | '"' :: r =>
      match skipString r with
      | .error e => .error e
      | .ok (_, r) => skipColon r
    | r => .error (.atNext .keyNotString r)

theorem length_skipKey {b : Bracket} {cs rest : List Char} (h : skipKey b cs = .ok ((), rest)) :
    rest.length ≤ cs.length := by
  have hs := length_skipSpace_le cs
  unfold skipKey at h
  split at h
  · cases h; exact Nat.le_refl _
  · split at h
    · cases h
    · rename_i hq
      rw [hq, List.length_cons] at hs
      split at h
      · cases h
      · rename_i hk
        have := length_skipString hk
        have := length_skipColon h
        omega
    · cases h

/-- A value that opens no bracket. -/
def skipScalar (cs : List Char) : Step Unit :=
  match cs with
  | 'n' :: r => readWord "ull".toList r
  | 't' :: r => readWord "rue".toList r
  | 'f' :: r => readWord "alse".toList r
  | '-' :: r => skipNumber r
  | '"' :: r => skipString r
  | c :: r => if isDigit c then skipNumber (c :: r) else .error (.atNext .expectedValue (c :: r))
  | [] => .error (.atNext .endInValue [])

theorem length_skipScalar {cs rest : List Char} (h : skipScalar cs = .ok ((), rest)) :
    rest.length < cs.length := by
  unfold skipScalar at h
  split at h
  · have := length_readWord h
    simp; omega
  · have := length_readWord h
    simp; omega
  · have := length_readWord h
    simp; omega
  · have := length_skipNumber h
    simp; omega
  · have := length_skipString h
    simp; omega
  · split at h
    · exact length_skipNumber h
    · cases h
  · cases h

mutual
/-- A value inside the given brackets, the innermost first, and all that follows it up to the last
closing bracket. -/
def skipWithin (brackets : List Bracket) (cs : List Char) : Step Unit :=
  match hs : skipSpace cs with
  | '[' :: r =>
    have := hs ▸ length_skipSpace_le cs
    skipOpened .list brackets r
  | '\x7b' :: r =>
    have := hs ▸ length_skipSpace_le cs
    skipOpened .object brackets r
  | r =>
    match hv : skipScalar r with
    | .error e => .error e
    | .ok (_, rest) =>
      have := hs ▸ length_skipSpace_le cs
      have := length_skipScalar hv
      skipRest brackets rest
termination_by (cs.length, 0)
decreasing_by all_goals simp_all [Prod.lex_def] <;> omega

def skipOpened (b : Bracket) (outer : List Bracket) (cs : List Char) : Step Unit :=
  match hs : skipSpace cs with
  | [] => .error (.atNext b.atEnd [])
  | c :: r =>
    have := hs ▸ length_skipSpace_le cs
    if c = b.close then skipRest outer r
    else
      match hk : skipKey b (c :: r) with
      | .error e => .error e
      | .ok (_, rest) =>
        have := length_skipKey hk
        skipWithin (b :: outer) rest
termination_by (cs.length, 1)
decreasing_by all_goals simp_all [Prod.lex_def] <;> omega

def skipRest (brackets : List Bracket) (cs : List Char) : Step Unit :=
  match brackets with
  | [] => .ok ((), cs)
  | b :: outer =>
    match hs : skipSpace cs with
    | [] => .error (.atNext b.atEnd [])
    | c :: r =>
      have := hs ▸ length_skipSpace_le cs
      if c = b.close then skipRest outer r
      else if c = ',' then
        match hk : skipKey b r with
        | .error e => .error e
        | .ok (_, rest) =>
          have := length_skipKey hk
          skipWithin (b :: outer) rest
      else .error (.atNext b.atOther (c :: r))
termination_by (cs.length, 0)
decreasing_by all_goals simp_all [Prod.lex_def] <;> omega
end

theorem length_skipWithin {brackets : List Bracket} {cs rest : List Char}
    (h : skipWithin brackets cs = .ok ((), rest)) : rest.length ≤ cs.length := by
  refine skipWithin.induct
    (fun brackets cs => ∀ rest, skipWithin brackets cs = .ok ((), rest) → rest.length ≤ cs.length)
    (fun brackets cs => ∀ rest, skipRest brackets cs = .ok ((), rest) → rest.length ≤ cs.length)
    (fun b outer cs => ∀ rest, skipOpened b outer cs = .ok ((), rest) → rest.length ≤ cs.length)
    ?list ?object ?badScalar ?scalar ?done ?endBehind ?closed ?badNextKey ?comma ?noComma ?endBefore
    ?empty ?badKey ?key brackets cs rest h
  -- `skipWithin`: a bracket is opened, or a scalar is read.
  case list =>
    intro brackets cs r hs hr ih rest h
    have hopened : skipOpened .list brackets r = .ok ((), rest) := by
      rw [skipWithin] at h
      grind
    exact Nat.le_trans (ih rest hopened) (Nat.le_of_succ_le hr)
  case object =>
    intro brackets cs r hs hr ih rest h
    have hopened : skipOpened .object brackets r = .ok ((), rest) := by
      rw [skipWithin] at h
      grind
    exact Nat.le_trans (ih rest hopened) (Nat.le_of_succ_le hr)
  case badScalar =>
    intro brackets cs e hl ho hv rest h
    rw [skipWithin] at h
    grind
  case scalar =>
    intro brackets cs _ r hl ho hv hs hr ih rest h
    have hrest : skipRest brackets r = .ok ((), rest) := by
      rw [skipWithin] at h
      grind
    have hle := ih rest hrest
    omega
  -- `skipRest`: nothing is open, or a closing bracket or a comma follows.
  case done =>
    intro cs rest h
    rw [skipRest] at h
    cases h
    exact Nat.le_refl _
  case endBehind =>
    intro cs b outer hs rest h
    rw [skipRest] at h
    grind
  case closed =>
    intro cs b outer r hs hr ih rest h
    have hrest : skipRest outer r = .ok ((), rest) := by
      rw [skipRest] at h
      grind
    exact Nat.le_trans (ih rest hrest) (Nat.le_of_succ_le hr)
  case badNextKey =>
    intro cs b outer r e hk hs hr hc rest h
    rw [skipRest] at h
    grind
  case comma =>
    intro cs b outer r _ r' hk hr' hs hr hc ih rest h
    have hnext : skipWithin (b :: outer) r' = .ok ((), rest) := by
      rw [skipRest] at h
      grind
    have hle := ih rest hnext
    rw [List.length_cons] at hr
    omega
  case noComma =>
    intro cs b outer c r hs hr hc hcomma rest h
    rw [skipRest] at h
    grind
  -- `skipOpened`: the bracket is closed at once, or a first value follows.
  case endBefore =>
    intro b outer cs hs rest h
    rw [skipOpened] at h
    grind
  case empty =>
    intro b outer cs r hs hr ih rest h
    have hrest : skipRest outer r = .ok ((), rest) := by
      rw [skipOpened] at h
      grind
    exact Nat.le_trans (ih rest hrest) (Nat.le_of_succ_le hr)
  case badKey =>
    intro b outer cs c r hs hr hc e hk rest h
    rw [skipOpened] at h
    grind
  case key =>
    intro b outer cs c r hs hr hc _ r' hk hr' ih rest h
    have hfirst : skipWithin (b :: outer) r' = .ok ((), rest) := by
      rw [skipOpened] at h
      grind
    exact Nat.le_trans (ih rest hfirst) (Nat.le_trans hr' hr)

def skipValue (cs : List Char) : Step Unit := skipWithin [] cs

theorem length_skipValue {cs rest : List Char} (h : skipValue cs = .ok ((), rest)) :
    rest.length ≤ cs.length := length_skipWithin h

end GraphStack.Json
