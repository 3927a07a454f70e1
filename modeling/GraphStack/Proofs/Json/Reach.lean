import GraphStack.Json.Field
import GraphStack.Json.Members
import GraphStack.Proofs.Json.Bytes

/-!
# How far reading gets

What a reader leaves of a text is the end of the text, and a reader that stops has looked at no
more than that (`Stays`). One lemma for each reader follows its branches; the loops over members
and over the characters of a string are inductions with the lemma of one turn.
-/

namespace GraphStack.Json

/-- The halt is in the text, and so are the bytes counted beyond it. -/
def Halt.Within (h : Halt) (cs : List Char) : Prop :=
  h.unread <:+ cs ∧ h.beyond ≤ byteLength h.unread

def Stays {α : Type} (cs : List Char) : Step α → Prop
  | .ok (_, rest) => rest <:+ cs
  | .error halt => halt.Within cs

section Halts

variable {problem : Problem} {halt : Halt} {cs ds : List Char}

theorem Halt.within_here (h : cs <:+ ds) : (Halt.here problem cs).Within ds := ⟨h, Nat.zero_le _⟩

theorem Halt.within_atNext (h : cs <:+ ds) : (Halt.atNext problem cs).Within ds := by
  refine ⟨h, ?_⟩
  have := length_le_byteLength cs
  cases cs with
  | nil => exact Nat.zero_le _
  | cons c cs =>
    rw [List.length_cons] at this
    exact (Nat.le_add_left 1 _).trans this

theorem Halt.Within.mono (h : halt.Within cs) (hs : cs <:+ ds) : halt.Within ds :=
  ⟨h.1.trans hs, h.2⟩

theorem Stays.mono {α : Type} {r : Step α} (h : Stays cs r) (hs : cs <:+ ds) : Stays ds r := by
  cases r with
  | error halt => exact Halt.Within.mono h hs
  | ok p => exact List.IsSuffix.trans h hs

theorem Stays.rest_suffix {α : Type} {r : Step α} (h : Stays cs r) {a : α} {rest : List Char}
    (hr : r = .ok (a, rest)) : rest <:+ cs := by
  subst hr
  exact h

theorem Stays.halt_within {α : Type} {r : Step α} (h : Stays cs r) (hr : r = .error halt) :
    halt.Within cs := by
  subst hr
  exact h

/-- The bytes read are bytes of the text. -/
theorem Halt.Within.bytesRead_le (h : halt.Within cs) : halt.bytesRead cs ≤ byteLength cs := by
  have := byteLength_le_of_suffix h.1
  have := h.2
  unfold Halt.bytesRead
  omega

end Halts

theorem skipSpace_suffix (cs : List Char) : skipSpace cs <:+ cs := List.dropWhile_suffix isSpace

/-- What comes after the first character behind space. -/
theorem suffix_of_skipSpace {cs rest : List Char} {c : Char} (h : skipSpace cs = c :: rest) :
    rest <:+ cs := (List.suffix_cons c rest).trans (h ▸ skipSpace_suffix cs)

/-! ## Strings -/

theorem stays_readHex (cs : List Char) : Stays cs (readHex cs) := by
  unfold readHex
  split
  · exact ⟨List.suffix_rfl, le_refl _⟩
  · next hlong =>
    have hfour : 4 ≤ byteLength cs := by
      have hlen := congrArg byteLength (List.take_append_drop 4 cs)
      rw [byteLength_append] at hlen
      omega
    split
    · next rest =>
      split
      · exact ⟨[_, _, _, _], rfl⟩
      · exact ⟨List.suffix_rfl, hfour⟩
    · exact ⟨List.suffix_rfl, hfour⟩

theorem stays_readLowSurrogate (high : Nat) (cs : List Char) :
    Stays cs (readLowSurrogate high cs) := by
  unfold readLowSurrogate
  split
  · exact Halt.within_here List.nil_suffix
  · split
    · exact Halt.within_here List.nil_suffix
    · next rest =>
      have hrest : rest <:+ '\\' :: 'u' :: rest := ⟨['\\', 'u'], rfl⟩
      have hx := (stays_readHex rest).mono hrest
      split
      · next hq => exact hx.halt_within hq
      · next hq =>
        have hbehind := hx.rest_suffix hq
        split
        · exact hbehind
        · exact Halt.within_here hbehind
    · exact Halt.within_atNext (List.suffix_cons _ _)
  · exact Halt.within_atNext List.suffix_rfl

theorem stays_readEscape (cs : List Char) : Stays cs (readEscape cs) := by
  unfold readEscape
  split
  case h_1 => exact Halt.within_here List.nil_suffix
  case h_10 rest =>
    have hx := (stays_readHex rest).mono (List.suffix_cons 'u' rest)
    split
    · next hq => exact hx.halt_within hq
    · next hq =>
      have hbehind := hx.rest_suffix hq
      split
      · exact Halt.within_here hbehind
      · split
        · exact (stays_readLowSurrogate _ _).mono hbehind
        · exact hbehind
  case h_11 => exact Halt.within_atNext List.suffix_rfl
  all_goals exact List.suffix_cons _ _

theorem stays_decodeFrom (done cs : List Char) : Stays cs (decodeFrom done cs) := by
  fun_induction decodeFrom done cs with
  | case1 => exact Halt.within_here List.nil_suffix
  | case2 => exact List.suffix_cons _ _
  | case3 done rest halt hr =>
    exact ((stays_readEscape rest).halt_within hr).mono (List.suffix_cons _ _)
  | case4 done rest c rest' hr hl ih =>
    have hbehind := (stays_readEscape rest).rest_suffix hr
    exact ih.mono (hbehind.trans (List.suffix_cons _ _))
  | case5 => exact Halt.within_atNext List.suffix_rfl
  | case6 done c rest hq hb hc ih => exact ih.mono (List.suffix_cons _ _)

theorem stays_decode (cs : List Char) : Stays cs (decode cs) := stays_decodeFrom [] cs

/-! ## Numbers -/

theorem absorb_suffix (limit n : Nat) (cs : List Char) : (absorb limit n cs).2 <:+ cs := by
  induction cs generalizing n with
  | nil => exact List.suffix_rfl
  | cons c cs ih =>
    rw [absorb]
    split
    · exact (ih _).trans (List.suffix_cons c cs)
    · exact List.suffix_rfl

theorem dropWhile_digits_suffix (cs : List Char) : cs.dropWhile isDigit <:+ cs :=
  List.dropWhile_suffix isDigit

section Number

variable (positive : Bool) (significand : Nat) (power : Int) (cs : List Char)

theorem stays_finishFloat : Stays cs (finishFloat positive significand power cs) := by
  unfold finishFloat
  split
  · exact List.suffix_rfl
  · exact Halt.within_here List.suffix_rfl

theorem stays_readExponent : Stays cs (readExponent positive significand power cs) := by
  unfold readExponent
  split
  next upward ds hsign =>
  have hds : ds <:+ cs := by
    split at hsign
    all_goals
      cases hsign
      first | exact List.suffix_cons _ _ | exact List.suffix_rfl
  refine Stays.mono ?_ hds
  have hrest := dropWhile_digits_suffix ds
  dsimp only
  split
  · exact Halt.within_atNext List.suffix_rfl
  · split
    · exact (stays_finishFloat _ _ _ _).mono hrest
    · next hq =>
      split
      · have hexcess := absorb_suffix (twoTo 31) 0 (ds.takeWhile isDigit)
        rw [hq] at hexcess
        obtain ⟨front, hfront⟩ := (List.drop_suffix 1 _).trans hexcess
        refine Halt.within_here ⟨front, ?_⟩
        rw [← List.append_assoc, hfront, List.takeWhile_append_dropWhile]
      · exact hrest

theorem stays_readFraction : Stays cs (readFraction positive significand power cs) := by
  have hrest := dropWhile_digits_suffix cs
  unfold readFraction
  dsimp only
  split
  · exact Halt.within_atNext List.suffix_rfl
  · split
    · next hq =>
      split
      · rw [hq] at hrest
        exact (stays_readExponent _ _ _ _).mono ((List.suffix_cons _ _).trans hrest)
      · exact (stays_finishFloat _ _ _ _).mono hrest
    · exact (stays_finishFloat _ _ _ _).mono hrest

theorem stays_readNumber : Stays cs (readNumber positive cs) := by
  have hrest := dropWhile_digits_suffix cs
  unfold readNumber
  dsimp only
  split
  · exact Halt.within_atNext List.suffix_rfl
  · next d ds hq =>
    refine Halt.within_atNext ⟨['0'], ?_⟩
    rw [← List.append_assoc, List.singleton_append, ← hq, List.takeWhile_append_dropWhile]
  · split
    · next hq =>
      rw [hq] at hrest
      exact (stays_readFraction _ _ _ _).mono ((List.suffix_cons _ _).trans hrest)
    · next hq =>
      split
      · rw [hq] at hrest
        exact (stays_readExponent _ _ _ _).mono ((List.suffix_cons _ _).trans hrest)
      · split
        · exact hrest
        · exact (stays_finishFloat _ _ _ _).mono hrest
    · split
      · exact hrest
      · exact (stays_finishFloat _ _ _ _).mono hrest

end Number

/-! ## Values -/

theorem stays_readWord (word cs : List Char) : Stays cs (readWord word cs) := by
  induction word generalizing cs with
  | nil => exact List.suffix_rfl
  | cons w ws ih =>
    unfold readWord
    split
    · exact Halt.within_here List.nil_suffix
    · split
      · exact (ih _).mono (List.suffix_cons _ _)
      · exact Halt.within_atNext List.suffix_rfl

theorem within_afterWord (word : String) (found : Found) (expected : String) (cs : List Char) :
    (afterWord word found expected cs).Within cs := by
  have hx := stays_readWord word.toList cs
  unfold afterWord
  split
  · next hq => exact hx.halt_within hq
  · next hq => exact Halt.within_here (hx.rest_suffix hq)

theorem within_afterNumber (expected : String) {cs : List Char} {r : Step Number}
    (h : Stays cs r) : (afterNumber expected r).Within cs := by
  cases r with
  | error halt => exact h
  | ok p => exact Halt.within_here h

theorem within_misfit (expected : String) (cs : List Char) : (misfit expected cs).Within cs := by
  unfold misfit
  split
  · exact (within_afterWord _ _ _ _).mono (List.suffix_cons _ _)
  · exact (within_afterWord _ _ _ _).mono (List.suffix_cons _ _)
  · exact (within_afterWord _ _ _ _).mono (List.suffix_cons _ _)
  · exact within_afterNumber _ ((stays_readNumber _ _).mono (List.suffix_cons _ _))
  · next rest =>
    have hx := (stays_decode rest).mono (List.suffix_cons '"' rest)
    split
    · next hq => exact hx.halt_within hq
    · next hq => exact Halt.within_here (hx.rest_suffix hq)
  · exact Halt.within_here List.suffix_rfl
  · exact Halt.within_here List.suffix_rfl
  · split
    · exact within_afterNumber _ (stays_readNumber _ _)
    · exact Halt.within_atNext List.suffix_rfl
  · exact Halt.within_atNext List.nil_suffix

theorem stays_readText (cs : List Char) : Stays cs (readText cs) := by
  unfold readText
  split
  · next rest hs =>
    have hx := (stays_decode rest).mono (suffix_of_skipSpace hs)
    split
    · next hq => exact hx.halt_within hq
    · next hq => exact hx.rest_suffix hq
  · exact (within_misfit _ _).mono (skipSpace_suffix cs)

theorem stays_countOf (n : Number) (rest : List Char) : Stays rest (countOf n rest) := by
  cases n with
  | natural n => exact List.suffix_rfl
  | negative k => exact Halt.within_here List.suffix_rfl
  | float x => exact Halt.within_here List.suffix_rfl

theorem stays_readCount (cs : List Char) : Stays cs (readCount cs) := by
  have number {positive : Bool} {ds : List Char} (hds : ds <:+ cs) :
      Stays cs (readNumber positive ds) := (stays_readNumber positive ds).mono hds
  unfold readCount
  split
  · next hs =>
    have hds := suffix_of_skipSpace hs
    split
    · next hq => exact (number hds).halt_within hq
    · next hq => exact (stays_countOf _ _).mono ((number hds).rest_suffix hq)
  · next hs =>
    have hds := hs ▸ skipSpace_suffix cs
    split
    · split
      · next hq => exact (number hds).halt_within hq
      · next hq => exact (stays_countOf _ _).mono ((number hds).rest_suffix hq)
    · exact (within_misfit _ _).mono hds
  · exact (within_misfit _ _).mono List.nil_suffix

theorem stays_readOptionalCount (cs : List Char) : Stays cs (readOptionalCount cs) := by
  unfold readOptionalCount
  split
  · next rest hs =>
    have hx := (stays_readWord "ull".toList rest).mono (suffix_of_skipSpace hs)
    split
    · next hq => exact hx.halt_within hq
    · next hq => exact hx.rest_suffix hq
  · have hx := (stays_readCount (skipSpace cs)).mono (skipSpace_suffix cs)
    split
    · next hq => exact hx.halt_within hq
    · next hq => exact hx.rest_suffix hq

/-! ## Members and elements -/

theorem afterClose_suffix (bracket : Char) (cs : List Char) : afterClose bracket cs <:+ cs := by
  unfold afterClose
  split
  · next hs =>
    split
    · exact suffix_of_skipSpace hs
    · exact hs ▸ skipSpace_suffix cs
  · exact List.nil_suffix

theorem within_badKey (m : Mismatch) (cs : List Char) : (badKey m cs).Within cs :=
  Halt.within_here (afterClose_suffix _ cs)

theorem stays_skipColon (cs : List Char) : Stays cs (skipColon cs) := by
  unfold skipColon
  split
  · next hs => exact suffix_of_skipSpace hs
  · exact Halt.within_atNext List.nil_suffix
  · exact Halt.within_atNext (skipSpace_suffix cs)

def NextKey.rest : NextKey → List Char
  | key rest => rest
  | closed rest => rest

def NextElement.rest : NextElement → List Char
  | element rest => rest
  | closed rest => rest

theorem stays_nextKey (first : Bool) (cs : List Char) :
    Stays cs ((nextKey first cs).map fun k => (k, k.rest)) := by
  unfold nextKey
  split
  · exact Halt.within_atNext List.nil_suffix
  · next hs => exact hs ▸ skipSpace_suffix cs
  · next c rest _ hs =>
    have hrest := suffix_of_skipSpace hs
    have hall := hs ▸ skipSpace_suffix cs
    split
    · split
      · exact hrest
      · exact Halt.within_atNext hall
    · split
      · split
        · exact Halt.within_atNext List.nil_suffix
        · next hs' => exact (suffix_of_skipSpace hs').trans hrest
        · next hs' => exact Halt.within_atNext ((hs' ▸ skipSpace_suffix rest).trans hrest)
        · exact Halt.within_atNext ((skipSpace_suffix rest).trans hrest)
      · exact Halt.within_atNext hall

theorem suffix_of_nextKey {first : Bool} {cs : List Char} {k : NextKey}
    (h : nextKey first cs = .ok k) : k.rest <:+ cs :=
  (stays_nextKey first cs).rest_suffix (a := k) (by rw [h]; rfl)

theorem within_nextKey {first : Bool} {cs : List Char} {halt : Halt}
    (h : nextKey first cs = .error halt) : halt.Within cs :=
  (stays_nextKey first cs).halt_within (by rw [h]; rfl)

theorem stays_nextElement (first : Bool) (cs : List Char) :
    Stays cs ((nextElement first cs).map fun e => (e, e.rest)) := by
  unfold nextElement
  split
  · exact Halt.within_atNext List.nil_suffix
  · next hs => exact hs ▸ skipSpace_suffix cs
  · next c rest _ hs =>
    have hrest := suffix_of_skipSpace hs
    have hall := hs ▸ skipSpace_suffix cs
    split
    · exact hall
    · split
      · split
        · exact Halt.within_atNext List.nil_suffix
        · next hs' => exact Halt.within_atNext ((hs' ▸ skipSpace_suffix rest).trans hrest)
        · exact (skipSpace_suffix rest).trans hrest
      · exact Halt.within_atNext hall

theorem suffix_of_nextElement {first : Bool} {cs : List Char} {e : NextElement}
    (h : nextElement first cs = .ok e) : e.rest <:+ cs :=
  (stays_nextElement first cs).rest_suffix (a := e) (by rw [h]; rfl)

theorem within_nextElement {first : Bool} {cs : List Char} {halt : Halt}
    (h : nextElement first cs = .error halt) : halt.Within cs :=
  (stays_nextElement first cs).halt_within (by rw [h]; rfl)

theorem stays_closeObject (cs : List Char) : Stays cs (closeObject cs) := by
  unfold closeObject
  split
  · next hs => exact suffix_of_skipSpace hs
  · next hs => exact Halt.within_atNext (hs ▸ skipSpace_suffix cs)
  · exact Halt.within_atNext List.nil_suffix
  · exact Halt.within_atNext (skipSpace_suffix cs)

theorem stays_closeList (cs : List Char) : Stays cs (closeList cs) := by
  unfold closeList
  split
  · next hs => exact suffix_of_skipSpace hs
  · next rest hs =>
    have hrest := (skipSpace_suffix rest).trans (suffix_of_skipSpace hs)
    split
    · next hs' => exact Halt.within_atNext (hs' ▸ hrest)
    · exact Halt.within_atNext hrest
  · exact Halt.within_atNext List.nil_suffix
  · exact Halt.within_atNext (skipSpace_suffix cs)

theorem within_endOfText {cs : List Char} {halt : Halt} (h : endOfText cs = .error halt) :
    halt.Within cs := by
  unfold endOfText at h
  split at h
  · cases h
  · cases h
    exact Halt.within_atNext (skipSpace_suffix cs)

/-- A reader of members stays in the text if the reader of each value does. -/
theorem stays_readMembers {δ : Type} {m : Member δ}
    (hm : ∀ d key cs, Stays cs (m.read d key cs)) (first : Bool) (d : δ) (cs : List Char) :
    Stays cs (readMembers m first d cs) := by
  fun_induction readMembers m first d cs with
  | case1 first d cs halt hk => exact within_nextKey hk
  | case2 first d cs rest hk => exact suffix_of_nextKey hk
  | case3 first d cs rest hk halt hd =>
    exact ((stays_decode rest).halt_within hd).mono (suffix_of_nextKey hk)
  | case4 first d cs rest hk key rest' hd halt hread =>
    have hrest' := ((stays_decode rest).rest_suffix hd).trans (suffix_of_nextKey hk)
    exact ((hm _ _ _).halt_within hread).mono hrest'
  | case5 first d cs rest hk key rest' hd d' rest'' hread _ _ _ ih =>
    have hrest' := ((stays_decode rest).rest_suffix hd).trans (suffix_of_nextKey hk)
    exact ih.mono (((hm _ _ _).rest_suffix hread).trans hrest')

end GraphStack.Json
