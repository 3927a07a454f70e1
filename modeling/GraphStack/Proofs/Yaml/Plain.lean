import GraphStack.Proofs.Yaml.Characters
import GraphStack.Yaml.Plain

/-!
# Plain scalars are read as they are written

A text that may be written plain holds nothing that ends a plain scalar, so it is read up to the
colon behind it, if it is a key, or over the line end behind it.
-/

namespace GraphStack.Yaml.Plain

open Render

/-- Nothing in it ends a plain scalar that holds it, and it does not end with a space. -/
structure Inner (cs : List Char) : Prop where
  line : ∀ c ∈ cs, isPrintable c = true ∧ isBreak c = false
  indicator : hasInnerIndicator cs = false
  last : cs.getLast?.any isSpace = false

namespace Inner

variable {c : Char} {cs rest : List Char}

theorem of_allowsPlain (ha : AllowsPlain cs) : Inner cs := ⟨ha.line, ha.inner, ha.last⟩

theorem tail (hi : Inner (c :: cs)) : Inner cs where
  line d hd := hi.line d (List.mem_cons_of_mem _ hd)
  indicator := (Bool.or_eq_false_iff.1 hi.indicator).2
  last := by
    have hlast := hi.last
    rw [List.getLast?_cons] at hlast
    cases hd : cs.getLast? with
    | none => rfl
    | some d =>
      rw [hd] at hlast
      exact hlast

theorem ne_nil_of_isSpace (hi : Inner (c :: cs)) (hs : isSpace c = true) : cs ≠ [] := by
  rintro rfl
  exact Bool.false_ne_true (hi.last.symm.trans hs)

theorem head_ne_of_isSpace (hi : Inner (c :: cs)) (hs : isSpace c = true) :
    cs.head? ≠ some '#' := by
  have hblank : isBlank c = true := (isBlank_eq_isSpace (hi.line c List.mem_cons_self).1).trans hs
  have hpair := (Bool.or_eq_false_iff.1 (Bool.or_eq_false_iff.1 hi.indicator).1).2
  rw [hblank] at hpair
  exact fun he => absurd (beq_iff_eq.2 he) (by simpa using hpair)

theorem endsBefore_eq_false (hi : Inner (c :: cs)) (rest : List Char) :
    endsBefore false c (cs ++ rest) = false := by
  have hcolon := (Bool.or_eq_false_iff.1 (Bool.or_eq_false_iff.1 hi.indicator).1).1
  rw [endsBefore, Bool.false_and, Bool.or_false, Bool.and_eq_false_iff]
  rcases Bool.and_eq_false_iff.1 hcolon with hc | hs
  · exact .inl hc
  · cases cs with
    | nil => cases hs
    | cons d ds => exact .inr hs

end Inner

variable {margin : Int}

/-- Within a line, the blanks since the last word become part of the text with the next one. -/
theorem readFrom_inner {cs passed : List Char} (hi : Inner cs)
    (hword : passed ≠ [] → cs.head? ≠ some '#') (hend : cs = [] → passed = [])
    (done : List Char) (since : Nat) (rest : List Char) :
    ∃ n, readFrom false margin done (.blanks passed) since (cs ++ rest) =
      readFrom false margin (cs.reverse ++ (passed ++ done)) .nothing n rest := by
  induction cs generalizing passed done since with
  | nil =>
    obtain rfl := hend rfl
    exact ⟨since, rfl⟩
  | cons c cs ih =>
    obtain ⟨hc, hb⟩ := hi.line c List.mem_cons_self
    have hjoin := joinsNext_eq_false hc (cs ++ rest)
    rw [List.cons_append, readFrom, hjoin, hb, isBlank_eq_isSpace hc]
    cases hs : isSpace c with
    | true =>
      -- The text does not end with a space, and no comment begins behind one.
      have hword : c :: passed ≠ [] → cs.head? ≠ some '#' := fun _ => hi.head_ne_of_isSpace hs
      have hend : cs = [] → c :: passed = [] := fun he => absurd he (hi.ne_nil_of_isSpace hs)
      obtain ⟨n, hn⟩ := ih hi.tail hword hend done (since + 1)
      refine ⟨n, ?_⟩
      have htab : ¬ (c = '\t' ∧ Gap.before margin (.blanks passed) = true) :=
        fun h => Bool.false_ne_true h.2
      rw [List.reverse_cons, List.append_assoc, List.singleton_append]
      rw [if_neg Bool.false_ne_true, if_neg Bool.false_ne_true, if_pos rfl, if_neg htab]
      exact hn
    | false =>
      have hcomment : endsAtWord (.blanks passed) (c :: (cs ++ rest)) = false := by
        cases passed with
        | nil => rfl
        | cons p ps =>
          have hne : c ≠ '#' := fun he => hword (List.cons_ne_nil p ps) (congrArg some he)
          simp [endsAtWord, Gap.atLineStart, Gap.isNothing, hne]
      obtain ⟨n, hn⟩ := ih hi.tail (fun he => absurd rfl he) (fun _ => rfl)
        (c :: (passed ++ done)) ((if Gap.isNothing (.blanks passed) then since else 0) + 1)
      refine ⟨n, ?_⟩
      rw [List.reverse_cons, List.append_assoc, List.singleton_append]
      rw [hcomment, hi.endsBefore_eq_false rest]
      exact hn

theorem read_inner {cs : List Char} (hi : Inner cs) (rest : List Char) :
    ∃ n, read false margin (cs ++ rest) = readFrom false margin cs.reverse .nothing n rest := by
  have hword : ([] : List Char) ≠ [] → cs.head? ≠ some '#' := fun he => absurd rfl he
  obtain ⟨n, hn⟩ := readFrom_inner hi hword (fun _ => rfl) [] 0 rest
  refine ⟨n, hn.trans ?_⟩
  rw [List.append_nil, List.append_nil]

/-- A key is read up to the colon behind it. -/
theorem read_key {cs : List Char} (hi : Inner cs) (rest : List Char) :
    ∃ n, read false margin (cs ++ ':' :: ' ' :: rest) =
      .ok (⟨⟨cs, false⟩, n⟩, ':' :: ' ' :: rest) := by
  obtain ⟨n, hn⟩ := read_inner hi (':' :: ' ' :: rest)
  refine ⟨lookAhead 2 n, hn.trans ?_⟩
  show finish cs.reverse .nothing (lookAhead 2 n) (':' :: ' ' :: rest) = _
  rw [finish, List.reverse_reverse]
  rfl

/-- A plain scalar is read over the line end behind it. -/
theorem read_line {cs rest : List Char} (hi : Inner cs) (hr : Unindented rest) :
    ∃ n, read false 1 (cs ++ '\n' :: rest) = .ok (⟨⟨cs, true⟩, n⟩, rest) := by
  obtain ⟨n, hn⟩ := read_inner hi ('\n' :: rest)
  have hstep : readFrom false 1 cs.reverse .nothing n ('\n' :: rest) =
    readFrom false 1 cs.reverse (.lines (some '\n') [] 0) (n + 1) rest := rfl
  have hfinish : ∀ ahead, finish cs.reverse (.lines (some '\n') [] 0) ahead rest =
      .ok (⟨⟨cs, true⟩, ahead⟩, rest) := by
    intro ahead
    rw [finish, List.reverse_reverse]
    rfl
  cases rest with
  | nil => exact ⟨1, hn.trans (hstep.trans (hfinish 1))⟩
  | cons c rest =>
    obtain ⟨hb, hs, -⟩ := hr c rfl
    refine ⟨lookAhead 1 (n + 1), hn.trans (hstep.trans ?_)⟩
    rw [readFrom, joinsNext_of_isBreak hb, hb, hs]
    exact hfinish _

/-! ## The first character -/

section First

variable {c d : Char} {cs : List Char} (ha : AllowsPlain (c :: cs))

include ha

theorem ne_of_allowsPlain : ∀ x ∈ ['#', ',', '[', ']', '\x7b', '\x7d', '&', '*', '!', '|', '>',
    '\'', '"', '%', '@', '\x60'], c ≠ x := by
  have hi := ha.indicator
  rintro x hx rfl
  rw [startsLikeIndicator, List.contains_iff_mem.2 hx] at hi
  cases hi

theorem firm_of_allowsPlain : Firm c := by
  obtain ⟨hc, hb⟩ := ha.line c List.mem_cons_self
  have hs : isSpace c = false := ha.first
  refine ⟨hb, (isBlank_eq_isSpace hc).trans hs, ne_byteOrderMark hc, ?_⟩
  exact ne_of_allowsPlain ha '#' List.mem_cons_self

/-- An indicator that text follows is none. -/
theorem atSpaceOrEnd_of_allowsPlain (hc : c = '-' ∨ c = '?' ∨ c = ':') (rest : List Char) :
    atSpaceOrEnd (cs ++ rest) = false := by
  have hcs : atSpaceOrEnd cs = false := by
    have hi := ha.indicator
    have hinner := ha.inner
    simp only [startsLikeIndicator, hasInnerIndicator, Bool.or_eq_false_iff] at hi hinner
    rcases hc with rfl | rfl | rfl
    · simpa using hi.2
    · simpa using hi.2
    · simpa using hinner.1.1
  cases cs with
  | nil => cases hcs
  | cons x cs => exact hcs

theorem atDocumentIndicator_of_allowsPlain (hd : d ≠ '-' ∧ d ≠ '.') (rest : List Char) :
    atDocumentIndicator (c :: (cs ++ d :: rest)) = false := by
  have hs := ha.document
  obtain ⟨hhyphen, hpoint⟩ := hd
  unfold atDocumentIndicator
  split
  · next h =>
    rcases cs with _ | ⟨a, _ | ⟨b, cs⟩⟩ <;> cases h
    · exact absurd rfl hhyphen
    · exact absurd rfl hhyphen
    · cases hs
  · next h =>
    rcases cs with _ | ⟨a, _ | ⟨b, cs⟩⟩ <;> cases h
    · exact absurd rfl hpoint
    · exact absurd rfl hpoint
    · cases hs
  · rfl

theorem starts_of_allowsPlain (rest : List Char) : starts false c (cs ++ rest) = true := by
  obtain ⟨hb, hs, -⟩ := firm_of_allowsPlain ha
  have hne := ne_of_allowsPlain ha
  have hspace := atSpaceOrEnd_of_allowsPlain ha
  unfold starts
  split
  · next hc =>
    have hnext := hspace (.inl hc) rest
    cases hcs : cs ++ rest with
    | nil => rfl
    | cons x xs =>
      rw [hcs] at hnext
      simpa using (Bool.or_eq_false_iff.1 hnext).1
  · split
    · next hc =>
      rw [hspace (.inr hc) rest]
      rfl
    · simp only [List.forall_mem_cons] at hne
      simp [hb, hs, isFlowEnd, hne]

end First

end GraphStack.Yaml.Plain
