import GraphStack.Proofs.Yaml.Characters
import GraphStack.Yaml.Quoted

/-!
# Quoted scalars are read as they are written

Between single quotes the line ends of a text stay line ends, since none of them is one that a
reader folds. Between double quotes every character that a reader would not take as it is has an
escape that stands for it.
-/

namespace GraphStack.Yaml.Quoted

open Render

/-! ## Single quotes -/

/-- No space stands beside a line end, and every line end stays as it is. -/
structure Even (cs : List Char) : Prop where
  printable : Printable cs
  unfolded : '\n' ∉ cs
  breakSpace : hasPair isBreak isSpace cs = false
  spaceBreak : hasPair isSpace isBreak cs = false

namespace Even

variable {c : Char} {cs : List Char}

theorem of_allowsSingle (hn : '\n' ∉ cs) (ha : allowsSingle cs = true) : Even cs := by
  have hp := printable_of_allowsSingle ha
  simp only [allowsSingle, Bool.and_eq_true, Bool.not_eq_true'] at ha
  exact ⟨hp, hn, ha.1.2, ha.2⟩

theorem tail (he : Even (c :: cs)) : Even cs where
  printable := (printable_cons.1 he.printable).2
  unfolded h := he.unfolded (List.mem_cons_of_mem _ h)
  breakSpace := (Bool.or_eq_false_iff.1 he.breakSpace).2
  spaceBreak := (Bool.or_eq_false_iff.1 he.spaceBreak).2

theorem ne_lineFeed (he : Even (c :: cs)) : c ≠ '\n' := by
  rintro rfl
  exact he.unfolded List.mem_cons_self

theorem not_space_of_isBreak (he : Even (c :: cs)) (hb : isBreak c = true) :
    cs.head?.any isSpace = false := by
  have hpair := (Bool.or_eq_false_iff.1 he.breakSpace).1
  rwa [hb, Bool.true_and] at hpair

theorem not_break_of_isSpace (he : Even (c :: cs)) (hs : isSpace c = true) :
    cs.head?.any isBreak = false := by
  have hpair := (Bool.or_eq_false_iff.1 he.spaceBreak).1
  rwa [hs, Bool.true_and] at hpair

end Even

/-- The gap of a reader that has read a text up to here, and the text goes on with `cs`; `broken`
says that a line end was the last that was written. -/
inductive Between (cs : List Char) : Bool → Gap → Prop
  | blanks {passed : List Char} (hp : passed ≠ [] → cs.head?.any isBreak = false) :
    Between cs false (.blanks passed)
  | lines {first : Char} {more : List Char} (hf : first ≠ '\n')
    (hs : cs.head?.any isSpace = false) : Between cs true (.lines (some first) more 0)

theorem Between.next {c : Char} {cs : List Char} {broken : Bool} {gap : Gap} (he : Even (c :: cs))
    (hg : Between (c :: cs) broken gap) (hb : isBreak c = true) :
    Between cs true (gap.lineEnd c) ∧ (gap.lineEnd c).text = c :: gap.text := by
  have hkept := keptBreak_eq (printable_cons.1 he.printable).1 hb
  have hs := he.not_space_of_isBreak hb
  cases hg with
  | @blanks passed hp =>
    have hnil : passed = [] := by
      by_contra hne
      exact Bool.false_ne_true ((hp hne).symm.trans hb)
    subst hnil
    rw [Gap.lineEnd, hkept]
    refine ⟨.lines he.ne_lineFeed hs, ?_⟩
    exact if_neg he.ne_lineFeed
  | @lines first more hf _ =>
    rw [Gap.lineEnd, hkept]
    refine ⟨.lines hf hs, ?_⟩
    rw [Gap.text, Gap.text, if_neg hf, if_neg hf]
    rfl

section Steps

variable {c : Char} {gap : Gap} (done : List Char) (since : Nat) (rest : List Char)

theorem atDocumentIndicator_of_isBreak (hb : isBreak c = true) :
    atDocumentIndicator (c :: rest) = false := by
  unfold atDocumentIndicator
  split
  · next h =>
    cases h
    cases hb
  · next h =>
    cases h
    cases hb
  · rfl

theorem readSingle_break (hc : isPrintable c = true) (hb : isBreak c = true) :
    readSingle done gap since (c :: rest) = readSingle done (gap.lineEnd c) (since + 1) rest := by
  rw [readSingle, atDocumentIndicator_of_isBreak rest hb, joinsNext_eq_false hc, hb]
  simp

theorem readSingle_space :
    readSingle done gap since (' ' :: rest) = readSingle done (gap.blank ' ') (since + 1) rest := by
  have hword : atDocumentIndicator (' ' :: rest) = false := rfl
  rw [readSingle, hword, Bool.and_false]
  rfl

theorem readSingle_text (hl : gap.atLineStart = false) (hb : isBreak c = false)
    (hs : isBlank c = false) :
    ∃ n, readSingle done gap since ((if c = '\'' then [c, c] else [c]) ++ rest) =
      readSingle (c :: (gap.text ++ done)) .nothing n rest := by
  by_cases hc : c = '\''
  · subst hc
    refine ⟨(if gap.isNothing then since else 0) + 2, ?_⟩
    rw [if_pos rfl, List.cons_append, List.cons_append, List.nil_append, readSingle, hl]
    rfl
  · refine ⟨(if gap.isNothing then since else 0) + 1, ?_⟩
    rw [if_neg hc, List.singleton_append, readSingle, hl, joinsNext_of_isBreak hb, hb, hs]
    exact if_neg hc

theorem readSingle_end {rest : List Char} (hl : gap.atLineStart = false)
    (hr : rest.head? ≠ some '\'') :
    ∃ n, readSingle done gap since ('\'' :: rest) =
      .ok (⟨(gap.text ++ done).reverse, n⟩, rest) := by
  refine ⟨lookAhead 2 (if gap.isNothing then since else 0) - 1, ?_⟩
  have hb : isBreak '\'' = false := rfl
  have hs : isBlank '\'' = false := rfl
  rw [readSingle, hl, joinsNext_of_isBreak hb, hb, hs]
  cases rest with
  | nil => rfl
  | cons d rest =>
    have hd : d ≠ '\'' := fun he => hr (congrArg some he)
    simp [finish, hd]

/-- The indentation after a line end is no part of the text. -/
theorem readSingle_indent {cs : List Char} {broken : Bool} (hg : Between cs broken gap) :
    ∃ gap' n, gap'.atLineStart = false ∧ gap'.text = gap.text ∧
      readSingle done gap since ((if broken then margin else []) ++ rest) =
        readSingle done gap' n rest := by
  cases hg with
  | blanks => exact ⟨_, since, rfl, rfl, rfl⟩
  | @lines first more =>
    refine ⟨.lines (some first) more 2, since + 2, rfl, rfl, ?_⟩
    exact (readSingle_space done since (' ' :: rest)).trans (readSingle_space done (since + 1) rest)

end Steps

/-- What is read so far and what is still to come make up the text, and the closing quote ends
it. -/
theorem readSingle_singleFrom {cs rest : List Char} {broken : Bool} {gap : Gap} (he : Even cs)
    (hg : Between cs broken gap) (hr : rest.head? ≠ some '\'') (done : List Char) (since : Nat) :
    ∃ n, readSingle done gap since (singleFrom broken cs ++ '\'' :: rest) =
      .ok (⟨(gap.text ++ done).reverse ++ cs, n⟩, rest) := by
  induction cs generalizing broken gap done since with
  | nil =>
    obtain ⟨gap', n, hl, htext, hread⟩ := readSingle_indent done since ('\'' :: rest) hg
    rw [singleFrom, hread, List.append_nil, ← htext]
    exact readSingle_end done n hl hr
  | cons c cs ih =>
    obtain ⟨hc, -⟩ := printable_cons.1 he.printable
    rw [singleFrom]
    by_cases hb : isBreak c = true
    · -- No space stands beside a line end, so the gap keeps it with those before it.
      obtain ⟨hnext, htext⟩ := hg.next he hb
      obtain ⟨n, hn⟩ := ih he.tail hnext done (since + 1)
      refine ⟨n, ?_⟩
      rw [if_pos hb, List.cons_append, readSingle_break done since _ hc hb, hn, htext]
      simp
    · rw [if_neg hb]
      by_cases hs : isSpace c = true
      · rw [if_pos hs]
        obtain rfl : c = ' ' := of_decide_eq_true hs
        cases hg with
        | lines hf hn => cases hn
        | @blanks passed hp =>
          have hnext : Between cs false (.blanks (' ' :: passed)) :=
            .blanks fun _ => he.not_break_of_isSpace hs
          obtain ⟨n, hn⟩ := ih he.tail hnext done (since + 1)
          refine ⟨n, ?_⟩
          rw [List.cons_append, readSingle_space]
          refine hn.trans ?_
          simp [Gap.text]
      · rw [if_neg hs, List.append_assoc, List.append_assoc]
        rw [Bool.not_eq_true] at hb hs
        -- Behind a line end the indentation comes first; the gap before it is text already.
        obtain ⟨gap', n, hl, htext, hread⟩ := readSingle_indent done since _ hg
        obtain ⟨n', hword⟩ := readSingle_text done n (singleFrom false cs ++ '\'' :: rest) hl hb
          ((isBlank_eq_isSpace hc).trans hs)
        have hnext : Between cs false .nothing := .blanks fun h => absurd rfl h
        obtain ⟨m, hm⟩ := ih he.tail hnext (c :: (gap'.text ++ done)) n'
        refine ⟨m, hread.trans (hword.trans (hm.trans ?_))⟩
        have hnothing : Gap.nothing.text = [] := rfl
        simp [htext, hnothing]

/-- A text between single quotes is read as it was written. -/
theorem readSingle_single {cs rest : List Char} (he : Even cs) (hr : rest.head? ≠ some '\'') :
    ∃ n, readSingle [] .nothing 0 ((single cs).tail ++ rest) = .ok (⟨cs, n⟩, rest) := by
  have hstart : Between cs false .nothing := .blanks fun h => absurd rfl h
  have htail : (single cs).tail ++ rest = singleFrom false cs ++ '\'' :: rest :=
    List.append_assoc (singleFrom false cs) ['\''] rest
  rw [htail]
  exact readSingle_singleFrom he hstart hr [] 0

/-! ## Double quotes -/

theorem length_hexField (width n : Nat) : (Text.hexField width n).length = width := by
  induction width generalizing n with
  | zero => rfl
  | succ width ih => rw [Text.hexField, List.length_append, ih, List.length_singleton]

theorem hexValue?_toUpper {d : Nat} (hd : d < 16) :
    Text.hexValue? (Nat.digitChar d).toUpper = some d := by
  interval_cases d <;> rfl

theorem hexNumber?_hexField {width n : Nat} (hn : n < 16 ^ width) :
    hexNumber? (Text.hexField width n) = some n := by
  induction width generalizing n with
  | zero =>
    obtain rfl : n = 0 := Nat.lt_one_iff.1 hn
    rfl
  | succ width ih =>
    have hdiv : n / 16 < 16 ^ width := Nat.div_lt_of_lt_mul (by rwa [pow_succ, mul_comm] at hn)
    have hfront := ih hdiv
    have hlast := hexValue?_toUpper (Nat.mod_lt n (show 0 < 16 by decide))
    rw [hexNumber?] at hfront
    rw [hexNumber?, Text.hexField, List.foldlM_append, hfront]
    simp [hlast, Nat.div_add_mod]

theorem isCharacterCode_toNat (c : Char) : isCharacterCode c.toNat = true := by
  have hc : c.toNat < 0xd800 ∨ 0xdfff < c.toNat ∧ c.toNat < 0x110000 := c.valid
  simp only [isCharacterCode, Bool.or_eq_true, Bool.and_eq_true, decide_eq_true_eq]
  omega

theorem readCode_hexField {c : Char} {width : Nat} (hc : c.toNat < 16 ^ width) (rest : List Char) :
    readCode width (Text.hexField width c.toNat ++ rest) = .ok (c, rest) := by
  have hlength := length_hexField width c.toNat
  have hlong : ¬ (Text.hexField width c.toNat ++ rest).length < width := by
    rw [List.length_append, hlength]
    omega
  rw [readCode, if_neg hlong, List.take_left' hlength, List.drop_left' hlength,
    hexNumber?_hexField hc]
  simp [isCharacterCode_toNat]

/-- A character is written as it is, or as an escape that stands for it. -/
theorem escape_cases (c : Char) :
    (escape c = [c] ∧ isPrintable c = true ∧ isBreak c = false ∧ c ≠ '"' ∧ c ≠ '\\') ∨
      ∃ e body, escape c = '\\' :: e :: body ∧ isBreak e = false ∧
        ∀ since rest, readEscape since ('\\' :: e :: (body ++ rest)) = .ok (c, rest) := by
  unfold escape
  cases hn : escapeName? c with
  | some name =>
    refine .inr ⟨name, [], rfl, ?_⟩
    unfold escapeName? at hn
    split at hn <;> try split_ifs at hn
    all_goals
      cases hn
      try subst c
      exact ⟨rfl, fun _ _ => rfl⟩
  | none =>
    dsimp only
    by_cases hp : isPrintable c = true
    · -- A line end, a quote or a backslash would have a name.
      refine .inl ⟨if_neg (by simp [hp]), hp, ?_, ?_, ?_⟩
      · by_contra hb
        simp only [isBreak, Bool.not_eq_false, Bool.or_eq_true, decide_eq_true_eq] at hb
        rcases hb with (((rfl | rfl) | rfl) | rfl) | rfl <;> cases hn
      · rintro rfl
        cases hn
      · rintro rfl
        cases hn
    · refine .inr ?_
      rw [if_pos (by simpa using hp)]
      split
      · next hle =>
        exact ⟨'x', _, rfl, rfl, fun _ rest => readCode_hexField (by omega) rest⟩
      · split
        · next hle =>
          exact ⟨'u', _, rfl, rfl, fun _ rest => readCode_hexField (by omega) rest⟩
        · have hc : c.toNat < 0xd800 ∨ 0xdfff < c.toNat ∧ c.toNat < 0x110000 := c.valid
          exact ⟨'U', _, rfl, rfl, fun _ rest => readCode_hexField (by omega) rest⟩

section Steps

variable {c : Char} (done passed : List Char) (since : Nat) (rest : List Char)

theorem readDouble_space :
    readDouble done (.blanks passed) since (' ' :: rest) =
      readDouble done (.blanks (' ' :: passed)) (since + 1) rest := by
  rw [readDouble]
  rfl

/-- A written character that is no space joins the text, with the spaces before it. -/
theorem readDouble_escape (hs : isSpace c = false) :
    ∃ n, readDouble done (.blanks passed) since (escape c ++ rest) =
      readDouble (c :: (passed ++ done)) .nothing n rest := by
  have hl : Gap.atLineStart (.blanks passed) = false := rfl
  rcases escape_cases c with ⟨he, hc, hb, hq, hbs⟩ | ⟨e, body, he, hb, hread⟩
  · refine ⟨(if Gap.isNothing (.blanks passed) then since else 0) + 1, ?_⟩
    rw [he, List.singleton_append, readDouble, hl, joinsNext_of_isBreak hb, hb,
      isBlank_eq_isSpace hc, hs]
    dsimp only
    rw [if_neg hq, if_neg hbs]
    rfl
  · refine ⟨(if Gap.isNothing (.blanks passed) then since else 0) + 2, ?_⟩
    have hend : escapedLineEnd? (e :: (body ++ rest)) = none := by
      rw [escapedLineEnd?, joinsNext_of_isBreak hb, hb]
      rfl
    have hb : isBreak '\\' = false := rfl
    have hblank : isBlank '\\' = false := rfl
    have hquote : '\\' ≠ '"' := by decide
    rw [he, List.cons_append, List.cons_append, readDouble, hl, joinsNext_of_isBreak hb, hb, hblank]
    simp only [Bool.false_and, Bool.false_eq_true, if_false, if_neg hquote, if_true]
    split
    · next h =>
      rw [hend] at h
      cases h
    · split
      · next h =>
        rw [hread] at h
        cases h
      · next h =>
        rw [hread] at h
        cases h
        rfl

theorem readDouble_end :
    ∃ n, readDouble done (.blanks passed) since ('"' :: rest) =
      .ok (⟨(passed ++ done).reverse, n⟩, rest) := by
  refine ⟨lookAhead 2 (if Gap.isNothing (.blanks passed) then since else 0) - 1, ?_⟩
  rw [readDouble]
  rfl

end Steps

theorem readDouble_flatMap (cs done passed : List Char) (since : Nat) (rest : List Char) :
    ∃ n, readDouble done (.blanks passed) since (cs.flatMap escape ++ '"' :: rest) =
      .ok (⟨(passed ++ done).reverse ++ cs, n⟩, rest) := by
  induction cs generalizing done passed since with
  | nil =>
    rw [List.append_nil]
    exact readDouble_end done passed since rest
  | cons c cs ih =>
    rw [List.flatMap_cons, List.append_assoc]
    cases hs : isSpace c with
    | true =>
      obtain rfl : c = ' ' := of_decide_eq_true hs
      obtain ⟨n, hn⟩ := ih done (' ' :: passed) (since + 1)
      have hread := readDouble_space done passed since (cs.flatMap escape ++ '"' :: rest)
      refine ⟨n, hread.trans (hn.trans ?_)⟩
      simp
    | false =>
      obtain ⟨n, hread⟩ := readDouble_escape done passed since (cs.flatMap escape ++ '"' :: rest) hs
      obtain ⟨m, hm⟩ := ih (c :: (passed ++ done)) [] n
      refine ⟨m, hread.trans (hm.trans ?_)⟩
      simp

/-- A text between double quotes is read as it was written. -/
theorem readDouble_double (cs rest : List Char) :
    ∃ n, readDouble [] .nothing 0 ((double cs).tail ++ rest) = .ok (⟨cs, n⟩, rest) := by
  have htail : (double cs).tail ++ rest = cs.flatMap escape ++ '"' :: rest :=
    List.append_assoc (cs.flatMap escape) ['"'] rest
  rw [htail]
  exact readDouble_flatMap cs [] [] 0 rest

end GraphStack.Yaml.Quoted
