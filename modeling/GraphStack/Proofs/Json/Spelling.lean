import GraphStack.Json.Field
import GraphStack.Json.Members
import GraphStack.Proofs.Json.Bytes

/-!
# How values are spelled in JSON

A string can be spelled in many ways, a number or a `null` in one. A reader gives a value and the
text behind it exactly where the text begins with space and a spelling of the value
(`decode_eq_ok_iff`, `readText_eq_ok_iff`, `exists_of_readOptionalCount`). What is written for a
string is one of its spellings (`spells_encode`).
-/

namespace GraphStack.Json

/-! ## Space -/

/-- Only space is in it. -/
def Blank (cs : List Char) : Prop := ∀ c ∈ cs, isSpace c

theorem blank_nil : Blank [] := fun c hc => (List.not_mem_nil (a := c) hc).elim

theorem skipSpace_blank {gap : List Char} (hg : Blank gap) (cs : List Char) :
    skipSpace (gap ++ cs) = skipSpace cs := List.dropWhile_append_of_pos hg

theorem skipSpace_cons {c : Char} (hc : isSpace c = false) (cs : List Char) :
    skipSpace (c :: cs) = c :: cs := by
  rw [skipSpace, List.dropWhile_cons_of_neg]
  simp [hc]

theorem exists_blank_skipSpace (cs : List Char) : ∃ gap, Blank gap ∧ cs = gap ++ skipSpace cs :=
  ⟨cs.takeWhile isSpace, fun _ hc => List.mem_takeWhile_imp hc,
    List.takeWhile_append_dropWhile.symm⟩

/-! ## Strings -/

/-- The escapes of one character, with what they stand for. -/
def shortEscapes : List (Char × Char) :=
  [('"', '"'), ('\\', '\\'), ('/', '/'), ('b', '\x08'), ('f', '\x0c'), ('n', '\n'), ('r', '\r'),
    ('t', '\t')]

/-- Four hexadecimal digits of either case and their value. -/
inductive Hex4 : List Char → Nat → Prop
  | mk {a b c d : Char} {x y z w : Nat} (ha : Text.hexValue? a = some x)
      (hb : Text.hexValue? b = some y) (hc : Text.hexValue? c = some z)
      (hd : Text.hexValue? d = some w) : Hex4 [a, b, c, d] (((x * 16 + y) * 16 + z) * 16 + w)

abbrev IsHighSurrogate (n : Nat) : Prop := 0xD800 ≤ n ∧ n ≤ 0xDBFF

abbrev IsLowSurrogate (n : Nat) : Prop := 0xDC00 ≤ n ∧ n ≤ 0xDFFF

/-- The ways in which a character can be written in a string: as itself, with one of the escapes of
one character, by its number, or by the numbers of a surrogate pair. A surrogate by itself stands
for no character. -/
inductive SpellsChar : List Char → Char → Prop
  | itself {c : Char} (hq : c ≠ '"') (hb : c ≠ '\\') (hc : 0x20 ≤ c.toNat) : SpellsChar [c] c
  | short {e c : Char} (he : (e, c) ∈ shortEscapes) : SpellsChar ['\\', e] c
  | number {ds : List Char} {n : Nat} (hd : Hex4 ds n) (hh : ¬ IsHighSurrogate n)
      (hl : ¬ IsLowSurrogate n) : SpellsChar ('\\' :: 'u' :: ds) (.ofNat n)
  | pair {ds es : List Char} {high low : Nat} (hd : Hex4 ds high) (he : Hex4 es low)
      (hh : IsHighSurrogate high) (hl : IsLowSurrogate low) :
      SpellsChar ('\\' :: 'u' :: (ds ++ '\\' :: 'u' :: es))
        (.ofNat (0x10000 + (high - 0xD800) * 0x400 + (low - 0xDC00)))

/-- What may stand between the quotes of a string, and the text that it spells. -/
inductive Spells : List Char → List Char → Prop
  | nil : Spells [] []
  | cons {part body s : List Char} {c : Char} (hc : SpellsChar part c) (hs : Spells body s) :
      Spells (part ++ body) (c :: s)

theorem readHex_eq_ok_iff {cs rest : List Char} {n : Nat} :
    readHex cs = .ok (n, rest) ↔ ∃ ds, Hex4 ds n ∧ cs = ds ++ rest := by
  constructor
  · intro h
    unfold readHex at h
    split at h
    · cases h
    · split at h
      · split at h
        · next ha hb hc hd =>
          cases h
          exact ⟨_, .mk ha hb hc hd, rfl⟩
        · cases h
      · cases h
  · rintro ⟨_, @⟨a, b, c, d, _, _, _, _, ha, hb, hc, hd⟩, rfl⟩
    have hlong : ¬ byteLength (List.take 4 (a :: b :: c :: d :: rest)) < 4 :=
      Nat.not_lt.2 (length_le_byteLength [a, b, c, d])
    simp only [readHex, List.cons_append, List.nil_append]
    rw [if_neg hlong]
    simp only [ha, hb, hc, hd]

theorem readLowSurrogate_eq_ok_iff {high : Nat} {cs rest : List Char} {c : Char} :
    readLowSurrogate high cs = .ok (c, rest) ↔
      ∃ es low, Hex4 es low ∧ IsLowSurrogate low ∧ cs = '\\' :: 'u' :: (es ++ rest) ∧
        c = .ofNat (0x10000 + (high - 0xD800) * 0x400 + (low - 0xDC00)) := by
  constructor
  · intro h
    unfold readLowSurrogate at h
    split at h
    · cases h
    · split at h
      · cases h
      · split at h
        · cases h
        · next hx =>
          obtain ⟨es, he, rfl⟩ := readHex_eq_ok_iff.1 hx
          split at h
          · next hl =>
            simp only [Except.ok.injEq, Prod.mk.injEq] at h
            exact ⟨es, _, he, hl, by rw [h.2], h.1.symm⟩
          · cases h
      · cases h
    · cases h
  · rintro ⟨es, low, he, hl, rfl, hc⟩
    have hx : readHex (es ++ rest) = .ok (low, rest) := readHex_eq_ok_iff.2 ⟨es, he, rfl⟩
    simp only [readLowSurrogate, hx, hc]
    exact if_pos hl

/-- An escape is read from after its backslash on. -/
theorem exists_of_readEscape {cs rest : List Char} {c : Char}
    (h : readEscape cs = .ok (c, rest)) : ∃ e, SpellsChar ('\\' :: e) c ∧ cs = e ++ rest := by
  unfold readEscape at h
  split at h
  case h_10 =>
    split at h
    · cases h
    · next hx =>
      obtain ⟨ds, hd, rfl⟩ := readHex_eq_ok_iff.1 hx
      split at h
      · cases h
      · next hl =>
        split at h
        · next hh =>
          obtain ⟨es, low, he, hlow, rfl, hc⟩ := readLowSurrogate_eq_ok_iff.1 h
          refine ⟨'u' :: (ds ++ '\\' :: 'u' :: es), ?_, by simp⟩
          rw [hc]
          exact .pair hd he hh hlow
        · next hh =>
          simp only [Except.ok.injEq, Prod.mk.injEq] at h
          obtain ⟨rfl, rfl⟩ := h
          exact ⟨_, .number hd hh hl, rfl⟩
  case h_1 => cases h
  case h_11 => cases h
  all_goals
    cases h
    exact ⟨[_], .short (by decide), rfl⟩

theorem readEscape_of_spells {e : List Char} {c : Char} (h : SpellsChar ('\\' :: e) c)
    (rest : List Char) : readEscape (e ++ rest) = .ok (c, rest) := by
  generalize hw : '\\' :: e = word at h
  cases h with
  | itself hq hb hc =>
    cases hw
    exact absurd rfl hb
  | short he =>
    cases hw
    simp only [shortEscapes, List.mem_cons, Prod.mk.injEq, List.not_mem_nil, or_false] at he
    rcases he with ⟨rfl, rfl⟩ | ⟨rfl, rfl⟩ | ⟨rfl, rfl⟩ | ⟨rfl, rfl⟩ | ⟨rfl, rfl⟩ | ⟨rfl, rfl⟩ |
      ⟨rfl, rfl⟩ | ⟨rfl, rfl⟩ <;> rfl
  | @number ds n hd hh hl =>
    cases hw
    have hx : readHex (ds ++ rest) = .ok (n, rest) := readHex_eq_ok_iff.2 ⟨ds, hd, rfl⟩
    simp only [List.cons_append, readEscape, hx]
    rw [if_neg hl, if_neg hh]
  | @pair ds es high low hd he hh hl =>
    cases hw
    have hx : readHex (ds ++ ('\\' :: 'u' :: (es ++ rest))) = .ok (high, _) :=
      readHex_eq_ok_iff.2 ⟨ds, hd, rfl⟩
    have hlow : ¬ IsLowSurrogate high := by
      unfold IsHighSurrogate IsLowSurrogate at *
      omega
    simp only [List.cons_append, List.append_assoc, readEscape, hx]
    rw [if_neg hlow, if_pos hh]
    exact readLowSurrogate_eq_ok_iff.2 ⟨es, low, he, hl, rfl, rfl⟩

theorem exists_of_decodeFrom {done cs rest s : List Char} (h : decodeFrom done cs = .ok (s, rest)) :
    ∃ body t, Spells body t ∧ cs = body ++ '"' :: rest ∧ s = done.reverse ++ t := by
  fun_induction decodeFrom done cs with
  | case1 => cases h
  | case2 =>
    cases h
    exact ⟨[], [], .nil, rfl, by simp⟩
  | case3 => cases h
  | case4 done r c r' hr hl ih =>
    obtain ⟨body, t, hs, rfl, rfl⟩ := ih h
    obtain ⟨e, he, rfl⟩ := exists_of_readEscape hr
    exact ⟨_, _, .cons he hs, by simp, by simp⟩
  | case5 => cases h
  | case6 done c r hq hb hc ih =>
    obtain ⟨body, t, hs, rfl, rfl⟩ := ih h
    exact ⟨_, _, .cons (.itself hq hb (Nat.not_lt.1 hc)) hs, rfl, by simp⟩

theorem decodeFrom_escape {done cs rest : List Char} {c : Char}
    (he : readEscape cs = .ok (c, rest)) :
    decodeFrom done ('\\' :: cs) = decodeFrom (c :: done) rest := by
  rw [decodeFrom]
  split
  · next h =>
    rw [he] at h
    cases h
  · next h =>
    rw [he] at h
    cases h
    rfl

theorem decodeFrom_of_spellsChar {part : List Char} {c : Char} (h : SpellsChar part c)
    (done rest : List Char) : decodeFrom done (part ++ rest) = decodeFrom (c :: done) rest := by
  cases h with
  | itself hq hb hc =>
    rw [List.singleton_append, decodeFrom]
    · exact if_neg (Nat.not_lt.2 hc)
    · exact fun h => hq h
    · exact fun h => hb h
  | short he => exact decodeFrom_escape (readEscape_of_spells (.short he) rest)
  | number hd hh hl => exact decodeFrom_escape (readEscape_of_spells (.number hd hh hl) rest)
  | pair hd he hh hl => exact decodeFrom_escape (readEscape_of_spells (.pair hd he hh hl) rest)

theorem decodeFrom_of_spells {body s : List Char} (h : Spells body s) (done rest : List Char) :
    decodeFrom done (body ++ '"' :: rest) = .ok (done.reverse ++ s, rest) := by
  induction h generalizing done with
  | nil => rw [List.nil_append, decodeFrom, List.append_nil]
  | cons hc hs ih =>
    rw [List.append_assoc, decodeFrom_of_spellsChar hc, ih, List.reverse_cons, List.append_assoc,
      List.singleton_append]

/-- Reading stops at the first quote that is not escaped. -/
theorem decode_eq_ok_iff {cs rest s : List Char} :
    decode cs = .ok (s, rest) ↔ ∃ body, Spells body s ∧ cs = body ++ '"' :: rest := by
  constructor
  · intro h
    obtain ⟨body, t, hs, hcs, rfl⟩ := exists_of_decodeFrom h
    exact ⟨body, hs, hcs⟩
  · rintro ⟨body, hs, rfl⟩
    exact decodeFrom_of_spells hs [] rest

theorem hexValue?_hexDigit {n : Nat} (hn : n < 16) : Text.hexValue? (hexDigit n) = some n := by
  interval_cases n <;> rfl

/-- What is written for a character is one of its spellings. -/
theorem spells_encodeChar (c : Char) : SpellsChar (encodeChar c) c := by
  unfold encodeChar
  split
  case h_8 hq hb _ _ _ _ _ =>
    split
    · next hc =>
      have hn : ((0 * 16 + 0) * 16 + c.toNat / 16) * 16 + c.toNat % 16 = c.toNat := by omega
      have hzero : Text.hexValue? '0' = some 0 := rfl
      have hx := Hex4.mk hzero hzero (hexValue?_hexDigit (show c.toNat / 16 < 16 by omega))
        (hexValue?_hexDigit (show c.toNat % 16 < 16 by omega))
      rw [hn] at hx
      have hs := SpellsChar.number hx (fun h => absurd h.1 (by omega))
        (fun h => absurd h.1 (by omega))
      rwa [Char.ofNat_toNat] at hs
    · next hc => exact .itself hq hb (Nat.not_lt.1 hc)
  all_goals exact .short (by decide)

theorem spells_encode (cs : List Char) : Spells (cs.flatMap encodeChar) cs := by
  induction cs with
  | nil => exact .nil
  | cons c cs ih => exact .cons (spells_encodeChar c) ih

/-! ## Words and numbers -/

theorem readWord_eq_ok_iff {word cs rest : List Char} :
    readWord word cs = .ok ((), rest) ↔ cs = word ++ rest := by
  induction word generalizing cs with
  | nil => simp [readWord]
  | cons w ws ih =>
    cases cs with
    | nil => simp [readWord]
    | cons c cs =>
      by_cases hc : c = w
      · simp [readWord, hc, ih]
      · simp [readWord, hc]

theorem digitChar_digitValue {c : Char} (hc : isDigit c = true) :
    digitValue c < 10 ∧ Nat.digitChar (digitValue c) = c := by
  simp only [isDigit, Bool.and_eq_true, decide_eq_true_eq, Char.le_def, UInt32.le_iff_toNat_le,
    Char.toNat_val] at hc
  have h0 : '0'.toNat = 48 := rfl
  have h9 : '9'.toNat = 57 := rfl
  have hlt : digitValue c < 10 := by
    unfold digitValue
    omega
  refine ⟨hlt, ?_⟩
  have hn : c.toNat = digitValue c + 48 := by
    unfold digitValue
    omega
  have hof : c = Char.ofNat (digitValue c + 48) := by rw [← hn, Char.ofNat_toNat]
  generalize digitValue c = d at hlt hof
  subst hof
  interval_cases d <;> rfl

/-- The number that digits spell. -/
def digitsValue (n : Nat) (ds : List Char) : Nat := ds.foldl (fun n c => n * 10 + digitValue c) n

theorem digitsValue_of_absorb {limit m k : Nat} {ds : List Char}
    (h : absorb limit m ds = (k, [])) : k = digitsValue m ds ∧ (ds = [] ∨ k < limit) := by
  induction ds generalizing m with
  | nil =>
    cases h
    exact ⟨rfl, .inl rfl⟩
  | cons d ds ih =>
    rw [absorb] at h
    split at h
    · next hlt =>
      obtain ⟨hk, hds⟩ := ih h
      refine ⟨hk, .inr ?_⟩
      rcases hds with rfl | hk
      · rw [hk]
        exact hlt
      · exact hk
    · cases h

/-- Digits that do not begin with a needless zero are the digits of the number that they spell. -/
theorem toDigits_digitsValue {ds : List Char} (hd : ∀ d ∈ ds, isDigit d = true) (hne : ds ≠ [])
    (hz : ∀ es, ds = '0' :: es → es = []) : Nat.toDigits 10 (digitsValue 0 ds) = ds := by
  induction ds using List.reverseRecOn with
  | nil => exact absurd rfl hne
  | append_singleton init d ih =>
    obtain ⟨hlt, hchar⟩ := digitChar_digitValue (hd d (by simp))
    have hvalue : digitsValue 0 (init ++ [d]) = digitsValue 0 init * 10 + digitValue d := by
      simp [digitsValue]
    rw [hvalue, Nat.toDigits_eq_if (by decide)]
    by_cases hi : init = []
    · subst hi
      have hv : digitsValue 0 [] * 10 + digitValue d = digitValue d := Nat.zero_add _
      rw [hv, if_pos hlt, hchar, List.nil_append]
    · have hinit : Nat.toDigits 10 (digitsValue 0 init) = init := by
        refine ih (fun c hc => hd c (by simp [hc])) hi fun es hes => ?_
        have := hz (es ++ [d]) (by rw [hes, List.cons_append])
        simp at this
      have hpos : digitsValue 0 init ≠ 0 := by
        intro h0
        rw [h0] at hinit
        have := hz [d] (by rw [← hinit]; rfl)
        simp at this
      rw [if_neg (by omega), show (digitsValue 0 init * 10 + digitValue d) / 10 =
        digitsValue 0 init by omega, show (digitsValue 0 init * 10 + digitValue d) % 10 =
        digitValue d by omega, hinit, hchar]

/-- Digits that all go into a number below the limit are the digits of that number. -/
theorem toDigits_of_absorb {limit n : Nat} {ds : List Char} (hd : ∀ d ∈ ds, isDigit d = true)
    (hne : ds ≠ []) (hz : ∀ es, ds = '0' :: es → es = []) (h : absorb limit 0 ds = (n, [])) :
    n < limit ∧ Nat.toDigits 10 n = ds := by
  obtain ⟨rfl, hlt⟩ := digitsValue_of_absorb h
  exact ⟨hlt.resolve_left hne, toDigits_digitsValue hd hne hz⟩

/-- Not a digit, nor what continues a number after its digits. -/
def EndsNumber (c : Char) : Prop := isDigit c = false ∧ c ≠ '.' ∧ isExponentLetter c = false

theorem isDigit_digitChar {d : Nat} (hd : d < 10) : isDigit (Nat.digitChar d) = true := by
  interval_cases d <;> rfl

theorem digitValue_digitChar {d : Nat} (hd : d < 10) : digitValue (Nat.digitChar d) = d := by
  interval_cases d <;> rfl

theorem isDigit_of_mem_toDigits {n : Nat} {c : Char} (hc : c ∈ Nat.toDigits 10 n) :
    isDigit c = true := by
  induction n using Nat.strong_induction_on with
  | _ n ih =>
    rw [Nat.toDigits_eq_if (by decide)] at hc
    by_cases hn : n < 10
    · rw [if_pos hn, List.mem_singleton] at hc
      rw [hc]
      exact isDigit_digitChar hn
    · rw [if_neg hn, List.mem_append, List.mem_singleton] at hc
      rcases hc with hc | rfl
      · exact ih (n / 10) (by omega) hc
      · exact isDigit_digitChar (Nat.mod_lt _ (by decide))

/-- The digits of a number other than zero do not begin with zero. -/
theorem exists_toDigits {n : Nat} (hn : n ≠ 0) :
    ∃ c cs, Nat.toDigits 10 n = c :: cs ∧ c ≠ '0' := by
  induction n using Nat.strong_induction_on with
  | _ n ih =>
    rw [Nat.toDigits_eq_if (by decide)]
    by_cases hlt : n < 10
    · refine ⟨Nat.digitChar n, [], if_pos hlt, ?_⟩
      interval_cases n <;> first | contradiction | decide
    · obtain ⟨c, cs, hcs, hc⟩ := ih (n / 10) (by omega) (by omega)
      refine ⟨c, cs ++ [Nat.digitChar (n % 10)], ?_, hc⟩
      rw [if_neg hlt, hcs, List.cons_append]

theorem absorb_append {limit m k : Nat} {ds es : List Char}
    (hd : absorb limit m ds = (k, [])) : absorb limit m (ds ++ es) = absorb limit k es := by
  induction ds generalizing m with
  | nil =>
    cases hd
    rfl
  | cons d ds ih =>
    rw [absorb] at hd
    rw [List.cons_append, absorb]
    split
    · next hlt =>
      rw [if_pos hlt] at hd
      exact ih hd
    · next hlt =>
      rw [if_neg hlt] at hd
      cases hd

theorem absorb_toDigits {limit n : Nat} (hn : n < limit) :
    absorb limit 0 (Nat.toDigits 10 n) = (n, []) := by
  induction n using Nat.strong_induction_on with
  | _ n ih =>
    rw [Nat.toDigits_eq_if (by decide)]
    by_cases hlt : n < 10
    · have hv : 0 * 10 + digitValue (Nat.digitChar n) = n := by
        rw [digitValue_digitChar hlt]
        omega
      rw [if_pos hlt, absorb, hv, if_pos hn, absorb]
    · have hv : n / 10 * 10 + digitValue (Nat.digitChar (n % 10)) = n := by
        rw [digitValue_digitChar (Nat.mod_lt _ (by decide))]
        omega
      rw [if_neg hlt, absorb_append (ih (n / 10) (by omega) (by omega)), absorb, hv, if_pos hn,
        absorb]

theorem readNumber_toDigits {n : Nat} (hn : n < twoTo 64) {c : Char} (hc : EndsNumber c)
    (rest : List Char) :
    readNumber true (Nat.toDigits 10 n ++ c :: rest) = .ok (.natural n, c :: rest) := by
  obtain ⟨hdigit, hpoint, hletter⟩ := hc
  have hall : ∀ d ∈ Nat.toDigits 10 n, isDigit d = true := fun d => isDigit_of_mem_toDigits
  have htake : (Nat.toDigits 10 n ++ c :: rest).takeWhile isDigit = Nat.toDigits 10 n := by
    rw [List.takeWhile_append_of_pos hall, List.takeWhile_cons_of_neg (by simp [hdigit]),
      List.append_nil]
  have hdrop : (Nat.toDigits 10 n ++ c :: rest).dropWhile isDigit = c :: rest := by
    rw [List.dropWhile_append_of_pos hall, List.dropWhile_cons_of_neg (by simp [hdigit])]
  unfold readNumber
  simp only [htake, hdrop]
  split
  · next h => exact absurd h Nat.toDigits_ne_nil
  · next d ds h =>
    by_cases hz : n = 0
    · subst hz
      cases h
    · obtain ⟨c', cs, hcs, hne⟩ := exists_toDigits hz
      rw [hcs] at h
      cases h
      exact absurd rfl hne
  · simp only [absorb_toDigits hn]
    split
    · next h => exact absurd (hletter.symm.trans h) Bool.false_ne_true
    · rfl

theorem isSpace_of_isDigit {c : Char} (hc : isDigit c = true) : isSpace c = false := by
  by_contra hs
  simp only [isSpace, Bool.not_eq_false, Bool.or_eq_true, decide_eq_true_eq] at hs
  rcases hs with ((rfl | rfl) | rfl) | rfl <;> cases hc

theorem exists_digit_toDigits (n : Nat) :
    ∃ d ds, Nat.toDigits 10 n = d :: ds ∧ isDigit d = true := by
  obtain ⟨d, ds, hds⟩ := List.exists_cons_of_ne_nil (Nat.toDigits_ne_nil (b := 10) (n := n))
  exact ⟨d, ds, hds, isDigit_of_mem_toDigits (hds ▸ List.mem_cons_self)⟩

theorem readCount_toDigits (n : UInt64) {c : Char} (hc : EndsNumber c) (rest : List Char) :
    readCount (Nat.toDigits 10 n.toNat ++ c :: rest) = .ok (n, c :: rest) := by
  obtain ⟨d, ds, hds, hd⟩ := exists_digit_toDigits n.toNat
  have hread := readNumber_toDigits n.toNat_lt hc rest
  rw [hds, List.cons_append] at hread ⊢
  rw [readCount, skipSpace_cons (isSpace_of_isDigit hd)]
  split
  · next h =>
    cases h
    cases hd
  · next h =>
    cases h
    rw [if_pos hd, hread]
    simp only [countOf, UInt64.ofNat_toNat]
  · next h => cases h

section Number

variable {positive : Bool} {significand n : Nat} {power : Int} {cs rest : List Char}

theorem finishFloat_ne_natural :
    finishFloat positive significand power cs ≠ .ok (.natural n, rest) := by
  unfold finishFloat
  split <;> simp

theorem readExponent_ne_natural :
    readExponent positive significand power cs ≠ .ok (.natural n, rest) := by
  unfold readExponent
  split
  dsimp only
  split
  · simp
  · split
    · exact finishFloat_ne_natural
    · split <;> simp

theorem readFraction_ne_natural :
    readFraction positive significand power cs ≠ .ok (.natural n, rest) := by
  unfold readFraction
  dsimp only
  split
  · simp
  · split
    · split
      · exact readExponent_ne_natural
      · exact finishFloat_ne_natural
    · exact finishFloat_ne_natural

theorem wholeNumber_eq_natural (h : wholeNumber positive significand = .natural n) :
    positive = true ∧ significand = n := by
  unfold wholeNumber at h
  split at h
  · next hp =>
    cases h
    exact ⟨hp, rfl⟩
  · split at h <;> cases h

/-- Only digits without a sign, a needless zero, a fraction or an exponent are a natural number. -/
theorem exists_of_readNumber (h : readNumber positive cs = .ok (.natural n, rest)) :
    positive = true ∧ n < twoTo 64 ∧ cs = Nat.toDigits 10 n ++ rest := by
  unfold readNumber at h
  dsimp only at h
  have hcs : cs = cs.takeWhile isDigit ++ cs.dropWhile isDigit :=
    List.takeWhile_append_dropWhile.symm
  have hall : ∀ d ∈ cs.takeWhile isDigit, isDigit d = true := fun d hd => List.mem_takeWhile_imp hd
  generalize cs.takeWhile isDigit = digits at h hcs hall
  generalize cs.dropWhile isDigit = behind at h hcs
  have whole (h : (if (absorb (twoTo 64) 0 digits).2.isEmpty then
      (.ok (wholeNumber positive (absorb (twoTo 64) 0 digits).1, behind) : Step Number)
      else finishFloat positive (absorb (twoTo 64) 0 digits).1
        (absorb (twoTo 64) 0 digits).2.length behind) = .ok (.natural n, rest))
      (hne : digits ≠ []) (hz : ∀ es, digits = '0' :: es → es = []) :
      positive = true ∧ n < twoTo 64 ∧ cs = Nat.toDigits 10 n ++ rest := by
    split at h
    · next hempty =>
      simp only [Except.ok.injEq, Prod.mk.injEq] at h
      obtain ⟨hp, hn⟩ := wholeNumber_eq_natural h.1
      have habs : absorb (twoTo 64) 0 digits = (n, []) :=
        Prod.ext hn (List.isEmpty_iff.1 hempty)
      obtain ⟨hlt, hdigits⟩ := toDigits_of_absorb hall hne hz habs
      exact ⟨hp, hlt, by rw [hdigits, ← h.2, hcs]⟩
    · exact absurd h finishFloat_ne_natural
  split at h
  · cases h
  · cases h
  · next hnil hzero =>
    have hz : ∀ es, digits = '0' :: es → es = [] := by
      intro es hes
      cases es with
      | nil => rfl
      | cons d ds => exact absurd hes (hzero d ds)
    split at h
    · exact absurd h readFraction_ne_natural
    · split at h
      · exact absurd h readExponent_ne_natural
      · exact whole h hnil hz
    · exact whole h hnil hz

end Number

/-! ## Values -/

/-- A text in quotes. -/
inductive SpellsText : List Char → String → Prop
  | quoted {body : List Char} {s : String} (h : Spells body s.toList) :
      SpellsText ('"' :: (body ++ ['"'])) s

/-- A limit is `null` or the decimal digits of a number below `2 ^ 64`. -/
inductive SpellsLimit : List Char → Option UInt64 → Prop
  | null : SpellsLimit "null".toList none
  | count (n : UInt64) : SpellsLimit (Nat.toDigits 10 n.toNat) (some n)

theorem readText_eq_ok_iff {cs rest : List Char} {s : String} :
    readText cs = .ok (s, rest) ↔
      ∃ gap word, Blank gap ∧ SpellsText word s ∧ cs = gap ++ (word ++ rest) := by
  constructor
  · intro h
    obtain ⟨gap, hgap, hcs⟩ := exists_blank_skipSpace cs
    unfold readText at h
    split at h
    · next hq =>
      split at h
      · cases h
      · next hd =>
        cases h
        obtain ⟨body, hs, rfl⟩ := decode_eq_ok_iff.1 hd
        rw [hq] at hcs
        exact ⟨gap, _, hgap, .quoted (by rwa [String.toList_ofList]), by simpa using hcs⟩
    · cases h
  · rintro ⟨gap, word, hgap, @⟨body, s, hs⟩, rfl⟩
    have hd : decode (body ++ '"' :: rest) = .ok (s.toList, rest) :=
      decode_eq_ok_iff.2 ⟨body, hs, rfl⟩
    have hskip : skipSpace ('"' :: (body ++ '"' :: rest)) = '"' :: (body ++ '"' :: rest) :=
      skipSpace_cons rfl _
    simp only [readText, skipSpace_blank hgap, List.cons_append, List.append_assoc,
      List.nil_append, hskip, hd, String.ofList_toList]

theorem exists_of_readCount {cs rest : List Char} {n : UInt64}
    (h : readCount cs = .ok (n, rest)) : skipSpace cs = Nat.toDigits 10 n.toNat ++ rest := by
  have natural {positive : Bool} {cs behind : List Char} {m : Number}
      (hr : readNumber positive cs = .ok (m, behind)) (h : countOf m behind = .ok (n, rest)) :
      positive = true ∧ cs = Nat.toDigits 10 n.toNat ++ rest := by
    cases m with
    | natural k =>
      cases h
      obtain ⟨hp, hk, rfl⟩ := exists_of_readNumber hr
      rw [UInt64.toNat_ofNat_of_lt' hk]
      exact ⟨hp, rfl⟩
    | negative k => cases h
    | float x => cases h
  unfold readCount at h
  split at h
  · split at h
    · cases h
    · next hr => exact absurd (natural hr h).1 Bool.false_ne_true
  · next hs =>
    split at h
    · split at h
      · cases h
      · next hr =>
        rw [hs]
        exact (natural hr h).2
    · cases h
  · cases h

theorem exists_of_readOptionalCount {cs rest : List Char} {n : Option UInt64}
    (h : readOptionalCount cs = .ok (n, rest)) :
    ∃ gap word, Blank gap ∧ SpellsLimit word n ∧ cs = gap ++ (word ++ rest) := by
  obtain ⟨gap, hgap, hcs⟩ := exists_blank_skipSpace cs
  unfold readOptionalCount at h
  split at h
  · next hq =>
    split at h
    · cases h
    · next hw =>
      cases h
      rw [hq, readWord_eq_ok_iff.1 hw] at hcs
      exact ⟨gap, _, hgap, .null, hcs⟩
  · split at h
    · cases h
    · next hr =>
      cases h
      have hskip : skipSpace (skipSpace cs) = skipSpace cs := List.dropWhile_idempotent isSpace cs
      rw [← hskip, exists_of_readCount hr] at hcs
      exact ⟨gap, _, hgap, .count _, hcs⟩

theorem readOptionalCount_null {gap : List Char} (hg : Blank gap) (rest : List Char) :
    readOptionalCount (gap ++ ("null".toList ++ rest)) = .ok (none, rest) := by
  rw [readOptionalCount, skipSpace_blank hg]
  rfl

theorem readOptionalCount_toDigits {gap : List Char} (hg : Blank gap) (n : UInt64) {c : Char}
    (hc : EndsNumber c) (rest : List Char) :
    readOptionalCount (gap ++ (Nat.toDigits 10 n.toNat ++ c :: rest)) =
      .ok (some n, c :: rest) := by
  obtain ⟨d, ds, hds, hd⟩ := exists_digit_toDigits n.toNat
  have hread := readCount_toDigits n hc rest
  rw [readOptionalCount, skipSpace_blank hg]
  rw [hds, List.cons_append] at hread ⊢
  rw [skipSpace_cons (isSpace_of_isDigit hd)]
  split
  · next h =>
    cases h
    cases hd
  · rw [hread]

/-- A limit is read up to a character that does not continue a number. -/
theorem readOptionalCount_of_spells {gap word : List Char} {n : Option UInt64} (hg : Blank gap)
    (hw : SpellsLimit word n) {c : Char} (hc : EndsNumber c) (rest : List Char) :
    readOptionalCount (gap ++ (word ++ c :: rest)) = .ok (n, c :: rest) := by
  cases hw with
  | null => exact readOptionalCount_null hg _
  | count n => exact readOptionalCount_toDigits hg n hc rest

end GraphStack.Json
