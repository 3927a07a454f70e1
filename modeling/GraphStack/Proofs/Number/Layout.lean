import GraphStack.Number.Layout
import GraphStack.Proofs.Json.Spelling
import GraphStack.Proofs.Number.Shortest

/-!
# What a number's text shows

The text of a finite double is a decimal numeral, and the numeral shows exactly the digits and the
power of ten that were chosen (`shows_magnitude`). A numeral shows one number, so different doubles
have different texts in every layout (`text_injective`).
-/

namespace GraphStack

namespace Layout

open Json (isDigit digitsValue)

/-! ## Numerals -/

/-- Digits alone, or digits with a point between them, show a number. -/
inductive ShowsFixed : List Char → ℚ → Prop
  | whole {ds : List Char} (hne : ds ≠ []) (hd : ∀ d ∈ ds, isDigit d) :
      ShowsFixed ds (digitsValue 0 ds)
  | pointed {ds es : List Char} (hne : ds ≠ []) (hd : ∀ d ∈ ds, isDigit d)
      (he : ∀ e ∈ es, isDigit e) :
      ShowsFixed (ds ++ '.' :: es) (digitsValue 0 (ds ++ es) * 10 ^ (-(es.length : Int)))

/-- What stands after the letter of an exponent. -/
inductive ShowsExponent : List Char → Int → Prop
  | bare {ds : List Char} (hne : ds ≠ []) (hd : ∀ d ∈ ds, isDigit d) :
      ShowsExponent ds (digitsValue 0 ds)
  | plus {ds : List Char} (hd : ∀ d ∈ ds, isDigit d) : ShowsExponent ('+' :: ds) (digitsValue 0 ds)
  | minus {ds : List Char} (hd : ∀ d ∈ ds, isDigit d) :
      ShowsExponent ('-' :: ds) (-(digitsValue 0 ds : Int))

/-- A decimal numeral without a sign. -/
inductive Shows : List Char → ℚ → Prop
  | fixed {cs : List Char} {r : ℚ} (h : ShowsFixed cs r) : Shows cs r
  | scientific {cs es : List Char} {r : ℚ} {k : Int} (h : ShowsFixed cs r)
      (he : ShowsExponent es k) : Shows (cs ++ 'e' :: es) (r * 10 ^ k)

/-- The number that digits with a point show: the digits, and a tenth for each place. -/
def fixedValue (cs : List Char) : ℚ :=
  digitsValue 0 (cs.filter isDigit) * 10 ^ (-((cs.dropWhile (· ≠ '.')).tail.length : Int))

def exponentValue : List Char → Int
  | '+' :: ds => digitsValue 0 ds
  | '-' :: ds => -(digitsValue 0 ds : Int)
  | ds => digitsValue 0 ds

/-- The number that a numeral shows. -/
def numeralValue (cs : List Char) : ℚ :=
  fixedValue (cs.takeWhile (· ≠ 'e')) * 10 ^ exponentValue (cs.dropWhile (· ≠ 'e')).tail

variable {cs ds es : List Char} {r : ℚ} {k : Int} {c : Char}

theorem ne_of_isDigit {mark : Char} (hc : isDigit c) (hm : isDigit mark = false) : c ≠ mark := by
  rintro rfl
  exact Bool.noConfusion (hc.symm.trans hm)

theorem ShowsFixed.head (h : ShowsFixed cs r) : ∃ d ds, cs = d :: ds ∧ isDigit d := by
  cases h with
  | whole hne hd =>
    obtain ⟨d, ds, rfl⟩ := List.exists_cons_of_ne_nil hne
    exact ⟨d, ds, rfl, hd d List.mem_cons_self⟩
  | pointed hne hd he =>
    obtain ⟨d, ds, rfl⟩ := List.exists_cons_of_ne_nil hne
    exact ⟨d, _, rfl, hd d List.mem_cons_self⟩

theorem ShowsFixed.chars (h : ShowsFixed cs r) (hc : c ∈ cs) : isDigit c ∨ c = '.' := by
  cases h with
  | whole hne hd => exact .inl (hd c hc)
  | pointed hne hd he =>
    rcases List.mem_append.1 hc with hc | hc
    · exact .inl (hd c hc)
    · rcases List.mem_cons.1 hc with rfl | hc
      · exact .inr rfl
      · exact .inl (he c hc)

theorem ShowsExponent.chars (h : ShowsExponent es k) (hc : c ∈ es) :
    isDigit c ∨ c = '+' ∨ c = '-' := by
  cases h with
  | bare hne hd => exact .inl (hd c hc)
  | plus hd =>
    rcases List.mem_cons.1 hc with rfl | hc
    · exact .inr (.inl rfl)
    · exact .inl (hd c hc)
  | minus hd =>
    rcases List.mem_cons.1 hc with rfl | hc
    · exact .inr (.inr rfl)
    · exact .inl (hd c hc)

theorem ShowsFixed.fixedValue_eq (h : ShowsFixed cs r) : fixedValue cs = r := by
  have point {ds : List Char} (hd : ∀ d ∈ ds, isDigit d) : ∀ d ∈ ds, d ≠ '.' :=
    fun d hm => ne_of_isDigit (hd d hm) rfl
  cases h with
  | whole hne hd =>
    rw [fixedValue, List.filter_eq_self.2 hd,
      List.dropWhile_eq_nil_iff.2 fun d hm => decide_eq_true (point hd d hm)]
    simp
  | pointed hne hd he =>
    rw [fixedValue, List.filter_append, List.filter_eq_self.2 hd,
      List.filter_cons_of_neg (by decide), List.filter_eq_self.2 he,
      List.dropWhile_append_of_pos fun d hm => decide_eq_true (point hd d hm)]
    rfl

theorem ShowsExponent.exponentValue_eq (h : ShowsExponent es k) : exponentValue es = k := by
  cases h with
  | bare hne hd =>
    unfold exponentValue
    split
    · exact absurd (hd '+' List.mem_cons_self) (by decide)
    · exact absurd (hd '-' List.mem_cons_self) (by decide)
    · rfl
  | plus hd => rfl
  | minus hd => rfl

/-- A numeral has no `e` before its exponent, so it shows one number. -/
theorem Shows.numeralValue_eq (h : Shows cs r) : numeralValue cs = r := by
  have letter {cs : List Char} {r : ℚ} (h : ShowsFixed cs r) :
      ∀ c ∈ cs, decide (c ≠ 'e') = true := by
    intro c hc
    rw [decide_eq_true_eq]
    rcases h.chars hc with hc | rfl
    · exact ne_of_isDigit hc rfl
    · decide
  cases h with
  | fixed h =>
    rw [numeralValue, List.takeWhile_eq_self_iff.2 (letter h),
      List.dropWhile_eq_nil_iff.2 (letter h), h.fixedValue_eq]
    exact mul_one r
  | scientific h he =>
    rw [numeralValue, List.takeWhile_append_of_pos (letter h),
      List.dropWhile_append_of_pos (letter h), List.takeWhile_cons_of_neg (by decide),
      List.append_nil, h.fixedValue_eq, List.dropWhile_cons_of_neg (by decide), List.tail_cons,
      he.exponentValue_eq]

theorem Shows.head (h : Shows cs r) : ∃ d ds, cs = d :: ds ∧ isDigit d := by
  cases h with
  | fixed h => exact h.head
  | scientific h he =>
    obtain ⟨d, ds, rfl, hd⟩ := h.head
    exact ⟨d, _, rfl, hd⟩

/-- The characters of numbers. -/
def IsNumberChar (c : Char) : Prop := isDigit c ∨ c ∈ ['.', 'e', '+', '-']

theorem Shows.chars (h : Shows cs r) (hc : c ∈ cs) : IsNumberChar c := by
  have fixed {cs : List Char} {r : ℚ} (h : ShowsFixed cs r) (hc : c ∈ cs) : IsNumberChar c :=
    (h.chars hc).imp id fun h => by simp [h]
  cases h with
  | fixed h => exact fixed h hc
  | scientific h he =>
    rcases List.mem_append.1 hc with hc | hc
    · exact fixed h hc
    · rcases List.mem_cons.1 hc with rfl | hc
      · exact .inr (by decide)
      · exact (he.chars hc).imp id fun h => by rcases h with rfl | rfl <;> decide

/-! ## What is written -/

variable {l : Layout} {n : Nat} {p : Int}

theorem toList_toString (n : Nat) : (toString n).toList = Nat.toDigits 10 n := by
  simp [toString, Nat.repr]

theorem digits_toDigits (n : Nat) : ∀ d ∈ Nat.toDigits 10 n, isDigit d :=
  fun _ hd => Json.isDigit_of_mem_toDigits hd

theorem digits_zeros (n : Nat) : ∀ d ∈ List.replicate n '0', isDigit d := by
  intro d hd
  rw [(List.mem_replicate.1 hd).2]
  rfl

theorem digitsValue_toDigits (n : Nat) : digitsValue 0 (Nat.toDigits 10 n) = n :=
  (Json.digitsValue_of_absorb (Json.absorb_toDigits (Nat.lt_succ_self n))).1.symm

theorem digitsValue_append (m : Nat) (ds es : List Char) :
    digitsValue m (ds ++ es) = digitsValue (digitsValue m ds) es := List.foldl_append

theorem digitsValue_zeros (m n : Nat) : digitsValue m (List.replicate n '0') = m * 10 ^ n := by
  induction n generalizing m with
  | zero => exact (mul_one m).symm
  | succ n ih =>
    have hstep : digitsValue m ('0' :: List.replicate n '0') =
        digitsValue (m * 10) (List.replicate n '0') := rfl
    rw [List.replicate_succ, hstep, ih, pow_succ', mul_assoc]

/-- A number in full, with the point at its place among the digits. -/
theorem showsFixed_pointed (hne : ds ≠ []) (hd : ∀ d ∈ ds, isDigit d) (he : ∀ e ∈ es, isDigit e)
    (hv : digitsValue 0 (ds ++ es) = n) (hl : (es.length : Int) = -p) :
    ShowsFixed (ds ++ '.' :: es) (n * 10 ^ p) := by
  have h := ShowsFixed.pointed hne hd he
  rwa [hv, hl, neg_neg] at h

theorem digitsValue_zeros_append (k n : Nat) :
    digitsValue 0 (List.replicate k '0' ++ Nat.toDigits 10 n) = n := by
  rw [digitsValue_append, digitsValue_zeros, Nat.zero_mul, digitsValue_toDigits]

theorem digitsValue_append_zeros (n k : Nat) :
    digitsValue 0 (Nat.toDigits 10 n ++ List.replicate k '0') = n * 10 ^ k := by
  rw [digitsValue_append, digitsValue_toDigits, digitsValue_zeros]

/-- A whole number, bare or with `.0`. -/
theorem showsFixed_whole (pointed : Bool) (n k : Nat) :
    ShowsFixed (Nat.toDigits 10 n ++ List.replicate k '0' ++ if pointed then ['.', '0'] else [])
      (n * 10 ^ k) := by
  have hd : ∀ d ∈ Nat.toDigits 10 n ++ List.replicate k '0', isDigit d :=
    fun d hd => (List.mem_append.1 hd).elim (digits_toDigits n d) (digits_zeros k d)
  have hne : Nat.toDigits 10 n ++ List.replicate k '0' ≠ [] := by simp [Nat.toDigits_ne_nil]
  cases pointed with
  | true =>
    have hv : digitsValue 0 (Nat.toDigits 10 n ++ List.replicate k '0' ++ List.replicate 1 '0') =
        n * 10 ^ k * 10 := by
      rw [digitsValue_append, digitsValue_append_zeros, digitsValue_zeros, pow_one]
    have h := showsFixed_pointed (p := -1) hne hd (digits_zeros 1) hv rfl
    have hten : (n * 10 ^ k : ℚ) = ((n * 10 ^ k * 10 : Nat) : ℚ) * 10 ^ (-1 : Int) := by
      push_cast
      rw [zpow_neg_one, mul_inv_cancel_right₀ (by norm_num)]
    rw [hten]
    exact h
  | false =>
    have h := ShowsFixed.whole hne hd
    rw [digitsValue_append_zeros] at h
    simpa using h

theorem length_toString (n : Nat) : (toString n).length = (Nat.toDigits 10 n).length := by
  rw [← toList_toString, String.length_toList]

theorem toList_zeros (k : Nat) : (zeros k).toList = List.replicate k '0' := String.toList_ofList

/-- All digits stand behind the point, with zeros before them. -/
theorem showsFixed_behind (k n : Nat) (hp : ((k + (toString n).length : Nat) : Int) = -p) :
    ShowsFixed ("0." ++ zeros k ++ toString n).toList (n * 10 ^ p) := by
  have hlist : ("0." ++ zeros k ++ toString n).toList =
      List.replicate 1 '0' ++ '.' :: (List.replicate k '0' ++ Nat.toDigits 10 n) := by
    simp [toList_zeros]
  rw [hlist]
  refine showsFixed_pointed (by simp) (digits_zeros 1) ?_ ?_ ?_
  · exact fun d hd => (List.mem_append.1 hd).elim (digits_zeros _ d) (digits_toDigits n d)
  · rw [← List.append_assoc, List.replicate_append_replicate, digitsValue_zeros_append]
  · rw [List.length_append, List.length_replicate, ← length_toString, hp]

/-- The point stands among the digits. -/
theorem showsFixed_cut {k n : Nat} (h0 : 0 < k) (hk : k < (toString n).length)
    (hp : (((toString n).length - k : Nat) : Int) = -p) :
    ShowsFixed (String.ofList ((toString n).toList.take k) ++ "." ++
      String.ofList ((toString n).toList.drop k)).toList (n * 10 ^ p) := by
  have hlist : (String.ofList ((toString n).toList.take k) ++ "." ++
      String.ofList ((toString n).toList.drop k)).toList =
      (Nat.toDigits 10 n).take k ++ '.' :: (Nat.toDigits 10 n).drop k := by
    simp
  rw [hlist]
  refine showsFixed_pointed (fun h => ?_) ?_ ?_ ?_ ?_
  · have hl := congrArg List.length h
    rw [List.length_take, ← length_toString, List.length_nil] at hl
    omega
  · exact fun d hd => digits_toDigits n d (List.mem_of_mem_take hd)
  · exact fun d hd => digits_toDigits n d (List.mem_of_mem_drop hd)
  · rw [List.take_append_drop, digitsValue_toDigits]
  · rw [List.length_drop, ← length_toString, hp]

theorem showsFixed_inFull (l : Layout) (n : Nat) (p : Int) :
    ShowsFixed (l.inFull n p).toList (n * 10 ^ p) := by
  unfold inFull
  dsimp only
  split
  · next hp =>
    obtain ⟨k, rfl⟩ := Int.eq_ofNat_of_zero_le hp
    have hlist : (toString n ++ zeros (k : Int).toNat ++ if l.keepsPoint then ".0" else "").toList =
        Nat.toDigits 10 n ++ List.replicate k '0' ++ if l.keepsPoint then ['.', '0'] else [] := by
      rw [String.toList_append, String.toList_append, toList_toString, toList_zeros]
      cases l.keepsPoint <;> simp
    rw [hlist, zpow_natCast]
    exact showsFixed_whole l.keepsPoint n k
  · next hp =>
    split
    · exact showsFixed_behind _ n (by omega)
    · exact showsFixed_cut (by omega) (by omega) (by omega)

theorem showsExponent (plus : Bool) (k : Int) :
    ShowsExponent ((if plus && 0 ≤ k then "+" else "") ++ toString k).toList k := by
  cases k with
  | ofNat n =>
    have hn : 0 ≤ Int.ofNat n := Int.natCast_nonneg n
    have ht : toString (Int.ofNat n) = toString n := rfl
    have hv : Int.ofNat n = (digitsValue 0 (Nat.toDigits 10 n) : Int) := by
      rw [digitsValue_toDigits]
      rfl
    rw [decide_eq_true hn, Bool.and_true, ht, String.toList_append, toList_toString, hv]
    cases plus with
    | true => exact .plus (digits_toDigits n)
    | false => exact .bare Nat.toDigits_ne_nil (digits_toDigits n)
  | negSucc n =>
    have hn : ¬ 0 ≤ Int.negSucc n := Int.not_le.2 (Int.negSucc_lt_zero n)
    have ht : toString (Int.negSucc n) = "-" ++ toString (n + 1) := rfl
    have hv : Int.negSucc n = -(digitsValue 0 (Nat.toDigits 10 (n + 1)) : Int) := by
      rw [digitsValue_toDigits]
      rfl
    rw [decide_eq_false hn, Bool.and_false, ht, String.toList_append, String.toList_append,
      toList_toString, hv]
    exact .minus (digits_toDigits (n + 1))

theorem shows_withExponent (l : Layout) (n : Nat) (k : Int) :
    Shows (l.withExponent n k).toList (n * 10 ^ (k - ((toString n).length - 1))) := by
  obtain ⟨d, ds, hds⟩ := List.exists_cons_of_ne_nil (Nat.toDigits_ne_nil (b := 10) (n := n))
  have hd : ∀ c ∈ d :: ds, isDigit c := hds ▸ digits_toDigits n
  have hfirst : ∀ c ∈ [d], isDigit c := fun c hc => hd c (List.mem_of_mem_take (i := 1) hc)
  have hv : digitsValue 0 (d :: ds) = n := hds ▸ digitsValue_toDigits n
  have hlead : ShowsFixed (if ds = [] then [d] else [d] ++ '.' :: ds)
      (n * 10 ^ (-(ds.length : Int))) := by
    cases ds with
    | nil =>
      have h := ShowsFixed.whole (List.cons_ne_nil d []) hd
      rw [hv] at h
      simpa using h
    | cons e es =>
      exact showsFixed_pointed (List.cons_ne_nil d []) hfirst
        (fun c hc => hd c (List.mem_cons_of_mem _ hc)) hv (by simp)
  have hlist : (l.withExponent n k).toList = (if ds = [] then [d] else [d] ++ '.' :: ds) ++
      'e' :: ((if l.exponentPlus && 0 ≤ k then "+" else "") ++ toString k).toList := by
    unfold withExponent
    rw [toList_toString, hds]
    cases ds <;> simp
  have hsize : k - ((toString n).length - 1) = -(ds.length : Int) + k := by
    rw [length_toString, hds, List.length_cons]
    push_cast
    ring
  rw [hlist, hsize, zpow_add₀ (by norm_num), ← mul_assoc]
  exact .scientific hlead (showsExponent l.exponentPlus k)

theorem trimmed_spec (steps n : Nat) (p : Int) :
    ((trimmed steps n p).1 * 10 ^ (trimmed steps n p).2 : ℚ) = n * 10 ^ p ∧
      p ≤ (trimmed steps n p).2 := by
  induction steps generalizing n p with
  | zero => exact ⟨rfl, le_rfl⟩
  | succ steps ih =>
    rw [trimmed]
    split
    · next h =>
      obtain ⟨hv, hp⟩ := ih (n / 10) (p + 1)
      refine ⟨?_, by omega⟩
      have hn : (n : ℚ) = (n / 10 : Nat) * 10 := by exact_mod_cast (by omega : n = n / 10 * 10)
      rw [hv, hn, zpow_add₀ (by norm_num)]
      ring
    · exact ⟨rfl, le_rfl⟩

/-- The text shows the number, wherever the point is and whether or not there is an exponent. -/
theorem shows_magnitude (l : Layout) (n : Nat) (p : Int) :
    Shows (l.magnitude n p).toList (n * 10 ^ p) := by
  obtain ⟨hv, -⟩ := trimmed_spec 20 n p
  unfold magnitude
  generalize trimmed 20 n p = t at hv
  obtain ⟨n', p'⟩ := t
  dsimp only at hv ⊢
  rw [← hv]
  split
  · next h0 =>
    rw [h0, Nat.cast_zero, zero_mul]
    simpa using Shows.fixed (showsFixed_inFull l 0 0)
  · split
    · exact .fixed (showsFixed_inFull l n' p')
    · have h := shows_withExponent l n' (p' + (toString n').length - 1)
      rwa [show p' + (toString n').length - 1 - ((toString n').length - 1) = p' by ring] at h

theorem point_mem_inFull (hk : l.keepsPoint) (n : Nat) (p : Int) :
    '.' ∈ (l.inFull n p).toList := by
  unfold inFull
  dsimp only
  rw [hk]
  split
  · simp
  · split <;> simp

theorem letter_mem_withExponent (l : Layout) (n : Nat) (k : Int) :
    'e' ∈ (l.withExponent n k).toList := by
  unfold withExponent
  simp

/-- No whole number is written with digits alone where the point is kept. -/
theorem mark_mem_magnitude (hk : l.keepsPoint) (n : Nat) (p : Int) :
    '.' ∈ (l.magnitude n p).toList ∨ 'e' ∈ (l.magnitude n p).toList := by
  unfold magnitude
  dsimp only
  split
  · exact .inl (point_mem_inFull hk _ _)
  · split
    · exact .inl (point_mem_inFull hk _ _)
    · exact .inr (letter_mem_withExponent l _ _)

/-! ## Texts of doubles -/

variable {x y : Double} {s : Bool} {m : Nat} {q : Int}

theorem text_of_zero (l : Layout) (hr : x.reading = .finite s 0 q) :
    l.text x = (if s then "-" else "") ++ l.magnitude 0 0 := by
  unfold text
  rw [hr]
  rfl

theorem text_of_digits (l : Layout) (hr : x.reading = .finite s m q) (hm : m ≠ 0)
    (hd : Shortest.digits l.tie m q = (n, p)) :
    l.text x = (if s then "-" else "") ++ l.magnitude n p := by
  unfold text
  rw [hr]
  dsimp only
  rw [if_neg hm, hd]

/-- A sign and a numeral that shows zero or a number that rounds to the double. -/
theorem exists_text (l : Layout) (hr : x.reading = .finite s m q) :
    ∃ n p, l.text x = (if s then "-" else "") ++ l.magnitude n p ∧
      (m = 0 ∧ n = 0 ∨ m ≠ 0 ∧ Shortest.RoundsTo m q (n * 10 ^ p)) := by
  by_cases hm : m = 0
  · subst hm
    exact ⟨0, 0, text_of_zero l hr, .inl ⟨rfl, rfl⟩⟩
  · generalize hd : Shortest.digits l.tie m q = d
    obtain ⟨n, p⟩ := d
    have hl := Double.legal_of_reading hr
    exact ⟨n, p, text_of_digits l hr hm hd, .inr ⟨hm, Shortest.roundsTo_digits hl hm hd⟩⟩

theorem toList_sign (s : Bool) (t : String) :
    ((if s then "-" else "") ++ t).toList = (if s then ['-'] else []) ++ t.toList := by
  cases s <;> simp

/-- A numeral begins with a digit, so the sign can be told from it. -/
theorem sign_inj {s s' : Bool} {cs cs' : List Char} {r r' : ℚ} (hc : Shows cs r)
    (hc' : Shows cs' r')
    (h : (if s then ['-'] else []) ++ cs = (if s' then ['-'] else []) ++ cs') :
    s = s' ∧ cs = cs' := by
  have digit : ¬ isDigit '-' := by decide
  obtain ⟨d, ds, rfl, hd⟩ := hc.head
  obtain ⟨d', ds', rfl, hd'⟩ := hc'.head
  cases s <;> cases s'
  case false.false => exact ⟨rfl, h⟩
  case true.true => exact ⟨rfl, List.tail_eq_of_cons_eq h⟩
  case false.true =>
    cases h
    exact absurd hd digit
  case true.false =>
    cases h
    exact absurd hd' digit

/-- Different finite doubles have different texts: the number that is shown rounds to one double
only, and zeros have their sign. -/
theorem text_injective (hx : x.isFinite) (hy : y.isFinite) (h : l.text x = l.text y) : x = y := by
  obtain ⟨s, m, q, hrx⟩ := Double.exists_reading hx
  obtain ⟨s', m', q', hry⟩ := Double.exists_reading hy
  have hl := Double.legal_of_reading hrx
  have hl' := Double.legal_of_reading hry
  obtain ⟨n, p, hn, hv⟩ := exists_text l hrx
  obtain ⟨n', p', hn', hv'⟩ := exists_text l hry
  have hshow := shows_magnitude l n p
  have hshow' := shows_magnitude l n' p'
  have hlist := congrArg String.toList h
  rw [hn, hn', toList_sign, toList_sign] at hlist
  obtain ⟨rfl, hbody⟩ := sign_inj hshow hshow' hlist
  have hr : (n * 10 ^ p : ℚ) = n' * 10 ^ p' := by
    rw [← hshow.numeralValue_eq, ← hshow'.numeralValue_eq, hbody]
  rcases hv with ⟨rfl, rfl⟩ | ⟨hm, hv⟩
  · rcases hv' with ⟨rfl, rfl⟩ | ⟨hm', hv'⟩
    · have hzero {q : Int} (hl : Double.Legal 0 q) : q = -1074 := by
        by_contra hq
        have := hl.normal hq
        omega
      rw [hzero hl, ← hzero hl'] at hrx
      exact Double.eq_of_reading hrx hry
    · have hpos := hv'.pos hm'
      rw [← hr] at hpos
      simp at hpos
  · rcases hv' with ⟨rfl, rfl⟩ | ⟨hm', hv'⟩
    · have hpos := hv.pos hm
      rw [hr] at hpos
      simp at hpos
    · rw [← hr] at hv'
      obtain ⟨rfl, rfl⟩ := hv.unique hl hl' hv'
      exact Double.eq_of_reading hrx hry

/-- A text of a finite double begins with a sign or a digit. -/
theorem head_text (l : Layout) (hx : x.isFinite) :
    ∃ c cs, (l.text x).toList = c :: cs ∧ (c = '-' ∨ isDigit c) := by
  obtain ⟨s, m, q, hr⟩ := Double.exists_reading hx
  obtain ⟨n, p, hn, -⟩ := exists_text l hr
  rw [hn, toList_sign]
  cases s with
  | true => exact ⟨'-', _, rfl, .inl rfl⟩
  | false =>
    obtain ⟨d, ds, hds, hd⟩ := (shows_magnitude l n p).head
    exact ⟨d, ds, hds, .inr hd⟩

theorem chars_text (hx : x.isFinite) (hc : c ∈ (l.text x).toList) : IsNumberChar c := by
  obtain ⟨s, m, q, hr⟩ := Double.exists_reading hx
  obtain ⟨n, p, hn, -⟩ := exists_text l hr
  rw [hn, toList_sign] at hc
  rcases List.mem_append.1 hc with hc | hc
  · cases s with
    | true =>
      cases List.mem_singleton.1 hc
      exact .inr (by decide)
    | false => cases hc
  · exact (shows_magnitude l n p).chars hc

theorem mark_mem_text (hk : l.keepsPoint) (hx : x.isFinite) :
    '.' ∈ (l.text x).toList ∨ 'e' ∈ (l.text x).toList := by
  obtain ⟨s, m, q, hr⟩ := Double.exists_reading hx
  obtain ⟨n, p, hn, -⟩ := exists_text l hr
  rw [hn, toList_sign]
  exact (mark_mem_magnitude hk n p).imp (List.mem_append_right _) (List.mem_append_right _)

end Layout
end GraphStack
