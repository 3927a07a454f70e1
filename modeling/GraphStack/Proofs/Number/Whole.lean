import GraphStack.Proofs.Number.Layout

/-!
# Whole numbers among the doubles

`Double.value?` is the exact value of a finite double. `Double.toInt?` gives it where it is a whole
number, a whole number of up to 53 binary digits becomes the double of that value, and in the plain
layout such a double is written with the digits of the number: on the grids above the units the
search finds multiples of powers of ten only, and at the units it ends.
-/

namespace GraphStack

namespace Double

/-- The exact value of a finite double. -/
def value? (x : Double) : Option ℚ :=
  match x.reading with
  | .finite negative m q => some ((if negative then -1 else 1) * ((m : ℚ) * 2 ^ q))
  | _ => none

variable {x : Double} {s : Bool} {m n : Nat} {q : Int} {k : Int}

theorem value?_of_reading (hr : x.reading = .finite s m q) :
    x.value? = some ((if s then -1 else 1) * ((m : ℚ) * 2 ^ q)) := by
  unfold value?
  rw [hr]

theorem exists_of_value? {r : ℚ} (hv : x.value? = some r) :
    ∃ s m q, x.reading = .finite s m q ∧ (if s then -1 else 1) * ((m : ℚ) * 2 ^ q) = r := by
  unfold value? at hv
  split at hv
  · next s m q hr => exact ⟨s, m, q, hr, Option.some.inj hv⟩
  · cases hv

/-- A double with a whole value is a sign and a natural number. -/
theorem exists_of_whole (hv : x.value? = some (k : ℚ)) :
    ∃ s m q, x.reading = .finite s m q ∧ (m * 2 ^ q : ℚ) = k.natAbs ∧
      k = if s then -(k.natAbs : Int) else k.natAbs := by
  obtain ⟨s, m, q, hr, hk⟩ := exists_of_value? hv
  have hpos : (0 : ℚ) ≤ m * 2 ^ q := by positivity
  refine ⟨s, m, q, hr, ?_⟩
  cases s with
  | false =>
    have hk' : (m * 2 ^ q : ℚ) = k := by simpa using hk
    have h0 : 0 ≤ k := by exact_mod_cast hk' ▸ hpos
    have habs : (k.natAbs : Int) = k := Int.natAbs_of_nonneg h0
    exact ⟨by rw [hk', ← Int.cast_natCast, habs], habs.symm⟩
  | true =>
    have hk' : (m * 2 ^ q : ℚ) = -k := by
      have : -(m * 2 ^ q : ℚ) = k := by simpa using hk
      linarith
    have h0 : 0 ≤ -k := by exact_mod_cast hk' ▸ hpos
    have habs : (k.natAbs : Int) = -k := by omega
    refine ⟨by rw [hk', ← Int.cast_natCast, habs, Int.cast_neg], ?_⟩
    simp only [if_true]
    omega

theorem mul_twoTo_eq (hq : 0 ≤ q) (hn : (m * 2 ^ q : ℚ) = n) : m * twoTo q.toNat = n := by
  obtain ⟨e, rfl⟩ := Int.eq_ofNat_of_zero_le hq
  have h : ((m * 2 ^ e : Nat) : ℚ) = n := by
    rw [← hn, zpow_natCast]
    push_cast
    rfl
  exact_mod_cast h

theorem eq_mul_twoTo (hq : q ≤ 0) (hn : (m * 2 ^ q : ℚ) = n) : m = n * twoTo (-q).toNat := by
  obtain ⟨e, he⟩ := Int.eq_ofNat_of_zero_le (show 0 ≤ -q by omega)
  obtain rfl : q = -(e : Int) := by omega
  have h : (m : ℚ) = ((n * 2 ^ e : Nat) : ℚ) := by
    push_cast
    rw [← hn, mul_assoc, zpow_neg, zpow_natCast, inv_mul_cancel₀ (by positivity), mul_one]
  rw [neg_neg, Int.toNat_natCast]
  exact_mod_cast h

/-- The mantissa times the power of two, or the quotient where it divides the mantissa. -/
theorem toInt?_of_reading (hr : x.reading = .finite s m q) (hn : (m * 2 ^ q : ℚ) = n) :
    x.toInt? = some (if s then -(n : Int) else n) := by
  have hmagnitude : (if 0 ≤ q then some (m * twoTo q.toNat)
      else if m % twoTo (-q).toNat = 0 then some (m / twoTo (-q).toNat) else none) = some n := by
    by_cases hq : 0 ≤ q
    · rw [if_pos hq, mul_twoTo_eq hq hn]
    · have hpos : 0 < twoTo (-q).toNat := Nat.pow_pos (by decide)
      rw [if_neg hq, eq_mul_twoTo (show q ≤ 0 by omega) hn, if_pos (Nat.mul_mod_left n _),
        Nat.mul_div_cancel n hpos]
  unfold toInt?
  rw [hr]
  dsimp only
  rw [hmagnitude]
  rfl

theorem toInt?_of_whole (hv : x.value? = some (k : ℚ)) : x.toInt? = some k := by
  obtain ⟨s, m, q, hr, hn, hk⟩ := exists_of_whole hv
  rw [toInt?_of_reading hr hn, ← hk]

/-! ## Bits that are put together -/

section Magnitude

variable (s : Bool) (hn : n < 2 ^ 63)

include hn

theorem toNat_bits_ofMagnitude : (ofMagnitude s n).bits.toNat = s.toNat * 2 ^ 63 + n := by
  have hsign : (if s then signWeight else 0) = s.toNat * 2 ^ 63 := by cases s <;> rfl
  have hle : s.toNat ≤ 1 := Bool.toNat_le s
  have hsize : UInt64.size = 2 ^ 64 := rfl
  unfold ofMagnitude
  rw [hsign]
  apply UInt64.toNat_ofNat_of_lt'
  omega

theorem negative_ofMagnitude : (ofMagnitude s n).negative = s := by
  have hs : signWeight = 2 ^ 63 := rfl
  unfold negative
  rw [toNat_bits_ofMagnitude s hn, hs]
  cases s with
  | true => exact decide_eq_true (by rw [Bool.toNat_true]; omega)
  | false => exact decide_eq_false (by rw [Bool.toNat_false]; omega)

theorem fraction_ofMagnitude : (ofMagnitude s n).fraction = n % 2 ^ 52 := by
  have hw : fractionWeight = 2 ^ 52 := rfl
  unfold fraction
  rw [toNat_bits_ofMagnitude s hn, hw]
  omega

theorem field_ofMagnitude : (ofMagnitude s n).field = n / 2 ^ 52 := by
  have hw : fractionWeight = 2 ^ 52 := rfl
  unfold field
  rw [toNat_bits_ofMagnitude s hn, hw]
  omega

end Magnitude

/-- The bits of a mantissa and an exponent are read back. -/
theorem reading_ofMagnitude (hl : Legal m q) (s : Bool) :
    (ofMagnitude s ((q + 1074).toNat * fractionWeight + m)).reading = .finite s m q := by
  have hw : fractionWeight = 2 ^ 52 := rfl
  have ht : topField = 2047 := rfl
  obtain ⟨hlt, hleast, hgreatest, hnormal⟩ := hl
  obtain ⟨e, he⟩ := Int.eq_ofNat_of_zero_le (show 0 ≤ q + 1074 by omega)
  obtain rfl : q = (e : Int) - 1074 := by omega
  have hbound : e * 2 ^ 52 + m < 2 ^ 63 := by omega
  rw [show ((e : Int) - 1074 + 1074).toNat = e by omega, hw]
  unfold reading
  rw [negative_ofMagnitude s hbound, fraction_ofMagnitude s hbound, field_ofMagnitude s hbound, ht,
    if_neg (by omega)]
  -- The leading binary digit of a mantissa is not among the bits of the fraction.
  by_cases h0 : e = 0 ∧ m < 2 ^ 52
  · rw [if_pos (by omega), h0.1, Nat.zero_mul, Nat.zero_add, Nat.mod_eq_of_lt h0.2]
    rfl
  · have hm : 2 ^ 52 ≤ m := by
      by_contra hm
      exact hm (hnormal (by omega))
    rw [if_neg (by omega), hw]
    congr 1 <;> omega

theorem roundedQuotient_one (n : Nat) : roundedQuotient n 1 = n := by
  simp [roundedQuotient, Nat.mod_one]

theorem binaryOrder_one (h0 : n ≠ 0) : binaryOrder n 1 = n.log2 := by
  have hle : twoTo n.log2 ≤ n := Nat.log2_self_le h0
  have hlog : (1 : Nat).log2 = 0 := by decide
  unfold binaryOrder
  dsimp only
  rw [hlog, Nat.cast_zero, sub_zero, Int.toNat_natCast, Int.toNat_of_nonpos (by omega)]
  refine if_neg (not_lt.2 ?_)
  rw [one_mul]
  simpa [twoTo] using hle

theorem legal_of_log2 {d : Nat} (h0 : n ≠ 0) (hd : n.log2 + d = 52) :
    Legal (n * 2 ^ d) (-(d : Int)) := by
  have hle : 2 ^ n.log2 ≤ n := Nat.log2_self_le h0
  have hlt : n < 2 ^ (n.log2 + 1) := Nat.lt_log2_self
  refine ⟨?_, by omega, by omega, fun _ => ?_⟩
  · calc n * 2 ^ d < 2 ^ (n.log2 + 1) * 2 ^ d :=
          Nat.mul_lt_mul_of_pos_right hlt (by positivity)
      _ = 2 ^ 53 := by rw [← pow_add]; congr 1; omega
  · calc 2 ^ 52 = 2 ^ n.log2 * 2 ^ d := by rw [← pow_add, hd]
      _ ≤ n * 2 ^ d := Nat.mul_le_mul_right _ hle

/-- A whole number of at most 53 binary digits is shifted, and nothing is rounded. -/
theorem ofInt_eq {d : Nat} (h0 : k.natAbs ≠ 0) (hd : k.natAbs.log2 + d = 52) :
    ofInt k =
      ofMagnitude (k < 0) ((-(d : Int) + 1074).toNat * fractionWeight + k.natAbs * 2 ^ d) := by
  have hq : max ((k.natAbs.log2 : Int) - 52) (-1074) = -(d : Int) := by omega
  have hbound : (-(d : Int) + 1074).toNat * fractionWeight + k.natAbs * 2 ^ d ≤
      topField * fractionWeight := by
    have hw : fractionWeight = 2 ^ 52 := rfl
    have ht : topField = 2047 := rfl
    have hlt := (legal_of_log2 h0 hd).lt
    rw [hw, ht]
    omega
  have hmantissa : roundedQuotient (k.natAbs * twoTo d) (1 * twoTo 0) = k.natAbs * 2 ^ d :=
    roundedQuotient_one _
  unfold ofInt nearest
  dsimp only
  rw [if_neg h0, binaryOrder_one h0, hq, neg_neg, Int.toNat_natCast,
    Int.toNat_of_nonpos (show -(d : Int) ≤ 0 by omega), hmantissa, Nat.min_eq_left hbound]

/-- A whole number below `2 ^ 53` loses nothing as a double. -/
theorem value?_ofInt (hk : k.natAbs < 2 ^ 53) : (ofInt k).value? = some (k : ℚ) := by
  by_cases h0 : k.natAbs = 0
  · obtain rfl : k = 0 := Int.natAbs_eq_zero.1 h0
    have hr : (ofInt 0).reading = .finite false 0 (-1074) := by decide
    rw [value?_of_reading hr]
    simp
  have hlog : k.natAbs.log2 < 53 := (Nat.log2_lt h0).2 hk
  obtain ⟨d, hd⟩ := Nat.exists_eq_add_of_le (show k.natAbs.log2 ≤ 52 by omega)
  have hvalue : ((k.natAbs * 2 ^ d : Nat) * 2 ^ (-(d : Int)) : ℚ) = k.natAbs := by
    push_cast
    rw [zpow_neg, zpow_natCast, mul_inv_cancel_right₀ (by positivity)]
  have hr := reading_ofMagnitude (legal_of_log2 h0 hd.symm) (k < 0)
  rw [ofInt_eq h0 hd.symm, value?_of_reading hr, hvalue]
  rcases lt_or_ge k 0 with hk0 | hk0
  · have habs : ((k.natAbs : Int) : ℚ) = -k := by
      rw [show (k.natAbs : Int) = -k by omega, Int.cast_neg]
    rw [Int.cast_natCast] at habs
    simp [hk0, habs]
  · have habs : ((k.natAbs : Int) : ℚ) = k := by rw [Int.natAbs_of_nonneg hk0]
    rw [Int.cast_natCast] at habs
    simp [not_lt.2 hk0, habs]

/-- A whole number below `2 ^ 53` has its units among the binary digits of the double. -/
theorem Legal.of_whole (hl : Legal m q) (hn : (m * 2 ^ q : ℚ) = n) (h0 : n ≠ 0)
    (hlt : n < 2 ^ 53) : 2 ^ 52 ≤ m ∧ -52 ≤ q ∧ q ≤ 0 := by
  have hm : (m : ℚ) < 2 ^ 53 := by exact_mod_cast hl.lt
  have hn1 : (1 : ℚ) ≤ n := by exact_mod_cast Nat.one_le_iff_ne_zero.2 h0
  have hn53 : (n : ℚ) < 2 ^ 53 := by exact_mod_cast hlt
  have hleast : -52 ≤ q := by
    by_contra hq
    have hp : (2 ^ q : ℚ) ≤ 2 ^ (-53 : Int) := zpow_le_zpow_right₀ (by norm_num) (by omega)
    have hsmall : (m * 2 ^ q : ℚ) < 1 :=
      calc (m * 2 ^ q : ℚ) < 2 ^ 53 * 2 ^ q := mul_lt_mul_of_pos_right hm (zpow_pos (by norm_num) _)
        _ ≤ 2 ^ 53 * 2 ^ (-53 : Int) := mul_le_mul_of_nonneg_left hp (by norm_num)
        _ = 1 := by norm_num
    linarith
  have hnormal : 2 ^ 52 ≤ m := hl.normal (by omega)
  refine ⟨hnormal, hleast, ?_⟩
  by_contra hq
  have hm' : (2 ^ 52 : ℚ) ≤ m := by exact_mod_cast hnormal
  have hp : (2 ^ (1 : Int) : ℚ) ≤ 2 ^ q := zpow_le_zpow_right₀ (by norm_num) (by omega)
  have hlarge : (2 ^ 52 * 2 ^ (1 : Int) : ℚ) ≤ m * 2 ^ q :=
    mul_le_mul hm' hp (by norm_num) (by positivity)
  rw [hn] at hlarge
  norm_num at hlarge hn53
  linarith

end Double

namespace Shortest

open Double (Legal)

variable {m n c : Nat} {q p : Int} {tie : Tie}

/-- No other whole number rounds to the double of a whole number. -/
theorem RoundsTo.eq_of_whole (hq : q ≤ 0) (hn : (m * 2 ^ q : ℚ) = n)
    (hc : RoundsTo m q (c : ℚ)) : c = n := by
  have hhalf : (2 * 2 ^ (q - 2) : ℚ) ≤ 1 / 2 := by
    have hp : (2 ^ (q - 2) : ℚ) ≤ 2 ^ (-2 : Int) := zpow_le_zpow_right₀ (by norm_num) (by omega)
    norm_num at hp
    linarith
  have hg : (lowerGap m q : ℚ) ≤ 2 := by exact_mod_cast lowerGap_le m q
  have hp : (0 : ℚ) < 2 ^ (q - 2) := zpow_pos (by norm_num) _
  have hlow : (n : ℚ) - 1 / 2 ≤ lowEnd m q := by
    rw [← hn, mul_two_zpow, lowEnd]
    nlinarith
  have hhigh : highEnd m q ≤ (n : ℚ) + 1 / 2 := by
    rw [← hn, mul_two_zpow, highEnd]
    linarith
  have hbelow : (n : ℚ) < c + 1 := by linarith [hc.le.1]
  have habove : (c : ℚ) < n + 1 := by linarith [hc.le.2]
  have hbelow' : n < c + 1 := by exact_mod_cast hbelow
  have habove' : c < n + 1 := by exact_mod_cast habove
  omega

/-- The whole number is on the grid of the units. -/
theorem contains_units (hm : m ≠ 0) (hn : (m * 2 ^ q : ℚ) = n) :
    (Interval.of m q).contains ((Interval.of m q).below 0) 0 := by
  have hbelow : (Interval.of m q).below 0 = n := by
    have h1 := below_le m q 0
    have h2 := lt_below_succ m q 0
    rw [hn, zpow_zero, mul_one] at h1 h2
    have h1' : (Interval.of m q).below 0 ≤ n := by exact_mod_cast h1
    have h2' : n < (Interval.of m q).below 0 + 1 := by exact_mod_cast h2
    omega
  rw [contains_iff hm, hbelow, zpow_zero, mul_one, ← hn]
  exact roundsTo_self m q

/-- The digits of a whole number below `2 ^ 53` are its own, down to a power of ten. -/
theorem digits_of_whole (hl : Legal m q) (hn : (m * 2 ^ q : ℚ) = n) (h0 : n ≠ 0)
    (hlt : n < 2 ^ 53) : ∃ c e : Nat, digits tie m q = (c, (e : Int)) ∧ c * 10 ^ e = n := by
  obtain ⟨hnormal, hleast, hq⟩ := hl.of_whole hn h0 hlt
  have hm : m ≠ 0 := by omega
  have hlog : m.log2 = 52 := by
    have h1 := (Nat.le_log2 hm).2 hnormal
    have h2 := (Nat.log2_lt hm).2 hl.lt
    omega
  have htop : 0 ≤ topPower m q ∧ topPower m q < 24 := by
    unfold topPower
    rw [hlog]
    omega
  -- The search goes down from `topPower`, and the units are the last grid that it can come to.
  have hpick : ∃ c, (Interval.of m q).pick? tie (topPower m q - (topPower m q).toNat) = some c := by
    rw [Int.toNat_of_nonneg htop.1, sub_self]
    exact exists_pick_of_contains (contains_units hm hn)
  obtain ⟨c, p, hs, hp, hc⟩ := search_spec (show (topPower m q).toNat < 24 by omega) hpick
  obtain ⟨e, rfl⟩ := Int.eq_ofNat_of_zero_le (show 0 ≤ p by omega)
  refine ⟨c, e, hs, ?_⟩
  have hr := (contains_iff hm).1 (contains_of_pick hc).1
  rw [zpow_natCast] at hr
  apply RoundsTo.eq_of_whole hq hn
  push_cast
  exact hr

end Shortest
namespace Layout

variable {x : Double} {m n c e : Nat} {q : Int} {k : Int}

theorem toDigits_mul_pow (h0 : n ≠ 0) (e : Nat) :
    Nat.toDigits 10 (n * 10 ^ e) = Nat.toDigits 10 n ++ List.replicate e '0' := by
  induction e with
  | zero => simp
  | succ e ih =>
    have hpos : 0 < n * 10 ^ e := Nat.mul_pos (Nat.pos_of_ne_zero h0) (by positivity)
    have hstep : n * 10 ^ (e + 1) = n * 10 ^ e * 10 := by rw [pow_succ, mul_assoc]
    rw [hstep, Nat.toDigits_eq_if (by decide), if_neg (by omega), Nat.mul_div_cancel _ (by decide),
      Nat.mul_mod_left, ih, List.replicate_succ', List.append_assoc]
    rfl

theorem toString_mul_pow (h0 : n ≠ 0) (e : Nat) : toString (n * 10 ^ e) = toString n ++ zeros e := by
  apply String.toList_inj.1
  rw [String.toList_append, toList_toString, toList_toString, toList_zeros, toDigits_mul_pow h0]

/-- Trailing zeros of a whole number are written out. -/
theorem plain_magnitude (h0 : n ≠ 0) (hn : c * 10 ^ e = n) :
    plain.magnitude c (e : Int) = toString n := by
  obtain ⟨hv, hp⟩ := trimmed_spec 20 c (e : Int)
  unfold magnitude
  generalize trimmed 20 c (e : Int) = t at hv hp
  obtain ⟨c', p⟩ := t
  dsimp only at hv hp ⊢
  obtain ⟨e', rfl⟩ := Int.eq_ofNat_of_zero_le (show 0 ≤ p by omega)
  have hn' : c' * 10 ^ e' = n := by
    rw [zpow_natCast, zpow_natCast] at hv
    rw [← hn]
    exact_mod_cast hv
  have hc' : c' ≠ 0 := by
    rintro rfl
    exact h0 (by rw [← hn', Nat.zero_mul])
  have hfull : plain.inFull c' (e' : Int) = toString c' ++ zeros e' := by
    simp [inFull, plain]
  have hall (order : Int) : plain.writesInFull order := rfl
  rw [if_neg hc', if_pos (hall _), hfull, ← toString_mul_pow hc', hn']

theorem toString_sign (s : Bool) (h0 : n ≠ 0) :
    toString (if s then -(n : Int) else n) = (if s then "-" else "") ++ toString n := by
  cases s with
  | false => exact String.empty_append.symm
  | true =>
    obtain ⟨n, rfl⟩ := Nat.exists_eq_succ_of_ne_zero h0
    rfl

/-- Only the sign of a zero is not in the decimal text of the whole number. -/
theorem plain_text_of_whole (hv : x.value? = some (k : ℚ)) (hk : k.natAbs < 2 ^ 53) :
    plain.text x = if k = 0 ∧ x.negative then "-0" else toString k := by
  obtain ⟨s, m, q, hr, hn, hs⟩ := Double.exists_of_whole hv
  obtain ⟨hl, hneg, -⟩ := Double.bits_of_reading hr
  rw [← hneg]
  by_cases h0 : k = 0
  · subst h0
    have hm : (m : ℚ) = 0 := (mul_eq_zero.1 (hn.trans Nat.cast_zero)).resolve_right (by positivity)
    obtain rfl : m = 0 := by exact_mod_cast hm
    rw [text_of_zero plain hr]
    cases s <;> rfl
  · have h0' : k.natAbs ≠ 0 := Int.natAbs_ne_zero.2 h0
    have hm : m ≠ 0 := by
      rintro rfl
      rw [Nat.cast_zero, zero_mul] at hn
      exact h0' (by exact_mod_cast hn.symm)
    obtain ⟨c, e, hd, hc⟩ : ∃ c e : Nat, Shortest.digits plain.tie m q = (c, (e : Int)) ∧
        c * 10 ^ e = k.natAbs := Shortest.digits_of_whole hl hn h0' hk
    rw [text_of_digits plain hr hm hd, plain_magnitude h0' hc, ← toString_sign s h0', ← hs,
      if_neg fun h => h0 h.1]

end Layout
end GraphStack
