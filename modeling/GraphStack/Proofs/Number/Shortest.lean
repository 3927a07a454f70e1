import GraphStack.Proofs.Number.Rounding

/-!
# The search for the shortest digits

`Interval` counts in naturals over a common unit; `contains_iff` and `below_le`, `lt_below_succ` say
what its tests mean for rationals. On a grid that is finer than a quarter of the last place the
neighbour below the double is a candidate (`exists_pick_of_fine`), and the last grid of
`Shortest.digits` is one.
-/

namespace GraphStack.Shortest

open Double (Legal)

variable {m : Nat} {q p : Int} {r : ℚ} {c : Nat} {tie : Tie}

/-! ## Naturals over a unit -/

/-- What a rational is multiplied by to be compared on the grid `10 ^ p`. -/
def scale (q p : Int) : ℚ := 2 ^ (2 - q).toNat * 10 ^ (-p).toNat

theorem scale_pos (q p : Int) : 0 < scale q p := by unfold scale; positivity

theorem mul_scale (k : ℚ) (q p : Int) :
    k * 2 ^ (q - 2) * scale q p = k * 2 ^ (q - 2).toNat * 10 ^ (-p).toNat := by
  have h2 := zpow_mul_pow_toNat (b := 2) (by norm_num) (q - 2)
  rw [neg_sub] at h2
  rw [scale, ← h2]
  ring

theorem point_scale (c : Nat) (q p : Int) :
    c * 10 ^ p * scale q p = ((c * tenTo p.toNat * twoTo (2 - q).toNat : Nat) : ℚ) := by
  have h10 := zpow_mul_pow_toNat (b := 10) (by norm_num) p
  have he : (c * 10 ^ p * scale q p : ℚ) =
      c * (10 ^ p * 10 ^ (-p).toNat) * 2 ^ (2 - q).toNat := by
    rw [scale]
    ring
  rw [he, h10, Nat.cast_mul, Nat.cast_mul]
  simp [tenTo, twoTo]

theorem lowEnd_scale (hm : m ≠ 0) (q p : Int) : lowEnd m q * scale q p =
    (((Interval.of m q).low * tenTo (-p).toNat : Nat) : ℚ) := by
  have hle : lowerGap m q ≤ 4 * m := (lowerGap_le m q).trans (by omega)
  have hlow : (Interval.of m q).low = (4 * m - lowerGap m q) * twoTo (q - 2).toNat := rfl
  rw [lowEnd, mul_scale, hlow, Nat.cast_mul, Nat.cast_mul, Nat.cast_sub hle]
  simp [tenTo, twoTo]

theorem highEnd_scale (m : Nat) (q p : Int) : highEnd m q * scale q p =
    (((Interval.of m q).high * tenTo (-p).toNat : Nat) : ℚ) := by
  have hhigh : (Interval.of m q).high = (4 * m + 2) * twoTo (q - 2).toNat := rfl
  rw [highEnd, mul_scale, hhigh, Nat.cast_mul, Nat.cast_mul]
  simp [tenTo, twoTo]

/-- The last place is four quarters. -/
theorem mul_two_zpow (m : Nat) (q : Int) : (m * 2 ^ q : ℚ) = 4 * m * 2 ^ (q - 2) := by
  rw [zpow_sub₀ (by norm_num)]
  ring

theorem value_scale (m : Nat) (q p : Int) : m * 2 ^ q * scale q p =
    (((Interval.of m q).value * tenTo (-p).toNat : Nat) : ℚ) := by
  have hvalue : (Interval.of m q).value = 4 * m * twoTo (q - 2).toNat := rfl
  rw [mul_two_zpow, mul_scale, hvalue, Nat.cast_mul, Nat.cast_mul]
  simp [tenTo, twoTo]

/-- The test on naturals decides whether a grid point rounds to the double. -/
theorem contains_iff (hm : m ≠ 0) :
    (Interval.of m q).contains c p ↔ RoundsTo m q (c * 10 ^ p) := by
  have hs := scale_pos q p
  have hunit : (Interval.of m q).unit = twoTo (2 - q).toNat := rfl
  have hclosed : (Interval.of m q).closed = decide (m % 2 = 0) := rfl
  have hlow := lowEnd_scale hm q p
  have hhigh := highEnd_scale m q p
  have hpoint := point_scale c q p
  unfold Interval.contains RoundsTo
  simp only [hunit, hclosed, decide_eq_true_eq]
  split
  · rw [← mul_le_mul_iff_of_pos_right hs (b := lowEnd m q), hlow,
      ← mul_le_mul_iff_of_pos_right hs (c := highEnd m q), hhigh, hpoint, Nat.cast_le, Nat.cast_le]
    simp
  · rw [← mul_lt_mul_iff_of_pos_right hs (b := lowEnd m q), hlow,
      ← mul_lt_mul_iff_of_pos_right hs (c := highEnd m q), hhigh, hpoint, Nat.cast_lt, Nat.cast_lt]
    simp

/-! ## One grid -/

theorem below_iff (c m : Nat) (q p : Int) :
    c ≤ (Interval.of m q).below p ↔ (c * 10 ^ p : ℚ) ≤ m * 2 ^ q := by
  have hunit : (Interval.of m q).unit = twoTo (2 - q).toNat := rfl
  have hpos : 0 < twoTo (2 - q).toNat * tenTo p.toNat := by
    simp [twoTo, tenTo]
  rw [Interval.below, hunit, Nat.le_div_iff_mul_le hpos,
    ← mul_le_mul_iff_of_pos_right (scale_pos q p), point_scale, value_scale, Nat.cast_le,
    Nat.mul_left_comm, Nat.mul_comm c]
  exact Iff.of_eq (by ring_nf)

theorem below_le (m : Nat) (q p : Int) :
    ((Interval.of m q).below p * 10 ^ p : ℚ) ≤ m * 2 ^ q := (below_iff _ m q p).1 le_rfl

theorem lt_below_succ (m : Nat) (q p : Int) :
    (m * 2 ^ q : ℚ) < ((Interval.of m q).below p + 1) * 10 ^ p := by
  have h := mt (below_iff ((Interval.of m q).below p + 1) m q p).2 (Nat.not_succ_le_self _)
  push_cast at h
  exact not_le.1 h

/-- A candidate is one of the two neighbours and rounds to the double. -/
theorem contains_of_pick {i : Interval} (hp : i.pick? tie p = some c) :
    i.contains c p ∧ (c = i.below p ∨ c = i.below p + 1) := by
  unfold Interval.pick? at hp
  dsimp only at hp
  split at hp
  · next h h' =>
    cases hp
    split
    · exact ⟨h', .inr rfl⟩
    · exact ⟨h, .inl rfl⟩
  · next h _ =>
    cases hp
    exact ⟨h, .inl rfl⟩
  · next _ h =>
    cases hp
    exact ⟨h, .inr rfl⟩
  · cases hp

theorem exists_pick_of_contains {i : Interval} (hc : i.contains (i.below p) p) :
    ∃ c, i.pick? tie p = some c := by
  unfold Interval.pick?
  dsimp only
  rw [hc]
  split
  · exact ⟨_, rfl⟩
  · exact ⟨_, rfl⟩
  · exact ⟨_, rfl⟩
  · next h _ => cases h

theorem lowEnd_le (m : Nat) (q : Int) : lowEnd m q ≤ m * 2 ^ q - 2 ^ (q - 2) := by
  have hg : (1 : ℚ) ≤ lowerGap m q := by exact_mod_cast lowerGap_pos m q
  rw [mul_two_zpow, lowEnd, ← sub_one_mul]
  exact mul_le_mul_of_nonneg_right (by linarith) (zpow_pos (by norm_num) _).le

theorem lt_highEnd (m : Nat) (q : Int) : m * 2 ^ q < highEnd m q := by
  rw [mul_two_zpow, highEnd]
  exact mul_lt_mul_of_pos_right (by linarith) (zpow_pos (by norm_num) _)

theorem roundsTo_self (m : Nat) (q : Int) : RoundsTo m q (m * 2 ^ q) := by
  have hp : (0 : ℚ) < 2 ^ (q - 2) := zpow_pos (by norm_num) _
  exact roundsTo_of_lt (by linarith [lowEnd_le m q]) (lt_highEnd m q)

/-- The interval reaches a quarter of the last place below the double. -/
theorem exists_pick_of_fine (hm : m ≠ 0) (hf : (10 ^ p : ℚ) ≤ 2 ^ (q - 2)) :
    ∃ c, (Interval.of m q).pick? tie p = some c := by
  apply exists_pick_of_contains
  rw [contains_iff hm]
  have habove := lt_below_succ m q p
  apply roundsTo_of_lt
  · linarith [lowEnd_le m q]
  · exact (below_le m q p).trans_lt (lt_highEnd m q)

/-! ## From grid to grid -/

/-- The search ends at a grid with a candidate, and no later than at any of them. -/
theorem search_spec {i : Interval} {steps k : Nat} (hk : k < steps)
    (hp : ∃ c, i.pick? tie (p - k) = some c) :
    ∃ c p', i.search tie steps p = (c, p') ∧ p - k ≤ p' ∧ i.pick? tie p' = some c := by
  induction steps generalizing p k with
  | zero => omega
  | succ steps ih =>
    rw [Interval.search]
    cases hpick : i.pick? tie p with
    | some c => exact ⟨c, p, rfl, by omega, hpick⟩
    | none =>
      cases k with
      | zero =>
        obtain ⟨c, hc⟩ := hp
        rw [Nat.cast_zero, sub_zero, hpick] at hc
        cases hc
      | succ k =>
        have hp' : ∃ c, i.pick? tie (p - 1 - k) = some c := by
          rwa [show p - 1 - k = p - ((k + 1 : Nat) : Int) by push_cast; ring]
        obtain ⟨c, p', hs, hle, hc⟩ := ih (by omega) hp'
        exact ⟨c, p', hs, by push_cast; omega, hc⟩

/-- Ten to the third is about two to the tenth, and a little less. -/
theorem ten_zpow_le_of_nonneg {a b : Int} (ha : 0 ≤ a) (hab : 10 * a ≤ 3 * b) :
    (10 ^ a : ℚ) ≤ 2 ^ b := by
  refine le_of_pow_le_pow_left₀ (n := 3) (by norm_num) (by positivity) ?_
  calc (10 ^ a : ℚ) ^ 3 = 1000 ^ a := by
        rw [← zpow_natCast, ← zpow_mul, mul_comm, zpow_mul]
        norm_num
    _ ≤ 1024 ^ a := zpow_le_zpow_left₀ ha (by norm_num) (by norm_num)
    _ = 2 ^ (10 * a) := by rw [zpow_mul]; norm_num
    _ ≤ 2 ^ (3 * b) := zpow_le_zpow_right₀ (by norm_num) hab
    _ = (2 ^ b) ^ 3 := by rw [← zpow_natCast, ← zpow_mul, mul_comm]; rfl

/-- A tenth to the tenth is less than a half to the thirty-third. -/
theorem ten_zpow_le_of_nonpos {a b : Int} (ha : a ≤ 0) (hab : 33 * a ≤ 10 * b) :
    (10 ^ a : ℚ) ≤ 2 ^ b := by
  refine le_of_pow_le_pow_left₀ (n := 10) (by norm_num) (by positivity) ?_
  have hpow (c : ℚ) (n : Nat) : (c ^ a) ^ n = ((c ^ n)⁻¹) ^ (-a) := by
    rw [inv_zpow', neg_neg, ← zpow_natCast, ← zpow_natCast, zpow_comm]
  calc (10 ^ a : ℚ) ^ 10 = ((10 ^ 10)⁻¹) ^ (-a) := hpow 10 10
    _ ≤ ((2 ^ 33)⁻¹) ^ (-a) := zpow_le_zpow_left₀ (by omega) (by norm_num) (by norm_num)
    _ = (2 ^ a) ^ 33 := (hpow 2 33).symm
    _ = 2 ^ (33 * a) := by rw [← zpow_natCast, ← zpow_mul, mul_comm]; rfl
    _ ≤ 2 ^ (10 * b) := zpow_le_zpow_right₀ (by norm_num) hab
    _ = (2 ^ b) ^ 10 := by rw [← zpow_natCast, ← zpow_mul, mul_comm]; rfl

/-- The last but one of the grids is finer than a quarter of the last place. -/
theorem ten_zpow_topPower_le (hl : Legal m q) (hm : m ≠ 0) :
    (10 ^ (topPower m q - 23) : ℚ) ≤ 2 ^ (q - 2) := by
  have hlog : m.log2 < 53 := (Nat.log2_lt hm).2 hl.lt
  have hleast := hl.least
  have hgreatest := hl.greatest
  rcases le_total 0 (topPower m q - 23) with h | h
  · refine ten_zpow_le_of_nonneg h ?_
    unfold topPower at h ⊢
    omega
  · refine ten_zpow_le_of_nonpos h ?_
    unfold topPower at h ⊢
    omega

/-- What the search finds rounds to the double that it is for. -/
theorem roundsTo_digits (hl : Legal m q) (hm : m ≠ 0) (hd : digits tie m q = (c, p)) :
    RoundsTo m q (c * 10 ^ p) := by
  have hlast : ∃ c, (Interval.of m q).pick? tie (topPower m q - (23 : Nat)) = some c :=
    exists_pick_of_fine hm (ten_zpow_topPower_le hl hm)
  obtain ⟨c', p', hs, -, hpick⟩ := search_spec (show 23 < 24 by decide) hlast
  cases hd.symm.trans hs
  exact (contains_iff hm).1 (contains_of_pick hpick).1

end GraphStack.Shortest
