import GraphStack.Proofs.Json.Spelling
import GraphStack.Proofs.Yaml.Characters
import GraphStack.Yaml.Schema

/-!
# Decimal numbers as plain scalars

A number in decimal digits may be written plain, means the number, and is not taken for null.
-/

namespace GraphStack.Yaml

open Render

def decimals : List Char := ['0', '1', '2', '3', '4', '5', '6', '7', '8', '9']

theorem mem_decimals {n : Nat} {c : Char} (hc : c ∈ Nat.toDigits 10 n) : c ∈ decimals := by
  have hdigit := Json.isDigit_of_mem_toDigits hc
  simp only [Json.isDigit, Bool.and_eq_true, decide_eq_true_eq] at hdigit
  have hlow : 48 ≤ c.toNat := hdigit.1
  have hhigh : c.toNat ≤ 57 := hdigit.2
  rw [← Char.ofNat_toNat c]
  generalize c.toNat = k at hlow hhigh
  interval_cases k <;> decide

/-! ## Writing -/

section Writing

variable {c : Char} {cs : List Char}

theorem startsLikeDocument_of_mem_decimals (hc : c ∈ decimals) (cs : List Char) :
    startsLikeDocument (c :: cs) = false := by
  unfold startsLikeDocument
  split
  · next h =>
    cases h
    simp [decimals] at hc
  · next h =>
    cases h
    simp [decimals] at hc
  · rfl

theorem startsLikeIndicator_of_mem_decimals (hc : c ∈ decimals) (cs : List Char) :
    startsLikeIndicator (c :: cs) = false := by
  unfold startsLikeIndicator
  fin_cases hc <;> rfl

theorem hasInnerIndicator_of_decimals (hcs : ∀ c ∈ cs, c ∈ decimals) :
    hasInnerIndicator cs = false := by
  induction cs with
  | nil => rfl
  | cons c cs ih =>
    have hc := hcs c List.mem_cons_self
    rw [hasInnerIndicator, ih fun d hd => hcs d (List.mem_cons_of_mem _ hd)]
    fin_cases hc <;> rfl

theorem allowsPlain_of_decimals (hne : cs ≠ []) (hcs : ∀ c ∈ cs, c ∈ decimals) :
    AllowsPlain cs := by
  have hspace : ∀ c ∈ cs, isSpace c = false := by
    intro c hc
    have hc := hcs c hc
    fin_cases hc <;> rfl
  have hline : ∀ c ∈ cs, isPrintable c = true ∧ isBreak c = false := by
    intro c hc
    have hc := hcs c hc
    fin_cases hc <;> exact ⟨rfl, rfl⟩
  have hlast : cs.getLast?.any isSpace = false := by
    cases hl : cs.getLast? with
    | none => rfl
    | some d => exact hspace d (List.mem_of_getLast? hl)
  obtain ⟨c, ds, rfl⟩ := List.exists_cons_of_ne_nil hne
  have hc := hcs c List.mem_cons_self
  exact ⟨hline, hspace c List.mem_cons_self, hlast, startsLikeDocument_of_mem_decimals hc ds,
    startsLikeIndicator_of_mem_decimals hc ds, hasInnerIndicator_of_decimals hcs⟩

theorem allowsPlain_toDigits (n : Nat) : AllowsPlain (Nat.toDigits 10 n) :=
  allowsPlain_of_decimals Nat.toDigits_ne_nil fun _ hc => mem_decimals hc

end Writing

/-! ## Meaning -/

theorem digitsValue?_toDigits (n : Nat) : digitsValue? 10 (Nat.toDigits 10 n) = some n := by
  have hvalue : ∀ d < 10, (Text.hexValue? (Nat.digitChar d)).filter (· < 10) = some d := by decide
  have hfold : (Nat.toDigits 10 n).foldlM
      (fun n c => ((Text.hexValue? c).filter (· < 10)).map (10 * n + ·)) 0 = some n := by
    induction n using Nat.strong_induction_on with
    | _ n ih =>
      rw [Nat.toDigits_eq_if (by decide)]
      by_cases hn : n < 10
      · rw [if_pos hn]
        simp [hvalue n hn]
      · have hlast := hvalue _ (Nat.mod_lt n (by decide : 0 < 10))
        rw [if_neg hn, List.foldlM_append, ih (n / 10) (by omega)]
        simp [hlast, Nat.div_add_mod]
  rw [digitsValue?, List.isEmpty_eq_false_iff.2 Nat.toDigits_ne_nil]
  exact hfold

/-- A text with a character that is no digit is no number in decimal digits. -/
theorem toDigits_ne {n : Nat} {c : Char} (hc : c ∉ decimals) {cs : List Char} (hm : c ∈ cs) :
    Nat.toDigits 10 n ≠ cs := by
  rintro rfl
  exact hc (mem_decimals hm)

theorem hasLeadingZero_toDigits (n : Nat) : hasLeadingZero (Nat.toDigits 10 n) = false := by
  by_cases hz : n = 0
  · subst hz
    rfl
  · obtain ⟨c, cs, hcs, hne⟩ := Json.exists_toDigits hz
    have hsign : dropSign (Nat.toDigits 10 n) = Nat.toDigits 10 n := by
      unfold dropSign
      split
      · next h => exact absurd h (toDigits_ne (by decide) List.mem_cons_self)
      · next h => exact absurd h (toDigits_ne (by decide) List.mem_cons_self)
      · rfl
    rw [hasLeadingZero, hsign, hcs]
    split
    · next h =>
      cases h
      exact absurd rfl hne
    · rfl

theorem magnitude?_toDigits (n : Nat) : magnitude? (Nat.toDigits 10 n) = some n := by
  have hsecond (x y : Char) (cs : List Char) : y ∈ x :: y :: cs :=
    List.mem_cons_of_mem x List.mem_cons_self
  unfold magnitude?
  split
  · next h => exact absurd h (toDigits_ne (by decide) (hsecond '0' 'x' _))
  · next h => exact absurd h (toDigits_ne (by decide) (hsecond '0' 'o' _))
  · next h => exact absurd h (toDigits_ne (by decide) (hsecond '0' 'b' _))
  · rw [hasLeadingZero_toDigits, if_neg Bool.false_ne_true, digitsValue?_toDigits]

theorem natural?_toString (n : Nat) : natural? (toString n) = some n := by
  have hplus : dropPlus (Nat.toDigits 10 n) = Nat.toDigits 10 n := by
    unfold dropPlus
    split
    · next h => exact absurd h (toDigits_ne (by decide) List.mem_cons_self)
    · rfl
  rw [natural?, Nat.toString_eq_repr, Nat.toList_repr, hplus, magnitude?_toDigits]

theorem isNull_toString (n : Nat) : isNull (toString n) = false := by
  by_contra hn
  rw [Bool.not_eq_false, isNull, List.contains_iff_mem] at hn
  have hlist : Nat.toDigits 10 n ∈ ["null".toList, "Null".toList, "NULL".toList, "~".toList] := by
    rw [← Nat.toList_repr, ← Nat.toString_eq_repr]
    exact List.mem_map_of_mem hn
  simp only [List.mem_cons, List.not_mem_nil, or_false] at hlist
  rcases hlist with h | h | h | h <;>
    exact toDigits_ne (by decide) List.mem_cons_self h

end GraphStack.Yaml
