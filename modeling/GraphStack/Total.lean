/-!
# Totals of a measure

`total w xs` is the sum of the measure `w` over a list. Changing one element changes the total by
the change of that element's measure (`total_modify_le`, `total_set`).
-/

namespace GraphStack

variable {α : Type} (w : α → Nat)

-- The zero is named because a module that imports more algebra would find another one.
def total (xs : List α) : Nat := @List.sum Nat _ Zero.ofOfNat0 (xs.map w)

@[simp] theorem total_nil : total w [] = 0 := rfl

@[simp] theorem total_cons (x : α) (xs : List α) : total w (x :: xs) = w x + total w xs :=
  List.sum_cons

@[simp] theorem total_append (xs ys : List α) : total w (xs ++ ys) = total w xs + total w ys := by
  rw [total, List.map_append]
  exact List.sum_append_nat

theorem total_split {xs : List α} {i : Nat} (hi : i < xs.length) :
    total w xs = total w (xs.take i) + (w xs[i] + total w (xs.drop (i + 1))) := by
  rw [← total_cons, ← total_append, ← List.drop_eq_getElem_cons hi, List.take_append_drop]

theorem total_modify_le (f : α → α) {d : α} (h0 : w d = 0) (i : Nat) (xs : List α) :
    total w (xs.modify i f) + w (xs.getD i d) ≤ total w xs + w (f (xs.getD i d)) := by
  by_cases hi : i < xs.length
  · have hget : xs.getD i d = xs[i] := by simp [List.getD, hi]
    rw [List.modify_eq_take_cons_drop hi, total_append, total_cons, total_split w hi, hget]
    omega
  · have hsame : xs.modify i f = xs := List.modify_eq_self (Nat.le_of_not_lt hi)
    have hget : xs.getD i d = d := by simp [List.getD, Nat.le_of_not_lt hi]
    rw [hsame, hget]
    omega

theorem total_set {xs : List α} {i : Nat} {x : α} (hx : xs[i]? = some x) (y : α) :
    total w (xs.set i y) + w x = total w xs + w y := by
  obtain ⟨hi, rfl⟩ := List.getElem?_eq_some_iff.1 hx
  rw [List.set_eq_take_append_cons_drop, if_pos hi, total_append, total_cons, total_split w hi]
  omega

theorem total_congr {v : α → Nat} {xs : List α} (h : ∀ x ∈ xs, w x = v x) :
    total w xs = total v xs := by
  rw [total, total, List.map_congr_left h]

theorem total_eq_zero {xs : List α} (h : ∀ x ∈ xs, w x = 0) : total w xs = 0 := by
  induction xs with
  | nil => rfl
  | cons x xs ih =>
    rw [total_cons, h x List.mem_cons_self, ih fun y hy => h y (List.mem_cons_of_mem _ hy)]

theorem le_total {xs : List α} {x : α} (hx : x ∈ xs) : w x ≤ total w xs := by
  obtain ⟨before, later, rfl⟩ := List.append_of_mem hx
  rw [total_append, total_cons]
  omega

end GraphStack
