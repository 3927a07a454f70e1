import GraphStack.Proofs.Execution.Leads

/-!
# Slots in order

Entries of a session are kept in ascending order of their names, so each name stands at most once.
Putting an entry under a name adds it or exchanges it for the earlier one, and erasing a name takes
out one entry.
-/

namespace GraphStack

section Named

variable {α : Type} {name : String} {x y : α} {xs : List (String × α)}

/-- Names ascend. -/
def Ascending (xs : List (String × α)) : Prop := xs.Pairwise fun p q => p.1 < q.1

theorem mem_of_lookup (hl : xs.lookup name = some y) : (name, y) ∈ xs := by
  obtain ⟨before, later, rfl, -⟩ := List.lookup_eq_some_iff.1 hl
  exact List.mem_append_right _ List.mem_cons_self

theorem lookup_putNamed (name : String) (x : α) (xs : List (String × α)) :
    (putNamed name x xs).lookup name = some x := by
  induction xs with
  | nil => exact List.lookup_cons_self
  | cons q xs ih =>
    rw [putNamed]
    split_ifs with he hlt
    · exact List.lookup_cons_self
    · exact List.lookup_cons_self
    · rw [List.lookup_cons, beq_false_of_ne he]
      exact ih

theorem mem_putNamed {p : String × α} (hp : p ∈ putNamed name x xs) :
    p = (name, x) ∨ p ∈ xs := by
  induction xs with
  | nil =>
    rw [putNamed, List.mem_singleton] at hp
    exact .inl hp
  | cons q xs ih =>
    rw [putNamed] at hp
    split_ifs at hp with he hlt
    · rcases List.mem_cons.1 hp with rfl | hp
      · exact .inl rfl
      · exact .inr (List.mem_cons_of_mem _ hp)
    · rcases List.mem_cons.1 hp with rfl | hp
      · exact .inl rfl
      · exact .inr hp
    · rcases List.mem_cons.1 hp with rfl | hp
      · exact .inr List.mem_cons_self
      · exact (ih hp).imp_right (List.mem_cons_of_mem _)

theorem Ascending.putNamed (hs : Ascending xs) (name : String) (x : α) :
    Ascending (putNamed name x xs) := by
  induction xs with
  | nil => exact List.pairwise_singleton _ _
  | cons q xs ih =>
    obtain ⟨hq, hs⟩ := List.pairwise_cons.1 hs
    rw [GraphStack.putNamed]
    split_ifs with he hlt
    · apply List.pairwise_cons.2
      refine ⟨?_, hs⟩
      intro p hp
      rw [he]
      exact hq p hp
    · refine List.pairwise_cons.2 ⟨?_, List.pairwise_cons.2 ⟨hq, hs⟩⟩
      intro p hp
      rcases List.mem_cons.1 hp with rfl | hp
      · exact hlt
      · exact hlt.trans (hq p hp)
    · refine List.pairwise_cons.2 ⟨?_, ih hs⟩
      intro p hp
      rcases mem_putNamed hp with rfl | hp
      · exact lt_of_le_of_ne (not_lt.1 hlt) (Ne.symm he)
      · exact hq p hp

theorem Ascending.eraseNamed (hs : Ascending xs) (name : String) :
    Ascending (eraseNamed name xs) := List.Pairwise.filter _ hs

/-- A new name adds an entry. -/
theorem putNamed_perm_of_none (hl : xs.lookup name = none) :
    (putNamed name x xs).Perm ((name, x) :: xs) := by
  induction xs with
  | nil => exact .refl _
  | cons q xs ih =>
    rw [List.lookup_cons] at hl
    by_cases he : name = q.1
    · rw [beq_iff_eq.2 he] at hl
      cases hl
    · rw [beq_eq_false_iff_ne.2 he] at hl
      rw [putNamed, if_neg he]
      split_ifs with hlt
      · exact .refl _
      · exact ((ih hl).cons q).trans (.swap _ _ _)

/-- A name that is there already keeps one entry, the new one. -/
theorem putNamed_perm_of_some (hs : Ascending xs) (hl : xs.lookup name = some y) :
    ((name, y) :: putNamed name x xs).Perm ((name, x) :: xs) := by
  induction xs with
  | nil => cases hl
  | cons q xs ih =>
    obtain ⟨hq, hs⟩ := List.pairwise_cons.1 hs
    rw [List.lookup_cons] at hl
    by_cases he : name = q.1
    · rw [beq_iff_eq.2 he] at hl
      have hy : q.2 = y := Option.some.inj hl
      rw [putNamed, if_pos he, ← hy, he]
      exact .swap _ _ _
    · rw [beq_eq_false_iff_ne.2 he] at hl
      have hlt : ¬ name < q.1 := (hq _ (mem_of_lookup hl)).not_gt
      rw [putNamed, if_neg he, if_neg hlt]
      exact ((List.Perm.swap _ _ _).trans ((ih hs hl).cons q)).trans (.swap _ _ _)

/-- Erasing a name takes its entry out. -/
theorem eraseNamed_perm (hs : Ascending xs) (hl : xs.lookup name = some y) :
    ((name, y) :: eraseNamed name xs).Perm xs := by
  induction xs with
  | nil => cases hl
  | cons q xs ih =>
    obtain ⟨hq, hs⟩ := List.pairwise_cons.1 hs
    rw [List.lookup_cons] at hl
    by_cases he : name = q.1
    · rw [beq_iff_eq.2 he] at hl
      have hy : q.2 = y := Option.some.inj hl
      have hrest : eraseNamed name xs = xs := by
        refine List.filter_eq_self.2 fun p hp => decide_eq_true ?_
        rw [he]
        exact (hq p hp).ne'
      have hhead : eraseNamed name (q :: xs) = eraseNamed name xs :=
        List.filter_cons_of_neg (by simp [he])
      rw [hhead, hrest, ← hy, he]
    · rw [beq_eq_false_iff_ne.2 he] at hl
      have hhead : eraseNamed name (q :: xs) = q :: eraseNamed name xs :=
        List.filter_cons_of_pos (by simpa using Ne.symm he)
      rw [hhead]
      exact (List.Perm.swap _ _ _).trans ((ih hs hl).cons q)

end Named
end GraphStack
