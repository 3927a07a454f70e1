import GraphStack.Arguments
import Mathlib

/-!
# What a call passes on

Arguments hold every value that a call gives. Where their shape is good there is one value at most,
which is the payload. `Arguments.Gives` says which calls are good and what payload they give,
`Arguments.Rejects` what the others are told; positional and keyword arguments may be mixed in any
order there.
-/

namespace GraphStack.Arguments

variable {α : Type}

theorem values_add (a : Arguments α) (g : Option String × α) :
    (a.add g).values.Perm (g.2 :: a.values) := by
  obtain ⟨name, v⟩ := g
  cases name with
  | none =>
    have he : (a.add (none, v)).values = a.positional ++ v :: a.keywords.map (·.2) :=
      List.append_assoc ..
    rw [he]
    exact List.perm_middle
  | some name =>
    have he : (a.add (some name, v)).values = a.values ++ [v] := by
      simp only [add, addKeyword, values, List.map_append, List.map_cons, List.map_nil,
        List.append_assoc]
    rw [he]
    exact List.perm_append_singleton v _

/-- A call passes on every value that it is given. -/
theorem values_ofCall (given : List (Option String × α)) :
    (ofCall given).values.Perm (given.map (·.2)) := by
  have hfold (a : Arguments α) :
      (given.foldl add a).values.Perm (a.values ++ given.map (·.2)) := by
    induction given generalizing a with
    | nil =>
      rw [List.map_nil, List.append_nil]
      exact .refl _
    | cons g given ih =>
      have hp := (values_add a g).append_right (given.map (·.2))
      exact ((ih (a.add g)).trans hp).trans List.perm_middle.symm
  exact hfold empty

/-- Arguments of a good shape are the payload, or none. -/
theorem values_of_payload {a : Arguments α} {payload : Option α} (hp : a.payload? = .ok payload) :
    a.values = payload.toList := by
  obtain ⟨positional, keywords⟩ := a
  unfold payload? at hp
  split_ifs at hp with hsize
  have hlen : positional.length + keywords.length ≤ 1 := not_lt.1 hsize
  cases keywords with
  | nil =>
    cases hp
    cases positional with
    | nil => rfl
    | cons v rest =>
      have hrest : rest = [] := by
        apply List.eq_nil_of_length_eq_zero
        simp only [List.length_cons, List.length_nil] at hlen
        omega
      rw [hrest]
      rfl
  | cons k keywords =>
    obtain ⟨name, v⟩ := k
    simp only [List.length_cons] at hlen
    have hpositional : positional = [] := List.eq_nil_of_length_eq_zero (by omega)
    have hkeywords : keywords = [] := List.eq_nil_of_length_eq_zero (by omega)
    subst hpositional hkeywords
    simp only at hp
    split_ifs at hp
    cases hp
    rfl

/-! ## Which calls are good -/

/-- A call without arguments, with one by position or with one under `data`, and its payload. -/
inductive Gives : List (Option String × α) → Option α → Prop
  | nothing : Gives [] none
  | position {v : α} : Gives [(none, v)] (some v)
  | data {v : α} : Gives [(some "data", v)] (some v)

/-- Any other call, and what it is told. Several arguments are too many whatever their names are. -/
inductive Rejects : List (Option String × α) → String → Prop
  | many {given : List (Option String × α)} (hm : 1 < given.length) :
      Rejects given ("function takes at most 1 argument (" ++ toString given.length ++ " given)")
  | keyword {name : String} {v : α} (hn : name ≠ "data") :
      Rejects [(some name, v)]
        ("'" ++ name ++ "' is an invalid keyword argument for this function")

variable {given : List (Option String × α)} {payload : Option α} {m : String}

theorem size_ofCall (given : List (Option String × α)) : (ofCall given).size = given.length := by
  have hl := (values_ofCall given).length_eq
  rw [values, List.length_append, List.length_map, List.length_map] at hl
  exact hl

theorem gives_or_rejects (given : List (Option String × α)) :
    (∃ payload, Gives given payload) ∨ ∃ m, Rejects given m := by
  match given with
  | [] => exact .inl ⟨_, .nothing⟩
  | [(none, v)] => exact .inl ⟨_, .position⟩
  | [(some name, v)] =>
    by_cases hn : name = "data"
    · subst hn
      exact .inl ⟨_, .data⟩
    · exact .inr ⟨_, .keyword hn⟩
  | g :: g' :: rest => exact .inr ⟨_, .many (Nat.succ_lt_succ (Nat.succ_pos _))⟩

theorem Gives.payload? (hg : Gives given payload) : (ofCall given).payload? = .ok payload := by
  cases hg with
  | nothing => rfl
  | position => rfl
  | data => rfl

theorem Rejects.payload? (hr : Rejects given m) :
    ∃ r, (ofCall given).payload? = .error r ∧ r.message = m := by
  cases hr with
  | many hm =>
    refine ⟨.tooMany given.length, ?_, rfl⟩
    rw [Arguments.payload?, size_ofCall, if_pos hm]
  | @keyword name v hn => exact ⟨.unknownKeyword name, if_neg hn, rfl⟩

theorem Gives.not_rejects (hg : Gives given payload) : ¬ Rejects given m := by
  intro hr
  obtain ⟨r, hp, -⟩ := hr.payload?
  rw [hg.payload?] at hp
  cases hp

theorem exists_rejects_iff :
    (∃ m, Rejects given m) ↔ ∀ payload, ¬ Gives given payload := by
  constructor
  · rintro ⟨m, hr⟩ payload hg
    exact hg.not_rejects hr
  · intro hn
    refine (gives_or_rejects given).resolve_left ?_
    rintro ⟨payload, hg⟩
    exact hn payload hg

end GraphStack.Arguments
