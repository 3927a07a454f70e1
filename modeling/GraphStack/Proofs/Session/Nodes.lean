import GraphStack.Proofs.Arguments
import GraphStack.Proofs.Session.Recipes
import GraphStack.Session.Command

/-!
# New nodes and named budgets

A call for a new node is a `Follows` too: its arguments are built, and the node they make is
stored, or they are released with the refusal. `Session.Tidy` is what a call relies on besides: a
budget that has a name has been opened.
-/

namespace GraphStack

open Execution

/-! ## Constructions -/

/-- What a construction hands to its caller. -/
def made : Except Fault NodeId → List Holding
  | .ok id => [.strong id]
  | .error _ => []

namespace Execution.Leads

variable {h h' : Heap} {xs : List Holding} {rd : List NodeId} {v : Value} {model : Model}
  {through : Option BudgetId} {made? : Except Fault NodeId}

theorem constructOrFault (hb : ∀ b ∈ through, b.index < h.budgets.size)
    (hc : h.constructOrFault model v through = (made?, h')) :
    Leads ⟨h, .value v :: xs, rd, []⟩ ⟨h', made made? ++ xs, rd, []⟩ := by
  unfold Heap.constructOrFault at hc
  split at hc
  · next id t ht =>
    cases hc
    exact construct_ok hb ht
  · next r t ht =>
    cases hc
    exact construct_error ht

/-- Arguments of a bad shape are released, and no budget is asked. -/
theorem constructFrom {args : Arguments Value} (hb : ∀ b ∈ through, b.index < h.budgets.size)
    (hc : h.constructFrom model args through = (made?, h')) :
    Leads ⟨h, args.values.map .value ++ xs, rd, []⟩ ⟨h', made made? ++ xs, rd, []⟩ := by
  unfold Heap.constructFrom at hc
  split at hc
  · cases hc
    exact releaseAll args.values
  · next payload hp =>
    rw [Arguments.values_of_payload hp]
    cases payload with
    | none =>
      have hnil : Leads ⟨h, xs, rd, []⟩ ⟨h, .value .nil :: xs, rd, []⟩ := deal (.scalar rfl)
      exact hnil.trans (constructOrFault hb hc)
    | some v => exact constructOrFault hb hc

end Execution.Leads

namespace Session

variable {s s' : Session} {xs ys : List Holding} {rd : List NodeId} {x : Holding} {v : Value}
  {id : NodeId} {name into : String} {through : Option BudgetId} {model : Model}

theorem snd_of_ok {p : Reply × Session} {r : Reply} (hp : (.ok p : Outcome) = .ok (r, s')) :
    p.2 = s' := congrArg Prod.snd (Except.ok.inj hp)

/-! ## New nodes -/

theorem follows_keepNode (ho : Ascending s.slots) (into : String) (r : Except Fault NodeId) :
    Follows s (made r ++ xs) (s.keepNode into r).2 xs := by
  cases r with
  | ok id => exact follows_store ho into (.strong id)
  | error f => exact .refl ho

theorem follows_construct (ho : Ascending s.slots)
    (hb : ∀ b ∈ through, b.index < s.heap.budgets.size) :
    Follows s (.value v :: xs) (s.construct model v through into).2 xs := by
  obtain ⟨heap, slots, budgets⟩ := s
  have hmade : Follows ⟨heap, slots, budgets⟩ (.value v :: xs)
      ⟨(heap.constructOrFault model v through).2, slots, budgets⟩
      (made (heap.constructOrFault model v through).1 ++ xs) := by
    refine ⟨?_, ho, rfl⟩
    simp only [holding, List.append_assoc]
    exact .constructOrFault hb rfl
  exact hmade.trans (follows_keepNode hmade.ascending into _)

theorem follows_buildCall {given : List (Option String × Recipe)}
    {args : List (Option String × Value)} (ho : Ascending s.slots)
    (hb : s.buildCall given = .ok (args, s')) :
    Follows s xs s' ((args.map (·.2)).map .value ++ xs) := by
  induction given generalizing s args xs with
  | nil =>
    cases hb
    exact .refl ho
  | cons g given ih =>
    obtain ⟨name, r⟩ := g
    rw [buildCall] at hb
    split at hb
    · cases hb
    · next v t hv =>
      split at hb
      · cases hb
      · next later u hu =>
        cases hb
        have hf := follows_build r xs ho hv
        have hrest : Follows t (.value v :: xs) s' _ := ih hf.ascending hu
        exact (hf.trans hrest).trans (.arrange hrest.ascending List.perm_middle)

/-! ## Budgets -/

/-- Names ascend, and every budget that has a name has been opened. -/
structure Tidy (s : Session) : Prop where
  ascending : Ascending s.slots
  opened : ∀ p ∈ s.budgets, p.2.index < s.heap.budgets.size

theorem Follows.opened {xs' : List Holding} {b : BudgetId} (hf : Follows s xs s' xs')
    (hb : b.index < s.heap.budgets.size) : b.index < s'.heap.budgets.size :=
  lt_of_lt_of_le hb hf.leads.budgets_le

theorem Follows.tidy {xs' : List Holding} (hf : Follows s xs s' xs') (ht : s.Tidy) : s'.Tidy := by
  refine ⟨hf.ascending, ?_⟩
  rw [hf.budgets]
  intro p hp
  exact hf.opened (ht.opened p hp)

theorem mem_of_budgetId {b : BudgetId} (hb : s.budgetId name = .ok b) : (name, b) ∈ s.budgets := by
  unfold budgetId at hb
  split at hb
  · next b' hl =>
    cases hb
    exact mem_of_lookup hl
  · cases hb

theorem Tidy.budgetId (ht : s.Tidy) {b : BudgetId} (hb : s.budgetId name = .ok b) :
    b.index < s.heap.budgets.size := ht.opened _ (mem_of_budgetId hb)

theorem Tidy.budget? (ht : s.Tidy) {asked : Option String} (hb : s.budget? asked = .ok through) :
    ∀ b ∈ through, b.index < s.heap.budgets.size := by
  cases asked with
  | none =>
    cases hb
    intro b hm
    cases hm
  | some name =>
    rw [Session.budget?] at hb
    split at hb
    · cases hb
    · next b hname =>
      cases hb
      rintro b' ⟨⟩
      exact ht.budgetId hname

theorem Tidy.budgetIds (ht : s.Tidy) {names : List String} {ids : Array BudgetId}
    (hb : s.budgetIds names = .ok ids) : ∀ b ∈ ids, b.index < s.heap.budgets.size := by
  induction names generalizing ids with
  | nil =>
    cases hb
    intro b hm
    exact (Array.not_mem_empty b hm).elim
  | cons name names ih =>
    rw [Session.budgetIds] at hb
    split at hb
    · cases hb
    · next id hname =>
      split at hb
      · cases hb
      · next rest hrest =>
        cases hb
        intro b hm
        rcases Array.mem_append.1 hm with hm | hm
        · rw [Array.mem_singleton.1 hm]
          exact ht.budgetId hname
        · exact ih hrest b hm

theorem Tidy.putNamed (ht : s.Tidy) {b : BudgetId} (hb : b.index < s.heap.budgets.size)
    (into : String) : ({ s with budgets := putNamed into b s.budgets } : Session).Tidy := by
  refine ⟨ht.ascending, ?_⟩
  intro p hp
  rcases mem_putNamed hp with rfl | hp
  · exact hb
  · exact ht.opened p hp

theorem follows_make {making : Making} {asked : Option String} {r : Reply} (ht : s.Tidy)
    (hm : s.make model making asked into = .ok (r, s')) : Follows s xs s' xs := by
  rw [make] at hm
  split at hm
  · cases hm
  · next through hthrough =>
    have hb := ht.budget? hthrough
    cases making with
    | empty =>
      obtain rfl := snd_of_ok hm
      exact (Follows.inHand ht.ascending (.scalar rfl)).trans (follows_construct ht.ascending hb)
    | payload recipe =>
      simp only at hm
      split at hm
      · cases hm
      · next v t hv =>
        obtain rfl := snd_of_ok hm
        have hf := follows_build recipe xs ht.ascending hv
        exact hf.trans (follows_construct hf.ascending fun b hm => hf.opened (hb b hm))
    | call given =>
      simp only at hm
      split at hm
      · cases hm
      · next args heap slots budgets hargs =>
        obtain rfl := snd_of_ok hm
        have hf : Follows s xs _ _ := follows_buildCall ht.ascending hargs
        have hp := ((Arguments.values_ofCall args).map Holding.value).symm.append_right xs
        have hmade : Follows ⟨heap, slots, budgets⟩
            ((Arguments.ofCall args).values.map .value ++ xs)
            ⟨(heap.constructFrom model (.ofCall args) through).2, slots, budgets⟩
            (made (heap.constructFrom model (.ofCall args) through).1 ++ xs) := by
          refine ⟨?_, hf.ascending, rfl⟩
          simp only [holding, List.append_assoc]
          exact .constructFrom (fun b hm => hf.opened (hb b hm)) rfl
        have hf' := hf.trans (.arrange hf.ascending hp)
        exact (hf'.trans hmade).trans (follows_keepNode hmade.ascending into _)

end Session
end GraphStack
