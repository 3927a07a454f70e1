import GraphStack.Proofs.Session.Acts

/-!
# Commands as steps

A command of a session is a number of steps of an execution, from the moment before the command to
the moment after it. So every session that commands lead to stands at the end of a run, and what
holds of all runs holds of sessions.
-/

namespace GraphStack

open Execution

namespace Session

variable {s s' : Session} {x : Holding} {v : Value} {id : NodeId} {name slot into : String}
  {recipe : Recipe} {r : Reply} {c : Command}

/-! ## One command -/

/-- One command leads on from the moment before it, and leaves the session tidy. -/
structure Advances (s s' : Session) : Prop where
  tidy : s'.Tidy
  leads : Leads s.moment s'.moment

theorem Follows.advances (hf : Follows s [] s' []) (ht : s.Tidy) : Advances s s' :=
  ⟨hf.tidy ht, hf.leads⟩

theorem withNode_ok {f : NodeId → Outcome} {o : Reply × Session}
    (hw : s.withNode name f = .ok o) : ∃ id, s.node name = .ok id ∧ f id = .ok o := by
  unfold withNode at hw
  split at hw
  · cases hw
  · next id hid => exact ⟨id, hid, hw⟩

theorem withValue_ok {f : Session → Value → Outcome} {o : Reply × Session}
    (hw : s.withValue recipe f = .ok o) :
    ∃ v t, s.build recipe = .ok (v, t) ∧ f t v = .ok o := by
  unfold withValue at hw
  split at hw
  · cases hw
  · next v t hv => exact ⟨v, t, hv, hw⟩

theorem advances_shareBudget {b : BudgetId} (ht : s.Tidy) (hb : b.index < s.heap.budgets.size)
    (into : String) : Advances s (s.shareBudget b into).2 := ⟨ht.putNamed hb into, .refl _⟩

theorem advances_openBudget (ht : s.Tidy) (label : String) (limit : Option UInt64)
    (into : String) : Advances s (s.openBudget label limit into).2 := by
  unfold openBudget
  split_ifs with hzero
  · exact ⟨ht, .refl _⟩
  · have hlimit : limit.map (·.toNat) ≠ some 0 := by
      intro hl
      obtain ⟨k, rfl, hk⟩ := Option.map_eq_some_iff.1 hl
      have hk' : k = 0 := UInt64.toNat_inj.1 hk
      exact hzero (by rw [hk'])
    have hopen : Follows s [] (s.onHeap (·.openBudget label (limit.map (·.toNat)))) [] :=
      ⟨.step (.openBudget hlimit), ht.ascending, rfl⟩
    have hnext : s.heap.nextBudget.index
        < (s.heap.openBudget label (limit.map (·.toNat))).budgets.size := by
      rw [Heap.openBudget, Array.size_push]
      exact Nat.lt_succ_self _
    have hshare := advances_shareBudget (hopen.tidy ht) hnext into
    exact ⟨hshare.tidy, hopen.leads.trans hshare.leads⟩

theorem advances_closeBudget (ht : s.Tidy) (budget : String) :
    Advances s { s with budgets := eraseNamed budget s.budgets } := by
  refine ⟨⟨ht.ascending, ?_⟩, .refl _⟩
  intro p hp
  exact ht.opened p (List.mem_filter.1 hp).1

theorem lookup_of_slot (hx : s.slot name = .ok x) : s.slots.lookup name = some x := by
  unfold slot at hx
  split at hx
  · next y hl =>
    cases hx
    exact hl
  · cases hx

theorem mem_of_weakNode (hn : s.weakNode name = .ok id) : .weak id ∈ s.slots.map (·.2) := by
  unfold weakNode at hn
  split at hn
  · next id' hl =>
    cases hn
    exact List.mem_map_of_mem (mem_of_lookup hl)
  · cases hn
  · cases hn

/-- Something new is taken in hand and stored. -/
theorem follows_put {f : Heap → Heap} (ho : Ascending s.slots) (into : String)
    (hd : Dealing [] s.heap (s.slots.map (·.2)) (f s.heap) (x :: s.slots.map (·.2))) :
    Follows s [] ((s.onHeap f).store into x) [] := by
  have hput : Follows s [] (s.onHeap f) [x] := .deal ho hd
  exact hput.trans (follows_store hput.ascending into x)

theorem follows_clone (ho : Ascending s.slots) (hx : s.slot name = .ok x) (into : String) :
    Follows s [] (s.clone x into).2 [] :=
  follows_put ho into (.clone (List.mem_map_of_mem (mem_of_lookup (lookup_of_slot hx))))

theorem follows_drop (ho : Ascending s.slots) (hx : s.slot name = .ok x) :
    Follows s [] ((s.vacate name).onHeap (·.releaseHolding x)) [] := by
  have hf : Follows s [] (s.vacate name) [x] := follows_vacate ho (lookup_of_slot hx)
  exact hf.trans (.onHeap (f := (·.releaseHolding x)) hf.ascending (.releaseHolding x))

/-- A value is built and an act on a node follows, in the session that building has left. -/
theorem follows_buildThen {f : Session → Value → Outcome} (ho : Ascending s.slots)
    (hw : s.withValue recipe f = .ok (r, s'))
    (hf : ∀ {t : Session} {v : Value}, Ascending t.slots → f t v = .ok (r, s') →
      Follows t [.value v] s' []) : Follows s [] s' [] := by
  obtain ⟨v, t, hv, ht⟩ := withValue_ok hw
  have hbuild := follows_build recipe [] ho hv
  exact hbuild.trans (hf hbuild.ascending ht)

theorem follows_compare {a b : Recipe} (ho : Ascending s.slots)
    (hp : s.perform (.compare a b) = .ok (r, s')) : Follows s [] s' [] := by
  apply follows_buildThen ho hp
  intro t v ho' hw
  obtain ⟨w, u, hw', hu⟩ := withValue_ok hw
  obtain rfl := snd_of_ok hu
  have hbuild := follows_build b [.value v] ho' hw'
  refine hbuild.trans (.onHeap (f := (·.releaseAll [w, v])) hbuild.ascending ?_)
  exact .releaseAll [w, v]

theorem follows_upgrade (ho : Ascending s.slots)
    (hp : s.perform (.upgrade slot into) = .ok (r, s')) : Follows s [] s' [] := by
  rw [perform] at hp
  split at hp
  · cases hp
  · next id hid =>
    split at hp
    · next h hu =>
      obtain rfl := snd_of_ok hp
      exact follows_put (f := fun _ => h) ho into (.upgrade (mem_of_weakNode hid) hu)
    · obtain rfl := snd_of_ok hp
      exact .refl ho

theorem follows_follow {links : Nat} {into : Option String} (ho : Ascending s.slots)
    (hp : s.perform (.follow slot links into) = .ok (r, s')) : Follows s [] s' [] := by
  obtain ⟨id, hid, he⟩ := withNode_ok hp
  have hlast := visible_follow links 0 (visible_of_node [] hid)
  cases into with
  | none =>
    obtain rfl := snd_of_ok he
    exact .refl ho
  | some into =>
    obtain rfl := snd_of_ok he
    exact follows_put ho into (.grasp hlast)

theorem perform_advances (ht : s.Tidy) (hp : s.perform c = .ok (r, s')) :
    Advances s s' := by
  have ho := ht.ascending
  cases c with
  | make model making asked into => exact (follows_make ht hp).advances ht
  | openBudget label limit into =>
    obtain rfl := snd_of_ok hp
    exact advances_openBudget ht label limit into
  | openBudgetFrom config into =>
    cases config with
    | error f =>
      obtain rfl := snd_of_ok hp
      exact ⟨ht, .refl _⟩
    | ok config =>
      obtain rfl := snd_of_ok hp
      exact advances_openBudget ht _ _ into
  | shareBudget budget into =>
    rw [perform] at hp
    split at hp
    · cases hp
    · next b hb =>
      obtain rfl := snd_of_ok hp
      exact advances_shareBudget ht (ht.budgetId hb) into
  | closeBudget budget =>
    rw [perform] at hp
    split at hp
    · cases hp
    · obtain rfl := snd_of_ok hp
      exact advances_closeBudget ht budget
  | lookAtBudget budget =>
    rw [perform] at hp
    split at hp
    · cases hp
    · obtain rfl := snd_of_ok hp
      exact ⟨ht, .refl _⟩
  | inspectBudget budget =>
    rw [perform] at hp
    split at hp
    · cases hp
    · obtain rfl := snd_of_ok hp
      exact ⟨ht, .refl _⟩
  | clone slot into =>
    rw [perform] at hp
    split at hp
    · cases hp
    · next x hx =>
      obtain rfl := snd_of_ok hp
      exact (follows_clone ho hx into).advances ht
  | drop slot =>
    rw [perform] at hp
    split at hp
    · cases hp
    · next x hx =>
      obtain rfl := snd_of_ok hp
      exact (follows_drop ho hx).advances ht
  | keep recipe into =>
    refine (follows_buildThen ho hp ?_).advances ht
    intro t v ho' he
    obtain rfl := snd_of_ok he
    exact follows_store ho' into (.value v)
  | present recipe =>
    refine (follows_buildThen ho hp ?_).advances ht
    intro t v ho' he
    obtain rfl := snd_of_ok he
    exact .onHeap (f := (·.release v)) ho' .release
  | compare a b => exact (follows_compare ho hp).advances ht
  | get slot into =>
    obtain ⟨id, hid, he⟩ := withNode_ok hp
    obtain rfl := snd_of_ok he
    exact (follows_get ho (mem_of_node hid) into).advances ht
  | peek slot =>
    obtain ⟨id, -, he⟩ := withNode_ok hp
    obtain rfl := snd_of_ok he
    exact ⟨ht, .refl _⟩
  | set slot recipe =>
    refine (follows_buildThen ho hp ?_).advances ht
    intro t v ho' hw
    obtain ⟨id, hid, he⟩ := withNode_ok hw
    obtain rfl := snd_of_ok he
    rw [set_snd]
    exact follows_replace ho' (mem_of_node hid) none
  | replace slot recipe into =>
    refine (follows_buildThen ho hp ?_).advances ht
    intro t v ho' hw
    obtain ⟨id, hid, he⟩ := withNode_ok hw
    obtain rfl := snd_of_ok he
    exact follows_replace ho' (mem_of_node hid) into
  | take slot into =>
    obtain ⟨id, hid, he⟩ := withNode_ok hp
    obtain rfl := snd_of_ok he
    have hnil : Follows s [] s [.value .nil] := .inHand ho (.scalar rfl)
    exact (hnil.trans (follows_replace ho (mem_of_node hid) into)).advances ht
  | within reading slot act recipe =>
    refine (follows_buildThen ho hp ?_).advances ht
    intro t v ho' hw
    obtain ⟨other, hother, hw'⟩ := withNode_ok hw
    obtain ⟨id, hid, he⟩ := withNode_ok hw'
    obtain rfl := snd_of_ok he
    exact follows_within ho' act (mem_of_node hother) (mem_of_node hid)
  | info slot =>
    rw [perform] at hp
    split at hp
    · cases hp
    · obtain rfl := snd_of_ok hp
      exact ⟨ht, .refl _⟩
  | inspect slot =>
    rw [perform] at hp
    split at hp
    · cases hp
    · obtain rfl := snd_of_ok hp
      exact ⟨ht, .refl _⟩
  | identify a b =>
    obtain ⟨id, -, hw⟩ := withNode_ok hp
    obtain ⟨other, -, he⟩ := withNode_ok hw
    obtain rfl := snd_of_ok he
    exact ⟨ht, .refl _⟩
  | downgrade slot into =>
    obtain ⟨id, hid, he⟩ := withNode_ok hp
    obtain rfl := snd_of_ok he
    have hput := follows_put (f := (·.addWeak id)) ho into (.downgrade (visible_of_node [] hid))
    exact hput.advances ht
  | upgrade slot into => exact (follows_upgrade ho hp).advances ht
  | follow slot links into => exact (follows_follow ho hp).advances ht
  | grow c into => exact (follows_grow ht hp).advances ht

/-! ## Sessions that commands lead to -/

theorem releaseHoldings_eq (h : Heap) (slots : List (String × Holding)) :
    releaseHoldings h slots = (slots.map (·.2)).foldl Heap.releaseHolding h := by
  induction slots generalizing h with
  | nil => rfl
  | cons p slots ih => exact ih _

theorem close_advances (ht : s.Tidy) : Advances s s.close := by
  have hl : Leads s.moment s.close.moment := by
    simp only [moment, close, releaseHoldings_eq]
    exact .releaseEach s.heap (s.slots.map (·.2)) []
  refine ⟨⟨List.Pairwise.nil, ?_⟩, hl⟩
  intro p hp
  exact lt_of_lt_of_le (ht.opened p hp) hl.budgets_le

/-- What commands make of the empty session. -/
inductive Reached : Session → Prop
  | empty : Reached empty
  | perform {s s' : Session} {c : Command} {r : Reply} (hs : Reached s)
      (hp : s.perform c = .ok (r, s')) : Reached s'
  | close {s : Session} (hs : Reached s) : Reached s.close

namespace Reached

theorem tidy (hs : Reached s) : s.Tidy := by
  induction hs with
  | empty =>
    refine ⟨List.Pairwise.nil, ?_⟩
    intro p hp
    exact (List.not_mem_nil hp).elim
  | perform _ hp ih => exact (perform_advances ih hp).tidy
  | close _ ih => exact (close_advances ih).tidy

theorem leads (hs : Reached s) : Leads Execution.empty s.moment := by
  induction hs with
  | empty => exact .refl _
  | perform hs hp ih => exact ih.trans (perform_advances hs.tidy hp).leads
  | close hs ih => exact ih.trans (close_advances hs.tidy).leads

/-- A session stands at the end of a run. -/
theorem run (hs : Reached s) : ∃ past, Run past s.moment := by
  obtain ⟨later, hr⟩ := Run.start.leads hs.leads
  exact ⟨_, hr⟩

/-- The slots account for every handle that the heap does not hold itself. -/
theorem sound (hs : Reached s) : s.heap.Sound (s.slots.map (·.2)) := by
  obtain ⟨past, hr⟩ := hs.run
  have hheap := hr.sound.heap
  simpa only [moment, holding, owned, outside, Task.holdingsAll_nil, List.map_nil, List.nil_append,
    List.append_nil] using hheap

/-- No scope reads between two commands. -/
theorem readers (hs : Reached s) (id : NodeId) : (s.heap.cell id).readers = 0 := by
  obtain ⟨past, hr⟩ := hs.run
  exact hr.sound.readers id

end Reached

end Session
end GraphStack
