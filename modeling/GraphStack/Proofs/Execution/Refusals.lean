import GraphStack.Proofs.Arguments
import GraphStack.Proofs.Execution.Accounts
import GraphStack.Proofs.Execution.Orders

/-!
# Failed constructions

A construction that fails owns its arguments and lets go of them. Whether the shape of the call is
bad or the budget has no room, the heap is afterwards what letting go of the arguments alone makes
of it. That may free slots of the very budget that refused: the numbers in the report are those
from before.
-/

namespace GraphStack

namespace Heap

variable {h h' h₀ : Heap} {model : Model} {args : Arguments Value} {through : Option BudgetId}
  {v : Value} {f : Fault} {kept : List Holding}

theorem constructOrFault_eq_error (hc : h.constructOrFault model v through = (.error f, h')) :
    ∃ b limit, through = some b ∧ reachedLimit? (h.budget b) = some limit ∧
      f = (Refusal.mk (h.budget b).live limit).fault ∧ h' = h.refuse (h.budget b) limit v := by
  unfold constructOrFault at hc
  split at hc
  · cases hc
  · next r t ht =>
    cases hc
    obtain ⟨b, limit, hb, hr, rfl, rfl⟩ := construct_eq_error ht
    exact ⟨b, limit, hb, hr, rfl, rfl⟩

/-- A construction fails for the shape of its arguments or for a budget without room. -/
theorem constructFrom_eq_error (hc : h.constructFrom model args through = (.error f, h')) :
    (∃ r, args.payload? = .error r ∧ f = r.fault ∧ h' = h.releaseAll args.values) ∨
    ∃ p b limit, args.payload? = .ok p ∧ through = some b ∧
      reachedLimit? (h.budget b) = some limit ∧
      f = (Refusal.mk (h.budget b).live limit).fault ∧
      h' = h.refuse (h.budget b) limit (p.getD .nil) := by
  unfold constructFrom at hc
  split at hc
  · next r hr =>
    cases hc
    exact .inl ⟨r, hr, rfl, rfl⟩
  · next p hp =>
    obtain ⟨b, limit, hb, hr, hf, hh⟩ := constructOrFault_eq_error hc
    exact .inr ⟨p, b, limit, hp, hb, hr, hf, hh⟩

namespace Unwinding

theorem releaseAll {vs : List Value} (hu : Unwinding h₀ kept h (vs.map .value) []) :
    Unwinding h₀ kept (h.releaseAll vs) [] [] := by
  rw [← List.append_nil (vs.map _)] at hu
  have hrun : Unwinding h₀ kept (h.run [.values vs]) [] [] := hu.run trivial
  exact hrun

theorem refuse {b : Budget} {limit : Nat} (hu : Unwinding h₀ kept h [.value v] []) :
    Unwinding h₀ kept (h.refuse b limit v) [] [] := by
  have hlog := hu.log (.exhausted b.label b.live limit)
  have hrun : Unwinding h₀ kept
      ((h.log (.exhausted b.label b.live limit)).run [.value v]) [] [] := hlog.run trivial
  exact hrun

theorem constructFrom (hu : Unwinding h₀ kept h (args.values.map .value) [])
    (hc : h.constructFrom model args through = (.error f, h')) : Unwinding h₀ kept h' [] [] := by
  rcases constructFrom_eq_error hc with ⟨r, -, -, rfl⟩ | ⟨p, b, limit, hp, -, -, -, rfl⟩
  · exact hu.releaseAll
  · rw [Arguments.values_of_payload hp] at hu
    cases p with
    | none => exact (hu.regroup (hu.sound.scalar rfl)).refuse
    | some v => exact hu.refuse

end Unwinding
end Heap

namespace Execution

open Heap

variable {past : List (Deed × Execution)} {e : Execution} {o kept : List Holding} {h : Heap}
  {b : BudgetId} {vs : List Value}

/-! ## The moment after a release -/

theorem Sound.released (hs : e.Sound)
    (hu : Unwinding e.heap (kept ++ e.reading.map .strong) h [] []) :
    Sound ⟨h, kept, e.reading, []⟩ where
  heap := hu.sound
  solvent := hu.solvent
  closing := hu.closing
  backed := trivial
  readers id := by
    have hf := congrArg Cell.readers (hu.settling.frame id)
    have he : (h.cell id).readers = (e.heap.cell id).readers := hf
    exact he.trans (hs.readers id)

/-- A release builds nothing, and ends the leases of the nodes that it destroys. -/
theorem Booked.released (hb : Booked past e b)
    (hu₀ : Unwinding e.heap (kept ++ e.reading.map .strong) e.heap o [])
    (hu : Unwinding e.heap (kept ++ e.reading.map .strong) h [] []) :
    Booked past ⟨h, kept, e.reading, []⟩ b where
  once := hb.once
  known id hm := (hb.known id hm).trans_eq hu.settling.cells.symm
  lent id hl := by
    rcases hu.settling.lease id with he | ⟨hn, -⟩
    · exact hb.lent id (he.symm.trans hl)
    · exact absurd (hn.symm.trans hl) (Option.some_ne_none b).symm
  ended id hm := by
    rcases hb.ended id hm with hl | ⟨hz, -⟩
    · rcases hu.settling.lease id with he | ⟨-, hd⟩
      · exact .inl (he.trans hl)
      · exact .inr ⟨hu.strong_eq_zero_iff.2 hd, List.not_mem_nil⟩
    · exact .inr ⟨hu.strong_eq_zero_iff.2 (hu₀.doomed_of_strong hz), List.not_mem_nil⟩

/-- At an idle moment the live count of a budget is the number of its nodes that are alive. -/
theorem Booked.live_eq (hb : Booked past e b) (hs : e.Sound) (ht : e.tasks = []) :
    (e.heap.budget b).live = (builtThrough past b).countP fun id => (e.heap.cell id).isAlive := by
  rw [hs.solvent.lent, hb.leased_eq hs]
  exact List.countP_congr fun id _ => by simp [standing_iff_of_idle ht]

/-! ## What is left -/

/-- The heap after values have been let go of, with the rest of what was held kept, and nothing
else has happened. -/
structure OnlyReleased (past : List (Deed × Execution)) (e : Execution) (vs : List Value)
    (kept : List Holding) (h : Heap) : Prop where
  /-- The values may have gone in any order. -/
  alike : ∀ xs h', xs.Perm (vs.map .value) → e.heap.Releases xs h' → Alike h h'
  size : h.cells.size = e.heap.cells.size
  lease : ∀ id b, (h.cell id).lease = some b → (e.heap.cell id).lease = some b
  /-- The nodes that are gone are those that nothing kept leads to. -/
  gone : ∀ id, (h.cell id).isAlive = false ↔
    e.heap.Doomed (Holding.handlesAll (kept ++ e.reading.map .strong)) (.strong id)
  peak : ∀ b, (h.budget b).peak = (e.heap.budget b).peak
  /-- A budget has the slots back of its nodes that were alive and are gone. -/
  live : ∀ b, (h.budget b).live + (builtThrough past b).countP
    (fun id => (e.heap.cell id).isAlive && !(h.cell id).isAlive) = (e.heap.budget b).live

theorem Run.onlyReleased (hr : Run past e) (ht : e.tasks = [])
    (hp : e.held.Perm (vs.map .value ++ kept))
    (hu : Unwinding e.heap (kept ++ e.reading.map .strong) h [] []) :
    OnlyReleased past e vs kept h := by
  have hs := hr.sound
  have hu₀ := hs.unwinding_idle ht hp
  have hgone (id : NodeId) : (h.cell id).isAlive = false ↔
      e.heap.Doomed (Holding.handlesAll (kept ++ e.reading.map .strong)) (.strong id) := by
    rw [← hu.strong_eq_zero_iff, Cell.isAlive, decide_eq_false_iff_not, not_ne_iff]
  refine ⟨?_, hu.settling.cells, ?_, hgone, ?_, ?_⟩
  · intro xs h' hx hr'
    have hu' : Unwinding e.heap (kept ++ e.reading.map .strong) e.heap (xs ++ []) [] := by
      rw [List.append_nil]
      exact hu₀.regroup (hu₀.sound.perm (hx.symm.append_right _))
    exact hu.alike (hr'.unwinding hu')
  · intro id b hl
    rcases hu.settling.lease id with he | ⟨hn, -⟩
    · exact he.symm.trans hl
    · exact absurd (hn.symm.trans hl) (Option.some_ne_none b).symm
  · intro b
    have hterms := congrArg Budget.peak (hu.settling.terms b)
    exact hterms
  · intro b
    have hb := hr.booked b
    have hafter : (h.budget b).live = (builtThrough past b).countP fun id => (h.cell id).isAlive :=
      (hb.released hu₀ hu).live_eq (hs.released hu) rfl
    have hsub (id : NodeId) (ha : (h.cell id).isAlive) : (e.heap.cell id).isAlive := by
      by_contra hz
      have hz : (e.heap.cell id).strong = 0 := by simpa [Cell.isAlive] using hz
      rw [(hgone id).2 (hu₀.doomed_of_strong hz)] at ha
      cases ha
    have hsplit := List.countP_eq_countP_filter_add (builtThrough past b)
      (fun id => (e.heap.cell id).isAlive) fun id => (h.cell id).isAlive
    rw [List.countP_filter, List.countP_filter] at hsplit
    rw [hafter, hb.live_eq hs ht, hsplit]
    congr 1
    refine List.countP_congr fun id _ => ?_
    rw [Bool.and_eq_true]
    exact ⟨fun ha => ⟨hsub id ha, ha⟩, fun ha => ha.2⟩

/-- The report of a budget without room gives its live count and its limit. -/
def Reports (h : Heap) (through : Option BudgetId) (f : Fault) : Prop :=
  ∃ b limit, through = some b ∧ (h.budget b).limit = some limit ∧ f.kind = .allocation ∧
    f.message = "cannot allocate node: " ++ toString (h.budget b).live ++ " of " ++
      toString limit ++ " live nodes in use"

theorem reports_of_reached {limit : Nat} (hr : reachedLimit? (h.budget b) = some limit) :
    Reports h (some b) (Refusal.mk (h.budget b).live limit).fault :=
  ⟨b, limit, rfl, (reachedLimit?_eq_some.1 hr).1, rfl, rfl⟩

theorem Run.constructFrom_error {model : Model} {args : Arguments Value}
    {through : Option BudgetId} {f : Fault} (hr : Run past e) (ht : e.tasks = [])
    (hp : e.held.Perm (args.values.map .value ++ kept))
    (hc : e.heap.constructFrom model args through = (.error f, h)) :
    OnlyReleased past e args.values kept h ∧
      ((∃ r, args.payload? = .error r ∧ f = r.fault) ∨ Reports e.heap through f) := by
  refine ⟨hr.onlyReleased ht hp ((hr.sound.unwinding_idle ht hp).constructFrom hc), ?_⟩
  rcases constructFrom_eq_error hc with ⟨r, hr, hf, -⟩ | ⟨p, b, limit, -, rfl, hr, rfl, -⟩
  · exact .inl ⟨r, hr, hf⟩
  · exact .inr (reports_of_reached hr)

/-- A construction that fails, from arguments, from a payload or from none, lets go of what it was
given and does nothing else. Its report tells how the budget stood before. -/
theorem Run.failure_only_releases (hr : Run past e) (ht : e.tasks = []) :
    (∀ model args through kept f h, e.held.Perm (args.values.map .value ++ kept) →
      e.heap.constructFrom model args through = (.error f, h) →
      OnlyReleased past e args.values kept h ∧
        ((∃ r, args.payload? = .error r ∧ f = r.fault) ∨ Reports e.heap through f)) ∧
    (∀ model v through kept f h, e.held.Perm (.value v :: kept) →
      e.heap.constructOrFault model v through = (.error f, h) →
      OnlyReleased past e [v] kept h ∧ Reports e.heap through f) ∧
    (∀ model through f h, e.heap.constructOrFault model .nil through = (.error f, h) →
      OnlyReleased past e [] e.held h ∧ Reports e.heap through f) := by
  refine ⟨fun model args through kept f h => hr.constructFrom_error ht, ?_, ?_⟩
  · intro model v through kept f h hp hc
    have hc : e.heap.constructFrom model ⟨[v], []⟩ through = (.error f, h) := hc
    obtain ⟨ho, ⟨r, hn, -⟩ | hf⟩ := hr.constructFrom_error ht hp hc
    · cases hn
    · exact ⟨ho, hf⟩
  · intro model through f h hc
    have hc : e.heap.constructFrom model .empty through = (.error f, h) := hc
    have hp : e.held.Perm ((Arguments.empty.values.map .value) ++ e.held) := .refl _
    obtain ⟨ho, ⟨r, hn, -⟩ | hf⟩ := hr.constructFrom_error ht hp hc
    · cases hn
    · exact ⟨ho, hf⟩

/-- The heap after the budget, whose only slot is taken, has refused a node. -/
def SelfLink.refused (v : Value) : Heap := SelfLink.built.refuse ⟨"frames", some 1, 1, 1⟩ 1 v

theorem SelfLink.constructOrFault_built (model : Model) (v : Value) :
    SelfLink.built.constructOrFault model v (some ⟨0⟩) =
      (.error (Refusal.mk 1 1).fault, SelfLink.refused v) := rfl

/-- Nothing but the last link leads to the node. -/
theorem SelfLink.doomed_built : SelfLink.built.Doomed (Holding.handlesAll []) (.strong ⟨1⟩) := by
  refine .intro List.not_mem_nil ?_ nofun
  intro id hm
  have hn : (SelfLink.built.cell id).payload = .nil := by
    obtain ⟨_ | _ | n⟩ := id <;> rfl
  rw [hn] at hm
  cases hm

/-- The payload is the last link to the only node that the budget allows, so the refusal frees the
slot that was missing. A call that fails without a payload frees nothing. -/
theorem failure_only_releases_selfLink : ∃ past e, Run past e ∧ e.tasks = [] ∧
    e.held.Perm ([Value.node ⟨1⟩].map .value ++ []) ∧
    (∃ f h, e.heap.constructFrom .single ⟨[.node ⟨1⟩], []⟩ (some ⟨0⟩) = (.error f, h) ∧
      f.message = "cannot allocate node: 1 of 1 live nodes in use" ∧
      (h.budget ⟨0⟩).live = 0 ∧ (h.budget ⟨0⟩).peak = 1) ∧
    (∃ f h, e.heap.constructOrFault .shared (.node ⟨1⟩) (some ⟨0⟩) = (.error f, h) ∧
      (h.cell ⟨1⟩).isAlive = false) ∧
    ∃ f h, e.heap.constructOrFault .shared .nil (some ⟨0⟩) = (.error f, h) ∧
      (h.cell ⟨1⟩).isAlive := by
  have hr := SelfLink.run_built.step (.deal .link)
  have hfails := Run.failure_only_releases hr rfl
  have hc : SelfLink.built.constructFrom .single ⟨[.node ⟨1⟩], []⟩ (some ⟨0⟩) = _ :=
    SelfLink.constructOrFault_built .single (.node ⟨1⟩)
  have hc' := SelfLink.constructOrFault_built .shared (.node ⟨1⟩)
  have hc'' := SelfLink.constructOrFault_built .shared .nil
  have ho := (hfails.1 _ _ _ [] _ _ (.refl _) hc).1
  have ho' := (hfails.2.1 _ _ _ [] _ _ (.refl _) hc').1
  have ho'' := (hfails.2.2 _ _ _ _ hc'').1
  have hdead := (ho.gone ⟨1⟩).2 SelfLink.doomed_built
  refine ⟨_, _, hr, rfl, .refl _, ⟨_, _, hc, by decide, ?_, ho.peak ⟨0⟩⟩,
    ⟨_, _, hc', (ho'.gone ⟨1⟩).2 SelfLink.doomed_built⟩, _, _, hc'', ?_⟩
  · have hl : _ + List.countP _ [NodeId.mk 1] = 1 := ho.live ⟨0⟩
    rw [List.countP_cons_of_pos (by rw [hdead]; rfl)] at hl
    exact Nat.succ.inj hl
  · by_contra hz
    obtain ⟨hk, -, -⟩ := (ho''.gone ⟨1⟩).1 (Bool.eq_false_iff.2 hz)
    exact hk List.mem_cons_self

end Execution
end GraphStack
