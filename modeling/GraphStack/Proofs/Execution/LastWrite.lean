import GraphStack.Proofs.Execution.Sound

/-!
# Reads give the last write

The payload of a living node is what the latest deed put into it. A release clears payloads of
nodes that are still alive, but only of nodes that nothing but the release holds; they are gone
when it ends, so no release changes the payload of a node that survives it.
-/

namespace GraphStack

namespace Execution

def Deed.installed? (id : NodeId) : Deed → Option Value
  | .built id' v _ => if id' = id then some v else none
  | .wrote id' v => if id' = id then some v else none
  | _ => none

/-- What the latest deed that put something into a node put there. -/
def lastInstalled (past : List (Deed × Execution)) (id : NodeId) : Option Value :=
  past.findSome? fun p => p.1.installed? id

/-- Nothing but a release in progress holds the node any more. -/
structure Abandoned (e : Execution) (id : NodeId) : Prop where
  cleared : e.heap.payload id = .nil
  inside : e.heap.inside (.strong id) = 0
  outside : .strong id ∉ Holding.handlesAll e.outside

/-- Living nodes that the release in progress does not take away have what was put into them. -/
def Intact (past : List (Deed × Execution)) (e : Execution) : Prop :=
  ∀ id, (e.heap.cell id).strong ≠ 0 →
    lastInstalled past id = some (e.heap.payload id) ∨ e.Abandoned id

variable {past : List (Deed × Execution)} {e e' : Execution} {d : Deed} {id : NodeId}

theorem lastInstalled_cons (past : List (Deed × Execution)) (d : Deed) (e : Execution)
    (id : NodeId) : lastInstalled ((d, e) :: past) id =
      (d.installed? id).or (lastInstalled past id) := by
  rw [lastInstalled, List.findSome?_cons]
  cases d.installed? id <;> rfl

theorem lastInstalled_append {later : List (Deed × Execution)} (ho : ∀ p ∈ later, p.1 = .other)
    (past : List (Deed × Execution)) (id : NodeId) :
    lastInstalled (later ++ past) id = lastInstalled past id := by
  induction later with
  | nil => rfl
  | cons p later ih =>
    have ih := ih fun q hq => ho q (List.mem_cons_of_mem _ hq)
    rw [List.cons_append, lastInstalled_cons, ho p List.mem_cons_self, ih]
    rfl

/-- A node without a handle inside and outside is destroyed once no task is left. -/
theorem Sound.strong_eq_zero (hs : e.Sound) (ht : e.tasks = [])
    (hin : e.heap.inside (.strong id) = 0)
    (hout : .strong id ∉ Holding.handlesAll e.outside) : (e.heap.cell id).strong = 0 := by
  have hc := hs.heap.counted (.strong id)
  rw [owned, ht, Task.holdingsAll_nil, List.nil_append, hin, List.count_eq_zero.2 hout] at hc
  exact hc

theorem Intact.idle (hi : Intact past e) (hs : e.Sound) (ht : e.tasks = [])
    (ha : (e.heap.cell id).strong ≠ 0) : lastInstalled past id = some (e.heap.payload id) :=
  (hi id ha).resolve_right fun hb => ha (hs.strong_eq_zero ht hb.inside hb.outside)

/-- A task that may take the link of a frame with one handle is done for a release that has that
handle, so nobody else has it. -/
theorem Sound.abandoned {h : Heap} {xs : List Holding} {rd : List NodeId} {t : Task}
    {ts : List Task} (hs : Sound ⟨h, xs, rd, t :: ts⟩) (ht : t = .unlink id ∨ t = .walk id)
    (h1 : (h.cell id).strong = 1) :
    h.inside (.strong id) = 0 ∧
      .strong id ∉ Holding.handlesAll (outside ⟨h, xs, rd, t :: ts⟩) := by
  have hm : .strong id ∈ Task.holdingsAll (t :: ts) := by
    rcases ht with rfl | rfl
    · have hb : .handle id ∈ ts := hs.backed.1
      exact List.mem_flatMap.2 ⟨_, List.mem_cons_of_mem _ hb, List.mem_cons_self⟩
    · exact List.mem_cons_self
  exact hs.heap.last (List.mem_flatMap.2 ⟨_, hm, List.mem_cons_self⟩) h1

/-! ## Steps -/

namespace Intact

variable {h h' : Heap} {xs xs' : List Holding} {rd rd' : List NodeId} {t : Task}
  {ts ts' : List Task}

theorem work (hi : Intact past ⟨h, xs, rd, t :: ts⟩) (hs : Sound ⟨h, xs, rd, t :: ts⟩) :
    Intact past ⟨(h.perform t).2, xs, rd, (h.perform t).1 ++ ts⟩ := by
  intro id ha
  have hb : (h.cell id).strong ≠ 0 := fun hz => ha (hs.first.strong_perform_eq_zero hz)
  have hle := h.inside_perform_le t (.strong id)
  rcases h.payload_perform t ha with hp | ⟨ht, h1, hp⟩
  · rcases hi id hb with hl | ⟨hc, hin, hout⟩
    · exact .inl (by rw [hl, hp])
    · exact .inr ⟨hp.trans hc, Nat.le_zero.1 (hin ▸ hle), hout⟩
  · obtain ⟨hin, hout⟩ := hs.abandoned ht h1
    exact .inr ⟨hp, Nat.le_zero.1 (hin ▸ hle), hout⟩

/-- A step of the caller that leaves payloads alone and revives nothing. -/
theorem keep (hi : Intact past ⟨h, xs, rd, []⟩) (hs : Sound ⟨h, xs, rd, []⟩)
    (hd : ∀ id, d.installed? id = none)
    (hp : ∀ id, (h'.cell id).payload = (h.cell id).payload)
    (ha : ∀ id, (h'.cell id).strong ≠ 0 → (h.cell id).strong ≠ 0) :
    Intact ((d, e) :: past) ⟨h', xs', rd', ts'⟩ := by
  intro id hz
  have hl := hi.idle hs rfl (ha id hz)
  refine .inl ?_
  rw [lastInstalled_cons, hd]
  exact hl.trans (congrArg some (hp id).symm)

theorem write {v : Value} {id : NodeId} (hi : Intact past ⟨h, xs, rd, []⟩)
    (hs : Sound ⟨h, xs, rd, []⟩) (hb : id.number < h.cells.size) :
    Intact ((.wrote id v, e) :: past) ⟨h.setPayload id v, xs', rd, []⟩ := by
  intro id' hz
  rw [Heap.strong_setPayload] at hz
  have hl := hi.idle hs rfl hz
  refine .inl ?_
  rw [lastInstalled_cons, Deed.installed?]
  by_cases he : id = id'
  · subst he
    rw [if_pos rfl]
    exact congrArg some (Heap.payload_setPayload hb).symm
  · rw [if_neg he]
    exact hl.trans (congrArg some (Heap.payload_setPayload_of_ne he).symm)

theorem build {v : Value} {model : Model} {lease through : Option BudgetId}
    (hi : Intact past ⟨h, xs, rd, []⟩) (hs : Sound ⟨h, xs, rd, []⟩)
    (hc : ∀ id, h'.cell id = h.cell id) (hn : h'.nextNode = h.nextNode) :
    Intact ((.built h.nextNode v through, e) :: past)
      ⟨h'.build model v lease, xs', rd, []⟩ := by
  intro id' hz
  refine .inl ?_
  rw [lastInstalled_cons, Deed.installed?, Heap.payload]
  simp only [Heap.cell_build] at hz ⊢
  rw [hn] at hz ⊢
  by_cases he : id' = h.nextNode
  · rw [if_pos he, if_pos he.symm]
    rfl
  · rw [if_neg he, hc] at hz ⊢
    rw [if_neg (Ne.symm he)]
    exact hi.idle hs rfl hz

end Intact

theorem Step.intact (hi : Intact past e) (hs : e.Sound) (hd : Step e d e') :
    Intact ((d, e) :: past) e' := by
  cases hd with
  | work => exact hi.work hs
  | deal hd =>
    have hr := hd.recounts hs.heap
    exact hi.keep hs (fun _ => rfl) hr.payload fun id ha hz => ha ((hr.dead id).2 hz)
  | dropHandle => exact hi.keep hs (fun _ => rfl) (fun _ => rfl) fun _ ha => ha
  | dropValue => exact hi.keep hs (fun _ => rfl) (fun _ => rfl) fun _ ha => ha
  | write hv hw =>
    obtain ⟨-, rfl, rfl⟩ := Heap.replace?_eq_some hw
    have ha := hv.alive hs.heap fun x hx => List.mem_cons_of_mem _ hx
    exact hi.write hs (Heap.built_of_strong ha)
  | @build h h' xs rd id v model through hb hc =>
    cases through with
    | none =>
      cases hc
      exact hi.build hs (fun _ => rfl) rfl
    | some b =>
      obtain ⟨hid, hr, hh⟩ := Heap.construct_eq_ok hc
      subst hid hh
      have hcell (id : NodeId) : (h.lend b).cell id = h.cell id := rfl
      exact hi.build hs hcell rfl
  | refuse => exact hi.keep hs (fun _ => rfl) (fun _ => rfl) fun _ ha => ha
  | openBudget => exact hi.keep hs (fun _ => rfl) (fun _ => rfl) fun _ ha => ha
  | enter =>
    apply hi.keep hs (fun _ => rfl) (Heap.sameStore_enter _ _).payload
    intro id ha
    rwa [(Heap.sameStore_enter _ _).strong] at ha
  | leave =>
    apply hi.keep hs (fun _ => rfl) (Heap.sameStore_leave _ _).payload
    intro id ha
    rwa [(Heap.sameStore_leave _ _).strong] at ha

theorem Run.intact (hr : Run past e) : Intact past e := by
  induction hr with
  | start =>
    intro id ha
    rw [empty, Heap.cell_empty] at ha
    exact absurd rfl ha
  | step hr hd ih => exact hd.intact ih hr.sound

/-- A release in progress neither adds handles inside the heap nor revives a node. -/
theorem Sound.run {h : Heap} {xs : List Holding} {rd : List NodeId} {ts : List Task}
    (hs : Sound ⟨h, xs, rd, ts⟩) (id : NodeId) :
    (h.run ts).inside (.strong id) ≤ h.inside (.strong id) ∧
      (((h.run ts).cell id).strong ≠ 0 → (h.cell id).strong ≠ 0) := by
  induction h, ts using Heap.run_induction with
  | nil h =>
    rw [Heap.run_nil]
    exact ⟨le_refl _, fun ha => ha⟩
  | cons h t rest ih =>
    obtain ⟨hle, ha⟩ := ih hs.work
    rw [Heap.run_cons]
    refine ⟨hle.trans (h.inside_perform_le t _), ?_⟩
    intro hz hn
    exact ha hz (hs.first.strong_perform_eq_zero hn)

/-- Every node that survives the release in progress has now, and keeps, what was last put into
it; between releases these are all living nodes. -/
theorem Run.payload_eq_lastInstalled (hr : Run past e) (id : NodeId)
    (ha : ((e.heap.run e.tasks).cell id).isAlive) :
    lastInstalled past id = some (e.heap.payload id) ∧
      (e.heap.run e.tasks).payload id = e.heap.payload id := by
  obtain ⟨later, ho, hend⟩ := hr.finish
  have ha := Heap.isAlive_iff.1 ha
  have hlast := hend.intact.idle hend.sound rfl ha
  rw [lastInstalled_append ho] at hlast
  obtain ⟨hle, hbefore⟩ := hr.sound.run id
  rcases hr.intact id (hbefore ha) with hl | hb
  · exact ⟨hl, Option.some.inj (hlast.symm.trans hl)⟩
  · have hin : (e.heap.run e.tasks).inside (.strong id) = 0 := Nat.le_zero.1 (hb.inside ▸ hle)
    exact absurd (hend.sound.strong_eq_zero rfl hin hb.outside) ha

theorem payload_selfLink : Run SelfLink.past SelfLink.now ∧
    ((SelfLink.now.heap.run SelfLink.now.tasks).cell ⟨1⟩).isAlive ∧
    lastInstalled SelfLink.past ⟨1⟩ = some (.node ⟨1⟩) := by
  have ha : ((SelfLink.now.heap.run SelfLink.now.tasks).cell ⟨1⟩).isAlive := by
    rw [SelfLink.now, Heap.run_nil]
    decide
  exact ⟨SelfLink.run, ha, (Run.payload_eq_lastInstalled SelfLink.run ⟨1⟩ ha).1⟩

end Execution
end GraphStack
