import GraphStack.Proofs.Execution.Basic

/-!
# What every moment of a run satisfies

At every moment, in the middle of a release as between two steps of the caller, the heap is sound
for what tasks and caller hold, its budgets are solvent, and the tasks carry the handles and the
leases that they are going to need.
-/

namespace GraphStack

namespace Heap

variable {h h' : Heap} {o : List Holding} {v : Value} {id : NodeId}

/-- What can be looked at is there. -/
theorem Visible.present {outside : List Holding} (hv : h.Visible outside v) (hs : h.Sound o)
    (ho : ∀ x ∈ outside, x ∈ o) : h.Present v := by
  induction hv with
  | value hv => exact hs.present (.inl (ho _ hv))
  | handle hv =>
    refine ⟨fun m hm => (List.not_mem_nil hm).elim, ?_⟩
    intro x hx
    rw [List.mem_singleton.1 hx]
    exact hs.counter_ne_zero_of_owned (List.mem_flatMap.2 ⟨_, ho _ hv, List.mem_cons_self⟩)
  | payload hv ih => exact hs.present (.inr (.inl ⟨_, rfl⟩))
  | item hv hm ih => exact ih.item hm
  | entry hv hm ih => exact hs.present_entry ih hm

theorem Visible.alive {outside : List Holding} (hv : h.Visible outside (.node id))
    (hs : h.Sound o) (ho : ∀ x ∈ outside, x ∈ o) : (h.cell id).strong ≠ 0 :=
  (hv.present hs ho).counted (.strong id) List.mem_cons_self

/-- A cell without its counts. -/
def uncounted (c : Cell) : Cell := { c with strong := 0, weak := 0 }

/-- Only the counts of cells and the trees of maps have changed, and nothing died or came back. -/
structure Recounts (h h' : Heap) : Prop where
  size : h'.cells.size = h.cells.size
  budgets : h'.budgets = h.budgets
  cells : ∀ id, uncounted (h'.cell id) = uncounted (h.cell id)
  dead : ∀ id, (h'.cell id).strong = 0 ↔ (h.cell id).strong = 0

namespace Recounts

theorem refl (h : Heap) : Recounts h h := ⟨rfl, rfl, fun _ => rfl, fun _ => .rfl⟩

theorem trans {h'' : Heap} (hr : Recounts h h') (hr' : Recounts h' h'') : Recounts h h'' where
  size := hr'.size.trans hr.size
  budgets := hr'.budgets.trans hr.budgets
  cells id := (hr'.cells id).trans (hr.cells id)
  dead id := (hr'.dead id).trans (hr.dead id)

theorem payload (hr : Recounts h h') (id : NodeId) :
    (h'.cell id).payload = (h.cell id).payload := by
  have he := congrArg Cell.payload (hr.cells id)
  exact he

theorem lease (hr : Recounts h h') (id : NodeId) : (h'.cell id).lease = (h.cell id).lease := by
  have he := congrArg Cell.lease (hr.cells id)
  exact he

theorem readers (hr : Recounts h h') (id : NodeId) :
    (h'.cell id).readers = (h.cell id).readers := by
  have he := congrArg Cell.readers (hr.cells id)
  exact he

theorem addStrong (ha : (h.cell id).strong ≠ 0) : Recounts h (h.addStrong id) := by
  refine ⟨size_modifyCell _, rfl, ?_, ?_⟩
  · intro id'
    exact cell_modifyCell_keeps uncounted fun _ => rfl
  · intro id'
    rw [Heap.addStrong, cell_modifyCell]
    split
    · next hi =>
      rw [← hi.1]
      exact ⟨fun hz => absurd hz (Nat.succ_ne_zero _), fun hz => absurd hz ha⟩
    · rfl

/-- A change of the weak count alone. -/
theorem reweigh {f : Cell → Cell}
    (hf : ∀ c, uncounted (f c) = uncounted c)
    (hs : ∀ c, (f c).strong = c.strong) : Recounts h (h.modifyCell id f) := by
  refine ⟨size_modifyCell _, rfl, ?_, ?_⟩
  · intro id'
    exact cell_modifyCell_keeps uncounted hf
  · intro id'
    rw [cell_modifyCell_keeps (·.strong) hs]

mutual
theorem retain : ∀ {h : Heap} {v : Value}, h.Present v → Recounts h (h.retain v)
  | _, .list _, hv => retainAll fun _ hm => hv.item hm
  | _, .map _ _, _ => ⟨rfl, rfl, fun _ => rfl, fun _ => .rfl⟩
  | _, .node _, hv => addStrong (hv.counted _ List.mem_cons_self)
  | _, .nil, _ => refl _
  | _, .bool _, _ => refl _
  | _, .number _, _ => refl _
  | _, .text _, _ => refl _

theorem retainAll : ∀ {h : Heap} {vs : List Value}, (∀ v ∈ vs, h.Present v) →
    Recounts h (h.retainAll vs)
  | _, [], _ => refl _
  | _, v :: _, hv =>
    (retain (hv v List.mem_cons_self)).trans
      (retainAll fun w hw => (hv w (List.mem_cons_of_mem _ hw)).retain v)
end

end Recounts

/-! ### Records -/

/-- Cells and trees aside, the heap is as it was. -/
structure SameRecords (h h' : Heap) : Prop where
  budgets : h'.budgets = h.budgets
  journal : h'.journal = h.journal
  refusals : h'.refusals = h.refusals

theorem SameRecords.retain (h : Heap) (v : Value) : SameRecords h (h.retain v) :=
  retain_induction (P := SameRecords h) (fun _ _ hp => ⟨hp.budgets, hp.journal, hp.refusals⟩)
    (fun _ _ hp => ⟨hp.budgets, hp.journal, hp.refusals⟩) v ⟨rfl, rfl, rfl⟩

/-! ### Payloads -/

theorem readers_setPayload (h : Heap) (id : NodeId) (v : Value) (id' : NodeId) :
    ((h.setPayload id v).cell id').readers = (h.cell id').readers :=
  cell_modifyCell_keeps (·.readers) fun _ => rfl

theorem Closing.setPayload {ids : List NodeId} (hc : h.Closing ids) (id : NodeId) (v : Value) :
    (h.setPayload id v).Closing ids :=
  hc.congr (fun id' => by rw [strong_setPayload]) (sameBooks_setPayload h id v).lease

/-! ### Scopes -/

theorem sameBooks_enter (h : Heap) (id : NodeId) : SameBooks h (h.enter id) :=
  .modifyCell h id fun _ => rfl

theorem sameBooks_leave (h : Heap) (id : NodeId) : SameBooks h (h.leave id) :=
  .modifyCell h id fun _ => rfl

theorem readers_enter {rd : List NodeId} (hb : id.number < h.cells.size)
    (hr : ∀ id, (h.cell id).readers = rd.count id) (id' : NodeId) :
    ((h.enter id).cell id').readers = (id :: rd).count id' := by
  rw [enter, cell_modifyCell, List.count_cons, ← hr id']
  by_cases he : id = id'
  · subst he
    simp only [hb, and_self, if_true, beq_self_eq_true]
  · simp only [he, false_and, if_false, beq_iff_eq, Nat.add_zero]

/-- A node that is read has been built. -/
theorem readers_leave {rd : List NodeId} (hr : ∀ id', (h.cell id').readers = (id :: rd).count id')
    (id' : NodeId) : ((h.leave id).cell id').readers = rd.count id' := by
  have hb : id.number < h.cells.size := by
    by_contra hb
    have hr := hr id
    rw [cell_eq_vacant hb, List.count_cons_self] at hr
    cases hr
  have hr := hr id'
  rw [List.count_cons] at hr
  rw [leave, cell_modifyCell]
  by_cases he : id = id'
  · subst he
    simp only [hb, and_self, if_true, beq_self_eq_true] at hr ⊢
    omega
  · simp only [he, false_and, if_false, beq_iff_eq, Nat.add_zero] at hr ⊢
    exact hr

/-! ### Constructions -/

/-- A node that is built takes its payload in and is handed out. -/
theorem Sound.construct {model : Model} {through : Option BudgetId}
    (hs : h.Sound (.value v :: o)) (hc : h.construct model v through = (.ok id, h')) :
    h'.Sound (.strong id :: o) := by
  obtain ⟨rfl, hh⟩ := construct_eq_ok hc
  cases through with
  | none =>
    rw [hh]
    exact hs.build model none
  | some b =>
    obtain ⟨-, rfl⟩ := hh
    exact (hs.sameStore (sameStore_lend h b)).build model (some b)

theorem Solvent.construct {model : Model} {through : Option BudgetId} (hs : h.Solvent)
    (hb : ∀ b ∈ through, b.index < h.budgets.size)
    (hc : h.construct model v through = (.ok id, h')) : h'.Solvent := by
  obtain ⟨-, hh⟩ := construct_eq_ok hc
  cases through with
  | none =>
    rw [hh]
    exact hs.build model v
  | some b =>
    obtain ⟨hr, rfl⟩ := hh
    exact hs.lend (hb b rfl) hr model v

end Heap

/-! ## Steps -/

section Dealing

variable {h h' : Heap} {xs xs' : List Holding} {rd : List NodeId}

theorem Dealing.recounts (hd : Dealing rd h xs h' xs')
    (hs : h.Sound (xs ++ rd.map .strong)) : Heap.Recounts h h' := by
  cases hd with
  | arrange _ => exact .refl _
  | scalar _ => exact .refl _
  | list => exact .refl _
  | unlist => exact .refl _
  | map => exact ⟨rfl, rfl, fun _ => rfl, fun _ => .rfl⟩
  | link => exact .refl _
  | unlink => exact .refl _
  | @clone _ x hx =>
    have ho : x ∈ xs ++ rd.map .strong := List.mem_append_left _ hx
    cases x with
    | strong id =>
      exact .addStrong (hs.counter_ne_zero_of_owned
        (List.mem_flatMap.2 ⟨_, ho, List.mem_cons_self⟩))
    | weak id => exact .reweigh (fun _ => rfl) fun _ => rfl
    | value v => exact .retain (hs.present (.inl ho))
  | copy hv => exact .retain (hv.present hs fun _ hx => hx)
  | grasp hv => exact .addStrong (hv.alive hs fun _ hx => hx)
  | downgrade hv => exact .reweigh (fun _ => rfl) fun _ => rfl
  | upgrade hx hu =>
    obtain ⟨ha, rfl⟩ := Heap.upgrade?_eq_some hu
    exact .addStrong ha
  | dropWeak => exact .reweigh (fun _ => rfl) fun _ => rfl

/-- Handles and values are no matter of budgets, of the journal or of refusals. -/
theorem Dealing.records (hd : Dealing rd h xs h' xs') : Heap.SameRecords h h' := by
  cases hd with
  | @clone _ x hx =>
    cases x with
    | value v => exact .retain h v
    | _ => exact ⟨rfl, rfl, rfl⟩
  | copy => exact .retain h _
  | upgrade hx hu =>
    obtain ⟨-, rfl⟩ := Heap.upgrade?_eq_some hu
    exact ⟨rfl, rfl, rfl⟩
  | _ => exact ⟨rfl, rfl, rfl⟩

/-- What a caller does with handles and values keeps the counters right. -/
theorem Dealing.sound (hd : Dealing rd h xs h' xs') (hs : h.Sound (xs ++ rd.map .strong)) :
    h'.Sound (xs' ++ rd.map .strong) := by
  cases hd with
  | arrange hp => exact hs.perm (hp.append_right _)
  | scalar hv => exact hs.scalar hv
  | list => exact Heap.Sound.list (by simpa using hs)
  | unlist => simpa using hs.items
  | map => exact Heap.Sound.plant (by simpa using hs)
  | link => exact hs.link
  | unlink => exact hs.unlink
  | @clone _ x hx =>
    have ho : x ∈ xs ++ rd.map .strong := List.mem_append_left _ hx
    cases x with
    | strong id =>
      exact hs.addStrong (hs.counter_ne_zero_of_owned
        (List.mem_flatMap.2 ⟨_, ho, List.mem_cons_self⟩))
    | weak id =>
      exact hs.addWeak (Heap.built_of_weak (hs.counter_ne_zero_of_owned
        (List.mem_flatMap.2 ⟨_, ho, List.mem_cons_self⟩)))
    | value v => exact hs.retain (hs.present (.inl ho))
  | copy hv => exact hs.retain (hv.present hs fun _ hx => hx)
  | grasp hv => exact hs.addStrong (hv.alive hs fun _ hx => hx)
  | downgrade hv => exact hs.addWeak (Heap.built_of_strong (hv.alive hs fun _ hx => hx))
  | upgrade hx hu =>
    obtain ⟨ha, rfl⟩ := Heap.upgrade?_eq_some hu
    exact hs.addStrong ha
  | dropWeak => exact hs.dropWeak

end Dealing

namespace Execution

/-- What is so at every moment. Tasks are worked off in the order in which they stand, so what one
of them needs is there when its turn comes. -/
structure Sound (e : Execution) : Prop where
  heap : e.heap.Sound e.owned
  solvent : e.heap.Solvent
  closing : e.heap.Closing (Task.closingsAll e.tasks)
  backed : Task.Backed e.tasks
  readers : ∀ id, (e.heap.cell id).readers = e.reading.count id

theorem sound_empty : empty.Sound where
  heap := Heap.sound_empty
  solvent := by
    have hb (b : BudgetId) : Heap.empty.budget b = default :=
      Heap.budget_eq_default (by simp [Heap.empty])
    refine ⟨?_, ?_, ?_⟩
    · intro b
      have hl : Heap.empty.leased b = 0 :=
        Finset.sum_eq_zero fun n _ => by rw [Heap.cell_empty]; rfl
      simp only [empty, hb, hl]
      rfl
    · intro b
      simp only [empty, hb]
      exact le_refl 0
    · intro b limit hl
      simp only [empty, hb] at hl
      cases hl
  closing := by
    refine ⟨.nil, fun id hm => (List.not_mem_nil hm).elim, ?_⟩
    intro id _ hn
    simp only [empty, Heap.cell_empty] at hn
    exact absurd rfl hn
  backed := trivial
  readers id := by
    simp only [empty, Heap.cell_empty]
    rfl

namespace Sound

variable {h h' : Heap} {xs xs' : List Holding} {rd : List NodeId} {t : Task} {ts : List Task}

theorem of_idle (hs : h.Sound (xs ++ rd.map .strong)) (hb : h.Solvent) (hc : h.Closing [])
    (hr : ∀ id, (h.cell id).readers = rd.count id) : Sound ⟨h, xs, rd, []⟩ :=
  ⟨hs, hb, hc, trivial, hr⟩

/-- What the first task holds, and everything else that is held. -/
theorem first (hs : Sound ⟨h, xs, rd, t :: ts⟩) :
    h.Sound (t.holdings ++ (Task.holdingsAll ts ++ (xs ++ rd.map .strong))) := by
  simpa only [owned, outside, Task.holdingsAll_cons, List.append_assoc] using hs.heap

theorem work (hs : Sound ⟨h, xs, rd, t :: ts⟩) :
    Sound ⟨(h.perform t).2, xs, rd, (h.perform t).1 ++ ts⟩ := by
  have hclose : h.Closing (t.closings ++ Task.closingsAll ts) := hs.closing
  refine ⟨?_, hs.solvent.perform t, ?_, Heap.backed_perform hs.backed, ?_⟩
  · simpa only [owned, outside, Task.holdingsAll_append, List.append_assoc] using hs.first.perform
  · simpa only [Task.closingsAll_append] using hclose.perform hs.first
  · intro id
    exact (Heap.cell_perform_keeps (·.readers) (fun _ _ _ _ => rfl) h t id).trans (hs.readers id)

theorem deal (hs : Sound ⟨h, xs, rd, []⟩) (hd : Dealing rd h xs h' xs') :
    Sound ⟨h', xs', rd, []⟩ := by
  have hr := hd.recounts hs.heap
  refine of_idle (hd.sound hs.heap) ?_ (hs.closing.congr hr.dead hr.lease) ?_
  · exact hs.solvent.congr hr.size hr.lease hr.budgets
  · intro id
    exact (hr.readers id).trans (hs.readers id)

/-- A handle or a value that is dropped becomes the first task of a release. -/
theorem drop {x : Holding} (hs : Sound ⟨h, x :: xs, rd, []⟩) (ht : t.holdings = [x])
    (hc : t.closings = []) (hb : Task.Backed [t]) : Sound ⟨h, xs, rd, [t]⟩ := by
  refine ⟨?_, hs.solvent, ?_, hb, hs.readers⟩
  · simp only [owned, outside, Task.holdingsAll_cons, Task.holdingsAll_nil, ht, List.append_nil]
    exact hs.heap
  · simpa only [Task.closingsAll_cons, Task.closingsAll_nil, hc, List.append_nil] using hs.closing

theorem write {id : NodeId} {v : Value} (hs : Sound ⟨h, .value v :: xs, rd, []⟩)
    (ha : (h.cell id).strong ≠ 0) :
    Sound ⟨h.setPayload id v, .value (h.payload id) :: xs, rd, []⟩ := by
  refine of_idle (hs.heap.setPayload ha) ?_ (hs.closing.setPayload id v) ?_
  · exact (Heap.sameBooks_setPayload h id v).solvent hs.solvent
  · intro id'
    exact (Heap.readers_setPayload h id v id').trans (hs.readers id')

theorem build {id : NodeId} {v : Value} {model : Model} {through : Option BudgetId}
    (hs : Sound ⟨h, .value v :: xs, rd, []⟩) (hb : ∀ b ∈ through, b.index < h.budgets.size)
    (hc : h.construct model v through = (.ok id, h')) : Sound ⟨h', .strong id :: xs, rd, []⟩ := by
  have hbuilds := Heap.builds_of_construct hc
  refine of_idle (hs.heap.construct hc) (hs.solvent.construct hb hc) (hbuilds.closing hs.closing) ?_
  intro id'
  exact (hbuilds.readers id').trans (hs.readers id')

/-- Steps that leave counts and payloads alone. -/
theorem sameStore {ys : List Holding} {rd' : List NodeId} (hs : Sound ⟨h, xs, rd, ts⟩)
    (hh : Heap.SameStore h h') (hp : (xs ++ rd.map Holding.strong).Perm (ys ++ rd'.map .strong))
    (hb : h'.Solvent) (hl : ∀ id, (h'.cell id).lease = (h.cell id).lease)
    (hr : ∀ id, (h'.cell id).readers = rd'.count id) : Sound ⟨h', ys, rd', ts⟩ where
  heap := (hs.heap.sameStore hh).perm (hp.append_left _)
  solvent := hb
  closing := hs.closing.congr (fun id => by rw [hh.strong]) hl
  backed := hs.backed
  readers := hr

theorem enter {id : NodeId} (hs : Sound ⟨h, .strong id :: xs, rd, []⟩) :
    Sound ⟨h.enter id, xs, id :: rd, []⟩ := by
  have hb : id.number < h.cells.size := Heap.built_of_strong
    (hs.heap.counter_ne_zero_of_owned (x := .strong id) List.mem_cons_self)
  have hbooks := Heap.sameBooks_enter h id
  exact hs.sameStore (Heap.sameStore_enter h id) List.perm_middle.symm
    (hbooks.solvent hs.solvent) hbooks.lease (Heap.readers_enter hb hs.readers)

theorem leave {id : NodeId} (hs : Sound ⟨h, xs, id :: rd, []⟩) :
    Sound ⟨h.leave id, .strong id :: xs, rd, []⟩ := by
  have hbooks := Heap.sameBooks_leave h id
  exact hs.sameStore (Heap.sameStore_leave h id) List.perm_middle
    (hbooks.solvent hs.solvent) hbooks.lease (Heap.readers_leave hs.readers)

end Sound

theorem Step.sound {e e' : Execution} {d : Deed} (hs : e.Sound) (hd : Step e d e') :
    e'.Sound := by
  cases hd with
  | work => exact hs.work
  | deal hd => exact hs.deal hd
  | dropHandle => exact hs.drop rfl rfl trivial
  | dropValue => exact hs.drop rfl rfl trivial
  | write hv hw =>
    obtain ⟨-, rfl, rfl⟩ := Heap.replace?_eq_some hw
    exact hs.write (hv.alive hs.heap fun x hx => List.mem_cons_of_mem _ hx)
  | build hb hc => exact hs.build hb hc
  | refuse =>
    refine Sound.drop ?_ rfl rfl trivial
    exact hs.sameStore ⟨rfl, fun _ => rfl, fun _ => rfl, fun _ => rfl, rfl⟩ (.refl _)
      (hs.solvent.congr rfl (fun _ => rfl) rfl) (fun _ => rfl) hs.readers
  | openBudget =>
    exact hs.sameStore ⟨rfl, fun _ => rfl, fun _ => rfl, fun _ => rfl, rfl⟩ (.refl _)
      (hs.solvent.openBudget _ _) (fun _ => rfl) hs.readers
  | enter => exact hs.enter
  | leave => exact hs.leave

/-- Every moment of every run is sound. -/
theorem Run.sound {past : List (Deed × Execution)} {e : Execution} (hr : Run past e) :
    e.Sound := by
  induction hr with
  | start => exact sound_empty
  | step _ hd ih => exact hd.sound ih

end Execution
end GraphStack
