import GraphStack.Proofs.Execution.Sound

/-!
# Accounts of budgets

At every moment of a run the live count of a budget is the number of nodes that were built through
it and are not yet gone, whoever holds them. The peak is the greatest live count of the run so far,
a lease that ends always finds a live count to take one from, and a budget refuses exactly when its
limit is reached.
-/

open scoped BigOperators

namespace GraphStack.Execution

def Deed.builtThrough? (b : BudgetId) : Deed → Option NodeId
  | .built id _ through => if through = some b then some id else none
  | _ => none

def builtThrough (past : List (Deed × Execution)) (b : BudgetId) : List NodeId :=
  past.filterMap fun p => p.1.builtThrough? b

/-- The node is alive, or a release is about to end its lease. -/
def Standing (e : Execution) (id : NodeId) : Prop :=
  (e.heap.cell id).isAlive ∨ id ∈ Task.closingsAll e.tasks

instance (e : Execution) : DecidablePred e.Standing := fun _ => inferInstanceAs (Decidable (_ ∨ _))

/-- Which nodes have a lease of a budget, as the deeds tell it. -/
structure Booked (past : List (Deed × Execution)) (e : Execution) (b : BudgetId) : Prop where
  once : (builtThrough past b).Nodup
  known : ∀ id ∈ builtThrough past b, id.number < e.heap.cells.size
  lent : ∀ id, (e.heap.cell id).lease = some b → id ∈ builtThrough past b
  ended : ∀ id ∈ builtThrough past b, (e.heap.cell id).lease = some b ∨
    (e.heap.cell id).strong = 0 ∧ id ∉ Task.closingsAll e.tasks

variable {past : List (Deed × Execution)} {e e' : Execution} {d : Deed} {b : BudgetId}
  {id : NodeId}

theorem builtThrough_cons (past : List (Deed × Execution)) (d : Deed) (e : Execution)
    (b : BudgetId) : builtThrough ((d, e) :: past) b =
      (d.builtThrough? b).toList ++ builtThrough past b := by
  rw [builtThrough, List.filterMap_cons]
  cases d.builtThrough? b <;> rfl

namespace Booked

/-- A node built through a budget has its lease until it is gone. -/
theorem lease_iff_standing (hb : Booked past e b) (hs : e.Sound)
    (hm : id ∈ builtThrough past b) : (e.heap.cell id).lease = some b ↔ e.Standing id := by
  constructor
  · intro hl
    by_cases hz : (e.heap.cell id).strong = 0
    · exact .inr (hs.closing.pending id hz (by rw [hl]; exact Option.some_ne_none b))
    · exact .inl (Heap.isAlive_iff.2 hz)
  · intro hst
    apply (hb.ended id hm).resolve_right
    intro hn
    rcases hst with ha | hc
    · exact Heap.isAlive_iff.1 ha hn.1
    · exact hn.2 hc

/-- The leases of a budget are those of the nodes built through it that are not gone. -/
theorem leased_eq (hb : Booked past e b) (hs : e.Sound) :
    e.heap.leased b = (builtThrough past b).countP e.Standing := by
  have hnum : Function.Injective NodeId.number := by
    rintro ⟨_⟩ ⟨_⟩ rfl
    rfl
  have hset : (Finset.range e.heap.cells.size).filter
      (fun n => (e.heap.cell ⟨n⟩).lease = some b) =
        (((builtThrough past b).filter e.Standing).map NodeId.number).toFinset := by
    ext n
    simp only [Finset.mem_filter, Finset.mem_range, List.mem_toFinset, List.mem_map,
      List.mem_filter, decide_eq_true_eq]
    constructor
    · rintro ⟨-, hl⟩
      have hm := hb.lent ⟨n⟩ hl
      exact ⟨⟨n⟩, ⟨hm, (hb.lease_iff_standing hs hm).1 hl⟩, rfl⟩
    · rintro ⟨id, ⟨hm, hst⟩, rfl⟩
      exact ⟨hb.known id hm, (hb.lease_iff_standing hs hm).2 hst⟩
  rw [Heap.leased, ← Finset.card_filter, hset, List.toFinset_card_of_nodup, List.length_map,
    List.countP_eq_length_filter]
  exact (hb.once.filter _).map hnum

/-! ## Steps -/

variable {h h' : Heap} {xs xs' : List Holding} {rd rd' : List NodeId} {t : Task}
  {ts ts' : List Task}

theorem work (hb : Booked past ⟨h, xs, rd, t :: ts⟩ b) (hs : Sound ⟨h, xs, rd, t :: ts⟩) :
    Booked ((.other, e) :: past) ⟨(h.perform t).2, xs, rd, (h.perform t).1 ++ ts⟩ b := by
  have hheap := hs.first
  have hclose : h.Closing (t.closings ++ Task.closingsAll ts) := hs.closing
  have hpast : builtThrough ((.other, e) :: past) b = builtThrough past b :=
    builtThrough_cons past .other e b
  refine ⟨?_, ?_, ?_, ?_⟩
  · rw [hpast]
    exact hb.once
  · intro id hm
    rw [hpast] at hm
    exact (hb.known id hm).trans_eq (h.size_perform t).1.symm
  · intro id hl
    rw [hpast]
    apply hb.lent id
    rcases hclose.lease_perform hheap id with ⟨he, -⟩ | ⟨hn, -, -⟩
    · exact he.symm.trans hl
    · exact absurd (hn.symm.trans hl) (Option.some_ne_none b).symm
  · intro id hm
    rw [hpast] at hm
    rw [Task.closingsAll_append]
    rcases hclose.lease_perform hheap id with ⟨he, hmem⟩ | ⟨-, hz, hn⟩
    · rcases hb.ended id hm with hl | ⟨hz, hn⟩
      · exact .inl (he.trans hl)
      · exact .inr ⟨hheap.strong_perform_eq_zero hz, fun hh => (hmem hh).elim hn fun ha => ha hz⟩
    · exact .inr ⟨hheap.strong_perform_eq_zero hz, hn⟩

/-- A step of the caller that leaves leases alone and revives nothing. -/
theorem keep (hb : Booked past ⟨h, xs, rd, []⟩ b) (hd : d.builtThrough? b = none)
    (hz : h'.cells.size = h.cells.size) (hl : ∀ id, (h'.cell id).lease = (h.cell id).lease)
    (ha : ∀ id, (h'.cell id).strong ≠ 0 → (h.cell id).strong ≠ 0)
    (hc : Task.closingsAll ts' = []) : Booked ((d, e) :: past) ⟨h', xs', rd', ts'⟩ b := by
  have hpast : builtThrough ((d, e) :: past) b = builtThrough past b := by
    rw [builtThrough_cons, hd]
    rfl
  refine ⟨?_, ?_, ?_, ?_⟩
  · rw [hpast]
    exact hb.once
  · intro id hm
    rw [hpast] at hm
    exact (hb.known id hm).trans_eq hz.symm
  · intro id hi
    rw [hpast]
    exact hb.lent id ((hl id).symm.trans hi)
  · intro id hm
    rw [hpast] at hm
    refine (hb.ended id hm).imp (hl id).trans fun hn => ⟨?_, ?_⟩
    · by_contra hz
      exact ha id hz hn.1
    · rw [hc]
      exact List.not_mem_nil

theorem build {v : Value} {model : Model} {through : Option BudgetId}
    (hb : Booked past ⟨h, xs, rd, []⟩ b) (hc : ∀ id, h'.cell id = h.cell id)
    (hn : h'.cells.size = h.cells.size) :
    Booked ((.built h.nextNode v through, e) :: past)
      ⟨h'.build model v through, xs', rd, []⟩ b := by
  have hnext : h'.nextNode = h.nextNode := congrArg NodeId.mk hn
  have hsize : (h'.build model v through).cells.size = h.cells.size + 1 :=
    (Array.size_push ..).trans (congrArg (· + 1) hn)
  have hcell (id : NodeId) : (h'.build model v through).cell id =
      if id = h.nextNode then ⟨model, 1, 0, 0, v, through⟩ else h.cell id := by
    rw [Heap.cell_build, hnext, hc]
  have hold (id : NodeId) (hm : id ∈ builtThrough past b) : id ≠ h.nextNode := by
    rintro rfl
    exact Nat.lt_irrefl _ (hb.known _ hm)
  have hpast (id : NodeId) : id ∈ builtThrough ((.built h.nextNode v through, e) :: past) b ↔
      id = h.nextNode ∧ through = some b ∨ id ∈ builtThrough past b := by
    rw [builtThrough_cons, List.mem_append, Deed.builtThrough?]
    split <;> simp_all
  refine ⟨?_, ?_, ?_, ?_⟩
  · rw [builtThrough_cons, Deed.builtThrough?]
    split
    · exact List.nodup_cons.2 ⟨fun hm => hold _ hm rfl, hb.once⟩
    · exact hb.once
  · intro id hm
    show id.number < (h'.build model v through).cells.size
    rw [hsize]
    rcases (hpast id).1 hm with ⟨rfl, -⟩ | hm
    · exact Nat.lt_succ_self _
    · exact Nat.lt_succ_of_lt (hb.known id hm)
  · intro id hl
    rw [hcell] at hl
    rw [hpast]
    split at hl
    · next he => exact .inl ⟨he, hl⟩
    · exact .inr (hb.lent id hl)
  · intro id hm
    rw [hcell]
    rcases (hpast id).1 hm with ⟨rfl, ht⟩ | hm
    · rw [if_pos rfl]
      exact .inl ht
    · rw [if_neg (hold id hm)]
      exact hb.ended id hm

end Booked

theorem Step.booked (hb : Booked past e b) (hs : e.Sound) (hd : Step e d e') :
    Booked ((d, e) :: past) e' b := by
  cases hd with
  | work => exact hb.work hs
  | deal hd =>
    have hr := hd.recounts hs.heap
    exact hb.keep rfl hr.size hr.lease (fun id ha hz => ha ((hr.dead id).2 hz)) rfl
  | dropHandle => exact hb.keep rfl rfl (fun _ => rfl) (fun _ ha => ha) rfl
  | dropValue => exact hb.keep rfl rfl (fun _ => rfl) (fun _ ha => ha) rfl
  | write hv hw =>
    obtain ⟨-, rfl, rfl⟩ := Heap.replace?_eq_some hw
    have hh := Heap.sameBooks_setPayload
    refine hb.keep rfl (hh _ _ _).size (hh _ _ _).lease ?_ rfl
    intro id ha
    rwa [Heap.strong_setPayload] at ha
  | @build h h' xs rd id v model through hb' hc =>
    cases through with
    | none =>
      cases hc
      exact hb.build (fun _ => rfl) rfl
    | some c =>
      obtain ⟨hid, hr, hh⟩ := Heap.construct_eq_ok hc
      subst hid hh
      have hcell (id : NodeId) : (h.lend c).cell id = h.cell id := rfl
      exact hb.build hcell rfl
  | refuse => exact hb.keep rfl rfl (fun _ => rfl) (fun _ ha => ha) rfl
  | openBudget => exact hb.keep rfl rfl (fun _ => rfl) (fun _ ha => ha) rfl
  | enter =>
    refine hb.keep rfl (Heap.size_modifyCell _)
      (fun _ => Heap.cell_modifyCell_keeps (·.lease) fun _ => rfl) ?_ rfl
    intro id ha
    rwa [(Heap.sameStore_enter _ _).strong] at ha
  | leave =>
    refine hb.keep rfl (Heap.size_modifyCell _)
      (fun _ => Heap.cell_modifyCell_keeps (·.lease) fun _ => rfl) ?_ rfl
    intro id ha
    rwa [(Heap.sameStore_leave _ _).strong] at ha

theorem Run.booked (hr : Run past e) (b : BudgetId) : Booked past e b := by
  induction hr with
  | start =>
    refine ⟨.nil, fun _ hm => (List.not_mem_nil hm).elim, ?_,
      fun _ hm => (List.not_mem_nil hm).elim⟩
    intro id hl
    rw [empty, Heap.cell_empty] at hl
    cases hl
  | step hr hd ih => exact hd.booked ih hr.sound

/-! ## The peak -/

/-- No step but a construction raises a live count, and that one raises the peak with it. -/
theorem Step.peak (hs : e.Sound) (hd : Step e d e') (b : BudgetId) :
    (e'.heap.budget b).peak = max (e'.heap.budget b).live (e.heap.budget b).peak := by
  have hkeep (hp : (e'.heap.budget b).peak = (e.heap.budget b).peak) :
      (e'.heap.budget b).peak = max (e'.heap.budget b).live (e.heap.budget b).peak := by
    rw [← hp]
    exact (Nat.max_eq_right ((hd.sound hs).solvent.crest b)).symm
  cases hd with
  | work => exact hkeep (hs.solvent.peak_perform _ b)
  | deal hd => exact hkeep (by simp only [Heap.budget, (hd.recounts hs.heap).budgets])
  | dropHandle => exact hkeep rfl
  | dropValue => exact hkeep rfl
  | write hv hw =>
    obtain ⟨-, rfl, rfl⟩ := Heap.replace?_eq_some hw
    exact hkeep rfl
  | @build h h' xs rd id v model through hb hc =>
    cases through with
    | none =>
      cases hc
      exact hkeep rfl
    | some c =>
      obtain ⟨hid, hr, hh⟩ := Heap.construct_eq_ok hc
      subst hid hh
      have hbud : ((h.lend c).build model v (some c)).budget b = (h.lend c).budget b := rfl
      by_cases he : c = b
      · subst he
        rw [hbud, Heap.budget_lend (hb c rfl), if_pos rfl]
        exact Nat.max_comm _ _
      · exact hkeep (by rw [hbud, Heap.budget_lend (hb c rfl), if_neg he])
  | refuse => exact hkeep rfl
  | @openBudget h xs rd label limit hl =>
    apply hkeep
    simp only [Heap.budget_openBudget]
    split
    · next he =>
      have hnew : h.budget h.nextBudget = default := Heap.budget_eq_default (Nat.lt_irrefl _)
      rw [he, hnew]
      rfl
    · rfl
  | enter => exact hkeep rfl
  | leave => exact hkeep rfl

theorem Run.peak (hr : Run past e) (b : BudgetId) :
    IsGreatest {n | ∃ m ∈ moments past e, (m.heap.budget b).live = n} (e.heap.budget b).peak := by
  induction hr with
  | start =>
    have hb : empty.heap.budget b = default := Heap.budget_eq_default (by simp [empty, Heap.empty])
    rw [hb]
    refine ⟨⟨empty, List.mem_cons_self, by rw [hb]; rfl⟩, ?_⟩
    rintro n ⟨m, hm, rfl⟩
    rw [List.mem_singleton.1 hm, hb]
    exact le_refl 0
  | @step past e e' d hr hd ih =>
    have hset : {n | ∃ m ∈ moments ((d, e) :: past) e', (m.heap.budget b).live = n} =
        insert (e'.heap.budget b).live
          {n | ∃ m ∈ moments past e, (m.heap.budget b).live = n} := by
      ext n
      simp [moments, eq_comm]
    rw [hset, hd.peak hr.sound]
    exact ih.insert _

theorem Run.sound_of_mem {m : Execution} (hr : Run past e) (hm : m ∈ moments past e) :
    m.Sound := by
  induction hr with
  | start =>
    rw [List.mem_singleton.1 hm]
    exact sound_empty
  | step hr hd ih =>
    rcases List.mem_cons.1 hm with rfl | hm
    · exact hd.sound hr.sound
    · exact ih hm

/-! ## Refusals -/

/-- A budget that refuses has as many live nodes as it may have. -/
theorem Sound.limit_of_reached (hs : e.Sound) {b : BudgetId} {limit : Nat}
    (hr : Heap.reachedLimit? (e.heap.budget b) = some limit) :
    (e.heap.budget b).limit = some limit ∧ limit = (e.heap.budget b).live := by
  obtain ⟨hl, hle⟩ := Heap.reachedLimit?_eq_some.1 hr
  exact ⟨hl, le_antisymm hle (hs.solvent.live_le hl)⟩

theorem Sound.construct_error_iff (hs : e.Sound) (model : Model) (v : Value) (b : BudgetId) :
    (∃ r, (e.heap.construct model v (some b)).1 = .error r) ↔
      (e.heap.budget b).limit = some (e.heap.budget b).live := by
  rw [Heap.construct_through]
  cases hr : Heap.reachedLimit? (e.heap.budget b) with
  | none =>
    constructor
    · rintro ⟨r, he⟩
      cases he
    · exact fun hl => absurd (Heap.reachedLimit?_eq_none.1 hr _ hl) (Nat.lt_irrefl _)
  | some limit =>
    obtain ⟨hl, he⟩ := hs.limit_of_reached hr
    exact ⟨fun _ => by rw [hl, he], fun _ => ⟨_, rfl⟩⟩

/-- Where the arguments are good, a construction from them fails as one from their payload does. -/
theorem constructFrom_error_iff {h : Heap} {args : Arguments Value} {p : Option Value}
    (hp : args.payload? = .ok p) (model : Model) (through : Option BudgetId) :
    (∃ f, (h.constructFrom model args through).1 = .error f) ↔
      ∃ r, (h.construct model (p.getD .nil) through).1 = .error r := by
  simp only [Heap.constructFrom, hp, Heap.constructOrFault]
  rcases h.construct model (p.getD .nil) through with ⟨_ | id, h'⟩
  · exact ⟨fun _ => ⟨_, rfl⟩, fun _ => ⟨_, rfl⟩⟩
  · constructor <;>
    · rintro ⟨_, he⟩
      cases he

theorem standing_iff_of_idle (ht : e.tasks = []) : e.Standing id ↔ (e.heap.cell id).isAlive := by
  rw [Standing, ht]
  exact or_iff_left List.not_mem_nil

/-- Each part of the account of one budget over a whole run. The budget may be one whose name the
caller has already forgotten. -/
theorem Run.accounts (hr : Run past e) (b : BudgetId) :
    (e.heap.budget b).live = (builtThrough past b).countP e.Standing ∧
    (e.tasks = [] → (e.heap.budget b).live =
      (builtThrough past b).countP fun id => (e.heap.cell id).isAlive) ∧
    (∀ limit, (e.heap.budget b).limit = some limit →
      (e.heap.budget b).live ≤ limit ∧ (e.heap.budget b).peak ≤ limit) ∧
    IsGreatest {n | ∃ m ∈ moments past e, (m.heap.budget b).live = n} (e.heap.budget b).peak ∧
    (∀ m ∈ moments past e, ∀ id rest, m.tasks = .close id :: rest →
      (m.heap.cell id).lease = some b → (m.heap.budget b).live ≠ 0) ∧
    (∀ model v, (∃ r, (e.heap.construct model v (some b)).1 = .error r) ↔
      (e.heap.budget b).limit = some (e.heap.budget b).live) ∧
    (∀ model args p, Arguments.payload? args = .ok p →
      ((∃ f, (e.heap.constructFrom model args (some b)).1 = .error f) ↔
        (e.heap.budget b).limit = some (e.heap.budget b).live)) := by
  have hs := hr.sound
  have hlive : (e.heap.budget b).live = (builtThrough past b).countP e.Standing :=
    (hs.solvent.lent b).trans ((hr.booked b).leased_eq hs)
  refine ⟨hlive, ?_, ?_, hr.peak b, ?_, ?_, ?_⟩
  · intro ht
    rw [hlive]
    exact List.countP_congr fun id _ => by simp [standing_iff_of_idle ht]
  · intro limit hl
    exact ⟨hs.solvent.live_le hl, hs.solvent.within b limit hl⟩
  · intro m hm id rest _ hl
    exact (hr.sound_of_mem hm).solvent.live_ne_zero hl
  · exact fun model v => hs.construct_error_iff model v b
  · intro model args p hp
    rw [constructFrom_error_iff hp]
    exact hs.construct_error_iff model (p.getD .nil) b

/-- The only node of a budget of one is destroyed, and its lease is about to end: until then the
budget has no room. -/
theorem accounts_closing : ∃ past e, Run past e ∧ e.tasks = [.close ⟨1⟩] ∧
    (e.heap.cell ⟨1⟩).isAlive = false ∧ (e.heap.budget ⟨0⟩).live ≠ 0 ∧
    (e.heap.budget ⟨0⟩).live ≤ 1 ∧
    ∃ r, (e.heap.construct .shared .nil (some ⟨0⟩)).1 = .error r := by
  have hr := ((SelfLink.run_built.step .dropHandle).step .work).step .work
  obtain ⟨-, -, hlimit, -, hclose, hfull, -⟩ := Run.accounts hr ⟨0⟩
  refine ⟨_, _, hr, rfl, rfl, ?_, (hlimit 1 rfl).1, (hfull .shared .nil).2 rfl⟩
  exact hclose _ List.mem_cons_self ⟨1⟩ [] rfl rfl

end GraphStack.Execution
