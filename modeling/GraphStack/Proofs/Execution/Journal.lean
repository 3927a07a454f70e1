import GraphStack.Proofs.Execution.Accounts
import GraphStack.Proofs.Execution.Leads

/-!
# The journal of a run

A construction through a budget enters one event in the journal, so does a refusal, and so does the
end of a lease; nothing else does. The events of one budget, read from zero on, each say what its
live count was at that moment. Where labels tell budgets apart, the events of a budget are those
that carry its label.
-/

namespace GraphStack

namespace Event

def label : Event → String
  | allocated label _ _ => label
  | released label _ => label
  | exhausted label _ _ => label

def isAllocated : Event → Bool
  | allocated .. => true
  | _ => false

def isReleased : Event → Bool
  | released .. => true
  | _ => false

def isExhausted : Event → Bool
  | exhausted .. => true
  | _ => false

/-- The live count of a budget with this limit after an event, if the event fits the count
before it. -/
def follow? (limit : Option Nat) (live : Nat) : Event → Option Nat
  | allocated _ now stated => if now = live + 1 ∧ stated = limit then some now else none
  | released _ now => if now + 1 = live then some now else none
  | exhausted _ now full => if now = live ∧ full = live ∧ limit = some live then some live else none

/-- The live count that events lead to from zero, if each of them fits. -/
def replay? (limit : Option Nat) (events : List Event) : Option Nat :=
  events.foldlM (follow? limit) 0

variable {limit : Option Nat} {events : List Event} {n : Nat}

/-- What is released was allocated, and what is left of it is the count. -/
theorem replay?_balance (hr : replay? limit events = some n) :
    n + events.countP isReleased = events.countP isAllocated := by
  induction events using List.reverseRecOn generalizing n with
  | nil =>
    cases hr
    rfl
  | append_singleton events x ih =>
    rw [replay?, List.foldlM_append] at hr
    obtain ⟨m, hm, hx⟩ := Option.bind_eq_some_iff.1 hr
    have ih := ih hm
    have hx : x.follow? limit m = some n := by simpa using hx
    rw [List.countP_append, List.countP_append]
    cases x with
    | allocated label now stated =>
      simp only [follow?, Option.ite_none_right_eq_some, Option.some.injEq] at hx
      simp only [List.countP_singleton, isReleased, isAllocated]
      obtain ⟨⟨rfl, -⟩, rfl⟩ := hx
      simp only [Bool.false_eq_true, if_false, if_true]
      omega
    | released label now =>
      simp only [follow?, Option.ite_none_right_eq_some, Option.some.injEq] at hx
      simp only [List.countP_singleton, isReleased, isAllocated]
      obtain ⟨rfl, rfl⟩ := hx
      simp only [Bool.false_eq_true, if_false, if_true]
      omega
    | exhausted label now full =>
      simp only [follow?, Option.ite_none_right_eq_some, Option.some.injEq] at hx
      simp only [List.countP_singleton, isReleased, isAllocated]
      obtain ⟨-, rfl⟩ := hx
      simpa using ih

end Event

namespace Heap

def eventsOf (h : Heap) (label : String) : List Event :=
  h.journal.toList.filter fun x => x.label = label

/-- Labels tell budgets apart. -/
def LabelsDiffer (h : Heap) : Prop :=
  ∀ b c : BudgetId, b.index < h.budgets.size → c.index < h.budgets.size →
    (h.budget b).label = (h.budget c).label → b = c

variable {h h' : Heap} {b : BudgetId} {id : NodeId}

theorem labelsDiffer_of_single (hb : h.budgets.size = 1) : h.LabelsDiffer := by
  rintro ⟨i⟩ ⟨j⟩ hi hj -
  rw [hb] at hi hj
  exact congrArg BudgetId.mk (Nat.lt_one_iff.1 hi |>.trans (Nat.lt_one_iff.1 hj).symm)

theorem journal_endLease (h : Heap) (id : NodeId) :
    (h.endLease id).journal.toList = h.journal.toList ++
      ((h.cell id).lease.map fun b =>
        .released (h.budget b).label ((h.budget b).live - 1)).toList := by
  unfold endLease
  cases hl : (h.cell id).lease with
  | none => simp
  | some b => exact Array.toList_push ..

theorem journal_perform {t : Task} (ht : t.closings = []) :
    (h.perform t).2.journal = h.journal := by
  have he := h.effect_perform t
  generalize (h.perform t).2 = h' at he ⊢
  cases he with
  | endLease => cases ht
  | _ => rfl

end Heap

namespace Execution

open Heap

/-- What a step enters in the journal, and for which budget. -/
def entered? (d : Deed) (e : Execution) : Option (BudgetId × Event) :=
  match d, e.tasks with
  | .built _ _ (some b), _ =>
    let c := e.heap.budget b
    some (b, .allocated c.label (c.live + 1) c.limit)
  | .refused b, _ =>
    let c := e.heap.budget b
    some (b, .exhausted c.label c.live c.live)
  | .other, .close id :: _ =>
    (e.heap.cell id).lease.map fun b =>
      let c := e.heap.budget b
      (b, .released c.label (c.live - 1))
  | _, _ => none

/-- The event that a step enters for one budget, if it does. -/
def eventsIn (d : Deed) (e : Execution) (b : BudgetId) : List Event :=
  ((entered? d e).toList.filter fun x => x.1 = b).map (·.2)

def entries (past : List (Deed × Execution)) : List (BudgetId × Event) :=
  past.reverse.filterMap fun p => entered? p.1 p.2

def eventsFor (past : List (Deed × Execution)) (b : BudgetId) : List Event :=
  ((entries past).filter fun x => x.1 = b).map (·.2)

def Deed.isRefusalBy (b : BudgetId) : Deed → Bool
  | .refused c => c = b
  | _ => false

variable {past : List (Deed × Execution)} {e e' : Execution} {d : Deed} {b : BudgetId}
  {x : BudgetId × Event}

theorem entries_cons (past : List (Deed × Execution)) (d : Deed) (e : Execution) :
    entries ((d, e) :: past) = entries past ++ (entered? d e).toList := by
  rw [entries, List.reverse_cons, List.filterMap_append]
  cases hx : entered? d e <;> simp [entries, hx]

theorem eventsFor_cons (past : List (Deed × Execution)) (d : Deed) (e : Execution)
    (b : BudgetId) : eventsFor ((d, e) :: past) b = eventsFor past b ++ eventsIn d e b := by
  rw [eventsFor, entries_cons, List.filter_append, List.map_append]
  rfl

theorem eventsIn_of_none (hx : entered? d e = none) (b : BudgetId) : eventsIn d e b = [] := by
  rw [eventsIn, hx]
  rfl

theorem eventsIn_of_some (hx : entered? d e = some x) (b : BudgetId) :
    eventsIn d e b = if x.1 = b then [x.2] else [] := by
  rw [eventsIn, hx, Option.toList_some, List.filter_singleton]
  by_cases hb : x.1 = b <;> simp [hb]

/-! ## One step -/

theorem Step.journal (hs : e.Sound) (hd : Step e d e') :
    e'.heap.journal.toList = e.heap.journal.toList ++ (entered? d e).toList.map (·.2) := by
  cases hd with
  | @work h xs rd t ts =>
    by_cases ht : t.closings = []
    · have hx : entered? .other ⟨h, xs, rd, t :: ts⟩ = none := by
        cases t with
        | close id => cases ht
        | _ => rfl
      rw [hx]
      exact (congrArg Array.toList (journal_perform ht)).trans (List.append_nil _).symm
    · cases t with
      | close id =>
        refine (journal_endLease h id).trans (congrArg (h.journal.toList ++ ·) ?_)
        simp only [entered?]
        cases (h.cell id).lease <;> rfl
      | _ => exact absurd rfl ht
  | deal hd => exact (congrArg Array.toList hd.records.journal).trans (List.append_nil _).symm
  | write hv hw =>
    obtain ⟨-, -, rfl⟩ := replace?_eq_some hw
    exact (List.append_nil _).symm
  | @build h h' xs rd id v model through hb hc =>
    cases through with
    | none =>
      cases hc
      exact (List.append_nil _).symm
    | some c =>
      obtain ⟨-, -, rfl⟩ := construct_eq_ok hc
      exact Array.toList_push ..
  | refuse hr =>
    obtain ⟨-, rfl⟩ := hs.limit_of_reached hr
    exact Array.toList_push ..
  | _ => exact (List.append_nil _).symm

/-- The budget of an entry follows it, and the other budgets stay as they are. -/
structure Enters (x : BudgetId × Event) (h h' : Heap) : Prop where
  opened : x.1.index < h.budgets.size
  label : x.2.label = (h.budget x.1).label
  others : ∀ c, c ≠ x.1 → h'.budget c = h.budget c
  terms : (h'.budget x.1).label = (h.budget x.1).label ∧
    (h'.budget x.1).limit = (h.budget x.1).limit
  follows : x.2.follow? (h.budget x.1).limit (h.budget x.1).live = some (h'.budget x.1).live

theorem enters_lend {h : Heap} (hb : b.index < h.budgets.size) :
    Enters (b, .allocated (h.budget b).label ((h.budget b).live + 1) (h.budget b).limit) h
      (h.lend b) := by
  have hself : (h.lend b).budget b = { h.budget b with
      live := (h.budget b).live + 1
      peak := max (h.budget b).peak ((h.budget b).live + 1) } := by
    rw [budget_lend hb, if_pos rfl]
  refine ⟨hb, rfl, ?_, ⟨?_, ?_⟩, ?_⟩
  · intro c hne
    rw [budget_lend hb, if_neg (Ne.symm hne)]
  · rw [hself]
  · rw [hself]
  · rw [hself]
    exact if_pos ⟨rfl, rfl⟩

theorem enters_endLease {h : Heap} {id : NodeId} (hs : h.Solvent)
    (hl : (h.cell id).lease = some b) :
    Enters (b, .released (h.budget b).label ((h.budget b).live - 1)) h (h.endLease id) := by
  have hz := hs.live_ne_zero hl
  have hself := hs.budget_endLease id b
  rw [hl, if_pos rfl] at hself
  refine ⟨opened_of_live hz, rfl, ?_, ⟨?_, ?_⟩, ?_⟩
  · intro c hne
    rw [hs.budget_endLease, hl, if_neg fun he => hne (Option.some.inj he).symm]
    rfl
  · rw [hself]
  · rw [hself]
  · rw [hself]
    exact if_pos (Nat.sub_add_cancel (Nat.one_le_iff_ne_zero.2 hz))

/-- A step without an entry leaves the budgets alone or opens one more. -/
theorem Step.books (hs : e.Sound) (hd : Step e d e') :
    (∃ x, entered? d e = some x ∧ Enters x e.heap e'.heap) ∨
      entered? d e = none ∧ (e'.heap.budgets = e.heap.budgets ∨
        ∃ label limit, e'.heap = e.heap.openBudget label limit) := by
  cases hd with
  | @work h xs rd t ts =>
    by_cases ht : t.closings = []
    · refine .inr ⟨?_, .inl (sameBooks_perform ht).budgets⟩
      cases t with
      | close id => cases ht
      | _ => rfl
    · cases t with
      | close id =>
        cases hl : (h.cell id).lease with
        | none =>
          refine .inr ⟨by simp only [entered?, hl, Option.map_none], .inl ?_⟩
          simp only [Heap.perform, endLease, hl]
        | some b =>
          refine .inl ⟨_, ?_, enters_endLease hs.solvent hl⟩
          simp only [entered?, hl, Option.map_some]
      | _ => exact absurd rfl ht
  | deal hd => exact .inr ⟨rfl, .inl (hd.recounts hs.heap).budgets⟩
  | write hv hw =>
    obtain ⟨-, -, rfl⟩ := replace?_eq_some hw
    exact .inr ⟨rfl, .inl rfl⟩
  | @build h h' xs rd id v model through hb hc =>
    cases through with
    | none =>
      cases hc
      exact .inr ⟨rfl, .inl rfl⟩
    | some c =>
      obtain ⟨-, -, rfl⟩ := construct_eq_ok hc
      obtain ⟨hopen, hlabel, hothers, hterms, hfollow⟩ := enters_lend (hb c rfl)
      exact .inl ⟨_, rfl, hopen, hlabel, hothers, hterms, hfollow⟩
  | @refuse h xs rd v c limit hr =>
    obtain ⟨hl, rfl⟩ := hs.limit_of_reached hr
    have hopen : c.index < h.budgets.size := by
      by_contra hb
      rw [budget_eq_default hb] at hr
      cases hr
    exact .inl ⟨_, rfl, hopen, rfl, fun _ _ => rfl, ⟨rfl, rfl⟩, if_pos ⟨rfl, rfl, hl⟩⟩
  | openBudget => exact .inr ⟨rfl, .inr ⟨_, _, rfl⟩⟩
  | _ => exact .inr ⟨rfl, .inl rfl⟩

/-- A budget keeps its label and its limit. -/
theorem Step.terms (hs : e.Sound) (hd : Step e d e') (hb : b.index < e.heap.budgets.size) :
    (e'.heap.budget b).label = (e.heap.budget b).label ∧
      (e'.heap.budget b).limit = (e.heap.budget b).limit := by
  rcases hd.books hs with ⟨x, -, hx⟩ | ⟨-, hsame | ⟨label, limit, hopen⟩⟩
  · by_cases he : b = x.1
    · rw [he]
      exact hx.terms
    · rw [hx.others b he]
      exact ⟨rfl, rfl⟩
  · simp only [budget, hsame, and_self]
  · have hne : b ≠ e.heap.nextBudget := by
      rintro rfl
      exact Nat.lt_irrefl _ hb
    rw [hopen, budget_openBudget, if_neg hne]
    exact ⟨rfl, rfl⟩

/-- An entry is for an open budget and carries its label. -/
theorem Step.entry_known (hs : e.Sound) (hd : Step e d e') (hx : entered? d e = some x) :
    x.1.index < e.heap.budgets.size ∧ x.2.label = (e.heap.budget x.1).label := by
  rcases hd.books hs with ⟨y, hy, hbooks⟩ | ⟨hn, -⟩
  · obtain rfl := Option.some.inj (hx.symm.trans hy)
    exact ⟨hbooks.opened, hbooks.label⟩
  · rw [hn] at hx
    cases hx

/-- The live count of a budget follows what a step enters for it. -/
theorem Step.follow (hs : e.Sound) (hd : Step e d e') (b : BudgetId) :
    (eventsIn d e b).foldlM (Event.follow? (e.heap.budget b).limit) (e.heap.budget b).live =
      some (e'.heap.budget b).live := by
  rcases hd.books hs with ⟨x, he, hx⟩ | ⟨he, hsame | ⟨label, limit, hopen⟩⟩
  · rw [eventsIn_of_some he]
    by_cases hb : x.1 = b
    · subst hb
      rw [if_pos rfl, List.foldlM_cons, hx.follows]
      rfl
    · rw [if_neg hb, hx.others b (Ne.symm hb)]
      rfl
  · rw [eventsIn_of_none he]
    simp only [budget, hsame]
    rfl
  · rw [eventsIn_of_none he, hopen, budget_openBudget]
    split
    · next hb =>
      have hnew : e.heap.budget e.heap.nextBudget = default := budget_eq_default (Nat.lt_irrefl _)
      rw [hb, hnew]
      rfl
    · rfl

/-! ## Runs -/

/-- The live counts that the first so many of some events lead to. -/
def heights (limit : Option Nat) (events : List Event) : Set Nat :=
  {n | ∃ read, read <+: events ∧ Event.replay? limit read = some n}

/-- What the journal says of the budgets. -/
structure Journaled (past : List (Deed × Execution)) (e : Execution) : Prop where
  journal : e.heap.journal.toList = (entries past).map (·.2)
  known : ∀ x ∈ entries past,
    x.1.index < e.heap.budgets.size ∧ x.2.label = (e.heap.budget x.1).label
  replays : ∀ b, Event.replay? (e.heap.budget b).limit (eventsFor past b) =
    some (e.heap.budget b).live
  crest : ∀ b, IsGreatest (heights (e.heap.budget b).limit (eventsFor past b))
    (e.heap.budget b).peak

theorem heights_nil (limit : Option Nat) : heights limit [] = {0} := by
  ext n
  simp only [heights, List.prefix_nil, exists_eq_left, Set.mem_ofPred_eq, Set.mem_singleton_iff]
  exact ⟨fun hn => (Option.some.inj hn).symm, fun hn => congrArg some hn.symm⟩

theorem heights_concat {limit : Option Nat} {events : List Event} {x : Event} {n : Nat}
    (hr : Event.replay? limit (events ++ [x]) = some n) :
    heights limit (events ++ [x]) = insert n (heights limit events) := by
  ext m
  simp only [heights, List.prefix_concat_iff, Set.mem_ofPred_eq, Set.mem_insert_iff, or_and_right,
    exists_or, exists_eq_left, hr, Option.some.injEq, eq_comm]

theorem eventsIn_cases (d : Deed) (e : Execution) (b : BudgetId) :
    eventsIn d e b = [] ∨ ∃ x, entered? d e = some (b, x) ∧ eventsIn d e b = [x] := by
  cases hx : entered? d e with
  | none => exact .inl (eventsIn_of_none hx b)
  | some x =>
    rw [eventsIn_of_some hx]
    by_cases hb : x.1 = b
    · subst hb
      exact .inr ⟨x.2, rfl, if_pos rfl⟩
    · exact .inl (if_neg hb)

namespace Journaled

theorem eventsFor_eq_nil (hj : Journaled past e) (hb : ¬ b.index < e.heap.budgets.size) :
    eventsFor past b = [] := by
  rw [eventsFor, List.map_eq_nil_iff, List.filter_eq_nil_iff]
  intro x hx he
  exact hb (of_decide_eq_true he ▸ (hj.known x hx).1)

theorem known_step (hj : Journaled past e) (hs : e.Sound) (hd : Step e d e') :
    ∀ x ∈ entries ((d, e) :: past),
      x.1.index < e'.heap.budgets.size ∧ x.2.label = (e'.heap.budget x.1).label := by
  intro x hx
  rw [entries_cons, List.mem_append, Option.mem_toList] at hx
  obtain ⟨hopen, hlabel⟩ := hx.elim (hj.known x) (hd.entry_known hs)
  exact ⟨hopen.trans_le hd.budgets_le, hlabel.trans (hd.terms hs hopen).1.symm⟩

/-- A budget that was not open before a step has no events after it, and no live nodes. -/
theorem fresh_step (hj : Journaled past e) (hs : e.Sound) (hd : Step e d e')
    (hb : ¬ b.index < e.heap.budgets.size) :
    eventsFor ((d, e) :: past) b = [] ∧ (e'.heap.budget b).live = 0 ∧
      (e'.heap.budget b).peak = 0 := by
  have hdefault := budget_eq_default hb
  have hnone : eventsIn d e b = [] := by
    rcases eventsIn_cases d e b with hn | ⟨x, hx, -⟩
    · exact hn
    · exact absurd (hd.entry_known hs hx).1 hb
  have hlive : (e'.heap.budget b).live = 0 := by
    have hfollow := hd.follow hs b
    rw [hnone, hdefault] at hfollow
    exact (Option.some.inj hfollow).symm
  refine ⟨?_, hlive, ?_⟩
  · rw [eventsFor_cons, hj.eventsFor_eq_nil hb, hnone]
    rfl
  · rw [hd.peak hs b, hlive, hdefault]
    rfl

theorem replays_step (hj : Journaled past e) (hs : e.Sound) (hd : Step e d e') (b : BudgetId) :
    Event.replay? (e'.heap.budget b).limit (eventsFor ((d, e) :: past) b) =
      some (e'.heap.budget b).live := by
  by_cases hb : b.index < e.heap.budgets.size
  · rw [(hd.terms hs hb).2, eventsFor_cons, Event.replay?, List.foldlM_append]
    exact (congrArg (· >>= _) (hj.replays b)).trans (hd.follow hs b)
  · obtain ⟨hevents, hlive, -⟩ := hj.fresh_step hs hd hb
    rw [hevents, hlive]
    rfl

theorem crest_step (hj : Journaled past e) (hs : e.Sound) (hd : Step e d e') (b : BudgetId) :
    IsGreatest (heights (e'.heap.budget b).limit (eventsFor ((d, e) :: past) b))
      (e'.heap.budget b).peak := by
  by_cases hb : b.index < e.heap.budgets.size
  · have hreplay := hj.replays_step hs hd b
    rw [(hd.terms hs hb).2, eventsFor_cons] at hreplay ⊢
    rw [hd.peak hs b]
    rcases eventsIn_cases d e b with hn | ⟨x, -, hx⟩
    · rw [hn, List.append_nil] at hreplay ⊢
      have hlive : (e'.heap.budget b).live = (e.heap.budget b).live :=
        Option.some.inj (hreplay.symm.trans (hj.replays b))
      rw [hlive, Nat.max_eq_right (hs.solvent.crest b)]
      exact hj.crest b
    · -- The event leads to the new live count, which is the only new height.
      rw [hx] at hreplay ⊢
      rw [heights_concat hreplay]
      exact (hj.crest b).insert _
  · obtain ⟨hevents, -, hpeak⟩ := hj.fresh_step hs hd hb
    rw [hevents, heights_nil, hpeak]
    exact isGreatest_singleton

theorem step (hj : Journaled past e) (hs : e.Sound) (hd : Step e d e') :
    Journaled ((d, e) :: past) e' where
  journal := by rw [hd.journal hs, hj.journal, entries_cons, List.map_append]
  known := hj.known_step hs hd
  replays := hj.replays_step hs hd
  crest := hj.crest_step hs hd

/-- Where labels tell budgets apart, the events of a budget are those that carry its label. -/
theorem eventsOf_label (hj : Journaled past e) (hd : e.heap.LabelsDiffer)
    (hb : b.index < e.heap.budgets.size) :
    e.heap.eventsOf (e.heap.budget b).label = eventsFor past b := by
  rw [eventsOf, hj.journal, List.filter_map, eventsFor]
  refine congrArg (List.map _) (List.filter_congr fun x hx => ?_)
  obtain ⟨hopen, hlabel⟩ := hj.known x hx
  simp only [Function.comp_apply, hlabel, decide_eq_decide]
  exact ⟨fun he => hd x.1 b hopen hb he, fun he => by rw [he]⟩

end Journaled

theorem Run.journaled (hr : Run past e) : Journaled past e := by
  induction hr with
  | start =>
    have hdefault (b : BudgetId) : empty.heap.budget b = default :=
      budget_eq_default (by simp [empty, Heap.empty])
    refine ⟨rfl, fun _ hx => (List.not_mem_nil hx).elim, ?_, ?_⟩
    · intro b
      rw [hdefault]
      rfl
    · intro b
      rw [hdefault]
      exact heights_nil none ▸ isGreatest_singleton
  | step hr hd ih => exact ih.step hr.sound hd

/-! ## What was logged how often -/

/-- A step that builds nothing and refuses nothing can only end a lease. -/
theorem isReleased_of_other (hx : entered? .other e = some x) : x.2.isReleased := by
  obtain ⟨h, xs, rd, ts⟩ := e
  match ts with
  | .close id :: ts =>
    obtain ⟨c, -, rfl⟩ := Option.map_eq_some_iff.1 hx
    rfl

theorem countP_eventsIn (d : Deed) (e : Execution) (b : BudgetId) :
    (eventsIn d e b).countP Event.isAllocated = (d.builtThrough? b).toList.length ∧
      (eventsIn d e b).countP Event.isExhausted = (d.isRefusalBy b).toNat := by
  cases d with
  | built id v through =>
    cases through with
    | none => exact ⟨rfl, rfl⟩
    | some c =>
      rw [eventsIn_of_some rfl, Deed.builtThrough?]
      by_cases hb : c = b
      · rw [if_pos hb, if_pos (congrArg some hb)]
        exact ⟨rfl, rfl⟩
      · rw [if_neg hb, if_neg fun he => hb (Option.some.inj he)]
        exact ⟨rfl, rfl⟩
  | wrote => exact ⟨rfl, rfl⟩
  | refused c =>
    rw [eventsIn_of_some rfl, Deed.isRefusalBy]
    by_cases hb : c = b
    · rw [if_pos hb, decide_eq_true hb]
      exact ⟨rfl, rfl⟩
    · rw [if_neg hb, decide_eq_false hb]
      exact ⟨rfl, rfl⟩
  | other =>
    rcases eventsIn_cases .other e b with hn | ⟨x, hx, hone⟩
    · rw [hn]
      exact ⟨rfl, rfl⟩
    · have hreleased : x.isReleased := isReleased_of_other hx
      rw [hone]
      cases x with
      | released => exact ⟨rfl, rfl⟩
      | _ => cases hreleased

/-- Each construction through a budget is allocated once, each refusal is one. -/
theorem countP_eventsFor (past : List (Deed × Execution)) (b : BudgetId) :
    (eventsFor past b).countP Event.isAllocated = (builtThrough past b).length ∧
      (eventsFor past b).countP Event.isExhausted = past.countP fun p => p.1.isRefusalBy b := by
  induction past with
  | nil => exact ⟨rfl, rfl⟩
  | cons p past ih =>
    obtain ⟨d, e⟩ := p
    obtain ⟨hallocated, hexhausted⟩ := countP_eventsIn d e b
    constructor
    · rw [eventsFor_cons, builtThrough_cons, List.countP_append, List.length_append, ih.1,
        hallocated, Nat.add_comm]
    · rw [eventsFor_cons, List.countP_append, ih.2, hexhausted, List.countP_cons]
      cases d.isRefusalBy b <;> rfl

/-- What has been released is what was built and is gone. -/
theorem Run.countP_isReleased (hr : Run past e) (b : BudgetId) :
    (eventsFor past b).countP Event.isReleased =
      (builtThrough past b).countP fun id => ¬ e.Standing id := by
  -- The live count is what was allocated less what was released, and it is also the number of
  -- nodes that were built through the budget and still stand.
  have hbalance := Event.replay?_balance (hr.journaled.replays b)
  have hlive := (hr.accounts b).1
  have hsplit : (builtThrough past b).length = _ + _ :=
    List.length_eq_countP_add_countP fun id => decide (e.Standing id)
  rw [(countP_eventsFor past b).1, hlive] at hbalance
  simp only [decide_eq_true_eq] at hsplit
  omega

/-- The events that carry the label of a budget replay its live count from zero, and their highest
count is the peak. Each construction through the budget is one event of them, each end of a lease
one, and each refusal one; every step logs its entry and nothing else. -/
theorem Run.journal_replays (hr : Run past e) (hd : e.heap.LabelsDiffer)
    (hb : b.index < e.heap.budgets.size) :
    let account := e.heap.budget b
    let events := e.heap.eventsOf account.label
    Event.replay? account.limit events = some account.live ∧
    IsGreatest {n | ∃ read, read <+: events ∧ Event.replay? account.limit read = some n}
      account.peak ∧
    events.countP Event.isAllocated = (builtThrough past b).length ∧
    events.countP Event.isReleased = (builtThrough past b).countP (fun id => ¬ e.Standing id) ∧
    (e.tasks = [] → events.countP Event.isReleased =
      (builtThrough past b).countP fun id => ¬ (e.heap.cell id).isAlive) ∧
    events.countP Event.isExhausted = past.countP (fun p => p.1.isRefusalBy b) ∧
    (∀ d e', Step e d e' →
      e'.heap.journal.toList = e.heap.journal.toList ++ (entered? d e).toList.map (·.2)) := by
  intro account events
  have hj := hr.journaled
  have hevents : events = eventsFor past b := hj.eventsOf_label hd hb
  rw [hevents]
  refine ⟨hj.replays b, hj.crest b, (countP_eventsFor past b).1, hr.countP_isReleased b, ?_,
    (countP_eventsFor past b).2, fun d e' hd => hd.journal hr.sound⟩
  intro ht
  rw [hr.countP_isReleased]
  exact List.countP_congr fun id _ => by simp [standing_iff_of_idle ht]

/-- A budget of one is taken up, refuses, and is free again. -/
theorem journal_replays_refused : ∃ past e, Run past e ∧ e.heap.LabelsDiffer ∧
    (⟨0⟩ : BudgetId).index < e.heap.budgets.size ∧
    e.heap.eventsOf "frames" =
      [.allocated "frames" 1 (some 1), .exhausted "frames" 1 1, .released "frames" 0] ∧
    Event.replay? (some 1) (e.heap.eventsOf "frames") = some 0 ∧
    (e.heap.eventsOf "frames").countP Event.isReleased = 1 := by
  have hr := (((((SelfLink.run_built.step (.deal (.scalar (v := .nil) rfl))).step
    (.refuse (b := ⟨0⟩) rfl)).step .work).step .dropHandle).step .work).step .work |>.step .work
  obtain ⟨hreplay, -, -, hreleased, -⟩ :=
    Run.journal_replays hr (labelsDiffer_of_single rfl) Nat.one_pos
  exact ⟨_, _, hr, labelsDiffer_of_single rfl, Nat.one_pos, rfl, hreplay, hreleased⟩

end Execution
end GraphStack
