import GraphStack.Pool.Basic
import GraphStack.Proofs.Execution.Journal
import GraphStack.Proofs.Execution.Refusals

/-!
# Constructions from the arguments of a call

Whether a node is for one thread or for many, goes through a budget or not, and whatever the type of
its payload is, a construction accepts the same calls. The shape of a call is looked at before the
budget: a call of a bad shape is told so even where the budget is exhausted, and all that happens
then is that its arguments are let go of.
-/

namespace GraphStack

open Arguments (Gives Rejects)

namespace Heap

def HasRoom (h : Heap) (through : Option BudgetId) : Prop :=
  ∀ b ∈ through, reachedLimit? (h.budget b) = none

variable {h : Heap} {model : Model} {through : Option BudgetId} {b : BudgetId} {limit : Nat}
  {given : List (Option String × Value)} {payload : Option Value} {m : String}

theorem construct_of_room (model : Model) (v : Value) (hroom : h.HasRoom through) :
    ∃ h', h.construct model v through = (.ok h.nextNode, h') ∧ h.Builds model v through h' := by
  cases through with
  | none => exact ⟨_, rfl, builds_of_construct rfl⟩
  | some b =>
    have hc := construct_through h model v b
    rw [hroom b rfl] at hc
    exact ⟨_, hc, builds_of_construct hc⟩

theorem constructFrom_eq (hg : Gives given payload) :
    h.constructFrom model (.ofCall given) through =
      h.constructOrFault model (payload.getD .nil) through := by
  rw [constructFrom, hg.payload?]

theorem constructFrom_of_room (hg : Gives given payload) (hroom : h.HasRoom through) :
    ∃ h', h.constructFrom model (.ofCall given) through = (.ok h.nextNode, h') ∧
      h.Builds model (payload.getD .nil) through h' := by
  obtain ⟨h', hc, hb⟩ := construct_of_room model (payload.getD .nil) hroom
  refine ⟨h', ?_, hb⟩
  rw [constructFrom_eq hg]
  simp only [constructOrFault, hc]

theorem constructFrom_of_full (hg : Gives given payload)
    (hr : reachedLimit? (h.budget b) = some limit) :
    ∃ h', h.constructFrom model (.ofCall given) (some b) =
      (.error (Refusal.mk (h.budget b).live limit).fault, h') := by
  have hc := construct_through h model (payload.getD .nil) b
  rw [hr] at hc
  refine ⟨h.refuse (h.budget b) limit (payload.getD .nil), ?_⟩
  rw [constructFrom_eq hg]
  simp only [constructOrFault, hc]

/-- Whatever the budget has to say, a bad call is told of its shape. -/
theorem constructFrom_of_rejects (hr : Rejects given m) :
    h.constructFrom model (.ofCall given) through =
      (.error (.plain .argument m), h.releaseAll (Arguments.ofCall given).values) := by
  obtain ⟨r, hp, rfl⟩ := hr.payload?
  rw [constructFrom, hp]
  rfl

/-- A construction tells of the shape of a call exactly when the call is not a good one. -/
theorem constructFrom_argument_iff :
    (∃ f h', h.constructFrom model (.ofCall given) through = (.error f, h') ∧
      f.kind = .argument) ↔ ∀ payload, ¬ Gives given payload := by
  constructor
  · rintro ⟨f, h', hc, hf⟩ payload hg
    rcases constructFrom_eq_error hc with ⟨r, hp, -, -⟩ | ⟨p, b, limit, -, -, -, rfl, -⟩
    · rw [hg.payload?] at hp
      cases hp
    · cases hf
  · intro hn
    obtain ⟨m, hr⟩ := Arguments.exists_rejects_iff.2 hn
    exact ⟨_, _, constructFrom_of_rejects hr, rfl⟩

/-! ## What a release logs -/

theorem journal_perform_released (h : Heap) (t : Task) :
    ∃ events, (h.perform t).2.journal.toList = h.journal.toList ++ events ∧
      ∀ x ∈ events, x.isReleased := by
  by_cases ht : t.closings = []
  · exact ⟨[], by rw [journal_perform ht, List.append_nil], nofun⟩
  · cases t with
    | close id =>
      refine ⟨_, journal_endLease h id, ?_⟩
      intro x hx
      obtain ⟨b, -, rfl⟩ := Option.map_eq_some_iff.1 (Option.mem_toList.1 hx)
      rfl
    | _ => exact absurd rfl ht

/-- A release logs the ends of leases and nothing else. -/
theorem journal_run_released (h : Heap) (ts : List Task) :
    ∃ events, (h.run ts).journal.toList = h.journal.toList ++ events ∧
      ∀ x ∈ events, x.isReleased := by
  induction h, ts using run_induction with
  | nil h =>
    rw [run_nil]
    exact ⟨[], (List.append_nil _).symm, nofun⟩
  | cons h t rest ih =>
    obtain ⟨later, hlater, hrest⟩ := ih
    obtain ⟨first, hfirst, htask⟩ := h.journal_perform_released t
    rw [run_cons]
    refine ⟨first ++ later, by rw [hlater, hfirst, List.append_assoc], ?_⟩
    intro x hx
    exact (List.mem_append.1 hx).elim (htask x) (hrest x)

end Heap

namespace Pool

variable {σ : Type → Type} {α : Type} [Payload α] {p : Pool σ α} {through : Option BudgetId}
  {given : List (Option String × α)} {payload : Option α} {m : String}

theorem size_of_orEmpty {v : α} {q : Pool σ α} (hmade : p.orEmpty payload = (v, q)) :
    q.cells.size = p.cells.size := by
  cases payload <;> cases hmade <;> rfl

variable [Storage σ]

theorem construct_of_room (v : α)
    (hroom : ∀ b ∈ through, Heap.reachedLimit? (p.setting.budget b) = none) :
    ∃ p', p.construct v through = (.ok ⟨p.cells.size⟩, p') ∧
      p'.cell? ⟨p.cells.size⟩ = some ⟨1, 0, some (Storage.keep v), through⟩ := by
  cases through with
  | none => exact ⟨_, rfl, Array.getElem?_push_size⟩
  | some b =>
    rw [construct, hroom b rfl]
    exact ⟨_, rfl, Array.getElem?_push_size⟩

variable {v : α} {q : Pool σ α}

/-- A good call goes the way of its payload; where none is given, one is made first. -/
theorem constructFrom_eq (hg : Gives given payload) (hmade : p.orEmpty payload = (v, q)) :
    p.constructFrom (.ofCall given) through = q.construct v through := by
  rw [constructFrom, hg.payload?]
  simp only [hmade]

theorem constructFrom_of_room (hg : Gives given payload) (hmade : p.orEmpty payload = (v, q))
    (hroom : ∀ b ∈ through, Heap.reachedLimit? (q.setting.budget b) = none) :
    ∃ p', p.constructFrom (.ofCall given) through = (.ok ⟨p.cells.size⟩, p') ∧
      p'.cell? ⟨p.cells.size⟩ = some ⟨1, 0, some (Storage.keep v), through⟩ := by
  rw [constructFrom_eq hg hmade, ← size_of_orEmpty hmade]
  exact construct_of_room v hroom

theorem constructFrom_of_full {b : BudgetId} {limit : Nat} (hg : Gives given payload)
    (hmade : p.orEmpty payload = (v, q))
    (hr : Heap.reachedLimit? (q.setting.budget b) = some limit) :
    ∃ p', p.constructFrom (.ofCall given) (some b) =
      (.error (Refusal.mk (q.setting.budget b).live limit).fault, p') := by
  rw [constructFrom_eq hg hmade]
  simp only [construct, hr]
  exact ⟨_, rfl⟩

/-- A bad call is told of its shape, and no budget is asked. -/
theorem constructFrom_of_rejects (hr : Rejects given m) :
    p.constructFrom (.ofCall given) through =
      (.error (.plain .argument m), p.dropAll (Arguments.ofCall given).values) := by
  obtain ⟨r, hp, rfl⟩ := hr.payload?
  rw [constructFrom, hp]
  rfl

end Pool

namespace Execution

open Heap

variable {past : List (Deed × Execution)} {e : Execution} {kept : List Holding}
  {given : List (Option String × Value)} {m : String}

/-- A bad call lets go of the values that it was given, and does nothing else. -/
theorem Run.constructFrom_rejects (hr : Run past e) (ht : e.tasks = [])
    (hp : e.held.Perm ((given.map (·.2)).map .value ++ kept)) (hbad : Rejects given m)
    (model : Model) (through : Option BudgetId) :
    ∃ h', e.heap.constructFrom model (.ofCall given) through = (.error (.plain .argument m), h') ∧
      OnlyReleased past e (given.map (·.2)) kept h' := by
  have hc : e.heap.constructFrom model (.ofCall given) through = _ := constructFrom_of_rejects hbad
  have hvalues : e.held.Perm ((Arguments.ofCall given).values.map .value ++ kept) :=
    hp.trans (((Arguments.values_ofCall given).symm.map _).append_right _)
  have hu := (hr.sound.unwinding_idle ht hvalues).constructFrom hc
  exact ⟨_, hc, hr.onlyReleased ht hp hu⟩

/-- All constructions from arguments accept the calls without arguments, with one by position and
with one under `data`. Such a call builds a node if there is room. Any other call is told of its
shape, whatever the budget has to say; nothing is logged but leases that end, and what becomes of
the heap and of the counts of budgets is what letting go of the arguments makes of them. -/
theorem constructFrom_accepts_gives :
    (∀ (given : List (Option String × Value)) (h : Heap) (model : Model)
        (through : Option BudgetId),
      ((∃ f h', h.constructFrom model (.ofCall given) through = (.error f, h') ∧
        f.kind = .argument) ↔ ∀ payload, ¬ Gives given payload) ∧
      (∀ payload, Gives given payload →
        (h.HasRoom through → ∃ h',
          h.constructFrom model (.ofCall given) through = (.ok h.nextNode, h') ∧
            h.Builds model (payload.getD .nil) through h') ∧
        ∀ b limit, through = some b → reachedLimit? (h.budget b) = some limit → ∃ h',
          h.constructFrom model (.ofCall given) through =
            (.error (Refusal.mk (h.budget b).live limit).fault, h')) ∧
      ∀ m, Rejects given m → ∃ h' events,
        h.constructFrom model (.ofCall given) through = (.error (.plain .argument m), h') ∧
        h'.journal.toList = h.journal.toList ++ events ∧ ∀ x ∈ events, x.isReleased) ∧
    (∀ past e given m kept model through, Run past e → e.tasks = [] →
      e.held.Perm ((given.map (·.2)).map .value ++ kept) → Rejects given m → ∃ h',
        e.heap.constructFrom model (.ofCall given) through = (.error (.plain .argument m), h') ∧
          OnlyReleased past e (given.map (·.2)) kept h') ∧
    ∀ (σ : Type → Type) [Storage σ] (α : Type) [Payload α] (p : Pool σ α)
        (given : List (Option String × α)) (through : Option BudgetId),
      (∀ payload, Gives given payload → ∀ v q, p.orEmpty payload = (v, q) →
        ((∀ b ∈ through, reachedLimit? (q.setting.budget b) = none) → ∃ p',
          p.constructFrom (.ofCall given) through = (.ok ⟨p.cells.size⟩, p') ∧
            p'.cell? ⟨p.cells.size⟩ = some ⟨1, 0, some (Storage.keep v), through⟩) ∧
        ∀ b limit, through = some b → reachedLimit? (q.setting.budget b) = some limit → ∃ p',
          p.constructFrom (.ofCall given) through =
            (.error (Refusal.mk (q.setting.budget b).live limit).fault, p')) ∧
      ∀ m, Rejects given m → ∃ vs, vs.Perm (given.map (·.2)) ∧
        p.constructFrom (.ofCall given) through = (.error (.plain .argument m), p.dropAll vs) := by
  refine ⟨?_, ?_, ?_⟩
  · intro given h model through
    refine ⟨constructFrom_argument_iff, ?_, ?_⟩
    · intro payload hg
      refine ⟨constructFrom_of_room hg, ?_⟩
      rintro b limit rfl hr
      exact constructFrom_of_full hg hr
    · intro m hbad
      obtain ⟨events, hlog, hreleased⟩ :=
        h.journal_run_released [.values (Arguments.ofCall given).values]
      exact ⟨_, events, constructFrom_of_rejects hbad, hlog, hreleased⟩
  · intro past e given m kept model through hr ht hp hbad
    exact hr.constructFrom_rejects ht hp hbad model through
  · intro σ _ α _ p given through
    refine ⟨?_, ?_⟩
    · intro payload hg v q hmade
      refine ⟨Pool.constructFrom_of_room hg hmade, ?_⟩
      rintro b limit rfl hr
      exact Pool.constructFrom_of_full hg hmade hr
    · intro m hbad
      exact ⟨_, Arguments.values_ofCall given, Pool.constructFrom_of_rejects hbad⟩

/-- A good call is refused by the budget whose only slot is taken. A bad one is told of its shape,
and frees the slot: its only argument is the last link to the node. -/
theorem constructFrom_accepts_gives_selfLink : ∃ past e, Run past e ∧ e.tasks = [] ∧
    e.held.Perm ([Value.node ⟨1⟩].map .value ++ []) ∧
    Gives [(some "data", Value.nil)] (some .nil) ∧
    reachedLimit? (e.heap.budget ⟨0⟩) = some 1 ∧
    (∃ h', e.heap.constructFrom .shared (.ofCall [(some "data", .nil)]) (some ⟨0⟩) =
      (.error (Refusal.mk 1 1).fault, h')) ∧
    Rejects [(some "payload", Value.node ⟨1⟩)]
      "'payload' is an invalid keyword argument for this function" ∧
    ∃ h', e.heap.constructFrom .shared (.ofCall [(some "payload", .node ⟨1⟩)]) (some ⟨0⟩) =
        (.error (.plain .argument "'payload' is an invalid keyword argument for this function"),
          h') ∧
      (h'.budget ⟨0⟩).live = 0 ∧ (h'.budget ⟨0⟩).peak = 1 := by
  have hr := SelfLink.run_built.step (.deal .link)
  have hbad : Rejects [(some "payload", Value.node ⟨1⟩)] _ := .keyword (by decide)
  obtain ⟨hheap, hrun, -⟩ := constructFrom_accepts_gives
  have hfull := (hheap [(some "data", .nil)] SelfLink.built .shared (some ⟨0⟩)).2.1 _ .data |>.2
    ⟨0⟩ 1 rfl rfl
  obtain ⟨h', hc, ho⟩ := hrun _ _ _ _ [] .shared (some ⟨0⟩) hr rfl (.refl _) hbad
  have hdead := (ho.gone ⟨1⟩).2 SelfLink.doomed_built
  refine ⟨_, _, hr, rfl, .refl _, .data, rfl, hfull, hbad, h', hc, ?_, ho.peak ⟨0⟩⟩
  have hl : _ + List.countP _ [NodeId.mk 1] = 1 := ho.live ⟨0⟩
  rw [List.countP_cons_of_pos (by rw [hdead]; rfl)] at hl
  exact Nat.succ.inj hl

end Execution
end GraphStack
