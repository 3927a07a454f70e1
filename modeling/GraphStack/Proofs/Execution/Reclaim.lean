import GraphStack.Proofs.Execution.Accounts
import GraphStack.Proofs.Execution.Leads
import GraphStack.Proofs.Execution.Links

/-!
# What is reclaimed

A release takes links away and adds none, a new node has no link to it, and a written node has the
links of its new payload. So once a node of every cycle has been given a payload without nodes,
there are no cycles, and when the caller then lets go of all it holds, no node is left alive.
-/

namespace GraphStack

namespace Heap

variable {h h' : Heap} {o : List Holding} {id a b : NodeId} {t : Task} {v : Value}

/-! ## Links through releases -/

theorem links_of_payload (hl : h'.Links a b) (ha : (h'.cell a).isAlive → (h.cell a).isAlive)
    (hp : h'.payload a = h.payload a) : h.Links a b := ⟨ha hl.1, hp ▸ hl.2⟩

theorem SameStore.links (hh : SameStore h h') (hl : h'.Links a b) : h.Links a b := by
  refine links_of_payload hl ?_ (hh.payload a)
  rw [isAlive_iff, isAlive_iff, hh.strong]
  exact fun ha => ha

namespace Sound

theorem links_perform (hs : h.Sound (t.holdings ++ o)) (hl : (h.perform t).2.Links a b) :
    h.Links a b := by
  have ha : ((h.perform t).2.cell a).strong ≠ 0 := isAlive_iff.1 hl.1
  rcases h.payload_perform t ha with hp | ⟨-, -, hp⟩
  · refine links_of_payload hl (fun _ => isAlive_iff.2 fun hz => ha ?_) hp
    exact hs.strong_perform_eq_zero hz
  · have hn := hl.2
    rw [hp] at hn
    cases hn

theorem links_run {ts : List Task} (hs : h.Sound (Task.holdingsAll ts ++ o))
    (hl : (h.run ts).Links a b) : h.Links a b := by
  induction h, ts using run_induction with
  | nil h => rwa [run_nil] at hl
  | cons h t rest ih =>
    rw [run_cons] at hl
    rw [Task.holdingsAll_cons, List.append_assoc] at hs
    refine hs.links_perform (ih ?_ hl)
    rw [Task.holdingsAll_append, List.append_assoc]
    exact hs.perform

theorem releaseHolding {x : Holding} (hs : h.Sound (x :: o)) :
    (h.releaseHolding x).Sound o ∧ ∀ a b, (h.releaseHolding x).Links a b → h.Links a b := by
  cases x with
  | strong id =>
    have hs : h.Sound (Task.holdingsAll [.handle id] ++ o) := hs
    exact ⟨hs.run, fun _ _ => hs.links_run⟩
  | value v =>
    have hs : h.Sound (Task.holdingsAll [.value v] ++ o) := hs
    exact ⟨hs.run, fun _ _ => hs.links_run⟩
  | weak id =>
    refine ⟨hs.dropWeak, fun a b hl => links_of_payload hl ?_ ?_⟩
    · have hk : ((h.dropWeak id).cell a).strong = (h.cell a).strong :=
        cell_modifyCell_keeps (·.strong) fun _ => rfl
      rw [isAlive_iff, isAlive_iff, ← hk]
      exact fun ha => ha
    · exact cell_modifyCell_keeps (·.payload) fun _ => rfl

/-- Nothing held is left when all of it has been released, and no link is new. -/
theorem releaseEach {xs : List Holding} (hs : h.Sound (xs ++ o)) :
    (xs.foldl Heap.releaseHolding h).Sound o ∧
      ∀ a b, (xs.foldl Heap.releaseHolding h).Links a b → h.Links a b := by
  induction xs generalizing h with
  | nil => exact ⟨hs, fun _ _ hl => hl⟩
  | cons x xs ih =>
    obtain ⟨hs', hl'⟩ := hs.releaseHolding
    obtain ⟨hs'', hl''⟩ := ih hs'
    exact ⟨hs'', fun a b hl => hl' a b (hl'' a b hl)⟩

/-- Where nothing is held and no link leads round in a circle, nothing lives. -/
theorem isAlive_eq_false (hs : h.Sound [])
    (hacyclic : ∀ a, ¬ Relation.TransGen h.Links a a) (id : NodeId) :
    (h.cell id).isAlive = false := by
  by_contra ha
  rw [Bool.not_eq_false, hs.isAlive_iff_reachable hacyclic] at ha
  obtain ⟨root, ho | ⟨v, ho, -⟩, -⟩ := ha
  · cases ho
  · cases ho

end Sound

/-- A construction that succeeds builds the next node, and only budgets change otherwise. -/
theorem exists_build_of_construct {model : Model} {through : Option BudgetId}
    (hc : h.construct model v through = (.ok id, h')) :
    ∃ h₀, SameStore h h₀ ∧ h' = h₀.build model v through := by
  cases through with
  | none =>
    cases hc
    exact ⟨h, ⟨rfl, fun _ => rfl, fun _ => rfl, fun _ => rfl, rfl⟩, rfl⟩
  | some b =>
    obtain ⟨-, -, hh⟩ := construct_eq_ok hc
    exact ⟨h.lend b, sameStore_lend h b, hh⟩

/-- A new node has the links of its payload. -/
theorem links_build {model : Model} {lease : Option BudgetId}
    (hl : (h.build model v lease).Links a b) :
    a = h.nextNode ∧ v.Names b ∨ h.Links a b := by
  obtain ⟨ha, hn⟩ := hl
  rw [payload, cell_build] at hn
  rw [cell_build] at ha
  by_cases he : a = h.nextNode
  · rw [if_pos he] at hn
    exact .inl ⟨he, hn⟩
  · rw [if_neg he] at ha hn
    exact .inr ⟨ha, hn⟩

theorem links_setPayload (hl : (h.setPayload id v).Links a b) :
    a = id ∧ v.Names b ∨ a ≠ id ∧ h.Links a b := by
  have hb : a.number < h.cells.size := by
    have hb := built_of_isAlive hl.1
    rwa [setPayload, size_modifyCell] at hb
  have ha : (h.cell a).isAlive := by
    have ha := isAlive_iff.1 hl.1
    rw [strong_setPayload] at ha
    exact isAlive_iff.2 ha
  by_cases he : a = id
  · subst he
    have hn := hl.2
    rw [payload, payload_setPayload hb] at hn
    exact .inl ⟨rfl, hn⟩
  · have hn := hl.2
    rw [payload, payload_setPayload_of_ne (Ne.symm he)] at hn
    exact .inr ⟨he, ha, hn⟩

end Heap

namespace Execution

open Heap

variable {e e' : Execution} {d : Deed} {later : List Deed} {past : List (Deed × Execution)}
  {a b : NodeId}

/-! ## Links through steps -/

/-- A link is older than the last deed, or was made by it. -/
theorem Step.links (hs : e.Sound) (hd : Step e d e') (hl : e'.heap.Links a b) :
    (e.heap.Links a b ∧ ∀ v, d ≠ .wrote a v) ∨ (∃ v, d = .wrote a v ∧ v.Names b) ∨
      a = e.heap.nextNode ∧ (e.heap.cell b).isAlive := by
  cases hd with
  | work => exact .inl ⟨hs.first.links_perform hl, fun _ => nofun⟩
  | deal hd =>
    have hr := hd.recounts hs.heap
    refine .inl ⟨links_of_payload hl ?_ (hr.payload a), fun _ => nofun⟩
    rw [isAlive_iff, isAlive_iff]
    exact fun ha hz => ha ((hr.dead a).2 hz)
  | dropHandle => exact .inl ⟨hl, fun _ => nofun⟩
  | dropValue => exact .inl ⟨hl, fun _ => nofun⟩
  | @write h h' xs rd id v old hv hw =>
    obtain ⟨-, rfl, rfl⟩ := replace?_eq_some hw
    rcases links_setPayload hl with ⟨rfl, hn⟩ | ⟨hne, hl⟩
    · exact .inr (.inl ⟨v, rfl, hn⟩)
    · refine .inl ⟨hl, fun w hw => ?_⟩
      cases hw
      exact hne rfl
  | @build h h' xs rd id v model through hb hc =>
    obtain ⟨h₀, hh, rfl⟩ := exists_build_of_construct hc
    rcases links_build hl with ⟨ha, hn⟩ | hl
    · have ha : a = h.nextNode := ha.trans (congrArg NodeId.mk hh.size)
      refine .inr (.inr ⟨ha, hs.heap.isAlive_of_names (.inr (.inl ⟨v, ?_, hn⟩))⟩)
      exact List.mem_cons_self
    · exact .inl ⟨hh.links hl, fun _ => nofun⟩
  | refuse => exact .inl ⟨hl, fun _ => nofun⟩
  | openBudget => exact .inl ⟨hl, fun _ => nofun⟩
  | enter => exact .inl ⟨(sameStore_enter _ _).links hl, fun _ => nofun⟩
  | leave => exact .inl ⟨(sameStore_leave _ _).links hl, fun _ => nofun⟩

theorem Step.size_le (hs : e.Sound) (hd : Step e d e') :
    e.heap.cells.size ≤ e'.heap.cells.size := by
  cases hd with
  | work => exact (size_perform _ _).1.ge
  | deal hd => exact (hd.recounts hs.heap).size.ge
  | write hv hw =>
    obtain ⟨-, -, rfl⟩ := replace?_eq_some hw
    exact (size_modifyCell _).ge
  | @build h h' xs rd id v model through hb hc =>
    obtain ⟨h₀, hh, rfl⟩ := exists_build_of_construct hc
    exact hh.size.ge.trans ((Nat.le_succ _).trans (Array.size_push ..).ge)
  | enter => exact (size_modifyCell _).ge
  | leave => exact (size_modifyCell _).ge
  | _ => exact le_refl _

/-- What has been done since a moment, the latest deed first, and the moment that it led to. -/
inductive Since (e : Execution) : List Deed → Execution → Prop
  | now : Since e [] e
  | step {later : List Deed} {m m' : Execution} {d : Deed} (hl : Since e later m)
      (hd : Step m d m') : Since e (d :: later) m'

namespace Since

theorem run (hl : Since e later e') (hr : Run past e) : ∃ past', Run past' e' := by
  induction hl with
  | now => exact ⟨past, hr⟩
  | step _ hd ih =>
    obtain ⟨past', hr'⟩ := ih
    exact ⟨_, hr'.step hd⟩

theorem size_le (hl : Since e later e') (hs : e.Sound) :
    e'.Sound ∧ e.heap.cells.size ≤ e'.heap.cells.size := by
  induction hl with
  | now => exact ⟨hs, le_refl _⟩
  | step _ hd ih => exact ⟨hd.sound ih.1, ih.2.trans (hd.size_le ih.1)⟩

/-- While only payloads without nodes are written, a link is an old one of a node that has not been
written, or leads from a new node to an older one. -/
theorem links (hl : Since e later e') (hs : e.Sound)
    (hfree : ∀ id v n, .wrote id v ∈ later → ¬ v.Names n) (hlink : e'.heap.Links a b) :
    (e.heap.Links a b ∧ ∀ v, .wrote a v ∉ later) ∨
      e.heap.cells.size ≤ a.number ∧ b.number < a.number := by
  induction hl with
  | now => exact .inl ⟨hlink, fun _ => List.not_mem_nil⟩
  | @step later m m' d hl hd ih =>
    obtain ⟨hm, hsize⟩ := hl.size_le hs
    rcases hd.links hm hlink with ⟨hlink, hne⟩ | ⟨v, rfl, hn⟩ | ⟨rfl, hb⟩
    · have hfree' (id : NodeId) (v : Value) (n : NodeId) (hw : .wrote id v ∈ later) : ¬ v.Names n :=
        hfree id v n (List.mem_cons_of_mem _ hw)
      refine (ih hfree' hlink).imp_left fun ⟨hold, hw⟩ => ⟨hold, fun v hv => ?_⟩
      rcases List.mem_cons.1 hv with rfl | hv
      · exact hne v rfl
      · exact hw v hv
    · exact absurd hn (hfree a v b List.mem_cons_self)
    · exact .inr ⟨hsize, built_of_isAlive hb⟩

/-- When every cycle has lost a link, and nothing new was written, there is no cycle. -/
theorem acyclic (hl : Since e later e') (hs : e.Sound)
    (hfree : ∀ id v n, .wrote id v ∈ later → ¬ v.Names n)
    (hcut : ∀ a, ¬ Relation.TransGen
      (fun x y => e.heap.Links x y ∧ ∀ v, .wrote x v ∉ later) a a) (a : NodeId) :
    ¬ Relation.TransGen e'.heap.Links a a := by
  -- A way from a new node goes down in number, and leads to no new node once it is at an old one.
  have hway (b : NodeId) (hw : Relation.TransGen e'.heap.Links a b) :
      (b.number < e.heap.cells.size ∧
        Relation.TransGen (fun x y => e.heap.Links x y ∧ ∀ v, .wrote x v ∉ later) a b) ∨
      e.heap.cells.size ≤ a.number ∧ b.number < a.number := by
    induction hw with
    | single hlink =>
      refine (hl.links hs hfree hlink).imp_left fun hold => ⟨?_, .single hold⟩
      exact built_of_isAlive (hs.heap.isAlive_of_links hold.1)
    | tail _ hlink ih =>
      rcases hl.links hs hfree hlink with hold | ⟨hb, hlt⟩
      · have hc := built_of_isAlive (hs.heap.isAlive_of_links hold.1)
        exact ih.imp (fun ⟨_, hw⟩ => ⟨hc, hw.tail hold⟩) fun ⟨ha, _⟩ => ⟨ha, hc.trans_le ha⟩
      · refine .inr (ih.elim (fun ⟨hb', _⟩ => ?_) fun ⟨ha, hba⟩ => ⟨ha, hlt.trans hba⟩)
        exact absurd hb' (Nat.not_lt.2 hb)
  intro hc
  rcases hway a hc with ⟨-, hold⟩ | ⟨-, hlt⟩
  · exact hcut a hold
  · exact Nat.lt_irrefl _ hlt

end Since

/-- When no link leads round in a circle, all that the caller holds can be let go of in any order,
and nothing is left. -/
theorem Run.empties (hr : Run past e) (hacyclic : ∀ a, ¬ Relation.TransGen e.heap.Links a a)
    (ht : e.tasks = []) (hd : e.reading = []) {xs : List Holding} (hp : e.held.Perm xs) :
    (∀ id, ((xs.foldl Heap.releaseHolding e.heap).cell id).isAlive = false) ∧
      ∀ b, ((xs.foldl Heap.releaseHolding e.heap).budget b).live = 0 := by
  obtain ⟨h, held, rd, ts⟩ := e
  subst ht hd
  have hl : Leads ⟨h, held, [], []⟩ ⟨xs.foldl Heap.releaseHolding h, [], [], []⟩ :=
    (Leads.arrange hp).trans (.releaseEach h xs [])
  have hs : h.Sound (xs ++ []) := by
    rw [List.append_nil]
    refine Heap.Sound.perm ?_ hp
    simpa [owned, outside] using hr.sound.heap
  have hdead := hs.releaseEach.1.isAlive_eq_false fun a hc =>
    hacyclic a (Relation.TransGen.mono hs.releaseEach.2 a a hc)
  obtain ⟨later, hr'⟩ := hr.leads hl
  refine ⟨hdead, fun b => ?_⟩
  rw [(hr'.accounts b).2.1 rfl]
  exact List.countP_eq_zero.2 fun id _ => by simp [hdead id]

/-- A node lives only because something that is held leads to it or because a cycle does. Once a
node of each cycle has been cleared, everything goes when the caller lets go of what it holds. -/
theorem Run.reclaims (hr : Run past e) :
    (∀ id, (e.heap.cell id).isAlive → ∃ root, Relation.ReflTransGen e.heap.Links root id ∧
      (Holding.Names e.owned root ∨ Relation.TransGen e.heap.Links root root)) ∧
    ((∀ a, ¬ Relation.TransGen e.heap.Links a a) → ∀ id, (e.heap.cell id).isAlive ↔
      ∃ root, Holding.Names e.owned root ∧ Relation.ReflTransGen e.heap.Links root id) ∧
    (∀ later e', Since e later e' → (∀ id v n, .wrote id v ∈ later → ¬ v.Names n) →
      (∀ a, ¬ Relation.TransGen
        (fun x y => e.heap.Links x y ∧ ∀ v, .wrote x v ∉ later) a a) →
      e'.tasks = [] → e'.reading = [] → ∀ xs, e'.held.Perm xs →
        let h := xs.foldl Heap.releaseHolding e'.heap
        (∀ id, (h.cell id).isAlive = false) ∧ ∀ b, (h.budget b).live = 0) := by
  have hs := hr.sound
  refine ⟨fun id => hs.heap.exists_root, hs.heap.isAlive_iff_reachable, ?_⟩
  intro later e' hl hfree hcut ht hd xs hp
  obtain ⟨past', hr'⟩ := hl.run hr
  exact hr'.empties (hl.acyclic hs hfree hcut) ht hd hp

/-- The node that links to itself is written nil. The caller then holds the link that was its
payload and the handle from before, and may let go of them in either order. -/
theorem reclaims_selfLink : Run SelfLink.past SelfLink.now ∧
    Relation.TransGen SelfLink.now.heap.Links ⟨1⟩ ⟨1⟩ ∧
    ∃ later e', Since SelfLink.now later e' ∧ e'.held = [.value (.node ⟨1⟩), .strong ⟨1⟩] ∧
      ∀ xs, e'.held.Perm xs →
        ((xs.foldl Heap.releaseHolding e'.heap).cell ⟨1⟩).isAlive = false ∧
        ((xs.foldl Heap.releaseHolding e'.heap).budget ⟨0⟩).live = 0 := by
  have hself : SelfLink.now.heap.Links ⟨1⟩ ⟨1⟩ := ⟨rfl, .link⟩
  have hnil : Since SelfLink.now _ ⟨SelfLink.linked, [.value .nil, .strong ⟨1⟩], [], []⟩ :=
    Since.now.step (.deal (.scalar rfl))
  have hclear := hnil.step (.write (.handle List.mem_cons_self) rfl)
  have honly (a b : NodeId) (hl : SelfLink.now.heap.Links a b) : a = ⟨1⟩ := by
    obtain ⟨n⟩ := a
    have hb : n < 2 := built_of_isAlive hl.1
    interval_cases n
    · cases hl.1
    · rfl
  refine ⟨SelfLink.run, .single hself, _, _, hclear, rfl, fun xs hp => ?_⟩
  have hgone := (Run.reclaims SelfLink.run).2.2 _ _ hclear ?_ ?_ rfl rfl xs hp
  · exact ⟨hgone.1 ⟨1⟩, hgone.2 ⟨0⟩⟩
  · intro id v n hw hn
    rcases List.mem_cons.1 hw with he | hw
    · cases he
      cases hn
    · rw [List.mem_singleton] at hw
      cases hw
  · intro a hc
    obtain ⟨b, ⟨hl, hw⟩, -⟩ := Relation.TransGen.head'_iff.1 hc
    refine hw .nil ?_
    rw [honly a b hl]
    exact List.mem_cons_self

end Execution
end GraphStack
