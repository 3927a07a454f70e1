import GraphStack.Proofs.Session.Nodes

/-!
# Payloads, scopes and chains

The larger things that a session does to nodes it holds: to read or to write a payload, to do so
while a scope reads, and to build a chain of frames.
-/

namespace GraphStack

open Execution

namespace Session

variable {s s' : Session} {xs ys : List Holding} {rd : List NodeId} {x : Holding} {v : Value}
  {id : NodeId} {into : String} {through : Option BudgetId}

/-! ## Payloads -/

theorem follows_handOver (ho : Ascending s.slots) (v : Value) (into : Option String) :
    Follows s (.value v :: xs) (s.handOver v into).2 xs := by
  cases into with
  | none => exact .onHeap (f := (·.release v)) ho .release
  | some into => exact follows_store ho into (.value v)

theorem replace_of_some {old : Value} {h : Heap} (into : Option String)
    (hw : s.heap.replace? id v = some (old, h)) :
    s.replace id v into = ({ s with heap := h } : Session).handOver old into := by
  obtain ⟨heap, slots, budgets⟩ := s
  simp only [replace]
  rw [hw]

theorem replace_of_none (into : Option String) (hw : s.heap.replace? id v = none) :
    s.replace id v into = (.refused, s.onHeap (·.release v)) := by
  obtain ⟨heap, slots, budgets⟩ := s
  simp only [replace]
  rw [hw]
  rfl

theorem follows_replace (ho : Ascending s.slots) (hm : .strong id ∈ s.slots.map (·.2))
    (into : Option String) : Follows s (.value v :: xs) (s.replace id v into).2 xs := by
  cases hw : s.heap.replace? id v with
  | none =>
    rw [replace_of_none into hw]
    exact .onHeap (f := (·.release v)) ho .release
  | some w =>
    obtain ⟨old, h⟩ := w
    rw [replace_of_some into hw]
    have hwrite : Follows s (.value v :: xs) { s with heap := h } (.value old :: xs) := by
      refine ⟨.write (.handle ?_) hw, ho, rfl⟩
      exact List.mem_append_left _ (List.mem_append_right _ hm)
    exact hwrite.trans (follows_handOver hwrite.ascending old into)

theorem follows_get (ho : Ascending s.slots) (hm : .strong id ∈ s.slots.map (·.2))
    (into : Option String) : Follows s xs (s.get id into).2 xs := by
  have hcopy : Follows s xs (s.onHeap (·.retain (s.heap.payload id)))
      (.value (s.heap.payload id) :: xs) := by
    refine .onHeap ho (.copy (.handle ?_))
    exact List.mem_append_left _ (List.mem_append_right _ hm)
  exact hcopy.trans (follows_handOver hcopy.ascending _ into)

/-! ## Acts under a scope -/

/-- An act on a node leaves the slots alone, whatever scopes read and whatever else is held. -/
theorem replace_leads (hm : .strong id ∈ ys ++ rd.map .strong) :
    ∃ h, (s.replace id v none).2 = { s with heap := h } ∧
      Leads ⟨s.heap, .value v :: ys, rd, []⟩ ⟨h, ys, rd, []⟩ := by
  cases hw : s.heap.replace? id v with
  | none =>
    rw [replace_of_none none hw]
    exact ⟨s.heap.release v, rfl, .release⟩
  | some w =>
    obtain ⟨old, h⟩ := w
    rw [replace_of_some none hw]
    exact ⟨h.release old, rfl, (Leads.write (.handle hm) hw).trans .release⟩

theorem set_snd (s : Session) (id : NodeId) (v : Value) :
    (s.set id v).2 = (s.replace id v none).2 := by
  unfold set
  split
  · next t ht => rw [ht]
  · next r t _ ht => rw [ht]

theorem act_leads (a : Act) (hm : .strong id ∈ ys ++ rd.map .strong) :
    ∃ h, (s.act id v a).2 = { s with heap := h } ∧
      Leads ⟨s.heap, .value v :: ys, rd, []⟩ ⟨h, ys, rd, []⟩ := by
  have hrelease : Leads ⟨s.heap, .value v :: ys, rd, []⟩ ⟨s.heap.release v, ys, rd, []⟩ := .release
  cases a with
  | set =>
    rw [act, set_snd]
    exact replace_leads hm
  | replace => exact replace_leads hm
  | take =>
    have hnil : Leads ⟨s.heap.release v, ys, rd, []⟩
        ⟨s.heap.release v, .value .nil :: ys, rd, []⟩ := .deal (.scalar rfl)
    obtain ⟨h, he, hl⟩ := replace_leads (s := s.onHeap (·.release v)) (v := .nil) hm
    exact ⟨h, he, (hrelease.trans hnil).trans hl⟩
  | get =>
    have hcopy := hrelease.trans (.copy (.handle hm))
    exact ⟨_, rfl, hcopy.trans .release⟩

theorem follows_within {reading : NodeId} (ho : Ascending s.slots) (a : Act)
    (hread : .strong reading ∈ s.slots.map (·.2)) (hm : .strong id ∈ s.slots.map (·.2)) :
    Follows s (.value v :: xs) (s.within reading id v a).2 xs := by
  obtain ⟨before, after, he⟩ := List.append_of_mem (List.mem_append_right xs hread)
  have hp : (xs ++ s.slots.map (·.2)).Perm (.strong reading :: (before ++ after)) := by
    rw [he]
    exact List.perm_middle
  have henter : Leads (s.holding (.value v :: xs))
      ⟨s.heap.enter reading, .value v :: (before ++ after), [reading], []⟩ := by
    have harrange : Leads (s.holding (.value v :: xs))
        ⟨s.heap, .strong reading :: .value v :: (before ++ after), [], []⟩ :=
      .arrange ((hp.cons _).trans (.swap _ _ _))
    exact harrange.trans (.step .enter)
  have hm' : .strong id ∈ (before ++ after) ++ [reading].map Holding.strong := by
    rcases List.mem_cons.1 (hp.subset (List.mem_append_right xs hm)) with hid | hid
    · rw [hid]
      exact List.mem_append_right _ List.mem_cons_self
    · exact List.mem_append_left _ hid
  obtain ⟨h, hact, hl⟩ := act_leads (s := s.onHeap (·.enter reading)) a hm'
  have hend : (s.within reading id v a).2 = { s with heap := h.leave reading } := by
    simp only [within]
    rw [hact]
    rfl
  rw [hend]
  refine ⟨?_, ho, rfl⟩
  have hleave : Leads ⟨h, before ++ after, [reading], []⟩
      ⟨h.leave reading, .strong reading :: (before ++ after), [], []⟩ := .step .leave
  exact ((henter.trans hl).trans hleave).trans (.arrange hp.symm)

/-! ## Chains -/

theorem handOut_cons (s : Session) (place : Nat) (name : String) (extra : List (Nat × String))
    (frame : Nat) (x : Holding) :
    handOut s ((place, name) :: extra) frame x =
      handOut (if place = frame then (s.onHeap (·.retainHolding x)).store name x else s)
        extra frame x := rfl

/-- Every extra handle is a copy of the handle at hand, or a weak one beside it. -/
theorem follows_handOut (hx : x = .strong id ∨ x = .weak id) (extra : List (Nat × String))
    (frame : Nat) (ho : Ascending s.slots) :
    Follows s (.strong id :: xs) (handOut s extra frame x) (.strong id :: xs) := by
  induction extra generalizing s with
  | nil => exact .refl ho
  | cons e extra ih =>
    obtain ⟨place, name⟩ := e
    by_cases he : place = frame
    · have hextra : Follows s (.strong id :: xs) (s.onHeap (·.retainHolding x))
          (x :: .strong id :: xs) := by
        rcases hx with rfl | rfl
        · exact .deal ho (.clone List.mem_cons_self)
        · exact .deal ho (.downgrade (.handle List.mem_cons_self))
      have hstore := hextra.trans (follows_store hextra.ascending name x)
      rw [handOut_cons, if_pos he]
      exact hstore.trans (ih hstore.ascending)
    · rw [handOut_cons, if_neg he]
      exact ih ho

theorem follows_link (ho : Ascending s.slots) (c : Chain) (frame : Nat) :
    Follows s (.strong id :: xs) s (.value (c.link frame id) :: xs) := by
  have hlink : Follows s (.strong id :: xs) s (.value (.node id) :: xs) := .inHand ho .link
  unfold Chain.link
  split
  · have hlist : Dealing [] s.heap ([Value.node id].map .value ++ (xs ++ s.slots.map (·.2)))
        s.heap (.value (.list [.node id]) :: (xs ++ s.slots.map (·.2))) := .list
    exact hlink.trans (.inHand ho hlist)
  · exact hlink

/-- A frame that has been made is in hand, whatever extra handles to it are out. -/
theorem follows_frame {h : Heap} (ho : Ascending s.slots) (c : Chain) (frame : Nat)
    (hb : ∀ b ∈ through, b.index < s.heap.budgets.size)
    (hc : s.heap.constructOrFault .single v through = (.ok id, h)) :
    Follows s (.value v :: xs)
      (handOut (handOut ⟨h, s.slots, s.budgets⟩ c.keep frame (.strong id)) c.watch frame (.weak id))
      (.strong id :: xs) := by
  have hmade : Follows s (.value v :: xs) ⟨h, s.slots, s.budgets⟩ (.strong id :: xs) :=
    ⟨.constructOrFault hb hc, ho, rfl⟩
  have hkeep := hmade.trans (follows_handOut (.inl rfl) c.keep frame hmade.ascending)
  exact hkeep.trans (follows_handOut (.inr rfl) c.watch frame hkeep.ascending)

theorem follows_stunted {h : Heap} {f : Fault} (ho : Ascending s.slots)
    (hb : ∀ b ∈ through, b.index < s.heap.budgets.size)
    (hc : s.heap.constructOrFault .single v through = (.error f, h)) :
    Follows s (.value v :: xs) ⟨h, s.slots, s.budgets⟩ xs :=
  ⟨.constructOrFault hb hc, ho, rfl⟩

/-- The budget whose turn it is has been opened. -/
theorem opened_turn {budgets : Array BudgetId} (hb : ∀ b ∈ budgets, b.index < s.heap.budgets.size)
    (turn : Nat) : ∀ b ∈ budgets[turn]?, b.index < s.heap.budgets.size := by
  intro b hm
  exact hb b (Array.mem_of_getElem? hm)

theorem follows_growFrom (c : Chain) {budgets : Array BudgetId} (into : String) (more : Nat)
    (frame : Nat) (ho : Ascending s.slots) (hb : ∀ b ∈ budgets, b.index < s.heap.budgets.size) :
    Follows s (.value v :: xs) (growFrom c budgets into s frame v more).2 xs := by
  induction more generalizing s v frame with
  | zero =>
    rw [growFrom]
    split
    · next f h hc => exact follows_stunted ho (opened_turn hb _) hc
    · next id h hc =>
      have hf : Follows s (.value v :: xs) _ (.strong id :: xs) :=
        follows_frame ho c frame (opened_turn hb _) hc
      exact hf.trans (follows_store hf.ascending into _)
  | succ more ih =>
    rw [growFrom]
    split
    · next f h hc => exact follows_stunted ho (opened_turn hb _) hc
    · next id h hc =>
      have hf : Follows s (.value v :: xs) _ (.strong id :: xs) :=
        follows_frame ho c frame (opened_turn hb _) hc
      have hlink := hf.trans (follows_link hf.ascending c (frame + 1))
      exact hlink.trans (ih (frame + 1) hlink.ascending fun b hm => hlink.opened (hb b hm))

theorem follows_grow {c : Chain} {r : Reply} (ht : s.Tidy) (hg : s.grow c into = .ok (r, s')) :
    Follows s xs s' xs := by
  rw [grow] at hg
  split at hg
  · cases hg
  · next budgets hbudgets =>
    split at hg
    · cases hg
    · next v t hv =>
      have hf := follows_build c.bottom xs ht.ascending hv
      split at hg
      · obtain rfl := snd_of_ok hg
        exact hf.trans (.onHeap (f := (·.release v)) hf.ascending .release)
      · obtain rfl := snd_of_ok hg
        have hb := ht.budgetIds hbudgets
        exact hf.trans (follows_growFrom c into _ 0 hf.ascending fun b hm => hf.opened (hb b hm))

/-- The node at the end of a number of links can be looked at from the first one. -/
theorem visible_follow {h : Heap} (n : Nat) (steps : Nat) (hv : h.Visible ys (.node id)) :
    h.Visible ys (.node (h.followFrom steps id n).2) := by
  induction n generalizing steps id with
  | zero => exact hv
  | succ n ih =>
    rw [Heap.followFrom]
    split
    · next below hbelow =>
      apply ih
      have hpayload : h.payload id = .node below := by
        cases hp : h.payload id with
        | node other =>
          rw [hp] at hbelow
          rw [Option.some.inj hbelow]
        | _ =>
          rw [hp] at hbelow
          cases hbelow
      rw [← hpayload]
      exact hv.payload
    · exact hv

end Session
end GraphStack
