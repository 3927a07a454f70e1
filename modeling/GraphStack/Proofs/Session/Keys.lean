import GraphStack.Proofs.Session.Commands
import GraphStack.Proofs.Value.Equality

/-!
# Keys of maps in a session

Whatever commands do, every map in a slot or in the payload of a node has each key once: a map is
put together with `putEntry`, and no command takes one apart. So what is said of keyed values holds
of all values that a session builds (`Session.Reached.build_keyed`), and a comparison says the same
whichever value comes first (`Session.Reached.compared_both_ways`).
-/

namespace GraphStack

open Execution

namespace Holding

def Keyed : Holding → Prop
  | .value v => v.Keyed
  | _ => True

namespace Keyed

theorem strong (id : NodeId) : (strong id).Keyed := trivial

theorem weak (id : NodeId) : (weak id).Keyed := trivial

theorem value {v : Value} (hv : v.Keyed) : (value v).Keyed := hv

end Keyed

end Holding

namespace Heap

/-- Every payload is keyed. -/
def Keyed (h : Heap) : Prop := ∀ id, (h.payload id).Keyed

variable {h h' : Heap} {id : NodeId} {v old : Value} {model : Model} {through : Option BudgetId}

namespace Keyed

theorem empty : Heap.empty.Keyed := fun id => by
  rw [payload, cell_empty]
  exact Value.keyed_nil

theorem sameStore (hk : h.Keyed) (hs : SameStore h h') : h'.Keyed := fun id => by
  rw [payload, hs.payload]
  exact hk id

theorem modifyCell (hk : h.Keyed) (id : NodeId) {f : Cell → Cell}
    (hf : ∀ c, (f c).payload = c.payload) : (h.modifyCell id f).Keyed := fun id' => by
  rw [payload, cell_modifyCell_keeps (·.payload) hf]
  exact hk id'

theorem addStrong (hk : h.Keyed) (id : NodeId) : (h.addStrong id).Keyed :=
  hk.modifyCell id fun _ => rfl

theorem addWeak (hk : h.Keyed) (id : NodeId) : (h.addWeak id).Keyed :=
  hk.modifyCell id fun _ => rfl

theorem dropWeak (hk : h.Keyed) (id : NodeId) : (h.dropWeak id).Keyed :=
  hk.modifyCell id fun _ => rfl

theorem enter (hk : h.Keyed) (id : NodeId) : (h.enter id).Keyed :=
  hk.modifyCell id fun _ => rfl

theorem leave (hk : h.Keyed) (id : NodeId) : (h.leave id).Keyed :=
  hk.modifyCell id fun _ => rfl

theorem retain (hk : h.Keyed) (v : Value) : (h.retain v).Keyed := by
  induction v using Value.tree_induction generalizing h with
  | list vs ih =>
    rw [Heap.retain]
    induction vs generalizing h with
    | nil => exact hk
    | cons v vs ihs =>
      rw [retainAll]
      exact ihs (fun w hw => ih w (List.mem_cons_of_mem _ hw)) (ih v List.mem_cons_self hk)
  | node id => exact hk.addStrong id
  | _ => exact hk

theorem setPayload (hk : h.Keyed) (hv : v.Keyed) (id : NodeId) : (h.setPayload id v).Keyed := by
  intro id'
  rw [payload, Heap.setPayload, cell_modifyCell]
  split
  · exact hv
  · exact hk id'

theorem build (hk : h.Keyed) (hv : v.Keyed) (model : Model) (lease : Option BudgetId) :
    (h.build model v lease).Keyed := by
  intro id
  rw [payload, cell_build]
  split
  · exact hv
  · exact hk id

/-- A release changes payloads to nil only. -/
theorem run (hk : h.Keyed) (ts : List Task) : (h.run ts).Keyed := by
  induction h, ts using run_induction with
  | nil h =>
    rw [run_nil]
    exact hk
  | cons h t rest ih =>
    rw [run_cons]
    refine ih fun id => ?_
    rcases payload_perform_eq h t id with he | he
    · rw [he]
      exact hk id
    · rw [he]
      exact Value.keyed_nil

theorem release (hk : h.Keyed) (v : Value) : (h.release v).Keyed := hk.run _

theorem releaseAll (hk : h.Keyed) (vs : List Value) : (h.releaseAll vs).Keyed := hk.run _

theorem releaseHolding (hk : h.Keyed) (x : Holding) : (h.releaseHolding x).Keyed := by
  cases x with
  | strong id => exact hk.run _
  | weak id => exact hk.dropWeak id
  | value v => exact hk.release v

theorem retainHolding (hk : h.Keyed) (x : Holding) : (h.retainHolding x).Keyed := by
  cases x with
  | strong id => exact hk.addStrong id
  | weak id => exact hk.addWeak id
  | value v => exact hk.retain v

theorem constructOrFault (hk : h.Keyed) (hv : v.Keyed) (model : Model)
    (through : Option BudgetId) : (h.constructOrFault model v through).2.Keyed := by
  have hc : (h.construct model v through).2.Keyed := by
    unfold construct
    split
    · exact hk.build hv model none
    · split
      · exact Keyed.release (h := h.log _) hk v
      · exact (hk.sameStore (sameStore_lend h _)).build hv model _
  unfold Heap.constructOrFault
  split <;> next he => rw [he] at hc; exact hc

theorem constructFrom {args : Arguments Value} (hk : h.Keyed) (ha : ∀ v ∈ args.values, v.Keyed)
    (model : Model) (through : Option BudgetId) : (h.constructFrom model args through).2.Keyed := by
  unfold Heap.constructFrom
  split
  · exact hk.releaseAll args.values
  · next payload hp =>
    rw [Arguments.values_of_payload hp] at ha
    cases payload with
    | none => exact hk.constructOrFault Value.keyed_nil model through
    | some v => exact hk.constructOrFault (ha v (List.mem_singleton.2 rfl)) model through

end Keyed

theorem keyed_replace? (hk : h.Keyed) (hv : v.Keyed) (hw : h.replace? id v = some (old, h')) :
    old.Keyed ∧ h'.Keyed := by
  unfold replace? at hw
  split at hw
  · cases hw
    exact ⟨hk id, hk.setPayload hv id⟩
  · cases hw

end Heap

namespace Value

variable {v : Value} {t : MapId} {es : List (String × Value)} {key : String}

theorem keyed_nestedIn (hv : v.Keyed) (n : Nat) : (nestedIn n v).Keyed := by
  induction n generalizing v with
  | zero => exact hv
  | succ n ih =>
    rw [nestedIn]
    apply ih
    rw [keyed_list, List.forall_mem_singleton]
    exact hv

theorem mem_putEntry {p : String × Value} (hp : p ∈ putEntry key v es) :
    p = (key, v) ∨ p ∈ es := by
  induction es with
  | nil =>
    rw [putEntry, List.mem_singleton] at hp
    exact .inl hp
  | cons e es ih =>
    rw [putEntry] at hp
    split_ifs at hp with he
    · exact (List.mem_cons.1 hp).imp_right (List.mem_cons_of_mem _)
    · rcases List.mem_cons.1 hp with rfl | hp
      · exact .inr List.mem_cons_self
      · exact (ih hp).imp_right (List.mem_cons_of_mem _)

theorem nodup_putEntry (hn : (es.map (·.1)).Nodup) :
    ((putEntry key v es).map (·.1)).Nodup := by
  induction es with
  | nil => exact List.nodup_singleton key
  | cons e es ih =>
    obtain ⟨hnew, hn⟩ := List.nodup_cons.1 hn
    rw [putEntry]
    split_ifs with he
    · rw [← he]
      exact List.nodup_cons.2 ⟨hnew, hn⟩
    · refine List.nodup_cons.2 ⟨?_, ih hn⟩
      intro hm
      obtain ⟨p, hp, hkey⟩ := List.mem_map.1 hm
      rcases mem_putEntry hp with rfl | hp
      · exact he hkey.symm
      · rw [← hkey] at hnew
        exact hnew (List.mem_map_of_mem hp)

theorem keyed_putEntry (hk : (map t es).Keyed) (hv : v.Keyed) (key : String) :
    (map t (putEntry key v es)).Keyed := by
  refine keyed_map.2 ⟨nodup_putEntry hk.nodup, ?_⟩
  intro p hp
  rcases mem_putEntry hp with rfl | hp
  · exact hv
  · exact hk.entry hp

end Value

namespace Session

/-- Every map is keyed in the slots and in the heap. -/
structure Keyed (s : Session) : Prop where
  slots : ∀ x ∈ s.slots.map (·.2), x.Keyed
  heap : s.heap.Keyed

variable {s s' : Session} {x : Holding} {v : Value} {id : NodeId} {name slot into : String}
  {recipe : Recipe} {r : Reply} {c : Command} {chain : Chain}

namespace Keyed

theorem withHeap {h : Heap} (hk : s.Keyed) (hh : h.Keyed) : ({ s with heap := h } : Session).Keyed :=
  ⟨hk.slots, hh⟩

theorem of_lookup (hk : s.Keyed) (hl : s.slots.lookup name = some x) : x.Keyed :=
  hk.slots x (List.mem_map_of_mem (mem_of_lookup hl))

theorem store (hk : s.Keyed) (hx : x.Keyed) (name : String) : (s.store name x).Keyed := by
  have hput : ({ s with slots := putNamed name x s.slots } : Session).Keyed := by
    refine ⟨?_, hk.heap⟩
    intro y hy
    obtain ⟨p, hp, rfl⟩ := List.mem_map.1 hy
    rcases mem_putNamed hp with rfl | hp
    · exact hx
    · exact hk.slots p.2 (List.mem_map_of_mem hp)
  unfold Session.store
  simp only
  split
  · exact hput.withHeap (hk.heap.releaseHolding _)
  · exact hput

theorem vacate (hk : s.Keyed) (name : String) : (s.vacate name).Keyed := by
  refine ⟨?_, hk.heap⟩
  intro y hy
  obtain ⟨p, hp, rfl⟩ := List.mem_map.1 hy
  exact hk.slots p.2 (List.mem_map_of_mem (List.mem_filter.1 hp).1)

theorem moveOut (hk : s.Keyed) (hm : s.moveOut name = .ok (v, s')) : v.Keyed ∧ s'.Keyed := by
  unfold Session.moveOut at hm
  split at hm
  · next w hl =>
    cases hm
    exact ⟨hk.of_lookup hl, hk.vacate name⟩
  · cases hm
    exact ⟨Value.keyed_node _, hk.vacate name⟩
  · cases hm
  · cases hm

theorem heldValue (hk : s.Keyed) (hv : s.heldValue name = .ok v) : v.Keyed :=
  hk.slots _ (mem_of_heldValue hv)

/-! ## Recipes -/

mutual
theorem build : ∀ (r : Recipe) {s s' : Session} {v : Value},
    s.Keyed → s.build r = .ok (v, s') → v.Keyed ∧ s'.Keyed
  | .nil, _, _, _, hk, hb => by
    cases hb
    exact ⟨Value.keyed_nil, hk⟩
  | .bool b, _, _, _, hk, hb => by
    cases hb
    exact ⟨Value.keyed_bool b, hk⟩
  | .text _, _, _, _, hk, hb => by
    cases hb
    exact ⟨Value.keyed_text _, hk⟩
  | .repeated _ _, _, _, _, hk, hb => by
    cases hb
    exact ⟨Value.keyed_text _, hk⟩
  | .number _, _, _, _, hk, hb => by
    cases hb
    exact ⟨Value.keyed_number _, hk⟩
  | .integer _, _, _, _, hk, hb => by
    cases hb
    exact ⟨Value.keyed_number _, hk⟩
  | .list items, s, s', v, hk, hb => by
    rw [Session.build] at hb
    split at hb
    · cases hb
    · next vs t hvs =>
      cases hb
      obtain ⟨hvs, hk⟩ := buildAll items hk hvs
      exact ⟨Value.keyed_list.2 hvs, hk⟩
  | .map entries, s, s', v, hk, hb => by
    rw [Session.build] at hb
    split at hb
    · cases hb
    · next es t hes =>
      cases hb
      have hnone : (Value.map t.heap.nextTree []).Keyed :=
        Value.keyed_map.2 ⟨List.nodup_nil, List.forall_mem_nil _⟩
      obtain ⟨hes, hk⟩ := buildEntries entries hk hnone hes
      exact ⟨hes, hk.withHeap hk.heap⟩
  | .nested n r, s, s', v, hk, hb => by
    rw [Session.build] at hb
    split at hb
    · cases hb
    · next w t hw =>
      cases hb
      obtain ⟨hw, hk⟩ := build r hk hw
      exact ⟨Value.keyed_nestedIn hw n, hk⟩
  | .fresh r, s, s', v, hk, hb => by
    rw [Session.build] at hb
    split at hb
    · cases hb
    · next w t hw =>
      cases hb
      obtain ⟨hw, hk⟩ := build r hk hw
      exact ⟨Value.keyed_node _, hk.withHeap (hk.heap.build hw .single none)⟩
  | .share name, s, s', v, hk, hb => by
    rw [Session.build] at hb
    split at hb
    · cases hb
    · next id hn =>
      cases hb
      exact ⟨Value.keyed_node id, hk.withHeap (hk.heap.addStrong id)⟩
  | .move name, s, s', v, hk, hb => hk.moveOut hb
  | .copy name, s, s', v, hk, hb => by
    rw [Session.build] at hb
    split at hb
    · cases hb
    · next w hw =>
      cases hb
      exact ⟨hk.heldValue hw, hk.withHeap (hk.heap.retain v)⟩

theorem buildAll : ∀ (rs : List Recipe) {s s' : Session} {vs : List Value},
    s.Keyed → s.buildAll rs = .ok (vs, s') → (∀ v ∈ vs, v.Keyed) ∧ s'.Keyed
  | [], _, _, _, hk, hb => by
    cases hb
    exact ⟨List.forall_mem_nil _, hk⟩
  | r :: rs, s, s', vs, hk, hb => by
    rw [Session.buildAll] at hb
    split at hb
    · cases hb
    · next v t hv =>
      split at hb
      · cases hb
      · next ws u hw =>
        cases hb
        obtain ⟨hv, hk⟩ := build r hk hv
        obtain ⟨hw, hk⟩ := buildAll rs hk hw
        exact ⟨List.forall_mem_cons.2 ⟨hv, hw⟩, hk⟩

theorem buildEntries : ∀ (rest : List (String × Recipe)) {s s' : Session} {t : MapId}
    {done es : List (String × Value)}, s.Keyed → (Value.map t done).Keyed →
      s.buildEntries done rest = .ok (es, s') → (Value.map t es).Keyed ∧ s'.Keyed
  | [], _, _, _, _, _, hk, hd, hb => by
    cases hb
    exact ⟨hd, hk⟩
  | (key, r) :: rest, s, s', t, done, es, hk, hd, hb => by
    rw [Session.buildEntries] at hb
    split at hb
    · cases hb
    · next v u hv =>
      obtain ⟨hv, hk⟩ := build r hk hv
      have hput := Value.keyed_putEntry hd hv key
      cases hl : done.lookup key with
      | none =>
        simp only [hl] at hb
        exact buildEntries rest hk hput hb
      | some old =>
        simp only [hl] at hb
        exact buildEntries rest (hk.withHeap (hk.heap.release old)) hput hb
end

theorem buildCall {given : List (Option String × Recipe)} {args : List (Option String × Value)}
    (hk : s.Keyed) (hb : s.buildCall given = .ok (args, s')) :
    (∀ v ∈ args.map (·.2), v.Keyed) ∧ s'.Keyed := by
  induction given generalizing s args with
  | nil =>
    cases hb
    exact ⟨List.forall_mem_nil _, hk⟩
  | cons g given ih =>
    obtain ⟨name, r⟩ := g
    rw [Session.buildCall] at hb
    split at hb
    · cases hb
    · next v t hv =>
      split at hb
      · cases hb
      · next later u hu =>
        cases hb
        obtain ⟨hv, hk⟩ := build r hk hv
        obtain ⟨hlater, hk⟩ := ih hk hu
        exact ⟨List.forall_mem_cons.2 ⟨hv, hlater⟩, hk⟩

/-! ## Nodes -/

theorem keepNode (hk : s.Keyed) (into : String) (made : Except Fault NodeId) :
    (s.keepNode into made).2.Keyed := by
  cases made with
  | ok id => exact hk.store (.strong id) into
  | error f => exact hk

theorem construct (hk : s.Keyed) (hv : v.Keyed) (model : Model) (through : Option BudgetId)
    (into : String) : (s.construct model v through into).2.Keyed :=
  (hk.withHeap (hk.heap.constructOrFault hv model through)).keepNode into _

theorem make {model : Model} {making : Making} {asked : Option String} (hk : s.Keyed)
    (hm : s.make model making asked into = .ok (r, s')) : s'.Keyed := by
  rw [Session.make] at hm
  split at hm
  · cases hm
  · next through _ =>
    cases making with
    | empty =>
      obtain rfl := snd_of_ok hm
      exact hk.construct Value.keyed_nil model through into
    | payload recipe =>
      simp only at hm
      split at hm
      · cases hm
      · next v t hv =>
        obtain rfl := snd_of_ok hm
        obtain ⟨hv, hk⟩ := hk.build recipe hv
        exact hk.construct hv model through into
    | call given =>
      simp only at hm
      split at hm
      · cases hm
      · next args heap slots budgets hargs =>
        obtain rfl := snd_of_ok hm
        obtain ⟨hargs, hk⟩ := hk.buildCall hargs
        have hall : ∀ v ∈ (Arguments.ofCall args).values, v.Keyed := fun v hv =>
          hargs v ((Arguments.values_ofCall args).subset hv)
        exact (hk.withHeap (hk.heap.constructFrom hall model through)).keepNode into _

theorem handOver (hk : s.Keyed) (hv : v.Keyed) (into : Option String) :
    (s.handOver v into).2.Keyed := by
  cases into with
  | none => exact hk.withHeap (hk.heap.release v)
  | some into => exact hk.store (.value hv) into

theorem get (hk : s.Keyed) (id : NodeId) (into : Option String) : (s.get id into).2.Keyed :=
  (hk.withHeap (hk.heap.retain _)).handOver (hk.heap id) into

theorem replace (hk : s.Keyed) (hv : v.Keyed) (id : NodeId) (into : Option String) :
    (s.replace id v into).2.Keyed := by
  cases hw : s.heap.replace? id v with
  | none =>
    rw [replace_of_none into hw]
    exact hk.withHeap (hk.heap.release v)
  | some w =>
    obtain ⟨old, h⟩ := w
    obtain ⟨hold, hh⟩ := Heap.keyed_replace? hk.heap hv hw
    rw [replace_of_some into hw]
    exact (hk.withHeap hh).handOver hold into

theorem act (hk : s.Keyed) (hv : v.Keyed) (id : NodeId) (a : Act) : (s.act id v a).2.Keyed := by
  cases a with
  | set =>
    rw [Session.act, set_snd]
    exact hk.replace hv id none
  | replace => exact hk.replace hv id none
  | take => exact (hk.withHeap (hk.heap.release v)).replace Value.keyed_nil id none
  | get => exact (hk.withHeap (hk.heap.release v)).get id none

theorem within (hk : s.Keyed) (hv : v.Keyed) (reading id : NodeId) (a : Act) :
    (s.within reading id v a).2.Keyed := by
  have hact := (hk.withHeap (hk.heap.enter reading)).act hv id a
  exact hact.withHeap (hact.heap.leave reading)

/-! ## Chains -/

theorem handOut (hk : s.Keyed) (hx : x.Keyed) (extra : List (Nat × String)) (frame : Nat) :
    (handOut s extra frame x).Keyed := by
  induction extra generalizing s with
  | nil => exact hk
  | cons e extra ih =>
    obtain ⟨place, name⟩ := e
    rw [handOut_cons]
    split_ifs with he
    · exact ih ((hk.withHeap (hk.heap.retainHolding x)).store hx name)
    · exact ih hk

/-- A frame has been made, and the extra handles to it are out. -/
theorem frame {h : Heap} (hk : s.Keyed) (hh : h.Keyed) (c : Chain) (frame : Nat) :
    (Session.handOut (Session.handOut ⟨h, s.slots, s.budgets⟩ c.keep frame (.strong id)) c.watch
      frame (.weak id)).Keyed :=
  ((hk.withHeap hh).handOut (.strong id) c.keep frame).handOut (.weak id) c.watch frame

theorem link (c : Chain) (frame : Nat) (id : NodeId) : (c.link frame id).Keyed := by
  unfold Chain.link
  split_ifs
  · exact Value.keyed_nestedIn (Value.keyed_node id) 1
  · exact Value.keyed_node id

theorem growFrom (c : Chain) {budgets : Array BudgetId} (into : String) (more : Nat)
    (frame : Nat) (hk : s.Keyed) (hv : v.Keyed) :
    (growFrom c budgets into s frame v more).2.Keyed := by
  induction more generalizing s v frame with
  | zero =>
    rw [Session.growFrom]
    have hc := hk.heap.constructOrFault hv .single budgets[frame % budgets.size]?
    split
    · next f h he =>
      rw [he] at hc
      exact hk.withHeap hc
    · next id h he =>
      rw [he] at hc
      exact (hk.frame hc c frame).store (.strong id) into
  | succ more ih =>
    rw [Session.growFrom]
    have hc := hk.heap.constructOrFault hv .single budgets[frame % budgets.size]?
    split
    · next f h he =>
      rw [he] at hc
      exact hk.withHeap hc
    · next id h he =>
      rw [he] at hc
      exact ih (frame + 1) (hk.frame hc c frame) (link c (frame + 1) id)

theorem grow (hk : s.Keyed) (hg : s.grow chain into = .ok (r, s')) : s'.Keyed := by
  rw [Session.grow] at hg
  split at hg
  · cases hg
  · split at hg
    · cases hg
    · next v t hv =>
      obtain ⟨hv, hk⟩ := hk.build chain.bottom hv
      split at hg
      · obtain rfl := snd_of_ok hg
        exact hk.withHeap (hk.heap.release v)
      · obtain rfl := snd_of_ok hg
        exact growFrom chain into _ 0 hk hv

/-! ## Commands -/

theorem openBudget (hk : s.Keyed) (label : String) (limit : Option UInt64) (into : String) :
    (s.openBudget label limit into).2.Keyed := by
  unfold Session.openBudget
  split_ifs
  · exact hk
  · exact ⟨hk.slots, hk.heap⟩

theorem clone (hk : s.Keyed) (hx : s.slot name = .ok x) (into : String) :
    (s.clone x into).2.Keyed := by
  have hcopy := hk.withHeap (hk.heap.retainHolding x)
  exact hcopy.store (hk.of_lookup (lookup_of_slot hx)) into

/-- A value is built and something is done with it, in the session that building has left. -/
theorem buildThen {f : Session → Value → Outcome} (hk : s.Keyed)
    (hw : s.withValue recipe f = .ok (r, s'))
    (hf : ∀ {t : Session} {v : Value}, t.Keyed → v.Keyed → f t v = .ok (r, s') → s'.Keyed) :
    s'.Keyed := by
  obtain ⟨v, t, hv, ht⟩ := withValue_ok hw
  obtain ⟨hv, hk⟩ := hk.build recipe hv
  exact hf hk hv ht

theorem upgrade (hk : s.Keyed) (hp : s.perform (.upgrade slot into) = .ok (r, s')) :
    s'.Keyed := by
  rw [Session.perform] at hp
  split at hp
  · cases hp
  · next id _ =>
    cases hu : s.heap.upgrade? id with
    | none =>
      rw [hu] at hp
      obtain rfl := snd_of_ok hp
      exact hk
    | some h =>
      rw [hu] at hp
      obtain rfl := snd_of_ok hp
      unfold Heap.upgrade? at hu
      split_ifs at hu
      obtain rfl := Option.some.inj hu
      exact (hk.withHeap (hk.heap.addStrong id)).store (.strong id) into

theorem perform (hk : s.Keyed) (hp : s.perform c = .ok (r, s')) : s'.Keyed := by
  cases c with
  | make model making asked into => exact hk.make hp
  | openBudget label limit into =>
    obtain rfl := snd_of_ok hp
    exact hk.openBudget label limit into
  | openBudgetFrom config into =>
    cases config with
    | error f =>
      obtain rfl := snd_of_ok hp
      exact hk
    | ok config =>
      obtain rfl := snd_of_ok hp
      exact hk.openBudget _ _ into
  | shareBudget budget into =>
    rw [Session.perform] at hp
    split at hp
    · cases hp
    · obtain rfl := snd_of_ok hp
      exact ⟨hk.slots, hk.heap⟩
  | closeBudget budget =>
    rw [Session.perform] at hp
    split at hp
    · cases hp
    · obtain rfl := snd_of_ok hp
      exact ⟨hk.slots, hk.heap⟩
  | lookAtBudget budget =>
    rw [Session.perform] at hp
    split at hp
    · cases hp
    · obtain rfl := snd_of_ok hp
      exact hk
  | inspectBudget budget =>
    rw [Session.perform] at hp
    split at hp
    · cases hp
    · obtain rfl := snd_of_ok hp
      exact hk
  | clone slot into =>
    rw [Session.perform] at hp
    split at hp
    · cases hp
    · next x hx =>
      obtain rfl := snd_of_ok hp
      exact hk.clone hx into
  | drop slot =>
    rw [Session.perform] at hp
    split at hp
    · cases hp
    · next x hx =>
      obtain rfl := snd_of_ok hp
      exact (hk.vacate slot).withHeap (hk.heap.releaseHolding x)
  | keep recipe into =>
    refine hk.buildThen hp ?_
    intro t v hk hv he
    obtain rfl := snd_of_ok he
    exact hk.store (.value hv) into
  | present recipe =>
    refine hk.buildThen hp ?_
    intro t v hk hv he
    obtain rfl := snd_of_ok he
    exact hk.withHeap (hk.heap.release v)
  | compare a b =>
    refine hk.buildThen hp ?_
    intro t v hk hv hw
    refine hk.buildThen hw ?_
    intro u w hk hw he
    obtain rfl := snd_of_ok he
    exact hk.withHeap (hk.heap.releaseAll [w, v])
  | get slot into =>
    obtain ⟨id, -, he⟩ := withNode_ok hp
    obtain rfl := snd_of_ok he
    exact hk.get id into
  | peek slot =>
    obtain ⟨id, -, he⟩ := withNode_ok hp
    obtain rfl := snd_of_ok he
    exact hk
  | set slot recipe =>
    refine hk.buildThen hp ?_
    intro t v hk hv hw
    obtain ⟨id, -, he⟩ := withNode_ok hw
    obtain rfl := snd_of_ok he
    exact hk.act hv id .set
  | replace slot recipe into =>
    refine hk.buildThen hp ?_
    intro t v hk hv hw
    obtain ⟨id, -, he⟩ := withNode_ok hw
    obtain rfl := snd_of_ok he
    exact hk.replace hv id into
  | take slot into =>
    obtain ⟨id, -, he⟩ := withNode_ok hp
    obtain rfl := snd_of_ok he
    exact hk.replace Value.keyed_nil id into
  | within reading slot act recipe =>
    refine hk.buildThen hp ?_
    intro t v hk hv hw
    obtain ⟨other, -, hw'⟩ := withNode_ok hw
    obtain ⟨id, -, he⟩ := withNode_ok hw'
    obtain rfl := snd_of_ok he
    exact hk.within hv other id act
  | info slot =>
    rw [Session.perform] at hp
    split at hp
    · cases hp
    · obtain rfl := snd_of_ok hp
      exact hk
  | inspect slot =>
    rw [Session.perform] at hp
    split at hp
    · cases hp
    · obtain rfl := snd_of_ok hp
      exact hk
  | identify a b =>
    obtain ⟨id, -, hw⟩ := withNode_ok hp
    obtain ⟨other, -, he⟩ := withNode_ok hw
    obtain rfl := snd_of_ok he
    exact hk
  | downgrade slot into =>
    obtain ⟨id, -, he⟩ := withNode_ok hp
    obtain rfl := snd_of_ok he
    exact (hk.withHeap (hk.heap.addWeak id)).store (.weak id) into
  | upgrade slot into => exact hk.upgrade hp
  | follow slot links into =>
    obtain ⟨id, -, he⟩ := withNode_ok hp
    cases into with
    | none =>
      obtain rfl := snd_of_ok he
      exact hk
    | some into =>
      obtain rfl := snd_of_ok he
      exact (hk.withHeap (hk.heap.addStrong _)).store (.strong _) into
  | grow chain into => exact hk.grow hp

theorem close (hk : s.Keyed) : s.close.Keyed := by
  have hrelease (h : Heap) (hh : h.Keyed) (slots : List (String × Holding)) :
      (releaseHoldings h slots).Keyed := by
    induction slots generalizing h with
    | nil => exact hh
    | cons p slots ih => exact ih _ (hh.releaseHolding p.2)
  exact ⟨List.forall_mem_nil _, hrelease _ hk.heap _⟩

end Keyed

namespace Reached

theorem keyed (hs : Reached s) : s.Keyed := by
  induction hs with
  | empty => exact ⟨List.forall_mem_nil _, .empty⟩
  | perform _ hp ih => exact ih.perform hp
  | close _ ih => exact ih.close

/-- What a recipe is for: a value built where commands have led is keyed. -/
theorem build_keyed (hs : Reached s) (hb : s.build recipe = .ok (v, s')) : v.Keyed :=
  (hs.keyed.build recipe hb).1

/-- The two values of a comparison can change places. -/
theorem compared_both_ways {a b : Recipe} {forward backward : Bool} (hs : Reached s)
    (hp : s.perform (.compare a b) = .ok (.compared forward backward, s')) :
    forward = backward := by
  obtain ⟨v, t, hbuildA, hrest⟩ := withValue_ok hp
  obtain ⟨w, u, hbuildB, he⟩ := withValue_ok hrest
  obtain ⟨hv, hk⟩ := hs.keyed.build a hbuildA
  have hw := (hk.build b hbuildB).1
  cases he
  exact Bool.eq_iff_iff.2 ⟨Value.same_symm hv hw, Value.same_symm hw hv⟩

end Reached

end Session

end GraphStack
