import GraphStack.Proofs.Execution.LastWrite
import GraphStack.Proofs.Execution.Reclaim
import GraphStack.Session.Command

/-!
# Weak handles

A weak handle turns into a strong one exactly while some strong handle to its node exists, wherever
that is: held, in a value, or in the payload of a living node, be it on a cycle that nobody can
reach. A node that has been destroyed stays destroyed, so a weak handle that fails once fails ever
after.
-/

namespace GraphStack

namespace Heap

variable {h h' : Heap} {id : NodeId}

theorem upgrade?_of_isAlive (ha : (h.cell id).isAlive) : h.upgrade? id = some (h.addStrong id) :=
  if_pos ha

theorem upgrade?_eq_none : h.upgrade? id = none ↔ (h.cell id).strong = 0 := by
  unfold upgrade?
  by_cases ha : (h.cell id).isAlive
  · rw [if_pos ha]
    exact iff_of_false (Option.some_ne_none _) (isAlive_iff.1 ha)
  · rw [if_neg ha]
    exact iff_of_true rfl (not_not.1 fun hz => ha (isAlive_iff.2 hz))

/-- An upgrade adds one strong handle to its node and changes nothing else. -/
theorem cell_of_upgrade? (hu : h.upgrade? id = some h') (other : NodeId) :
    h'.cell other = { h.cell other with
      strong := (h.cell other).strong + if other = id then 1 else 0 } := by
  obtain ⟨ha, rfl⟩ := upgrade?_eq_some hu
  rw [addStrong, cell_modifyCell]
  by_cases he : other = id
  · subst he
    rw [if_pos ⟨rfl, built_of_strong ha⟩, if_pos rfl]
  · rw [if_neg fun hi => he hi.1.symm, if_neg he]
    rfl

end Heap

/-- The command to upgrade a weak handle replies with its node, or with nothing. -/
theorem Session.perform_upgrade {s : Session} {slot : String} {id : NodeId}
    (hw : s.weakNode slot = .ok id) (into : String) :
    s.perform (.upgrade slot into) =
      if (s.heap.cell id).isAlive then
        .ok (.built id, (s.onHeap (·.addStrong id)).store into (.strong id))
      else .ok (.nothing, s) := by
  simp only [perform, hw, Heap.upgrade?]
  by_cases ha : (s.heap.cell id).isAlive
  · rw [if_pos ha, if_pos ha]
    rfl
  · rw [if_neg ha, if_neg ha]

namespace Execution

open Heap

variable {past : List (Deed × Execution)} {e e' : Execution} {d : Deed} {id : NodeId}

/-! ## Destroyed nodes stay destroyed -/

/-- No step brings a node back: a new node has a name of its own, and only handles to living nodes
are copied. -/
theorem Step.strong_eq_zero (hs : e.Sound) (hd : Step e d e')
    (hb : id.number < e.heap.cells.size) (hz : (e.heap.cell id).strong = 0) :
    (e'.heap.cell id).strong = 0 := by
  cases hd with
  | work => exact hs.first.strong_perform_eq_zero hz
  | deal hd => exact ((hd.recounts hs.heap).dead id).2 hz
  | write hv hw =>
    obtain ⟨-, -, rfl⟩ := replace?_eq_some hw
    rwa [strong_setPayload]
  | @build h h' xs rd new v model through hb' hc =>
    obtain ⟨h₀, hh, rfl⟩ := exists_build_of_construct hc
    have hne : id ≠ h₀.nextNode := by
      rintro rfl
      have hsize : h₀.cells.size = h.cells.size := hh.size
      exact Nat.lt_irrefl _ (hb.trans_eq hsize.symm)
    rw [cell_build, if_neg hne, hh.strong]
    exact hz
  | enter => rwa [(sameStore_enter _ _).strong]
  | leave => rwa [(sameStore_leave _ _).strong]
  | _ => exact hz

theorem Leads.strong_eq_zero (hl : Leads e e') (hs : e.Sound)
    (hb : id.number < e.heap.cells.size) (hz : (e.heap.cell id).strong = 0) :
    (e'.heap.cell id).strong = 0 := by
  have hkept : e'.Sound ∧ id.number < e'.heap.cells.size ∧ (e'.heap.cell id).strong = 0 := by
    induction hl with
    | refl => exact ⟨hs, hb, hz⟩
    | tail _ hd ih =>
      obtain ⟨d, hd⟩ := hd
      obtain ⟨hs', hb', hz'⟩ := ih
      exact ⟨hd.sound hs', hb'.trans_le (hd.size_le hs'), hd.strong_eq_zero hs' hb' hz'⟩
  exact hkept.2.2

/-! ## What a weak handle sees -/

theorem Sound.isAlive_iff_names (hs : e.Sound) (id : NodeId) :
    (e.heap.cell id).isAlive ↔ e.heap.Names e.owned id :=
  ⟨hs.heap.names_of_isAlive, hs.heap.isAlive_of_names⟩

theorem Sound.built_of_weak (hs : e.Sound) (hw : .weak id ∈ e.held) :
    id.number < e.heap.cells.size := by
  have ho : Holding.weak id ∈ e.owned :=
    List.mem_append_right _ (List.mem_append_left _ hw)
  exact Heap.built_of_weak
    (hs.heap.counter_ne_zero_of_owned (List.mem_flatMap.2 ⟨_, ho, List.mem_cons_self⟩))

/-- A weak handle can be upgraded exactly while its node has a strong handle anywhere. What it then
gives is a handle to that node, with the payload that was last put there; and once it gives
nothing, it gives nothing at any later moment. -/
theorem Run.upgrade_iff_names (hr : Run past e) (hw : .weak id ∈ e.held) :
    ((e.heap.cell id).isAlive ↔ e.heap.Names e.owned id) ∧
    ((∃ h', e.heap.upgrade? id = some h') ↔ e.heap.Names e.owned id) ∧
    (∀ h', e.heap.upgrade? id = some h' →
      (∀ other, h'.cell other = { e.heap.cell other with
        strong := (e.heap.cell other).strong + if other = id then 1 else 0 }) ∧
      (e.tasks = [] → lastInstalled past id = some (h'.payload id) ∧
        Run ((.other, e) :: past) { e with heap := h', held := .strong id :: e.held })) ∧
    (∀ (s : Session) slot into, s.heap = e.heap → s.weakNode slot = .ok id →
      ((∃ s', s.perform (.upgrade slot into) = .ok (.built id, s')) ↔
        e.heap.Names e.owned id) ∧
      (s.perform (.upgrade slot into) = .ok (.nothing, s) ↔ ¬ e.heap.Names e.owned id)) ∧
    (e.heap.upgrade? id = none → ∀ e', Leads e e' →
      e'.heap.upgrade? id = none ∧ (e'.heap.cell id).isAlive = false) := by
  have hs := hr.sound
  have halive := hs.isAlive_iff_names id
  refine ⟨halive, ?_, ?_, ?_, ?_⟩
  · rw [← halive]
    constructor
    · rintro ⟨h', hu⟩
      exact isAlive_iff.2 (upgrade?_eq_some hu).1
    · exact fun ha => ⟨_, upgrade?_of_isAlive ha⟩
  · intro h' hu
    have hcell := cell_of_upgrade? hu
    refine ⟨hcell, fun ht => ⟨?_, ?_⟩⟩
    · have hp : h'.payload id = e.heap.payload id := by rw [payload, hcell]; rfl
      rw [hp]
      exact hr.intact.idle hs ht (upgrade?_eq_some hu).1
    · obtain ⟨h, held, rd, ts⟩ := e
      subst ht
      exact hr.step (.deal (.upgrade hw hu))
  · intro s slot into hheap hslot
    rw [← halive, ← hheap, Session.perform_upgrade hslot]
    by_cases ha : (s.heap.cell id).isAlive
    · simp [ha]
    · simp [ha]
  · intro hn e' hl
    have hz := hl.strong_eq_zero hs (hs.built_of_weak hw) (upgrade?_eq_none.1 hn)
    exact ⟨upgrade?_eq_none.2 hz, by simp [Cell.isAlive, hz]⟩

/-- The node that links to itself can be upgraded when nothing but its own link holds it. A node
that was only held by its handle is gone with it, whatever comes later. -/
theorem upgrade_selfLink :
    (∃ past e, Run past e ∧ e.held = [.weak ⟨1⟩] ∧ ∃ h', e.heap.upgrade? ⟨1⟩ = some h') ∧
    ∃ past e, Run past e ∧ e.held = [.weak ⟨1⟩] ∧ e.heap.upgrade? ⟨1⟩ = none ∧
      ∀ e', Leads e e' → e'.heap.upgrade? ⟨1⟩ = none := by
  have hwatch {h : Heap} : h.Visible ([.strong ⟨1⟩] ++ []) (.node ⟨1⟩) := .handle List.mem_cons_self
  have hswap : [Holding.weak ⟨1⟩, .strong ⟨1⟩].Perm [.strong ⟨1⟩, .weak ⟨1⟩] := .swap _ _ _
  constructor
  · have hr := ((SelfLink.run.step (.deal (.downgrade hwatch))).step (.deal (.arrange hswap))).step
      .dropHandle |>.step .work
    refine ⟨_, _, hr, rfl, ((Run.upgrade_iff_names hr List.mem_cons_self).2.1).2 ?_⟩
    exact .inr (.inr ⟨⟨1⟩, rfl, .link⟩)
  · have hr := (((((SelfLink.run_built.step (.deal (.downgrade hwatch))).step
      (.deal (.arrange hswap))).step .dropHandle).step .work).step .work).step .work
    refine ⟨_, _, hr, rfl, rfl, fun e' hl => ?_⟩
    exact ((Run.upgrade_iff_names hr List.mem_cons_self).2.2.2.2 rfl e' hl).1

end Execution
end GraphStack
