import GraphStack.Proofs.Contention.Outcome
import GraphStack.Proofs.Contention.Payload

/-!
# Schedules without contention

In `Arena.oneByOne`, `Arena.handBack` and `Exchange.readersThenWriter` one party finishes before the
next one starts. A block of steps then changes one party only, and what it makes of that party does
not depend on the others. So these schedules are long enough: every worker has made all its
attempts, every slot is given back, and every call has ended.
-/

namespace GraphStack

namespace Arena

variable {a : Arena} {i : Nat} {w : Worker}

/-- Undisturbed, a worker gets on with every step. -/
theorem run_advance (n : Nat) (hw : a.workers[i]? = some w)
    (hr : ∀ n ∈ w.phase.read?, n = a.live) :
    ∃ w', (a.run (List.replicate n (.advance i false))).workers = a.workers.set i w' ∧
      w'.toDo ≤ w.toDo - n ∧ w'.tries = w.tries := by
  induction n generalizing a w with
  | zero => exact ⟨w, (set_workers_self hw).symm, le_refl _, rfl⟩
  | succ n ih =>
    obtain ⟨v, hset, hread, hle, htries⟩ := getsOn_step hw fun n hn => .inl (hr n hn)
    have hv : (a.step (.advance i false)).workers[i]? = some v := by
      rw [hset]
      exact getElem?_setWorker hw v
    obtain ⟨w', hrun, hle', htries'⟩ := ih hv hread
    refine ⟨w', ?_, by omega, htries'.trans htries⟩
    rw [hset, List.set_set] at hrun
    exact hrun

theorem run_giveBack (n : Nat) (hw : a.workers[i]? = some w) (hp : w.phase = .idle) :
    (a.run (List.replicate n (.giveBack i))).workers =
      a.workers.set i { w with held := w.held - n } := by
  induction n generalizing a w with
  | zero => exact (set_workers_self hw).symm
  | succ n ih =>
    have hstep : (a.step (.giveBack i)).workers = a.workers.set i w.lose := by
      by_cases hh : w.held = 0
      · have hlose : w.lose = w := by rw [Worker.lose, hh, Nat.zero_sub, ← hh]
        simp only [step, hw, giveBack, hh, ne_eq, not_true, and_false, if_false]
        rw [hlose, set_workers_self hw]
      · simp only [step, hw, giveBack, if_pos (And.intro hp hh)]
        rfl
    have hlose : (a.step (.giveBack i)).workers[i]? = some w.lose := by
      rw [hstep]
      exact getElem?_setWorker hw w.lose
    have hrun := ih hlose hp
    rw [hstep, List.set_set] at hrun
    have hheld : w.held - (n + 1) = w.held - 1 - n := by omega
    rw [hheld]
    exact hrun

section
variable (block : Nat → List Action) {P Q : Worker → Prop}
  (hblock : ∀ {a : Arena} {i w}, a.workers[i]? = some w → P w →
    ∃ w', (a.run (block i)).workers = a.workers.set i w' ∧ Q w')
include hblock

/-- A block changes its worker only, and turns one that satisfies `P` into one that satisfies `Q`.
So after some blocks the workers that had their turn satisfy `Q`, and the others still `P`. -/
theorem run_turns (hP : ∀ w ∈ a.workers, P w) {k : Nat} (hk : k ≤ a.workers.length) :
    let b := a.run ((List.range k).flatMap block)
    b.workers.length = a.workers.length ∧
      ∀ j w, b.workers[j]? = some w → if j < k then Q w else P w := by
  induction k with
  | zero => exact ⟨rfl, fun j w hw => hP w (List.mem_of_getElem? hw)⟩
  | succ k ih =>
    obtain ⟨hlength, hall⟩ := ih (Nat.le_of_succ_le hk)
    have hlt : k < (a.run ((List.range k).flatMap block)).workers.length := hlength.symm ▸ hk
    have hw := List.getElem?_eq_getElem hlt
    have hPw := hall k _ hw
    rw [if_neg (Nat.lt_irrefl k)] at hPw
    obtain ⟨w', hset, hQ⟩ := hblock hw hPw
    rw [List.range_succ, List.flatMap_append, List.flatMap_singleton, run_append]
    refine ⟨by rw [hset, List.length_set, hlength], fun j v hv => ?_⟩
    rw [hset] at hv
    by_cases hj : j = k
    · subst hj
      rw [List.getElem?_set_self hlt] at hv
      cases hv
      rwa [if_pos (Nat.lt_succ_self j)]
    · rw [List.getElem?_set_ne (Ne.symm hj)] at hv
      have hv := hall j v hv
      have hiff : j < k + 1 ↔ j < k := by omega
      rwa [if_congr hiff rfl rfl]

theorem run_allTurns (hP : ∀ w ∈ a.workers, P w) :
    let b := a.run ((List.range a.workers.length).flatMap block)
    b.workers.length = a.workers.length ∧ ∀ w ∈ b.workers, Q w := by
  obtain ⟨hlength, hall⟩ := run_turns block hblock hP (le_refl _)
  refine ⟨hlength, fun w hw => ?_⟩
  obtain ⟨j, hj⟩ := List.mem_iff_getElem?.1 hw
  have hlt : j < a.workers.length := hlength ▸ (List.getElem?_eq_some_iff.1 hj).1
  have hQ := hall j w hj
  rwa [if_pos hlt] at hQ

end

theorem giveBack_not_mem_oneByOne (workers attempts i : Nat) :
    .giveBack i ∉ oneByOne workers attempts := by
  intro hm
  obtain ⟨j, -, hj⟩ := List.mem_flatMap.1 hm
  cases List.eq_of_mem_replicate hj

variable (limit : Option Nat) (workers attempts : Nat)

/-- Three steps are enough for an attempt. -/
theorem workers_oneByOne :
    let full := (starting limit (List.replicate workers attempts)).run (oneByOne workers attempts)
    full.workers.length = workers ∧ ∀ w ∈ full.workers, w.IsDone ∧ w.tries = attempts := by
  have hworkers : (starting limit (List.replicate workers attempts)).workers =
      List.replicate workers (Worker.starting attempts) := List.map_replicate
  have hturns := run_allTurns (fun i => List.replicate (3 * attempts) (.advance i false))
    (a := starting limit (List.replicate workers attempts))
    (P := (· = Worker.starting attempts)) (Q := fun w => w.IsDone ∧ w.tries = attempts) ?_ ?_
  · rwa [hworkers, List.length_replicate] at hturns
  · rintro a i w hw rfl
    obtain ⟨w', hset, hle, htries⟩ := run_advance (3 * attempts) hw fun n hn => (nomatch hn)
    have hstart : (Worker.starting attempts).toDo = 3 * attempts := rfl
    refine ⟨w', hset, w'.isDone_of_toDo (by omega), htries.trans ?_⟩
    rw [Worker.tries_of_idle rfl]
    rfl
  · rw [hworkers]
    exact fun w hw => List.eq_of_mem_replicate hw

theorem done_oneByOne :
    ((starting limit (List.replicate workers attempts)).run (oneByOne workers attempts)).Done :=
  fun w hw => ((workers_oneByOne limit workers attempts).2 w hw).1

/-- No worker holds more slots than it has made attempts, so `handBack` leaves none. -/
theorem run_handBack :
    let full := (starting limit (List.replicate workers attempts)).run (oneByOne workers attempts)
    let empty := full.run (handBack workers attempts)
    empty.Done ∧ empty.held = 0 ∧ empty.live = 0 := by
  intro full empty
  obtain ⟨hlength, hfull⟩ := workers_oneByOne limit workers attempts
  have hdone : empty.Done := (run_of_done (fun w hw => (hfull w hw).1) _).1
  have hheld : empty.held = 0 := by
    have hturns := run_allTurns (fun i => List.replicate attempts (.giveBack i)) (a := full)
      (P := fun w => w.IsDone ∧ w.tries = attempts) (Q := (·.held = 0)) ?_ hfull
    · rw [hlength] at hturns
      exact total_eq_zero _ hturns.2
    · rintro a i w hw ⟨hd, htries⟩
      refine ⟨_, run_giveBack attempts hw hd.1, ?_⟩
      rw [Worker.tries_of_isDone hd] at htries
      exact Nat.sub_eq_zero_of_le (by omega)
  have htallied : empty.Tallied := by
    have hstart : (starting limit (List.replicate workers attempts)).Tallied := by
      rw [Tallied, start_slots]
      rfl
    exact (hstart.run _).run _
  refine ⟨hdone, hheld, ?_⟩
  rw [htallied, slots_of_done hdone, hheld]
  exact Nat.zero_mod _

end Arena

namespace Exchange

variable {α : Type} (empty v : α) (panicking : Option Nat)

theorem run_append (e : Exchange α) (before later : List (Nat × Deed α)) :
    e.run empty (before ++ later) = (e.run empty before).run empty later := List.foldl_append

def reader (i : Nat) : Party α := ⟨[], [if panicking == some i then none else some v], [], []⟩

theorem run_reader (before behind : List (Party α)) :
    run empty ⟨v, 0, before ++ ⟨[], [], [], []⟩ :: behind⟩
        [(before.length, .beginRead), (before.length, .endRead (panicking == some before.length))] =
      ⟨v, 0, before ++ reader v panicking before.length :: behind⟩ := by
  simp [run, step, deed, setParty, reader]

/-- After some of the reads, the parties that had their turn have read, and the others are still to
come. -/
theorem run_readers {k parties : Nat} (hk : k ≤ parties) :
    (starting v parties).run empty
        ((List.range k).flatMap fun i => [(i, .beginRead), (i, .endRead (panicking == some i))]) =
      ⟨v, 0, (List.range k).map (reader v panicking) ++
        List.replicate (parties - k) ⟨[], [], [], []⟩⟩ := by
  induction k with
  | zero => rfl
  | succ k ih =>
    have hrest : parties - k = parties - (k + 1) + 1 := by omega
    have hread := run_reader empty v panicking ((List.range k).map (reader v panicking))
      (List.replicate (parties - (k + 1)) ⟨[], [], [], []⟩)
    rw [List.length_map, List.length_range] at hread
    rw [List.range_succ, List.flatMap_append, List.flatMap_singleton, run_append,
      ih (Nat.le_of_succ_le hk), hrest, List.replicate_succ]
    refine hread.trans ?_
    rw [List.map_append, List.map_singleton, List.append_assoc, List.singleton_append]

/-- All reads see the first payload and have ended, those that panicked too, so the write goes
through and gives the first payload to the writer. -/
theorem run_readersThenWriter (readers : Nat) (next : α) :
    (starting v (readers + 1)).run empty (readersThenWriter readers panicking next) =
      ⟨next, 0, (List.range readers).map (reader v panicking) ++ [⟨[], [], [v], []⟩]⟩ := by
  rw [readersThenWriter, run_append, run_readers empty v panicking (Nat.le_add_right readers 1),
    Nat.add_sub_cancel_left]
  simp [run, step, deed, handOut, Exchange.swap, setParty]

end Exchange
end GraphStack
