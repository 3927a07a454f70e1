import GraphStack.Contention.Budget
import Mathlib

/-!
# Budgets under contention

`Arena.Move` says once what a step can do. From it come the accounts of a shared budget: the number
of live nodes is the number of slots that workers have taken and not given back, it never passes the
limit, and the peak together with the numbers that workers have not yet published is the greatest
number of live nodes there ever was.
-/

namespace GraphStack

namespace Phase

/-- A number that the peak does not know yet. -/
def unpublished? : Phase → Option Nat
  | taken live => some live
  | _ => none

/-- The number of live nodes that an attempt goes by. -/
def read? : Phase → Option Nat
  | read live => some live
  | _ => none

end Phase

namespace Worker

/-- The slots that a worker has taken and not given back. -/
def slots (w : Worker) : Nat := w.held + w.phase.unpublished?.toList.length

theorem slots_gain (w : Worker) : w.gain.slots = w.slots + 1 := Nat.add_right_comm ..

theorem slots_lose {w : Worker} (hh : w.held ≠ 0) : w.lose.slots + 1 = w.slots := by
  have hl : w.lose.slots = w.held - 1 + w.phase.unpublished?.toList.length := rfl
  have hw : w.slots = w.held + w.phase.unpublished?.toList.length := rfl
  omega

end Worker

namespace Arena

/-- The number that an action tries to exchange for the next one. -/
def exchanging? (a : Arena) : Action → Option Nat
  | .advance i _ =>
    (a.workers[i]?).bind fun w =>
      w.phase.read?.filter fun current => ∀ limit ∈ a.limit, current < limit
  | _ => none

def exchanges (a : Arena) (x : Action) : Bool :=
  match x with
  | .advance _ spurious => a.exchanging? x == some a.live && !spurious
  | _ => false

/-- The action takes one off the number of live nodes. -/
def returns (a : Arena) : Action → Bool
  | .giveBack i => (a.workers[i]?).any fun w => w.phase = .idle ∧ w.held ≠ 0
  | _ => false

def moments (a : Arena) : List Action → List (Arena × Action)
  | [] => []
  | x :: xs => (a, x) :: (a.step x).moments xs

def exchangeCount (a : Arena) (schedule : List Action) : Nat :=
  (a.moments schedule).countP fun m => m.1.exchanges m.2

def returnCount (a : Arena) (schedule : List Action) : Nat :=
  (a.moments schedule).countP fun m => m.1.returns m.2

def unpublished (a : Arena) : List Nat := a.workers.filterMap (·.phase.unpublished?)

/-- The peak as it will be when all workers have published. -/
def summit (a : Arena) : Nat := a.unpublished.foldr max a.peak

/-! ## One step -/

inductive Move (a : Arena) : Action → Arena → Prop
  /-- At most one worker looks at the number of live nodes, or gives up. -/
  | look {x : Action} {i : Nat} {w w' : Worker} (hw : a.workers[i]? = some w)
      (hp : w.phase.unpublished? = none) (hp' : w'.phase.unpublished? = none)
      (hh : w'.held = w.held) (hx : a.exchanges x = false) (hr : a.returns x = false) :
      Move a x (a.setWorker i w')
  | stay {x : Action} (hx : a.exchanges x = false) (hr : a.returns x = false) : Move a x a
  | take {i : Nat} {w : Worker} (hw : a.workers[i]? = some w) (hp : w.phase = .read a.live)
      (hl : ∀ limit ∈ a.limit, a.live < limit) :
      Move a (.advance i false)
        ({ a with live := countUp a.live }.setWorker i { w with phase := .taken (countUp a.live) })
  | publish {i live : Nat} {spurious : Bool} {w : Worker} (hw : a.workers[i]? = some w)
      (hp : w.phase = .taken live) :
      Move a (.advance i spurious)
        ({ a with peak := max a.peak live }.setWorker i { w.gain with phase := .idle })
  | giveBack {i : Nat} {w : Worker} (hw : a.workers[i]? = some w) (hp : w.phase = .idle)
      (hh : w.held ≠ 0) :
      Move a (.giveBack i)
        ({ a with live := countDown a.live }.setWorker i w.lose)
  | handOver {i j : Nat} {w other : Worker} (hw : a.workers[i]? = some w)
      (ho : a.workers[j]? = some other) (hn : i ≠ j) (hh : w.held ≠ 0) :
      Move a (.handOver i j)
        ((a.setWorker i w.lose).setWorker j other.gain)

theorem exchanging?_of_read {a : Arena} {i current : Nat} {w : Worker} (spurious : Bool)
    (hw : a.workers[i]? = some w) (hp : w.phase = .read current) :
    a.exchanging? (.advance i spurious) =
      if ∀ limit ∈ a.limit, current < limit then some current else none := by
  simp only [exchanging?, hw, hp, Phase.read?, Option.bind_some, Option.filter_some,
    decide_eq_true_eq]

theorem lt_of_exchanging? {a : Arena} {x : Action} {current : Nat}
    (hx : a.exchanging? x = some current) : ∀ limit ∈ a.limit, current < limit := by
  cases x with
  | advance i spurious =>
    obtain ⟨w, -, hf⟩ := Option.bind_eq_some_iff.1 hx
    exact of_decide_eq_true (Option.filter_eq_some_iff.1 hf).2
  | giveBack => cases hx
  | handOver => cases hx

theorem exchangeCount_cons (a : Arena) (x : Action) (xs : List Action) :
    a.exchangeCount (x :: xs) = (a.exchanges x).toNat + (a.step x).exchangeCount xs := by
  rw [exchangeCount, moments, List.countP_cons, Nat.add_comm]
  cases a.exchanges x <;> rfl

theorem returnCount_cons (a : Arena) (x : Action) (xs : List Action) :
    a.returnCount (x :: xs) = (a.returns x).toNat + (a.step x).returnCount xs := by
  rw [returnCount, moments, List.countP_cons, Nat.add_comm]
  cases a.returns x <;> rfl

theorem returns_giveBack {a : Arena} {i : Nat} {w : Worker} (hw : a.workers[i]? = some w)
    (hp : w.phase = .idle) (hh : w.held ≠ 0) : a.returns (.giveBack i) = true := by
  simp [returns, hw, hp, hh]

theorem exchanges_take {a : Arena} {i : Nat} {w : Worker} (hw : a.workers[i]? = some w)
    (hp : w.phase = .read a.live) (hl : ∀ limit ∈ a.limit, a.live < limit) :
    a.exchanges (.advance i false) = true := by
  rw [exchanges, exchanging?_of_read false hw hp, if_pos hl]
  simp

theorem exchanges_publish {a : Arena} {i live : Nat} {w : Worker} (spurious : Bool)
    (hw : a.workers[i]? = some w) (hp : w.phase = .taken live) :
    a.exchanges (.advance i spurious) = false := by
  simp [exchanges, exchanging?, hw, hp, Phase.read?]

theorem exchanging?_of_exchanges {a : Arena} {x : Action} (hx : a.exchanges x = true) :
    a.exchanging? x = some a.live := by
  cases x with
  | advance i spurious => exact beq_iff_eq.1 (Bool.and_eq_true_iff.1 hx).1
  | giveBack => cases hx
  | handOver => cases hx

theorem returns_of_exchanges {a : Arena} {x : Action} (hx : a.exchanges x = true) :
    a.returns x = false := by
  cases x with
  | advance => rfl
  | giveBack => cases hx
  | handOver => cases hx

theorem move_attempt {a : Arena} {i current : Nat} {spurious : Bool} {w : Worker}
    (hw : a.workers[i]? = some w) (hp : w.phase = .read current) :
    a.Move (.advance i spurious) (a.attempt i w current spurious) := by
  have hx := exchanging?_of_read spurious hw hp
  have hn : w.phase.unpublished? = none := by
    rw [hp]
    rfl
  unfold attempt
  cases hl : a.limit.filter (· ≤ current) with
  | some limit =>
    obtain ⟨hl, hle⟩ := Option.filter_eq_some_iff.1 hl
    refine .look hw hn rfl rfl ?_ rfl
    have hfull : ¬ ∀ limit ∈ a.limit, current < limit := by
      intro hroom
      exact absurd (hroom limit hl) (Nat.not_lt.2 (by simpa using hle))
    rw [exchanges, hx, if_neg hfull]
    rfl
  | none =>
    have hroom : ∀ limit ∈ a.limit, current < limit := by
      intro limit hm
      simpa using Option.filter_eq_none_iff.1 hl limit hm
    dsimp only
    split
    · next hc =>
      obtain ⟨rfl, rfl⟩ := hc
      exact .take hw hp hroom
    · next hc =>
      refine .look hw hn rfl rfl ?_ rfl
      rw [exchanges, hx, if_pos hroom]
      by_contra ht
      simp only [Bool.not_eq_false, Bool.and_eq_true, beq_iff_eq, Option.some.injEq,
        Bool.not_eq_true'] at ht
      exact hc ⟨ht.1.symm, ht.2⟩

theorem move_step (a : Arena) (x : Action) : a.Move x (a.step x) := by
  match x with
  | .advance i spurious =>
    cases hw : a.workers[i]? with
    | none =>
      simp only [step, hw]
      exact .stay (by simp [exchanges, exchanging?, hw]) rfl
    | some w =>
      simp only [step, hw, advance]
      cases hp : w.phase with
      | idle =>
        have hx : a.exchanges (.advance i spurious) = false := by
          simp [exchanges, exchanging?, hw, hp, Phase.read?]
        dsimp only
        split
        · exact .stay hx rfl
        · exact .look hw (by rw [hp]; rfl) rfl rfl hx rfl
      | read current => exact move_attempt hw hp
      | taken live => exact .publish hw hp
  | .giveBack i =>
    cases hw : a.workers[i]? with
    | none =>
      simp only [step, hw]
      exact .stay rfl (by simp [returns, hw])
    | some w =>
      simp only [step, hw, giveBack]
      split
      · next h => exact .giveBack hw h.1 h.2
      · next h => exact .stay rfl (by simpa [returns, hw] using h)
  | .handOver i j =>
    cases hw : a.workers[i]? with
    | none =>
      simp only [step, hw]
      exact .stay rfl rfl
    | some w =>
      cases ho : a.workers[j]? with
      | none =>
        simp only [step, hw, handOver, ho]
        exact .stay rfl rfl
      | some other =>
        simp only [step, hw, handOver, ho]
        split
        · next h => exact .handOver hw ho h.2.2 h.2.1
        · exact .stay rfl rfl

variable {a b : Arena} {x : Action} {i n : Nat} {w w' : Worker}

theorem total_setWorker (hw : a.workers[i]? = some w) (w' : Worker) :
    total Worker.slots (a.setWorker i w').workers + w.slots =
      total Worker.slots a.workers + w'.slots := total_set Worker.slots hw w'

theorem slots_le (hw : a.workers[i]? = some w) : w.slots ≤ total Worker.slots a.workers :=
  le_total Worker.slots (List.mem_of_getElem? hw)

theorem start_slots (limit : Option Nat) (attempts : List Nat) :
    total Worker.slots (starting limit attempts).workers = 0 := by
  refine total_eq_zero _ fun w hw => ?_
  obtain ⟨n, -, rfl⟩ := List.mem_map.1 hw
  rfl

/-- An exchange adds one to the slots, a slot given back takes one off. -/
theorem slots_move (hm : a.Move x b) :
    total Worker.slots b.workers + (a.returns x).toNat =
      total Worker.slots a.workers + (a.exchanges x).toNat := by
  cases hm with
  | @look x i w w' hw hp hp' hh hx hr =>
    have ht := total_setWorker hw w'
    have hsl : w'.slots = w.slots := by rw [Worker.slots, Worker.slots, hp, hp', hh]
    rw [hx, hr]
    omega
  | stay hx hr => rw [hx, hr]
  | @take i w hw hp hl =>
    have ht := total_setWorker hw { w with phase := .taken (countUp a.live) }
    have hsl : w.slots = w.held := by
      rw [Worker.slots, hp]
      rfl
    have hsl' : Worker.slots { w with phase := .taken (countUp a.live) } = w.held + 1 := rfl
    rw [exchanges_take hw hp hl]
    show total Worker.slots (a.setWorker i _).workers + 0 = total Worker.slots a.workers + 1
    omega
  | @publish i live spurious w hw hp =>
    have ht := total_setWorker hw { w.gain with phase := .idle }
    have hsl : Worker.slots { w.gain with phase := .idle } = w.slots := by
      rw [Worker.slots, Worker.slots, hp]
      rfl
    rw [exchanges_publish spurious hw hp]
    show total Worker.slots (a.setWorker i _).workers + 0 = total Worker.slots a.workers + 0
    omega
  | @giveBack i w hw hp hh =>
    have ht := total_setWorker hw w.lose
    have hsl := Worker.slots_lose hh
    rw [returns_giveBack hw hp hh]
    show total Worker.slots (a.setWorker i _).workers + 1 = total Worker.slots a.workers + 0
    omega
  | @handOver i j w other hw ho hn hh =>
    have ho' : (a.setWorker i w.lose).workers[j]? = some other :=
      (List.getElem?_set_ne hn).trans ho
    have ht := total_setWorker hw w.lose
    have ht' := total_setWorker ho' other.gain
    have hsl := Worker.slots_lose hh
    have hsl' := other.slots_gain
    show _ + 0 = _ + 0
    omega

theorem live_of_move (hm : a.Move x b) :
    b.live = if a.exchanges x then countUp a.live
      else if a.returns x then countDown a.live else a.live := by
  cases hm with
  | look hw hp hp' hh hx hr =>
    rw [hx, hr]
    rfl
  | stay hx hr =>
    rw [hx, hr]
    rfl
  | take hw hp hl =>
    rw [exchanges_take hw hp hl]
    rfl
  | publish hw hp =>
    rw [exchanges_publish _ hw hp]
    rfl
  | giveBack hw hp hh =>
    rw [returns_giveBack hw hp hh]
    rfl
  | handOver hw ho hn hh => rfl

theorem limit_of_move (hm : a.Move x b) : b.limit = a.limit := by
  cases hm <;> rfl

/-! ## Numbers that are not yet published -/

theorem le_summit_iff :
    n ≤ a.summit ↔ n ≤ a.peak ∨ ∃ m ∈ a.unpublished, n ≤ m := by
  unfold summit
  induction a.unpublished with
  | nil => simp
  | cons m ms ih => simp [ih, or_left_comm]

/-- A number that a worker other than `i` has not published. -/
def Elsewhere (a : Arena) (i n : Nat) : Prop :=
  ∃ (j : Nat) (v : Worker), j ≠ i ∧ a.workers[j]? = some v ∧ v.phase.unpublished? = some n

theorem mem_unpublished (hw : a.workers[i]? = some w) :
    n ∈ a.unpublished ↔ w.phase.unpublished? = some n ∨ a.Elsewhere i n := by
  rw [unpublished, List.mem_filterMap]
  constructor
  · rintro ⟨v, hv, hn⟩
    obtain ⟨j, hj⟩ := List.mem_iff_getElem?.1 hv
    by_cases he : j = i
    · subst he
      rw [hw] at hj
      cases hj
      exact .inl hn
    · exact .inr ⟨j, v, he, hj, hn⟩
  · rintro (hn | ⟨j, v, -, hv, hn⟩)
    · exact ⟨w, List.mem_of_getElem? hw, hn⟩
    · exact ⟨v, List.mem_of_getElem? hv, hn⟩

theorem getElem?_setWorker (hw : a.workers[i]? = some w) (w' : Worker) :
    (a.setWorker i w').workers[i]? = some w' :=
  List.getElem?_set_self (List.getElem?_eq_some_iff.1 hw).1

theorem set_workers_self (hw : a.workers[i]? = some w) : a.workers.set i w = a.workers := by
  obtain ⟨hi, rfl⟩ := List.getElem?_eq_some_iff.1 hw
  exact List.set_getElem_self hi

theorem elsewhere_setWorker : (a.setWorker i w').Elsewhere i n ↔ a.Elsewhere i n := by
  have hj (j : Nat) (hn : j ≠ i) : (a.setWorker i w').workers[j]? = a.workers[j]? :=
    List.getElem?_set_ne hn.symm
  constructor
  · rintro ⟨j, v, hne, hv, hn⟩
    exact ⟨j, v, hne, (hj j hne).symm.trans hv, hn⟩
  · rintro ⟨j, v, hne, hv, hn⟩
    exact ⟨j, v, hne, (hj j hne).trans hv, hn⟩

/-- The summit is made of the peak, the number of one worker and those of the others. -/
theorem le_summit_at (hw : a.workers[i]? = some w) :
    n ≤ a.summit ↔ n ≤ a.peak ∨ (∃ m, w.phase.unpublished? = some m ∧ n ≤ m) ∨
      ∃ m, a.Elsewhere i m ∧ n ≤ m := by
  rw [le_summit_iff]
  simp only [mem_unpublished hw, or_and_right, exists_or]

theorem le_summit_setWorker (hw : a.workers[i]? = some w) :
    n ≤ (a.setWorker i w').summit ↔ n ≤ a.peak ∨ (∃ m, w'.phase.unpublished? = some m ∧ n ≤ m) ∨
      ∃ m, a.Elsewhere i m ∧ n ≤ m := by
  rw [le_summit_at (getElem?_setWorker hw w')]
  simp only [elsewhere_setWorker]
  rfl

/-- Who neither takes nor publishes leaves the summit as it was. -/
theorem summit_setWorker (hw : a.workers[i]? = some w)
    (hu : w'.phase.unpublished? = w.phase.unpublished?) :
    (a.setWorker i w').summit = a.summit := by
  refine eq_of_forall_le_iff fun n => ?_
  rw [le_summit_setWorker hw, le_summit_at hw, hu]

theorem summit_take {live : Nat} (hw : a.workers[i]? = some w)
    (hu : w.phase.unpublished? = none) (hu' : w'.phase.unpublished? = some live) :
    (a.setWorker i w').summit = max live a.summit := by
  refine eq_of_forall_le_iff fun n => ?_
  rw [le_max_iff, le_summit_setWorker hw, le_summit_at hw, hu, hu']
  simp only [Option.some.injEq, exists_eq_left', reduceCtorEq, false_and, exists_false, false_or]
  exact or_left_comm

theorem summit_publish {live : Nat} (hw : a.workers[i]? = some w)
    (hu : w.phase.unpublished? = some live) (hu' : w'.phase.unpublished? = none) :
    ({ a with peak := max a.peak live }.setWorker i w').summit = a.summit := by
  have hw' : { a with peak := max a.peak live }.workers[i]? = some w := hw
  refine eq_of_forall_le_iff fun n => ?_
  rw [le_summit_setWorker hw', le_summit_at hw, hu, hu']
  simp only [Option.some.injEq, exists_eq_left', reduceCtorEq, false_and, exists_false, false_or,
    le_max_iff, or_assoc]
  rfl

/-- A worker that succeeds raises the summit to the number it put in place, and nothing else moves
it. -/
theorem summit_of_move (hm : a.Move x b) :
    b.summit = if a.exchanges x then max (countUp a.live) a.summit else a.summit := by
  cases hm with
  | look hw hp hp' hh hx hr =>
    rw [hx]
    exact summit_setWorker hw (hp'.trans hp.symm)
  | stay hx hr =>
    rw [hx]
    rfl
  | take hw hp hl =>
    have hw' : { a with live := countUp a.live }.workers[_]? = some _ := hw
    rw [exchanges_take hw hp hl]
    exact summit_take hw' (by rw [hp]; rfl) rfl
  | publish hw hp =>
    rw [exchanges_publish _ hw hp]
    exact summit_publish hw (by rw [hp]; rfl) rfl
  | @giveBack i w hw hp hh =>
    have hw' : { a with live := countDown a.live }.workers[i]? = some w := hw
    exact summit_setWorker hw' (show w.lose.phase.unpublished? = _ from rfl)
  | @handOver i j w other hw ho hn hh =>
    have ho' : (a.setWorker i w.lose).workers[j]? = some other :=
      (List.getElem?_set_ne hn).trans ho
    have hlose : (a.setWorker i w.lose).summit = a.summit :=
      summit_setWorker hw (show w.lose.phase.unpublished? = _ from rfl)
    exact (summit_setWorker ho' (show other.gain.phase.unpublished? = _ from rfl)).trans hlose

theorem start_summit (limit : Option Nat) (attempts : List Nat) :
    (starting limit attempts).summit = (starting limit attempts).live := by
  have hu : (starting limit attempts).unpublished = [] := by
    refine List.filterMap_eq_nil_iff.2 fun w hw => ?_
    obtain ⟨n, -, rfl⟩ := List.mem_map.1 hw
    rfl
  rw [summit, hu]
  rfl

/-! ## What every step keeps -/

/-- What is so at every moment of a run with a limit. -/
structure Sound (limit : Nat) (a : Arena) : Prop where
  limited : a.limit = some limit
  lent : a.live = total Worker.slots a.workers
  within : a.live ≤ limit
  crest : a.live ≤ a.summit

theorem countUp_of_lt {limit : UInt64} (hn : n < limit.toNat) : countUp n = n + 1 := by
  have hlt : limit.toNat < twoTo 64 := limit.toNat_lt
  exact if_neg (by omega)

theorem countDown_of_ne_zero (hz : n ≠ 0) : countDown n = n - 1 := if_neg hz

namespace Sound

variable {limit : UInt64}

theorem start (limit : UInt64) (attempts : List Nat) :
    Sound limit.toNat (starting (some limit.toNat) attempts) where
  limited := rfl
  lent := (start_slots _ attempts).symm
  within := Nat.zero_le _
  crest := Nat.zero_le _

theorem live_ne_zero (hs : Sound limit.toNat a) (hr : a.returns x = true) : a.live ≠ 0 := by
  cases x with
  | giveBack i =>
    cases hw : a.workers[i]? with
    | none => simp [returns, hw] at hr
    | some w =>
      have hh : w.held ≠ 0 := by
        simp only [returns, hw, Option.any_some, decide_eq_true_eq] at hr
        exact hr.2
      have hle := slots_le hw
      have hl := hs.lent
      have hd : w.slots = w.held + w.phase.unpublished?.toList.length := rfl
      omega
  | advance => cases hr
  | handOver => cases hr

theorem countDown_live (hs : Sound limit.toNat a) (hr : a.returns x = true) :
    countDown a.live = a.live - 1 := countDown_of_ne_zero (hs.live_ne_zero hr)

theorem countUp_live (hs : Sound limit.toNat a) (hl : ∀ l ∈ a.limit, a.live < l) :
    countUp a.live = a.live + 1 := countUp_of_lt (hl _ hs.limited)

/-- An exchange adds one to the number of live nodes, a slot given back takes one off. -/
theorem live_move (hs : Sound limit.toNat a) (hm : a.Move x b) :
    b.live + (a.returns x).toNat = a.live + (a.exchanges x).toNat := by
  rw [live_of_move hm]
  cases hx : a.exchanges x with
  | true =>
    have hl := lt_of_exchanging? (exchanging?_of_exchanges hx)
    rw [returns_of_exchanges hx, if_pos rfl, hs.countUp_live hl]
    rfl
  | false =>
    cases hr : a.returns x with
    | true =>
      have hz := hs.live_ne_zero hr
      rw [if_neg Bool.false_ne_true, if_pos rfl, hs.countDown_live hr]
      exact Nat.sub_add_cancel (Nat.pos_of_ne_zero hz)
    | false => rfl

theorem summit_move (hs : Sound limit.toNat a) (hm : a.Move x b) :
    b.summit = max b.live a.summit := by
  rw [summit_of_move hm, live_of_move hm]
  cases hx : a.exchanges x with
  | true => rfl
  | false =>
    rw [if_neg Bool.false_ne_true, if_neg Bool.false_ne_true]
    refine (max_eq_right ?_).symm
    cases hr : a.returns x with
    | true =>
      rw [if_pos rfl, hs.countDown_live hr]
      exact (Nat.sub_le _ _).trans hs.crest
    | false => exact hs.crest

theorem within_move (hs : Sound limit.toNat a) (hm : a.Move x b) : b.live ≤ limit.toNat := by
  have hlive := hs.live_move hm
  cases hx : a.exchanges x with
  | true =>
    have hlt := lt_of_exchanging? (exchanging?_of_exchanges hx) _ hs.limited
    rw [hx, Bool.toNat_true] at hlive
    omega
  | false =>
    have hle := hs.within
    rw [hx, Bool.toNat_false] at hlive
    omega

theorem move (hs : Sound limit.toNat a) (hm : a.Move x b) : Sound limit.toNat b where
  limited := (limit_of_move hm).trans hs.limited
  lent := by
    have hlent := hs.lent
    have hlive := hs.live_move hm
    have hslots := slots_move hm
    omega
  within := hs.within_move hm
  crest := (hs.summit_move hm).symm ▸ le_max_left _ _

/-! ## Runs -/

theorem run (hs : Sound limit.toNat a) (xs : List Action) : Sound limit.toNat (a.run xs) := by
  induction xs generalizing a with
  | nil => exact hs
  | cons x xs ih => exact ih (hs.move (a.move_step x))

theorem of_mem_moments {xs : List Action} (hs : Sound limit.toNat a)
    (hm : (b, x) ∈ a.moments xs) : Sound limit.toNat b := by
  induction xs generalizing a with
  | nil => cases hm
  | cons y xs ih =>
    rcases List.mem_cons.1 hm with he | hm
    · cases he
      exact hs
    · exact ih (hs.move (a.move_step y)) hm

theorem live_run (hs : Sound limit.toNat a) (xs : List Action) :
    (a.run xs).live + a.returnCount xs = a.live + a.exchangeCount xs := by
  induction xs generalizing a with
  | nil => rfl
  | cons x xs ih =>
    have hstep := hs.live_move (a.move_step x)
    have hrest := ih (hs.move (a.move_step x))
    have hrun : a.run (x :: xs) = (a.step x).run xs := rfl
    rw [hrun, returnCount_cons, exchangeCount_cons]
    omega

/-- The summit is the greatest number of live nodes of the run, if it was at its start. -/
theorem summit_run (hs : Sound limit.toNat a) (hz : a.summit = a.live) (xs : List Action) :
    IsGreatest {n | ∃ before, before <+: xs ∧ (a.run before).live = n} (a.run xs).summit := by
  induction xs using List.reverseRecOn with
  | nil =>
    rw [show (a.run []).summit = a.live from hz]
    refine ⟨⟨[], List.nil_prefix, rfl⟩, ?_⟩
    rintro n ⟨before, hb, rfl⟩
    rw [List.prefix_nil.1 hb]
    exact le_refl _
  | append_singleton xs x ih =>
    have hset : {n | ∃ before, before <+: xs ++ [x] ∧ (a.run before).live = n} =
        insert (a.run (xs ++ [x])).live
          {n | ∃ before, before <+: xs ∧ (a.run before).live = n} := by
      ext n
      simp only [List.prefix_concat_iff, Set.mem_ofPred_eq, Set.mem_insert_iff, or_and_right,
        exists_or, exists_eq_left, eq_comm]
    have hrun : a.run (xs ++ [x]) = (a.run xs).step x := List.foldl_append
    rw [hset, hrun, (hs.run xs).summit_move ((a.run xs).move_step x)]
    exact ih.insert _

end Sound

theorem summit_eq_peak (hi : ∀ w ∈ a.workers, w.phase = .idle) : a.summit = a.peak := by
  have hu : a.unpublished = [] := by
    refine List.filterMap_eq_nil_iff.2 fun w hw => ?_
    rw [hi w hw]
    rfl
  rw [summit, hu]
  rfl

/-- Whatever the schedule: the number of live nodes is that of the exchanges that succeeded less
that of the slots given back, it stays within the limit, the words that hold it never wrap around
at either end, and the greatest number of live nodes there ever was is the peak once all workers
have published. -/
theorem shared_accounts (limit : UInt64) (attempts : List Nat) (schedule : List Action) :
    let start := starting (some limit.toNat) attempts
    let now := start.run schedule
    let lives := {n | ∃ before, before <+: schedule ∧ (start.run before).live = n}
    now.live + start.returnCount schedule = start.exchangeCount schedule ∧
    now.live ≤ limit.toNat ∧
    (∀ b x current, (b, x) ∈ start.moments schedule → b.exchanging? x = some current →
      current + 1 < 2 ^ 64) ∧
    (∀ b x, (b, x) ∈ start.moments schedule → b.returns x = true → b.live ≠ 0) ∧
    IsGreatest lives now.summit ∧
    ((∀ w ∈ now.workers, w.phase = .idle) → IsGreatest lives now.peak) := by
  intro start now lives
  have hs : Sound limit.toNat start := .start limit attempts
  have hgreatest : IsGreatest lives now.summit := hs.summit_run (start_summit _ _) schedule
  refine ⟨?_, (hs.run schedule).within, ?_, ?_, hgreatest, ?_⟩
  · exact (hs.live_run schedule).trans (Nat.zero_add _)
  · intro b x current hm hx
    have hlt := lt_of_exchanging? hx _ (hs.of_mem_moments hm).limited
    have := limit.toNat_lt
    omega
  · exact fun b x hm hr => (hs.of_mem_moments hm).live_ne_zero hr
  · intro hi
    rw [← summit_eq_peak hi]
    exact hgreatest

/-- Two workers compete for the only slot: one exchange fails for no reason and one because the
other worker was faster, the slot changes hands and is given back. -/
theorem shared_accounts_contended :
    let start := starting (some 1) [1, 1]
    let schedule := [.advance 0 false, .advance 1 false, .advance 0 true, .advance 0 false,
      .advance 1 false, .advance 0 false, .advance 1 false, .handOver 0 1, .giveBack 1]
    let lives := {n | ∃ before, before <+: schedule ∧ (start.run before).live = n}
    start.exchangeCount schedule = 1 ∧ start.returnCount schedule = 1 ∧
    (start.run schedule).live = 0 ∧ IsGreatest lives 1 := by
  intro start schedule lives
  obtain ⟨hlive, -, -, -, -, hpeak⟩ := shared_accounts 1 [1, 1] schedule
  have hx : start.exchangeCount schedule = 1 := by decide
  have hr : start.returnCount schedule = 1 := by decide
  have hi : ∀ w ∈ (start.run schedule).workers, w.phase = .idle := by decide
  refine ⟨hx, hr, ?_, hpeak hi⟩
  have hlive : (start.run schedule).live + start.returnCount schedule =
    start.exchangeCount schedule := hlive
  omega

end Arena
end GraphStack
