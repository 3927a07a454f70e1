import GraphStack.Proofs.Execution.Teardown

/-!
# The order of releases does not matter

At a moment of a run some of what is held is let go of, while the rest is kept. Whichever thing
goes first, and in whichever order the items of lists and the entries of maps go, the same nodes
are destroyed, the same counts and payloads remain, and the budgets stand at the same numbers.
-/

namespace GraphStack.Execution

open Heap

variable {past : List (Deed × Execution)} {e : Execution} {kept xs ys : List Holding}
  {h₁ h₂ : Heap}

/-- Releases that are under way end alike. -/
theorem Sound.alike_ends (hs : e.Sound) (h₁e : e.heap.Ends e.tasks h₁)
    (h₂e : e.heap.Ends e.tasks h₂) : Alike h₁ h₂ := by
  have hu : Unwinding e.heap (e.held ++ e.reading.map .strong) e.heap
      (Task.holdingsAll e.tasks ++ []) (Task.closingsAll e.tasks ++ []) := by
    rw [List.append_nil, List.append_nil]
    exact hs.unwinding (.refl _) hs.closing
  exact (h₁e.unwinding hu hs.backed).alike (h₂e.unwinding hu hs.backed)

theorem Sound.alike_releases (hs : e.Sound) (ht : e.tasks = []) (hp : e.held.Perm (xs ++ kept))
    (hxy : xs.Perm ys) (hx : e.heap.Releases xs h₁) (hy : e.heap.Releases ys h₂) :
    Alike h₁ h₂ := by
  obtain ⟨kept, hu⟩ := hs.unwinding_held ht hp
  have hu₁ : Unwinding e.heap kept e.heap (xs ++ []) [] := by
    rw [List.append_nil]
    exact hu
  have hu₂ : Unwinding e.heap kept e.heap (ys ++ []) [] := by
    rw [List.append_nil]
    exact hu.regroup (hu.sound.perm (hxy.append_right _))
  exact (hx.unwinding hu₁).alike (hy.unwinding hu₂)

/-- What is let go of at a moment of a run leaves the same behind in every order, and so does the
rest of a release that is under way. -/
theorem Run.releases_commute (hr : Run past e) :
    (∀ h₁ h₂, e.heap.Ends e.tasks h₁ → e.heap.Ends e.tasks h₂ → Alike h₁ h₂) ∧
    (∀ xs ys kept, e.tasks = [] → e.held.Perm (xs ++ kept) → xs.Perm ys →
      Alike (xs.foldl Heap.releaseHolding e.heap) (ys.foldl Heap.releaseHolding e.heap) ∧
      ∀ h₁ h₂, e.heap.Releases xs h₁ → e.heap.Releases ys h₂ → Alike h₁ h₂) := by
  have hs := hr.sound
  refine ⟨fun h₁ h₂ => hs.alike_ends, fun xs ys kept ht hp hxy => ⟨?_, ?_⟩⟩
  · exact hs.alike_releases ht hp hxy (.foldl _ xs) (.foldl _ ys)
  · intro h₁ h₂
    exact hs.alike_releases ht hp hxy

/-! ## A frame in two places

The payload of the second node links to the first one, and a map holds both. In one order of the
entries the first node loses a handle and is reached along the link later, in the other the walk
along the link leaves it to the map. -/

namespace SharedFrame

def framed : Heap := (SelfLink.built.addStrong ⟨1⟩).build .single (.node ⟨1⟩) none

def entries : List (String × Value) := [("inner", .node ⟨1⟩), ("outer", .node ⟨2⟩)]

def gathered : Heap := (framed.addStrong ⟨1⟩).plant entries

def felled : Heap := (gathered.dropCopy ⟨0⟩).fell ⟨0⟩

theorem exists_run :
    ∃ past, Run past ⟨gathered, [.value (.map ⟨0⟩ entries), .strong ⟨1⟩], [], []⟩ := by
  have h1 := SelfLink.run_built.step (.deal (.clone List.mem_cons_self))
  have hbuild : (SelfLink.built.addStrong ⟨1⟩).construct .single (.node ⟨1⟩) none =
      (.ok ⟨2⟩, framed) := rfl
  have hnone : ∀ b ∈ (none : Option BudgetId), b.index < SelfLink.opened.budgets.size := nofun
  have h2 : Run _ ⟨framed, [.strong ⟨2⟩, .strong ⟨1⟩], [], []⟩ :=
    (h1.step (.deal .link)).step (.build hnone hbuild)
  have h3 := (h2.step (.deal .link)).step (.deal (.arrange (.swap _ _ _)))
  have h4 := (h3.step (.deal (.clone List.mem_cons_self))).step (.deal .link)
  have hp : List.Perm [.value (.node ⟨1⟩), .strong ⟨1⟩, .value (.node ⟨2⟩)]
      [Holding.value (.node ⟨1⟩), .value (.node ⟨2⟩), .strong ⟨1⟩] := .cons _ (.swap _ _ _)
  have hm : Dealing [] (framed.addStrong ⟨1⟩)
      (((entries.map (·.2)).map .value) ++ [.strong ⟨1⟩])
      gathered [.value (.map ⟨0⟩ entries), .strong ⟨1⟩] := .map
  exact ⟨_, (h4.step (.deal (.arrange hp))).step (.deal hm)⟩

theorem ends_backward : gathered.Ends [.value (.map ⟨0⟩ entries)]
    (felled.run [.values [.node ⟨2⟩, .node ⟨1⟩], .finish]) :=
  .task (.reorder (.swap _ _ _) (.run felled _))

end SharedFrame

/-- The map goes last with its entries in order, or first with its entries from the last to the
first. -/
theorem releases_commute_shared : ∃ past e, Run past e ∧ e.tasks = [] ∧
    e.held.Perm ([.strong ⟨1⟩, .value (.map ⟨0⟩ SharedFrame.entries)] ++ []) ∧
    ∃ h₂, e.heap.Releases [.value (.map ⟨0⟩ SharedFrame.entries), .strong ⟨1⟩] h₂ ∧
      Alike ([.strong ⟨1⟩, .value (.map ⟨0⟩ SharedFrame.entries)].foldl Heap.releaseHolding e.heap)
        h₂ := by
  obtain ⟨past, hr⟩ := SharedFrame.exists_run
  have hback : Releases SharedFrame.gathered
      [.value (.map ⟨0⟩ SharedFrame.entries), .strong ⟨1⟩] _ :=
    .cons (.value SharedFrame.ends_backward) (.foldl _ [.strong ⟨1⟩])
  have hp : [Holding.value (.map ⟨0⟩ SharedFrame.entries), .strong ⟨1⟩].Perm
      ([.strong ⟨1⟩, .value (.map ⟨0⟩ SharedFrame.entries)] ++ []) := .swap _ _ _
  have hxy : [Holding.strong ⟨1⟩, .value (.map ⟨0⟩ SharedFrame.entries)].Perm
      [.value (.map ⟨0⟩ SharedFrame.entries), .strong ⟨1⟩] := .swap _ _ _
  exact ⟨past, _, hr, rfl, hp, _, hback,
    ((Run.releases_commute hr).2 _ _ [] rfl hp hxy).2 _ _ (.foldl _ _) hback⟩

end GraphStack.Execution
