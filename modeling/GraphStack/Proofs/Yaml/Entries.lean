import GraphStack.Proofs.Yaml.Marks
import GraphStack.Yaml.Document

/-!
# Marks of entries

The events of a document take their marks from tokens, and its entries take theirs from events: an
alias has the mark of the node that it names. So the entries and the failure of a document are in
the text (`Document.within_ofText`). The run over the goals of a document is an induction with one
lemma for each goal.
-/

namespace GraphStack.Yaml

variable {n : Nat}

/-! ## Tokens -/

namespace Tokens.Within

variable {ts : Tokens}

theorem peek (h : ts.Within n) : Holds n (Token.Within n) ts.peek := by
  unfold Tokens.peek
  split
  · next t _ ht => exact h.list t (ht ▸ List.mem_cons_self)
  · have hending := h.ending
    cases he : ts.ending with
    | error f => exact hending.of_error he
    | ok m => exact ⟨hending.of_ok he, hending.of_ok he⟩

theorem skip (h : ts.Within n) : ts.skip.Within n :=
  ⟨fun t ht => h.list t (List.mem_of_mem_tail ht), h.ending⟩

end Tokens.Within

namespace Properties

/-- The mark of the tag is in the text. -/
def Within (n : Nat) (p : Properties) : Prop := ∀ t ∈ p.tag, t.2.index ≤ n

theorem within_read {ts : Tokens} (h : ts.Within n) :
    Holds n (fun r : Properties × Tokens => r.1.Within n ∧ r.2.Within n) (read ts) := by
  have none : (⟨Option.none, Option.none⟩ : Properties).Within n :=
    fun t ht => (Option.not_mem_none t ht).elim
  refine h.peek.bind fun first hfirst => ?_
  split
  · refine h.skip.peek.bind fun second hsecond => ?_
    split
    · exact ⟨fun t ht => Option.mem_some.1 ht ▸ hsecond.1, h.skip.skip⟩
    · exact ⟨fun t ht => (Option.not_mem_none t ht).elim, h.skip⟩
  · refine h.skip.peek.bind fun second _ => ?_
    split
    · exact ⟨fun t ht => Option.mem_some.1 ht ▸ hfirst.1, h.skip.skip⟩
    · exact ⟨fun t ht => Option.mem_some.1 ht ▸ hfirst.1, h.skip⟩
  · exact ⟨none, h⟩

theorem within_resolveTag {p : Properties} (h : p.Within n) (handles : Handles) (start : Mark) :
    Holds n (fun _ => True) (p.resolveTag handles start) := by
  unfold resolveTag
  split
  · trivial
  · next ht =>
    split
    · trivial
    · exact h _ ht

end Properties

/-! ## Moves -/

def Goal.Within (n : Nat) : Goal → Prop
  | .blockEntries start => start.index ≤ n
  | .blockKeys start => start.index ≤ n
  | .flowEntries _ start => start.index ≤ n
  | .flowKeys _ start => start.index ≤ n
  | _ => True

namespace Move

/-- The event of a move, its goals and the tokens left have marks in the text. -/
structure Within (n : Nat) (m : Move) : Prop where
  event : ∀ e ∈ m.event, e.2.index ≤ n
  goals : ∀ g ∈ m.goals, g.Within n
  tokens : m.tokens.Within n

section Moves

variable {ts : Tokens} {start : Mark}

theorem within_absent {goals : List Goal} (hs : start.index ≤ n) (hg : ∀ g ∈ goals, g.Within n)
    (h : ts.Within n) : (absent start goals ts).Within n :=
  ⟨fun _ he => Option.mem_some.1 he ▸ hs, hg, h⟩

theorem within_expect {goals : List Goal} (hg : ∀ g ∈ goals, g.Within n) (h : ts.Within n) :
    (expect goals ts).Within n := ⟨fun e he => (Option.not_mem_none e he).elim, hg, h⟩

theorem within_some {event : Event} {goals : List Goal} (hs : start.index ≤ n)
    (hg : ∀ g ∈ goals, g.Within n) (h : ts.Within n) :
    (⟨some (event, start), goals, ts⟩ : Move).Within n :=
  ⟨fun _ he => Option.mem_some.1 he ▸ hs, hg, h⟩

theorem within_content? {sameIndent block : Bool} {p : Properties} {tag : Option String}
    {t : Token} {m : Move} (hs : start.index ≤ n) (ht : t.Within n) (h : ts.Within n)
    (hm : content? sameIndent block p tag start t ts = some m) : m.Within n := by
  unfold content? at hm
  split at hm
  · split at hm <;> cases hm
    exact within_some hs (by simp [Goal.Within]) h
  · cases hm
    exact within_some hs (by simp) h.skip
  · cases hm
    exact within_some hs (by simp [Goal.Within, ht.1]) h.skip
  · cases hm
    exact within_some hs (by simp [Goal.Within, ht.1]) h.skip
  · split at hm <;> cases hm
    exact within_some hs (by simp [Goal.Within, ht.1]) h.skip
  · split at hm <;> cases hm
    exact within_some hs (by simp [Goal.Within, ht.1]) h.skip
  · cases hm

theorem within_node (h : ts.Within n) (handles : Handles) (block sameIndent : Bool) :
    Holds n (Within n) (node handles block sameIndent ts) := by
  refine h.peek.bind fun first hfirst => ?_
  split
  · exact within_some hfirst.1 (by simp) h.skip
  · refine (Properties.within_read h).bind fun r hr => ?_
    obtain ⟨p, behind⟩ := r
    obtain ⟨hp, hbehind⟩ := hr
    refine hbehind.peek.bind fun t ht =>
      (Properties.within_resolveTag hp handles first.start).bind fun tag _ => ?_
    split
    · next hm => exact within_content? hfirst.1 ht hbehind hm
    · split
      · exact within_some hfirst.1 (by simp) hbehind
      · exact ht.1

theorem within_content (h : ts.Within n) : Holds n (Within n) (content ts) := by
  refine h.peek.bind fun t ht => ?_
  split
  all_goals first
    | exact within_absent ht.1 (by simp) h
    | exact within_expect (by simp [Goal.Within]) h

theorem within_blockEntries (hs : start.index ≤ n) (h : ts.Within n) :
    Holds n (Within n) (blockEntries start ts) := by
  refine h.peek.bind fun t ht => ?_
  split
  · refine h.skip.peek.bind fun next _ => ?_
    split
    · exact within_absent ht.2 (by simp [Goal.Within, hs]) h.skip
    · exact within_absent ht.2 (by simp [Goal.Within, hs]) h.skip
    · exact within_expect (by simp [Goal.Within, hs]) h.skip
  · exact within_some ht.1 (by simp) h.skip
  · exact ht.1

theorem within_sameIndentEntries (h : ts.Within n) :
    Holds n (Within n) (sameIndentEntries ts) := by
  refine h.peek.bind fun t ht => ?_
  split
  · refine h.skip.peek.bind fun next _ => ?_
    split
    all_goals first
      | exact within_absent ht.2 (by simp [Goal.Within]) h.skip
      | exact within_expect (by simp [Goal.Within]) h.skip
  · exact within_some ht.1 (by simp) h

theorem within_blockKeys (hs : start.index ≤ n) (h : ts.Within n) :
    Holds n (Within n) (blockKeys start ts) := by
  refine h.peek.bind fun t ht => ?_
  split
  · refine h.skip.peek.bind fun next _ => ?_
    split
    all_goals first
      | exact within_absent ht.2 (by simp [Goal.Within, hs]) h.skip
      | exact within_expect (by simp [Goal.Within, hs]) h.skip
  · exact within_some ht.1 (by simp) h.skip
  · exact ht.1

theorem within_blockValue (h : ts.Within n) : Holds n (Within n) (blockValue ts) := by
  refine h.peek.bind fun t ht => ?_
  split
  · refine h.skip.peek.bind fun next _ => ?_
    split
    all_goals first
      | exact within_absent ht.2 (by simp) h.skip
      | exact within_expect (by simp [Goal.Within]) h.skip
  · exact within_absent ht.1 (by simp) h

theorem within_flowEntry {t : Token} (hs : start.index ≤ n) (ht : t.Within n) (h : ts.Within n) :
    (flowEntry start t ts).Within n := by
  unfold flowEntry
  split
  · exact within_some ht.1 (by simp) h.skip
  · exact within_some ht.1 (by simp [Goal.Within, hs]) h.skip
  · exact within_expect (by simp [Goal.Within, hs]) h

theorem within_flowEntries (first : Bool) (hs : start.index ≤ n) (h : ts.Within n) :
    Holds n (Within n) (flowEntries first start ts) := by
  refine h.peek.bind fun t ht => ?_
  split
  · exact within_flowEntry hs ht h
  · split
    · exact within_flowEntry hs ht h
    · exact h.skip.peek.bind fun next hnext => within_flowEntry hs hnext h.skip
    · exact ht.1

theorem within_pairKey (h : ts.Within n) : Holds n (Within n) (pairKey ts) := by
  refine h.peek.bind fun t ht => ?_
  split
  all_goals first
    | exact within_absent ht.2 (by simp) h.skip
    | exact within_expect (by simp [Goal.Within]) h

theorem within_pairValue (h : ts.Within n) : Holds n (Within n) (pairValue ts) := by
  refine h.peek.bind fun t ht => ?_
  split
  · refine h.skip.peek.bind fun next hnext => ?_
    split
    · exact within_absent hnext.1 (by simp) h.skip
    · exact within_expect (by simp [Goal.Within]) h.skip
  · exact within_absent ht.1 (by simp) h

theorem within_pairEnd (h : ts.Within n) : Holds n (Within n) (pairEnd ts) :=
  h.peek.bind fun _ ht => within_some ht.1 (by simp) h

theorem within_flowKey {t : Token} (hs : start.index ≤ n) (ht : t.Within n) (h : ts.Within n) :
    Holds n (Within n) (flowKey start t ts) := by
  unfold flowKey
  split
  · exact within_some ht.1 (by simp) h.skip
  · refine h.skip.peek.bind fun next hnext => ?_
    dsimp only
    split
    · exact within_absent hnext.1 (by simp [Goal.Within, hs]) h.skip
    · exact within_expect (by simp [Goal.Within, hs]) h.skip
  · exact within_expect (by simp [Goal.Within, hs]) h

theorem within_flowKeys (first : Bool) (hs : start.index ≤ n) (h : ts.Within n) :
    Holds n (Within n) (flowKeys first start ts) := by
  refine h.peek.bind fun t ht => ?_
  split
  · exact within_flowKey hs ht h
  · split
    · exact within_flowKey hs ht h
    · exact h.skip.peek.bind fun next hnext => within_flowKey hs hnext h.skip
    · exact ht.1

theorem within_flowValue (h : ts.Within n) : Holds n (Within n) (flowValue ts) := by
  refine h.peek.bind fun t ht => ?_
  split
  · refine h.skip.peek.bind fun next hnext => ?_
    split
    · exact within_absent hnext.1 (by simp) h.skip
    · exact within_expect (by simp [Goal.Within]) h.skip
  · exact within_absent ht.1 (by simp) h

theorem within_missingFlowValue (h : ts.Within n) : Holds n (Within n) (missingFlowValue ts) :=
  h.peek.bind fun _ ht => within_absent ht.1 (by simp) h

theorem within_ofGoal {g : Goal} (hg : g.Within n) (h : ts.Within n) (handles : Handles) :
    Holds n (Within n) (ofGoal handles g ts) := by
  cases g with
  | node block sameIndent => exact within_node h handles block sameIndent
  | content => exact within_content h
  | blockEntries start => exact within_blockEntries hg h
  | sameIndentEntries => exact within_sameIndentEntries h
  | blockKeys start => exact within_blockKeys hg h
  | blockValue => exact within_blockValue h
  | flowEntries first start => exact within_flowEntries first hg h
  | pairKey => exact within_pairKey h
  | pairValue => exact within_pairValue h
  | pairEnd => exact within_pairEnd h
  | flowKeys first start => exact within_flowKeys first hg h
  | flowValue => exact within_flowValue h
  | missingFlowValue => exact within_missingFlowValue h

end Moves
end Move

/-! ## Documents -/

namespace Document

/-- The entries of a document and its failure have marks in the text. -/
structure Within (n : Nat) (d : Document) : Prop where
  entries : ∀ e ∈ d.entries, e.mark.index ≤ n
  failure : ∀ f ∈ d.failure, f.mark.index ≤ n

theorem within_run (handles : Handles) {goals : List Goal} {ts : Tokens}
    (hg : ∀ g ∈ goals, g.Within n) (h : ts.Within n) :
    (∀ e ∈ (run handles goals ts).1, e.2.index ≤ n) ∧
      Holds n (Tokens.Within n) (run handles goals ts).2 := by
  fun_induction run handles goals ts with
  | case1 ts => exact ⟨fun e he => (List.not_mem_nil he).elim, h⟩
  | case2 ts g gs f hmove =>
    obtain ⟨hgoal, -⟩ := List.forall_mem_cons.1 hg
    exact ⟨fun e he => (List.not_mem_nil he).elim,
      (Move.within_ofGoal hgoal h handles).of_error hmove⟩
  | case3 ts g gs m hmove _ events ending hrun ih =>
    obtain ⟨hgoal, hgoals⟩ := List.forall_mem_cons.1 hg
    have hm := (Move.within_ofGoal hgoal h handles).of_ok hmove
    obtain ⟨hevents, hending⟩ := ih (List.forall_mem_append.2 ⟨hm.goals, hgoals⟩) hm.tokens
    rw [hrun] at hevents hending
    refine ⟨List.forall_mem_append.2 ⟨?_, hevents⟩, hending⟩
    exact fun e he => hm.event e (Option.mem_toList.1 he)

theorem within_declare (d : Declarations) (directive : Directive) {mark : Mark}
    (hm : mark.index ≤ n) : Holds n (fun _ => True) (declare d directive mark) := by
  cases directive with
  | version major minor =>
    unfold declare
    dsimp only
    split
    · exact hm
    · split
      · trivial
      · exact hm
  | tag handle uri =>
    unfold declare
    dsimp only
    split
    · exact hm
    · trivial

theorem within_readDirectives {ending : Except Failure Mark}
    (he : Holds n (fun m : Mark => m.index ≤ n) ending) {ts : List Token}
    (h : ∀ t ∈ ts, t.Within n) (d : Declarations) :
    Holds n (fun r : Declarations × List Token => ∀ t ∈ r.2, t.Within n)
      (readDirectives d ending ts) := by
  induction ts generalizing d with
  | nil =>
    cases ending with
    | error f => exact he
    | ok m => exact he
  | cons t ts ih =>
    obtain ⟨ht, hts⟩ := List.forall_mem_cons.1 h
    unfold readDirectives
    split
    · next directive _ =>
      split
      · next hf => exact (within_declare d directive ht.1).of_error hf
      · exact ih hts _
    · exact hts
    · exact ht.1

theorem within_opening? {ts : Tokens} (h : ts.Within n) :
    Holds n (fun o : Option Opening => ∀ o' ∈ o, o'.goal.Within n ∧ o'.tokens.Within n)
      (opening? ts) := by
  have directives := within_readDirectives h.ending h.list ⟨false, []⟩
  refine h.peek.bind fun t _ => ?_
  split
  · exact fun o' ho => (Option.not_mem_none o' ho).elim
  · refine directives.bind fun r hr => ?_
    exact fun o' ho => Option.mem_some.1 ho ▸ ⟨trivial, hr, h.ending⟩
  · refine directives.bind fun r hr => ?_
    exact fun o' ho => Option.mem_some.1 ho ▸ ⟨trivial, hr, h.ending⟩
  · exact fun o' ho => Option.mem_some.1 ho ▸ ⟨trivial, h⟩

namespace Anchors

/-- The nodes that have names have marks in the text. -/
def Within (n : Nat) (a : Anchors) : Prop := ∀ p ∈ a.nodes, p.2.mark.index ≤ n

theorem Within.giveTo {a : Anchors} (h : a.Within n) (name : Option String) {e : Entry}
    (he : e.mark.index ≤ n) : (a.giveTo name e).Within n := by
  cases name with
  | none => exact h
  | some name => exact List.forall_mem_cons.2 ⟨he, h⟩

end Anchors

def Reference.Within (n : Nat) : Reference → Prop
  | .entry e => e.mark.index ≤ n
  | .number _ => True

theorem within_link {a : Anchors} (ha : a.Within n) {events : List (Event × Mark)}
    (h : ∀ e ∈ events, e.2.index ≤ n) :
    (∀ r ∈ (link a events).1, r.Within n) ∧ (link a events).2.1.Within n ∧
      ∀ f ∈ (link a events).2.2, f.mark.index ≤ n := by
  induction events generalizing a with
  | nil =>
    exact ⟨fun r hr => (List.not_mem_nil hr).elim, ha, fun f hf => (Option.not_mem_none f hf).elim⟩
  | cons e events ih =>
    obtain ⟨event, mark⟩ := e
    obtain ⟨hmark, hevents⟩ := List.forall_mem_cons.1 h
    have next (name : Option String) (item : Item) :=
      ih (ha.giveTo name (e := ⟨item, mark, false⟩) hmark) hevents
    have named (name : Option String) (item : Item) :
        (∀ r ∈ Reference.entry ⟨item, mark, false⟩ ::
          (link (a.giveTo name ⟨item, mark, false⟩) events).1, r.Within n) ∧ _ :=
      ⟨List.forall_mem_cons.2 ⟨hmark, (next name item).1⟩, (next name item).2⟩
    cases event with
    | scalar name s => exact named name (.scalar s)
    | sequenceStart name => exact named name .sequenceStart
    | sequenceEnd => exact named none .sequenceEnd
    | mappingStart name => exact named name .mappingStart
    | mappingEnd => exact named none .mappingEnd
    | aliasOf name =>
      rw [link]
      split
      · exact ⟨fun r hr => (List.not_mem_nil hr).elim, ha,
          fun f hf => Option.mem_some.1 hf ▸ hmark⟩
      · obtain ⟨hrefs, hrest⟩ := ih ha hevents
        exact ⟨List.forall_mem_cons.2 ⟨trivial, hrefs⟩, hrest⟩

theorem within_resolve? {a : Anchors} (ha : a.Within n) {r : Reference} (hr : r.Within n)
    {e : Entry} (he : resolve? a r = some e) : e.mark.index ≤ n := by
  cases r with
  | entry e' =>
    cases he
    exact hr
  | number k =>
    obtain ⟨e', he', rfl⟩ := Option.map_eq_some_iff.1 he
    obtain ⟨before, after, hnodes, -⟩ := List.lookup_eq_some_iff.1 he'
    exact ha (k, e') (hnodes ▸ List.mem_append_right before List.mem_cons_self)

theorem within_ofEvents {events : List (Event × Mark)} (h : ∀ e ∈ events, e.2.index ≤ n)
    {failure : Option Failure} (hf : ∀ f ∈ failure, f.mark.index ≤ n) (followed : Bool) :
    (ofEvents events failure followed).Within n := by
  have hnone : Anchors.none.Within n := fun p hp => (List.not_mem_nil hp).elim
  obtain ⟨hrefs, hanchors, hunknown⟩ := within_link hnone h
  constructor
  · intro e he
    obtain ⟨r, hr, hre⟩ := List.mem_filterMap.1 he
    exact within_resolve? hanchors (hrefs r hr) hre
  · intro f hfail
    rcases Option.or_eq_some_iff.1 hfail with hfail | ⟨-, hfail⟩
    · exact hunknown f hfail
    · exact hf f hfail

theorem within_ofOpening {o : Opening} (hg : o.goal.Within n) (ht : o.tokens.Within n) :
    (ofOpening o).Within n := by
  obtain ⟨hevents, hending⟩ := within_run o.handles (List.forall_mem_singleton.2 hg) ht
  unfold ofOpening
  split
  · next hr =>
    rw [hr] at hevents hending
    exact within_ofEvents hevents (fun f hf => Option.mem_some.1 hf ▸ hending) false
  · next hr =>
    rw [hr] at hevents hending
    split
    · next hf =>
      exact within_ofEvents hevents
        (fun f hf' => Option.mem_some.1 hf' ▸ hending.peek.of_error hf) false
    · exact within_ofEvents hevents (fun f hf => (Option.not_mem_none f hf).elim) _

/-- Every entry of a document and what cuts it short is marked at a place of the text. -/
theorem within_ofText (text : String) : (ofText text).Within (Json.byteLength text.toList) := by
  have hopening := within_opening? (Tokens.within_ofText text.toList)
  have empty {failure : Option Failure}
      (hf : ∀ f ∈ failure, f.mark.index ≤ Json.byteLength text.toList) :
      (⟨[], failure, false⟩ : Document).Within (Json.byteLength text.toList) :=
    ⟨fun e he => (List.not_mem_nil he).elim, hf⟩
  unfold ofText
  split
  · next hf => exact empty fun f hf' => Option.mem_some.1 hf' ▸ hopening.of_error hf
  · exact empty fun f hf => (Option.not_mem_none f hf).elim
  · next o ho =>
    obtain ⟨hg, ht⟩ := hopening.of_ok ho o rfl
    exact within_ofOpening hg ht

end Document
end GraphStack.Yaml
