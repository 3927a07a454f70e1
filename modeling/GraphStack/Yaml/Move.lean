import GraphStack.Total
import GraphStack.Yaml.Event

/-!
# The grammar of YAML documents

A `Goal` is a part of a document that is still to come. A `Move` works on the first goal: it looks
at the next tokens, perhaps gives an event, and leaves other goals in place of this one. Every move
takes a token or leaves goals of less weight (`Move.shrinks_ofGoal`), so the work on a document
ends.
-/

namespace GraphStack.Yaml

/-- A part of a document that is still to come. The marks are the starts of the collections. -/
inductive Goal
  /-- A node; in block style it may be a block collection, and where a mapping's entries stand a
  sequence may be indented no deeper than its key. -/
  | node (block sameIndent : Bool)
  | content
  | blockEntries (start : Mark)
  | sameIndentEntries
  | blockKeys (start : Mark)
  | blockValue
  | flowEntries (first : Bool) (start : Mark)
  | pairKey
  | pairValue
  | pairEnd
  | flowKeys (first : Bool) (start : Mark)
  | flowValue
  | missingFlowValue
  deriving Repr

namespace Goal

def weight : Goal → Nat
  | node .. => 2
  | content => 3
  | flowEntries true _ => 4
  | flowKeys true _ => 5
  | pairKey => 3
  | _ => 1

def totalWeight (goals : List Goal) : Nat := total weight goals

end Goal

/-- The outcome of a step: perhaps an event, goals in place of the one that was worked on, and the
tokens left. -/
structure Move where
  event : Option (Event × Mark)
  goals : List Goal
  tokens : Tokens

namespace Move

def emptyScalar (mark : Mark) : Event × Mark := (.scalar none ⟨"", none, .plain⟩, mark)

def absent (mark : Mark) (goals : List Goal) (tokens : Tokens) : Move :=
  ⟨some (emptyScalar mark), goals, tokens⟩

def expect (goals : List Goal) (tokens : Tokens) : Move := ⟨none, goals, tokens⟩

def endsPair : Token.Kind → Bool
  | .flowEntry => true
  | .flowSequenceEnd => true
  | _ => false

def endsField : Token.Kind → Bool
  | .flowEntry => true
  | .flowMappingEnd => true
  | _ => false

def content? (sameIndent block : Bool) (p : Properties) (tag : Option String) (start : Mark)
    (t : Token) (ts : Tokens) : Option Move :=
  match t.kind with
  | .blockEntry =>
    if sameIndent then some ⟨some (.sequenceStart p.anchor, start), [.sameIndentEntries], ts⟩
    else none
  | .scalar text style => some ⟨some (.scalar p.anchor ⟨text, tag, style⟩, start), [], ts.skip⟩
  | .flowSequenceStart =>
    some ⟨some (.sequenceStart p.anchor, start), [.flowEntries true t.start], ts.skip⟩
  | .flowMappingStart =>
    some ⟨some (.mappingStart p.anchor, start), [.flowKeys true t.start], ts.skip⟩
  | .sequenceStart =>
    if block then some ⟨some (.sequenceStart p.anchor, start), [.blockEntries t.start], ts.skip⟩
    else none
  | .mappingStart =>
    if block then some ⟨some (.mappingStart p.anchor, start), [.blockKeys t.start], ts.skip⟩
    else none
  | _ => none

def node (handles : Handles) (block sameIndent : Bool) (ts : Tokens) : Except Failure Move := do
  let first ← ts.peek
  match first.kind with
  | .aliasOf name => return ⟨some (.aliasOf name, first.start), [], ts.skip⟩
  | _ =>
    let (p, behind) ← Properties.read ts
    let t ← behind.peek
    let tag ← p.resolveTag handles first.start
    match content? sameIndent block p tag first.start t behind with
    | some move => return move
    | none =>
      if p.anchor.isSome || tag.isSome then
        return ⟨some (.scalar p.anchor ⟨"", tag, .plain⟩, first.start), [], behind⟩
      else
        let activity := if block then Activity.blockNode else .flowNode
        throw (.malformed .expectedContent t.start (some (activity, first.start)))

def content (ts : Tokens) : Except Failure Move := do
  let t ← ts.peek
  match t.kind with
  | .directive _ | .documentStart | .documentEnd | .streamEnd => return absent t.start [] ts
  | _ => return expect [.node true false] ts

def blockEntries (start : Mark) (ts : Tokens) : Except Failure Move := do
  let t ← ts.peek
  match t.kind with
  | .blockEntry =>
    let next ← ts.skip.peek
    match next.kind with
    | .blockEntry | .blockEnd => return absent t.stop [.blockEntries start] ts.skip
    | _ => return expect [.node true false, .blockEntries start] ts.skip
  | .blockEnd => return ⟨some (.sequenceEnd, t.start), [], ts.skip⟩
  | _ => throw (.malformed .expectedHyphen t.start (some (.blockCollection, start)))

def sameIndentEntries (ts : Tokens) : Except Failure Move := do
  let t ← ts.peek
  match t.kind with
  | .blockEntry =>
    let next ← ts.skip.peek
    match next.kind with
    | .blockEntry | .key | .value | .blockEnd => return absent t.stop [.sameIndentEntries] ts.skip
    | _ => return expect [.node true false, .sameIndentEntries] ts.skip
  | _ => return ⟨some (.sequenceEnd, t.start), [], ts⟩

def blockKeys (start : Mark) (ts : Tokens) : Except Failure Move := do
  let t ← ts.peek
  match t.kind with
  | .key =>
    let next ← ts.skip.peek
    match next.kind with
    | .key | .value | .blockEnd => return absent t.stop [.blockValue, .blockKeys start] ts.skip
    | _ => return expect [.node true true, .blockValue, .blockKeys start] ts.skip
  | .blockEnd => return ⟨some (.mappingEnd, t.start), [], ts.skip⟩
  | _ => throw (.malformed .expectedKey t.start (some (.blockMapping, start)))

def blockValue (ts : Tokens) : Except Failure Move := do
  let t ← ts.peek
  match t.kind with
  | .value =>
    let next ← ts.skip.peek
    match next.kind with
    | .key | .value | .blockEnd => return absent t.stop [] ts.skip
    | _ => return expect [.node true true] ts.skip
  | _ => return absent t.start [] ts

def flowEntry (start : Mark) (t : Token) (ts : Tokens) : Move :=
  match t.kind with
  | .flowSequenceEnd => ⟨some (.sequenceEnd, t.start), [], ts.skip⟩
  | .key =>
    ⟨some (.mappingStart none, t.start), [.pairKey, .pairValue, .pairEnd, .flowEntries false start],
      ts.skip⟩
  | _ => expect [.node false false, .flowEntries false start] ts

def flowEntries (first : Bool) (start : Mark) (ts : Tokens) : Except Failure Move := do
  let t ← ts.peek
  if first then return flowEntry start t ts
  else
    match t.kind with
    | .flowSequenceEnd => return flowEntry start t ts
    | .flowEntry =>
      let next ← ts.skip.peek
      return flowEntry start next ts.skip
    | _ => throw (.malformed .expectedCommaOrBracket t.start (some (.flowSequence, start)))

/-- The key of a single pair in a flow sequence. Where it is missing, the token after it is passed,
so that its value is missing too. -/
def pairKey (ts : Tokens) : Except Failure Move := do
  let t ← ts.peek
  match t.kind with
  | .value | .flowEntry | .flowSequenceEnd => return absent t.stop [] ts.skip
  | _ => return expect [.node false false] ts

def pairValue (ts : Tokens) : Except Failure Move := do
  let t ← ts.peek
  match t.kind with
  | .value =>
    let next ← ts.skip.peek
    if endsPair next.kind then return absent next.start [] ts.skip
    else return expect [.node false false] ts.skip
  | _ => return absent t.start [] ts

def pairEnd (ts : Tokens) : Except Failure Move := do
  let t ← ts.peek
  return ⟨some (.mappingEnd, t.start), [], ts⟩

def flowKey (start : Mark) (t : Token) (ts : Tokens) : Except Failure Move :=
  match t.kind with
  | .flowMappingEnd => .ok ⟨some (.mappingEnd, t.start), [], ts.skip⟩
  | .key => do
    let next ← ts.skip.peek
    let goals := [.flowValue, .flowKeys false start]
    if next.kind = .value ∨ endsField next.kind then return absent next.start goals ts.skip
    else return expect (.node false false :: goals) ts.skip
  | _ => .ok (expect [.node false false, .missingFlowValue, .flowKeys false start] ts)

def flowKeys (first : Bool) (start : Mark) (ts : Tokens) : Except Failure Move := do
  let t ← ts.peek
  if first then flowKey start t ts
  else
    match t.kind with
    | .flowMappingEnd => flowKey start t ts
    | .flowEntry =>
      let next ← ts.skip.peek
      flowKey start next ts.skip
    | _ => throw (.malformed .expectedCommaOrBrace t.start (some (.flowMapping, start)))

def flowValue (ts : Tokens) : Except Failure Move := do
  let t ← ts.peek
  match t.kind with
  | .value =>
    let next ← ts.skip.peek
    if endsField next.kind then return absent next.start [] ts.skip
    else return expect [.node false false] ts.skip
  | _ => return absent t.start [] ts

def missingFlowValue (ts : Tokens) : Except Failure Move := do
  let t ← ts.peek
  return absent t.start [] ts

def ofGoal (handles : Handles) (goal : Goal) (ts : Tokens) : Except Failure Move :=
  match goal with
  | .node block sameIndent => node handles block sameIndent ts
  | .content => content ts
  | .blockEntries start => blockEntries start ts
  | .sameIndentEntries => sameIndentEntries ts
  | .blockKeys start => blockKeys start ts
  | .blockValue => blockValue ts
  | .flowEntries first start => flowEntries first start ts
  | .pairKey => pairKey ts
  | .pairValue => pairValue ts
  | .pairEnd => pairEnd ts
  | .flowKeys first start => flowKeys first start ts
  | .flowValue => flowValue ts
  | .missingFlowValue => missingFlowValue ts

/-- A token was taken, or only goals of less weight are left. -/
def Shrinks (m : Move) (goal : Goal) (ts : Tokens) : Prop :=
  m.tokens.size < ts.size ∨ (m.tokens.size = ts.size ∧ Goal.totalWeight m.goals < goal.weight)

theorem size_skip_le (ts : Tokens) : ts.skip.size ≤ ts.size := by
  simp [Tokens.skip, Tokens.size]

/-- Only the end of the text is met without a token to take. -/
theorem size_skip_lt {ts : Tokens} {t : Token} (h : ts.peek = .ok t) (hk : t.kind ≠ .streamEnd) :
    ts.skip.size < ts.size := by
  obtain ⟨list, ending⟩ := ts
  cases list with
  | cons _ _ => simp [Tokens.skip, Tokens.size]
  | nil =>
    cases ending with
    | error _ => cases h
    | ok _ => cases h; exact absurd rfl hk

theorem exists_of_bind {α β ε : Type} {x : Except ε α} {f : α → Except ε β} {b : β}
    (h : (x >>= f) = .ok b) : ∃ a, x = .ok a ∧ f a = .ok b := by
  cases x with
  | error e => cases h
  | ok a => exact ⟨a, rfl, h⟩

theorem shrinks_content {ts : Tokens} {m : Move} (h : content ts = .ok m) :
    m.Shrinks .content ts := by
  obtain ⟨t, _, h⟩ := exists_of_bind h
  split at h <;> cases h <;>
    exact .inr ⟨rfl, by simp [absent, expect, Goal.totalWeight, Goal.weight]⟩

theorem shrinks_blockEntries {start : Mark} {ts : Tokens} {m : Move}
    (h : blockEntries start ts = .ok m) : m.Shrinks (.blockEntries start) ts := by
  obtain ⟨t, ht, h⟩ := exists_of_bind h
  have hs := size_skip_lt ht
  split at h
  · obtain ⟨next, hn, h⟩ := exists_of_bind h
    split at h <;> cases h <;> exact .inl (hs (by simp_all))
  · cases h
    exact .inl (hs (by simp_all))
  · cases h

theorem shrinks_sameIndentEntries {ts : Tokens} {m : Move}
    (h : sameIndentEntries ts = .ok m) : m.Shrinks .sameIndentEntries ts := by
  obtain ⟨t, ht, h⟩ := exists_of_bind h
  have hs := size_skip_lt ht
  split at h
  · obtain ⟨next, hn, h⟩ := exists_of_bind h
    split at h <;> cases h <;> exact .inl (hs (by simp_all))
  · cases h
    exact .inr ⟨rfl, by simp [Goal.totalWeight, Goal.weight]⟩

theorem shrinks_blockKeys {start : Mark} {ts : Tokens} {m : Move}
    (h : blockKeys start ts = .ok m) : m.Shrinks (.blockKeys start) ts := by
  obtain ⟨t, ht, h⟩ := exists_of_bind h
  have hs := size_skip_lt ht
  split at h
  · obtain ⟨next, hn, h⟩ := exists_of_bind h
    split at h <;> cases h <;> exact .inl (hs (by simp_all))
  · cases h
    exact .inl (hs (by simp_all))
  · cases h

theorem shrinks_blockValue {ts : Tokens} {m : Move}
    (h : blockValue ts = .ok m) : m.Shrinks .blockValue ts := by
  obtain ⟨t, ht, h⟩ := exists_of_bind h
  have hs := size_skip_lt ht
  split at h
  · obtain ⟨next, hn, h⟩ := exists_of_bind h
    split at h <;> cases h <;> exact .inl (hs (by simp_all))
  · cases h
    exact .inr ⟨rfl, by simp [absent, Goal.totalWeight, Goal.weight]⟩

theorem size_flowEntry {start : Mark} {t : Token} {ts : Tokens} :
    (flowEntry start t ts).tokens.size ≤ ts.size := by
  unfold flowEntry
  split
  · exact size_skip_le ts
  · exact size_skip_le ts
  · exact Nat.le_refl _

theorem shrinks_flowEntry {start : Mark} {t : Token} {ts : Tokens} (ht : ts.peek = .ok t) :
    (flowEntry start t ts).Shrinks (.flowEntries true start) ts := by
  unfold flowEntry
  have hs := size_skip_lt ht
  split
  · exact .inl (hs (by simp_all))
  · exact .inl (hs (by simp_all))
  · exact .inr ⟨rfl, by simp [expect, Goal.totalWeight, Goal.weight]⟩

theorem shrinks_flowEntries {first : Bool} {start : Mark} {ts : Tokens} {m : Move}
    (h : flowEntries first start ts = .ok m) : m.Shrinks (.flowEntries first start) ts := by
  obtain ⟨t, ht, h⟩ := exists_of_bind h
  have hs := size_skip_lt ht
  split at h
  · cases h
    simp_all [shrinks_flowEntry]
  · split at h
    · rename_i hk
      cases h
      left
      simp only [flowEntry, hk]
      exact hs (by simp_all)
    · obtain ⟨next, hn, h⟩ := exists_of_bind h
      cases h
      exact .inl (Nat.lt_of_le_of_lt size_flowEntry (hs (by simp_all)))
    · cases h

theorem shrinks_pairKey {ts : Tokens} {m : Move} (h : pairKey ts = .ok m) :
    m.Shrinks .pairKey ts := by
  obtain ⟨t, ht, h⟩ := exists_of_bind h
  have hs := size_skip_lt ht
  split at h <;> cases h
  · exact .inl (hs (by simp_all))
  · exact .inl (hs (by simp_all))
  · exact .inl (hs (by simp_all))
  · exact .inr ⟨rfl, by simp [expect, Goal.totalWeight, Goal.weight]⟩

theorem shrinks_pairValue {ts : Tokens} {m : Move} (h : pairValue ts = .ok m) :
    m.Shrinks .pairValue ts := by
  obtain ⟨t, ht, h⟩ := exists_of_bind h
  have hs := size_skip_lt ht
  split at h
  · obtain ⟨next, hn, h⟩ := exists_of_bind h
    split at h <;> cases h <;> exact .inl (hs (by simp_all))
  · cases h
    exact .inr ⟨rfl, by simp [absent, Goal.totalWeight, Goal.weight]⟩

theorem shrinks_pairEnd {ts : Tokens} {m : Move} (h : pairEnd ts = .ok m) :
    m.Shrinks .pairEnd ts := by
  obtain ⟨t, _, h⟩ := exists_of_bind h
  cases h
  exact .inr ⟨rfl, by simp [Goal.totalWeight, Goal.weight]⟩

theorem size_flowKey {start : Mark} {t : Token} {ts : Tokens} {m : Move}
    (h : flowKey start t ts = .ok m) : m.tokens.size ≤ ts.size := by
  unfold flowKey at h
  have hl := size_skip_le ts
  split at h
  · cases h; exact hl
  · obtain ⟨next, _, h⟩ := exists_of_bind h
    dsimp only at h
    split at h <;> cases h <;> exact hl
  · cases h; exact Nat.le_refl _

theorem shrinks_flowKey {start : Mark} {t : Token} {ts : Tokens} {m : Move}
    (ht : ts.peek = .ok t) (h : flowKey start t ts = .ok m) :
    m.Shrinks (.flowKeys true start) ts := by
  unfold flowKey at h
  have hs := size_skip_lt ht
  split at h
  · cases h
    exact .inl (hs (by simp_all))
  · obtain ⟨next, _, h⟩ := exists_of_bind h
    dsimp only at h
    split at h <;> cases h <;> exact .inl (hs (by simp_all))
  · cases h
    exact .inr ⟨rfl, by simp [expect, Goal.totalWeight, Goal.weight]⟩

theorem shrinks_flowKeys {first : Bool} {start : Mark} {ts : Tokens} {m : Move}
    (h : flowKeys first start ts = .ok m) : m.Shrinks (.flowKeys first start) ts := by
  obtain ⟨t, ht, h⟩ := exists_of_bind h
  have hs := size_skip_lt ht
  split at h
  · have := shrinks_flowKey ht h
    simp_all
  · split at h
    · rename_i hk
      unfold flowKey at h
      rw [hk] at h
      cases h
      exact .inl (hs (by simp_all))
    · obtain ⟨next, hn, h⟩ := exists_of_bind h
      exact .inl (Nat.lt_of_le_of_lt (size_flowKey h) (hs (by simp_all)))
    · cases h

theorem shrinks_flowValue {ts : Tokens} {m : Move} (h : flowValue ts = .ok m) :
    m.Shrinks .flowValue ts := by
  obtain ⟨t, ht, h⟩ := exists_of_bind h
  have hs := size_skip_lt ht
  split at h
  · obtain ⟨next, hn, h⟩ := exists_of_bind h
    split at h <;> cases h <;> exact .inl (hs (by simp_all))
  · cases h
    exact .inr ⟨rfl, by simp [absent, Goal.totalWeight, Goal.weight]⟩

theorem shrinks_missingFlowValue {ts : Tokens} {m : Move} (h : missingFlowValue ts = .ok m) :
    m.Shrinks .missingFlowValue ts := by
  obtain ⟨t, _, h⟩ := exists_of_bind h
  cases h
  exact .inr ⟨rfl, by simp [absent, Goal.totalWeight, Goal.weight]⟩

theorem size_of_read {ts rest : Tokens} {p : Properties}
    (h : Properties.read ts = .ok (p, rest)) :
    rest.size < ts.size ∨ (rest = ts ∧ p = .none) := by
  obtain ⟨t, ht, h⟩ := exists_of_bind h
  have hs := size_skip_lt ht
  have hl := size_skip_le ts.skip
  split at h
  · obtain ⟨next, hn, h⟩ := exists_of_bind h
    have := hs (by simp_all)
    split at h <;> cases h <;> left <;> omega
  · obtain ⟨next, hn, h⟩ := exists_of_bind h
    have := hs (by simp_all)
    split at h <;> cases h <;> left <;> omega
  · cases h
    exact .inr ⟨rfl, rfl⟩

theorem shrinks_content? {sameIndent block : Bool} {p : Properties} {tag : Option String}
    {start : Mark} {t : Token} {ts : Tokens} {m : Move} (ht : ts.peek = .ok t)
    (h : content? sameIndent block p tag start t ts = some m) :
    m.Shrinks (.node block sameIndent) ts := by
  unfold content? at h
  have hs := size_skip_lt ht
  split at h
  · split at h
    · cases h
      exact .inr ⟨rfl, by simp [Goal.totalWeight, Goal.weight]⟩
    · cases h
  · cases h
    exact .inl (hs (by simp_all))
  · cases h
    exact .inl (hs (by simp_all))
  · cases h
    exact .inl (hs (by simp_all))
  · split at h
    · cases h
      exact .inl (hs (by simp_all))
    · cases h
  · split at h
    · cases h
      exact .inl (hs (by simp_all))
    · cases h
  · cases h

theorem shrinks_node {handles : Handles} {block sameIndent : Bool} {ts : Tokens} {m : Move}
    (h : node handles block sameIndent ts = .ok m) : m.Shrinks (.node block sameIndent) ts := by
  obtain ⟨first, hf, h⟩ := exists_of_bind h
  have hs := size_skip_lt hf
  split at h
  · cases h
    exact .inl (hs (by simp_all))
  · obtain ⟨⟨p, behind⟩, hp, h⟩ := exists_of_bind h
    obtain ⟨t, ht, h⟩ := exists_of_bind h
    obtain ⟨tag, htag, h⟩ := exists_of_bind h
    split at h
    · rename_i hc
      cases h
      have hc := shrinks_content? ht hc
      rcases size_of_read hp with hlt | ⟨rfl, _⟩
      · left
        rcases hc with hc | ⟨hc, _⟩ <;> omega
      · exact hc
    · split at h
      · rename_i hprops
        cases h
        rcases size_of_read hp with hlt | ⟨rfl, rfl⟩
        · exact .inl hlt
        · cases htag
          simp [Properties.none] at hprops
      · cases h

theorem shrinks_ofGoal {handles : Handles} {goal : Goal} {ts : Tokens} {m : Move}
    (h : ofGoal handles goal ts = .ok m) : m.Shrinks goal ts := by
  cases goal with
  | node block sameIndent => exact shrinks_node h
  | content => exact shrinks_content h
  | blockEntries start => exact shrinks_blockEntries h
  | sameIndentEntries => exact shrinks_sameIndentEntries h
  | blockKeys start => exact shrinks_blockKeys h
  | blockValue => exact shrinks_blockValue h
  | flowEntries first start => exact shrinks_flowEntries h
  | pairKey => exact shrinks_pairKey h
  | pairValue => exact shrinks_pairValue h
  | pairEnd => exact shrinks_pairEnd h
  | flowKeys first start => exact shrinks_flowKeys h
  | flowValue => exact shrinks_flowValue h
  | missingFlowValue => exact shrinks_missingFlowValue h

end Move
end GraphStack.Yaml
