import GraphStack.Proofs.Yaml.Lines
import GraphStack.Yaml.Document

/-!
# The document of a written block mapping

The first document of a written block mapping is that mapping: its entries are the words and the
values of the lines, with their texts, and nothing follows them.
-/

namespace GraphStack.Yaml

def Item.event : Item → Event
  | scalar s => .scalar none s
  | sequenceStart => .sequenceStart none
  | sequenceEnd => .sequenceEnd
  | mappingStart => .mappingStart none
  | mappingEnd => .mappingEnd

def Scan.Line.items (l : Scan.Line) : List Item :=
  [.scalar ⟨l.key, none, .plain⟩, .scalar ⟨l.text, none, l.style⟩]

/-! ## Moves -/

namespace Move

variable {handles : Handles} {t next : Token} {list : List Token} {ending : Except Failure Mark}

theorem node_scalar {text : String} {style : Style} (ht : t.kind = .scalar text style)
    (sameIndent : Bool) :
    ofGoal handles (.node true sameIndent) ⟨t :: list, ending⟩ =
      .ok ⟨some (.scalar none ⟨text, none, style⟩, t.start), [], ⟨list, ending⟩⟩ := by
  simp [ofGoal, node, Properties.read, Properties.resolveTag, Properties.none, content?,
    Tokens.peek, Tokens.skip, ht, bind, Except.bind, pure, Except.pure]

theorem node_mappingStart (ht : t.kind = .mappingStart) (sameIndent : Bool) :
    ofGoal handles (.node true sameIndent) ⟨t :: list, ending⟩ =
      .ok ⟨some (.mappingStart none, t.start), [.blockKeys t.start], ⟨list, ending⟩⟩ := by
  simp [ofGoal, node, Properties.read, Properties.resolveTag, Properties.none, content?,
    Tokens.peek, Tokens.skip, ht, bind, Except.bind, pure, Except.pure]

theorem blockKeys_key {text : String} {style : Style} (ht : t.kind = .key)
    (hn : next.kind = .scalar text style) (start : Mark) :
    ofGoal handles (.blockKeys start) ⟨t :: next :: list, ending⟩ =
      .ok (expect [.node true true, .blockValue, .blockKeys start] ⟨next :: list, ending⟩) := by
  simp [ofGoal, blockKeys, Tokens.peek, Tokens.skip, ht, hn, bind, Except.bind, pure, Except.pure]

theorem blockKeys_blockEnd (ht : t.kind = .blockEnd) (start : Mark) :
    ofGoal handles (.blockKeys start) ⟨t :: list, ending⟩ =
      .ok ⟨some (.mappingEnd, t.start), [], ⟨list, ending⟩⟩ := by
  simp [ofGoal, blockKeys, Tokens.peek, Tokens.skip, ht, bind, Except.bind, pure, Except.pure]

theorem blockValue_value {text : String} {style : Style} (ht : t.kind = .value)
    (hn : next.kind = .scalar text style) :
    ofGoal handles .blockValue ⟨t :: next :: list, ending⟩ =
      .ok (expect [.node true true] ⟨next :: list, ending⟩) := by
  simp [ofGoal, blockValue, Tokens.peek, Tokens.skip, ht, hn, bind, Except.bind, pure, Except.pure]

end Move

namespace Document

theorem run_cons {handles : Handles} {g : Goal} {gs : List Goal} {ts : Tokens} {m : Move}
    (hm : Move.ofGoal handles g ts = .ok m) :
    run handles (g :: gs) ts =
      (m.event.toList ++ (run handles (m.goals ++ gs) m.tokens).1,
        (run handles (m.goals ++ gs) m.tokens).2) := by
  rw [run]
  split
  · next h =>
    rw [hm] at h
    cases h
  · next h =>
    rw [hm] at h
    cases h
    rfl

/-- A line gives two scalars, and the mapping goes on. -/
theorem run_line (handles : Handles) (start : Mark) (ending : Except Failure Mark)
    {list : List Token} {kinds : List Token.Kind} (l : Scan.Line)
    (hl : list.map Token.kind = l.tokens ++ kinds) :
    ∃ events rest, rest.map Token.kind = kinds ∧
      events.map Prod.fst = l.items.map Item.event ∧
      run handles [.blockKeys start] ⟨list, ending⟩ =
        (events ++ (run handles [.blockKeys start] ⟨rest, ending⟩).1,
          (run handles [.blockKeys start] ⟨rest, ending⟩).2) := by
  obtain ⟨key, list, rfl, hkey, hl⟩ := List.map_eq_cons_iff.1 hl
  obtain ⟨word, list, rfl, hword, hl⟩ := List.map_eq_cons_iff.1 hl
  obtain ⟨colon, list, rfl, hcolon, hl⟩ := List.map_eq_cons_iff.1 hl
  obtain ⟨value, list, rfl, hvalue, hl⟩ := List.map_eq_cons_iff.1 hl
  refine ⟨[(.scalar none ⟨l.key, none, .plain⟩, word.start),
    (.scalar none ⟨l.text, none, l.style⟩, value.start)], list, hl, rfl, ?_⟩
  rw [run_cons (Move.blockKeys_key hkey hword start)]
  simp only [Move.expect, List.cons_append, List.nil_append]
  rw [run_cons (Move.node_scalar hword true)]
  simp only [List.nil_append]
  rw [run_cons (Move.blockValue_value hcolon hvalue)]
  simp only [Move.expect, List.cons_append, List.nil_append]
  rw [run_cons (Move.node_scalar hvalue true)]
  rfl

theorem run_lines (handles : Handles) (start : Mark) (ending : Except Failure Mark)
    {list : List Token} (ls : List Scan.Line)
    (hl : list.map Token.kind = ls.flatMap Scan.Line.tokens ++ [.blockEnd]) :
    ∃ events, run handles [.blockKeys start] ⟨list, ending⟩ = (events, .ok ⟨[], ending⟩) ∧
      events.map Prod.fst = (ls.flatMap Scan.Line.items ++ [Item.mappingEnd]).map Item.event := by
  induction ls generalizing list with
  | nil =>
    obtain ⟨t, list, rfl, ht, hl⟩ := List.map_eq_cons_iff.1 hl
    obtain rfl := List.map_eq_nil_iff.1 hl
    refine ⟨[(Event.mappingEnd, t.start)], ?_, rfl⟩
    rw [run_cons (Move.blockKeys_blockEnd ht start)]
    simp only [List.append_nil]
    rw [run]
    rfl
  | cons l ls ih =>
    rw [List.flatMap_cons, List.append_assoc] at hl
    obtain ⟨events, rest, hrest, hevents, hrun⟩ := run_line handles start ending l hl
    obtain ⟨events', hruns, hevents'⟩ := ih hrest
    refine ⟨events ++ events', ?_, ?_⟩
    · rw [hrun, hruns]
    · rw [List.map_append, hevents, hevents', List.flatMap_cons, List.append_assoc]
      exact List.map_append.symm

/-- Events without anchors and aliases are the entries. -/
theorem link_events {events : List (Event × Mark)} {items : List Item}
    (he : events.map Prod.fst = items.map Item.event) (a : Anchors) :
    ∃ references, link a events = (references, a, none) ∧
      ∀ a', (references.filterMap (resolve? a')).map Entry.item = items := by
  induction items generalizing events with
  | nil =>
    obtain rfl := List.map_eq_nil_iff.1 he
    exact ⟨[], rfl, fun _ => rfl⟩
  | cons item items ih =>
    obtain ⟨⟨event, mark⟩, events, rfl, hevent, hevents⟩ := List.map_eq_cons_iff.1 he
    obtain rfl : event = item.event := hevent
    obtain ⟨references, hlink, hitems⟩ := ih hevents
    refine ⟨.entry ⟨item, mark, false⟩ :: references, ?_, fun a' => ?_⟩
    · cases item <;> simp only [Item.event, link, Anchors.giveTo, hlink]
    · exact congrArg (item :: ·) (hitems a')

theorem ofText_lines (l : Scan.Line) (ls : List Scan.Line) :
    let doc := ofText (String.ofList ((l :: ls).flatMap Scan.Line.chars))
    doc.failure = none ∧ doc.followed = false ∧
      doc.entries.map Entry.item =
        .mappingStart :: (l :: ls).flatMap Scan.Line.items ++ [.mappingEnd] := by
  obtain ⟨ts, m, htokens, hkinds⟩ := Tokens.ofText_lines l ls
  rw [List.cons_append] at hkinds
  obtain ⟨t, list, rfl, ht, hlist⟩ := List.map_eq_cons_iff.1 hkinds
  obtain ⟨events, hrun, hevents⟩ := run_lines [] t.start (.ok m) (l :: ls) hlist
  have hopening : opening? ⟨t :: list, .ok m⟩ =
      .ok (some ⟨[], .node true false, ⟨t :: list, .ok m⟩⟩) := by
    simp [opening?, Tokens.peek, ht, bind, Except.bind, pure, Except.pure]
  have hall : run [] [.node true false] ⟨t :: list, .ok m⟩ =
      ((.mappingStart none, t.start) :: events, .ok ⟨[], .ok m⟩) := by
    rw [run_cons (Move.node_mappingStart ht false)]
    simp only [List.cons_append, List.nil_append, hrun]
    rfl
  have hitems : ((Event.mappingStart none, t.start) :: events).map Prod.fst =
      (.mappingStart :: (l :: ls).flatMap Scan.Line.items ++ [Item.mappingEnd]).map Item.event :=
    congrArg (_ :: ·) hevents
  obtain ⟨references, hlink, hentries⟩ := link_events hitems .none
  have hdoc : ofText (String.ofList ((l :: ls).flatMap Scan.Line.chars)) =
      ⟨references.filterMap (resolve? .none), none, false⟩ := by
    rw [ofText, String.toList_ofList, htokens, hopening]
    simp only [ofOpening, hall]
    simp only [Tokens.peek, Except.map, ofEvents, hlink]
    rfl
  rw [hdoc]
  exact ⟨rfl, rfl, hentries .none⟩

end Document
end GraphStack.Yaml
