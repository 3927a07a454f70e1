import GraphStack.Proofs.Yaml.Characters
import GraphStack.Yaml.Block

/-!
# Literal scalars are read as they are written

The lines of a literal scalar are indented by two and read at that indentation, which the header
gives where the first line does not show it. What was read of a text at any time, with the line ends
that may yet be dropped, is the text so far; the header then keeps the line ends that the text ends
with.
-/

namespace GraphStack.Yaml.Block

open Render

/-! ## The header -/

def chompOf (cs : List Char) : Chomp :=
  match cs.reverse with
  | [] => .strip
  | c :: before =>
    if !isBreak c then .strip
    else if before.head?.all isBreak then .keep
    else .clip

def incrementOf (cs : List Char) : Option Nat :=
  if cs.head?.any fun c => isSpace c || isBreak c then some 2 else none

theorem readHeader_written (cs body : List Char) :
    readHeader (literalIndent cs ++ literalChomp cs ++ '\n' :: body) =
      .ok (⟨chompOf cs, incrementOf cs⟩, body) := by
  have hindent : literalIndent cs = ['2'] ∧ incrementOf cs = some 2 ∨
      literalIndent cs = [] ∧ incrementOf cs = none := by
    unfold literalIndent incrementOf
    split
    · exact .inl ⟨rfl, rfl⟩
    · exact .inr ⟨rfl, rfl⟩
  have hchomp : literalChomp cs = ['-'] ∧ chompOf cs = .strip ∨
      literalChomp cs = ['+'] ∧ chompOf cs = .keep ∨ literalChomp cs = [] ∧ chompOf cs = .clip := by
    unfold literalChomp chompOf
    cases cs.reverse with
    | nil => exact .inl ⟨rfl, rfl⟩
    | cons c before =>
      dsimp only
      split
      · exact .inl ⟨rfl, rfl⟩
      · split
        · exact .inr (.inl ⟨rfl, rfl⟩)
        · exact .inr (.inr ⟨rfl, rfl⟩)
  rcases hindent with ⟨hi, hv⟩ | ⟨hi, hv⟩ <;>
    rcases hchomp with ⟨hc, hw⟩ | ⟨hc, hw⟩ | ⟨hc, hw⟩ <;>
    rw [hi, hc, hv, hw] <;> rfl

/-! ## The lines -/

/-- The lines with a further character of the text, at the start of a line or within one. -/
def feed (b : Lines × Bool) (c : Char) : Lines × Bool :=
  if isBreak c then
    (if b.2 then { b.1 with empty := c :: b.1.empty } else { b.1 with lineEnd := some c }, true)
  else ((if b.2 then b.1.startLine false c else b.1).push c, false)

/-- The column of a reader, which it counts up to the first character of a line only. -/
def columnAt (broken : Bool) : Option Nat := if broken then some 0 else none

section Steps

variable {c : Char} (b : Lines) (rest : List Char)

theorem readLines_break (hc : isPrintable c = true) (hb : isBreak c = true) (broken : Bool) :
    readLines false 2 b (columnAt broken) (c :: rest) =
      readLines false 2 (feed (b, broken) c).1 (columnAt (feed (b, broken) c).2) rest := by
  have hs : c ≠ ' ' := by
    rintro rfl
    cases hb
  cases broken with
  | false => simp [readLines, columnAt, feed, joinsNext_eq_false hc, hb, keptBreak_eq hc hb]
  | true =>
    simp [readLines, columnAt, feed, joinsNext_eq_false hc, hb, keptBreak_eq hc hb, hs, ne_tab hc]

theorem readLines_margin :
    readLines false 2 b (some 0) (margin ++ rest) = readLines false 2 b (some 2) rest := rfl

theorem readLines_text (hb : isBreak c = false) (broken : Bool) :
    readLines false 2 b (columnAt broken) ((if broken then margin else []) ++ c :: rest) =
      readLines false 2 (feed (b, broken) c).1 (columnAt (feed (b, broken) c).2) rest := by
  have hj := joinsNext_of_isBreak hb rest
  cases broken with
  | false => simp [readLines, columnAt, feed, hj, hb]
  | true =>
    refine (readLines_margin b (c :: rest)).trans ?_
    simp [readLines, columnAt, feed, hj, hb]

end Steps

theorem readLines_literalFrom {cs : List Char} (hp : Printable cs) (b : Lines) (broken : Bool)
    (rest : List Char) :
    readLines false 2 b (columnAt broken) (literalFrom broken cs ++ rest) =
      readLines false 2 (cs.foldl feed (b, broken)).1 (columnAt (cs.foldl feed (b, broken)).2)
        rest := by
  induction cs generalizing b broken with
  | nil => rfl
  | cons c cs ih =>
    obtain ⟨hc, hp⟩ := printable_cons.1 hp
    rw [literalFrom, List.foldl_cons]
    cases hb : isBreak c with
    | true =>
      have hfeed : (feed (b, broken) c).2 = true := by rw [feed, if_pos hb]
      rw [if_pos rfl, List.cons_append, readLines_break b _ hc hb, hfeed]
      refine (ih hp _ true).trans ?_
      rw [← hfeed]
    | false =>
      have hfeed : (feed (b, broken) c).2 = false := by rw [feed, hb]; rfl
      rw [if_neg Bool.false_ne_true, List.append_assoc, List.cons_append, readLines_text b _ hb,
        hfeed]
      refine (ih hp _ false).trans ?_
      rw [← hfeed]

/-! ## What was read -/

/-- The text of the lines, with the line ends that may yet be dropped. -/
def whole (b : Lines) : List Char := (b.empty ++ b.lineEnd.toList ++ b.done).reverse

/-- Within a line no line end waits to be dropped. -/
def Within (b : Lines × Bool) : Prop := b.2 = false → b.1.lineEnd = none ∧ b.1.empty = []

theorem feed_within {b : Lines × Bool} (hw : Within b) (c : Char) :
    Within (feed b c) ∧ whole (feed b c).1 = whole b.1 ++ [c] := by
  obtain ⟨b, broken⟩ := b
  unfold feed
  cases hb : isBreak c with
  | true =>
    refine ⟨fun h => absurd h.symm Bool.false_ne_true, ?_⟩
    cases broken with
    | true => simp [whole]
    | false =>
      obtain ⟨hend, hempty⟩ : b.lineEnd = none ∧ b.empty = [] := hw rfl
      simp [whole, hend, hempty]
  | false =>
    cases broken with
    | true =>
      refine ⟨fun _ => ⟨rfl, rfl⟩, ?_⟩
      simp [whole, Lines.push, Lines.startLine]
    | false =>
      obtain ⟨hend, hempty⟩ : b.lineEnd = none ∧ b.empty = [] := hw rfl
      refine ⟨fun _ => ⟨hend, hempty⟩, ?_⟩
      simp [whole, Lines.push, hend, hempty]

theorem foldl_feed {b : Lines × Bool} (hw : Within b) (cs : List Char) :
    Within (cs.foldl feed b) ∧ whole (cs.foldl feed b).1 = whole b.1 ++ cs := by
  induction cs generalizing b with
  | nil => exact ⟨hw, (List.append_nil _).symm⟩
  | cons c cs ih =>
    obtain ⟨hnext, hwhole⟩ := feed_within hw c
    obtain ⟨hlast, hrest⟩ := ih hnext
    rw [List.foldl_cons]
    refine ⟨hlast, hrest.trans ?_⟩
    rw [hwhole, List.append_assoc, List.singleton_append]

theorem feed_snd (b : Lines × Bool) (c : Char) : (feed b c).2 = isBreak c := by
  unfold feed
  cases isBreak c <;> rfl

def noLines : Lines := ⟨[], none, [], false⟩

def linesOf (cs : List Char) : Lines × Bool := cs.foldl feed (noLines, true)

theorem linesOf_within (cs : List Char) : Within (linesOf cs) ∧ whole (linesOf cs).1 = cs := by
  have hw : Within (noLines, true) := fun h => absurd h.symm Bool.false_ne_true
  exact foldl_feed hw cs

theorem linesOf_concat (cs : List Char) (c : Char) :
    linesOf (cs ++ [c]) = feed (linesOf cs) c := List.foldl_append

/-- The line end that ends the scalar, where the text does not end with one. -/
def closing (cs : List Char) : List Char := if cs.getLast?.any isBreak then [] else ['\n']

theorem closing_of_isBreak {cs : List Char} (hcs : ∀ c ∈ cs.getLast?, isBreak c = false) :
    closing cs = ['\n'] := by
  have hany : ¬ cs.getLast?.any isBreak = true := by
    intro h
    obtain ⟨c, hc, hb⟩ := (Option.any_eq_true ..).1 h
    exact Bool.false_ne_true ((hcs c hc).symm.trans hb)
  rw [closing, if_neg hany]

theorem chompOf_concat (cs : List Char) (c : Char) :
    chompOf (cs ++ [c]) =
      if !isBreak c then .strip else if cs.getLast?.all isBreak then .keep else .clip := by
  rw [chompOf, List.reverse_append, List.reverse_singleton, List.singleton_append]
  dsimp only
  rw [List.head?_reverse]

theorem readLines_stop (b : Lines) {rest : List Char} (hr : Unindented rest) :
    readLines false 2 b (columnAt true) rest = .ok (b, rest) := by
  cases rest with
  | nil => rfl
  | cons c rest =>
    obtain ⟨hb, hs, -⟩ := hr c rfl
    simp only [isBlank, Bool.or_eq_false_iff, decide_eq_false_iff_not] at hs
    simp [readLines, columnAt, joinsNext_of_isBreak hb, hb, hs.1, hs.2]

theorem finish_clip {b : Lines × Bool} (hw : Within b) (hb : b.2 = false) {c : Char}
    (hc : isBreak c = true) : Lines.finish .clip (feed b c).1 = whole (feed b c).1 := by
  obtain ⟨-, hempty⟩ := hw hb
  have hfeed : (feed b c).1 = { b.1 with lineEnd := some c } := by
    rw [feed, if_pos hc, hb]
    rfl
  rw [hfeed, whole]
  simp [Lines.finish, hempty]

/-- Whatever a text ends with, its header keeps just the line ends of its own. -/
theorem finish_linesOf {cs rest : List Char} (hne : cs ≠ []) (hr : Unindented rest) :
    ∃ b, readLines false 2 (linesOf cs).1 (columnAt (linesOf cs).2) (closing cs ++ rest) =
        .ok (b, rest) ∧ b.finish (chompOf cs) = cs := by
  obtain ⟨before, c, rfl⟩ := cs.eq_nil_or_concat'.resolve_left hne
  obtain ⟨hw, hwhole⟩ := linesOf_within (before ++ [c])
  have hlast : (linesOf (before ++ [c])).2 = isBreak c := by rw [linesOf_concat, feed_snd]
  rw [chompOf_concat, closing, List.getLast?_concat, Option.any_some, hlast]
  cases hc : isBreak c with
  | false =>
    -- The line end that is read behind the text is not its own, and the header strips it.
    obtain ⟨hend, hempty⟩ := hw (hlast.trans hc)
    have hbreak : isBreak '\n' = true := rfl
    have hread := readLines_break (linesOf (before ++ [c])).1 rest rfl hbreak false
    refine ⟨{ (linesOf (before ++ [c])).1 with lineEnd := some '\n' }, ?_, ?_⟩
    · exact hread.trans (readLines_stop _ hr)
    · rw [whole, hend, hempty] at hwhole
      exact hwhole
  | true =>
    refine ⟨_, readLines_stop _ hr, ?_⟩
    rw [Bool.not_true, if_neg Bool.false_ne_true]
    split
    · exact hwhole
    · -- The text ends with a single line end, so none waits before it when it is read.
      next hall =>
      have hinner : (linesOf before).2 = false := by
        rcases before.eq_nil_or_concat' with rfl | ⟨first, d, rfl⟩
        · exact absurd rfl hall
        · rw [List.getLast?_concat, Option.all_some, Bool.not_eq_true] at hall
          rw [linesOf_concat, feed_snd]
          exact hall
      rw [linesOf_concat] at hwhole ⊢
      exact (finish_clip (linesOf_within before).1 hinner hc).trans hwhole

/-! ## Reading -/

theorem readLead_margin {c : Char} (hs : isSpace c = false) (hc : isPrintable c = true)
    (hb : isBreak c = false) (rest : List Char) :
    readLead ⟨0, 0, []⟩ (margin ++ c :: rest) = .ok (⟨2, 2, []⟩, c :: rest) := by
  have hspace : c ≠ ' ' := of_decide_eq_false hs
  simp [margin, readLead, hspace, ne_tab hc, joinsNext_of_isBreak hb, hb]

/-- Where the header does not give the indentation, the first line shows it. -/
theorem read_lines {cs rest behind : List Char} {b : Lines} (hne : cs ≠ []) (hp : Printable cs)
    (hlines : readLines false 2 noLines (some 0) (literalFrom true cs ++ rest) = .ok (b, behind)) :
    read false 0 (literalIndent cs ++ literalChomp cs ++ '\n' :: (literalFrom true cs ++ rest)) =
      .ok (b.finish (chompOf cs), behind) := by
  rw [read, readHeader_written]
  cases hi : incrementOf cs with
  | some n =>
    obtain rfl : n = 2 := by
      unfold incrementOf at hi
      split at hi
      · exact (Option.some.inj hi).symm
      · cases hi
    have hread : readLines false ((0 : Int).toNat + 2) ⟨[], none, [], false⟩ (some 0)
      (literalFrom true cs ++ rest) = .ok (b, behind) := hlines
    simp only [hread]
  | none =>
    obtain ⟨c, ds, rfl⟩ := List.exists_cons_of_ne_nil hne
    obtain ⟨hc, -⟩ := printable_cons.1 hp
    obtain ⟨hs, hb⟩ : isSpace c = false ∧ isBreak c = false := by
      unfold incrementOf at hi
      split at hi
      · cases hi
      · next h => simpa using h
    have hline : literalFrom true (c :: ds) ++ rest =
        margin ++ c :: (literalFrom false ds ++ rest) := by
      rw [literalFrom, hb]
      rfl
    rw [hline, readLines_margin] at hlines
    have hread : readLines false (max 2 (max ((0 : Int) + 1).toNat 1)) ⟨[], none, [], false⟩
      (some 2) (c :: (literalFrom false ds ++ rest)) = .ok (b, behind) := hlines
    rw [hline]
    simp only [readLead_margin hs hc hb, hread]

/-- A text with line ends is read as it was written, and what stands behind it is left. -/
theorem read_literal {cs rest : List Char} (hne : cs ≠ []) (hp : Printable cs)
    (hr : Unindented rest) : read false 0 ((literal cs).tail ++ (closing cs ++ rest)) =
      .ok (cs, rest) := by
  obtain ⟨b, hread, hfinish⟩ := finish_linesOf hne hr
  have htail : (literal cs).tail ++ (closing cs ++ rest) = literalIndent cs ++ literalChomp cs ++
      '\n' :: (literalFrom true cs ++ (closing cs ++ rest)) := by
    simp [literal]
  have hlines := (readLines_literalFrom hp noLines true (closing cs ++ rest)).trans hread
  rw [htail, read_lines hne hp hlines, hfinish]

theorem literalFrom_concat (cs : List Char) (c : Char) (broken : Bool) :
    ∃ before, literalFrom broken (cs ++ [c]) = before ++ [c] := by
  induction cs generalizing broken with
  | nil =>
    rw [List.nil_append, literalFrom]
    split
    · exact ⟨[], rfl⟩
    · exact ⟨_, rfl⟩
  | cons d cs ih =>
    rw [List.cons_append, literalFrom]
    split
    · obtain ⟨before, hb⟩ := ih true
      exact ⟨d :: before, congrArg (d :: ·) hb⟩
    · obtain ⟨before, hb⟩ := ih false
      exact ⟨(if broken then margin else []) ++ d :: before, by rw [hb]; simp⟩

theorem getLast?_literal {cs : List Char} (hne : cs ≠ []) :
    (literal cs).getLast? = cs.getLast? := by
  obtain ⟨init, c, rfl⟩ := cs.eq_nil_or_concat'.resolve_left hne
  obtain ⟨before, hb⟩ := literalFrom_concat init c true
  rw [literal, hb, List.getLast?_concat, List.getLast?_append, ← List.cons_append,
    List.getLast?_concat]
  rfl

theorem closing_literal {cs : List Char} (hne : cs ≠ []) : closing (literal cs) = closing cs := by
  rw [closing, getLast?_literal hne, closing]

/-- A literal scalar takes the line end behind it, so a line begins where it ends. -/
theorem exists_lineEnd {cs : List Char} (hne : cs ≠ []) (hp : Printable cs) :
    ∃ before c, (literal cs).tail ++ closing cs = before ++ [c] ∧ isBreak c = true ∧
      isPrintable c = true := by
  obtain ⟨init, c, rfl⟩ := cs.eq_nil_or_concat'.resolve_left hne
  rw [closing, List.getLast?_concat, Option.any_some]
  split
  · next hb =>
    obtain ⟨before, hbefore⟩ := literalFrom_concat init c true
    refine ⟨literalIndent (init ++ [c]) ++ literalChomp (init ++ [c]) ++ '\n' :: before, c, ?_, hb,
      hp c (List.mem_append_right _ List.mem_cons_self)⟩
    simp [literal, hbefore]
  · exact ⟨(literal (init ++ [c])).tail, '\n', rfl, rfl, rfl⟩

end GraphStack.Yaml.Block
