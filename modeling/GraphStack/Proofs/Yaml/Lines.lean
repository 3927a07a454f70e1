import GraphStack.Proofs.Yaml.Scan

/-!
# The tokens of a written block mapping

A written block mapping is a list of lines with a plain key and a value each. The scan of its text
stands at the start of a line after each of them, so its tokens are those of the lines, one line
after the other.
-/

namespace GraphStack.Yaml

open Render

namespace Scan

variable {s : Scan} {kinds : List Token.Kind} {indents : List Nat}

/-! ## Keys -/

theorem run_next {t : Scan} (hs : Stands kinds indents s)
    (hfresh : ∀ k ∈ s.key, k.isStale s.cursor.mark = false) (hnext : s.next = .ok t) (n : Nat)
    (before : Scan) : run (n + 1) before s = run n s t := by
  rw [run, hs.dropStaleKeys hfresh]
  simp only [hs.running, hnext]
  rfl

theorem insertKey_eq {t : Token} {ts : List Token} {k : PossibleKey} (hs : Stands kinds indents s)
    (ht : s.tokens = t :: ts) (hn : k.number = ts.length) (hm : k.mark.column = 0)
    (hi : indents = [] ∨ indents = [0]) :
    ∃ opened : List Token, opened.map Token.kind = (if indents = [] then [.mappingStart] else []) ∧
      s.insertKey k =
        { s with tokens := t :: ⟨.key, k.mark, k.mark⟩ :: (opened ++ ts), indents := [0] } := by
  have hsince : s.tokens.take (s.tokens.length - k.number) = [t] := by simp [ht, hn]
  have hbefore : s.tokens.drop (s.tokens.length - k.number) = ts := by simp [ht, hn]
  rcases hi with rfl | rfl
  · refine ⟨[⟨.mappingStart, k.mark, k.mark⟩], rfl, ?_⟩
    have hindent : s.indent = -1 := by rw [Scan.indent, hs.indents]
    rw [insertKey, hsince, hbefore, hs.inFlow, hindent, hm, hs.indents]
    rfl
  · refine ⟨[], rfl, ?_⟩
    rw [insertKey, hsince, hbefore, hs.inFlow, hs.indent, hm, ← hs.indents]
    rfl

/-- Behind a plain word that a colon follows; the word may still become a key. -/
structure AtColon (word : List Char) (kinds : List Token.Kind) (indents : List Nat)
    (rest : List Char) (s : Scan) : Prop
    extends Stands (.scalar (String.ofList word) .plain :: kinds) indents s where
  possible : ∃ t ts k, s.tokens = t :: ts ∧ s.key = some k ∧ k.number = ts.length ∧
    k.mark.column = 0 ∧ k.isStale s.cursor.mark = false
  colon : s.cursor.rest = ':' :: ' ' :: rest

theorem plain_word {word rest : List Char} (ha : AllowsPlain word)
    (hshort : total Char.utf8Size word ≤ 1024) (hs : Stands kinds indents s) (hk : s.key = none)
    (hallowed : s.keyAllowed = true) (hcolumn : s.cursor.mark.column = 0)
    (hrest : s.cursor.rest = word ++ ':' :: ' ' :: rest) :
    ∃ t, s.plain = .ok t ∧ AtColon word kinds indents rest t := by
  obtain ⟨k, hnumber, hmark, hoffer⟩ : ∃ k : PossibleKey, k.number = s.tokens.length ∧
      k.mark = s.cursor.mark ∧ s.offerKey = .ok { s with key := some k } := by
    rw [offerKey, if_pos hallowed, dropKey_of_none hk]
    exact ⟨_, rfl, rfl, rfl⟩
  obtain ⟨n, hread⟩ := Plain.read_key (.of_allowsPlain ha) rest
  rw [← hrest] at hread
  have hoffered : Stands kinds indents { s with key := some k } :=
    hs.moved s.cursor (some k) s.keyAllowed
  have hbehind : (s.cursor.upTo (':' :: ' ' :: rest)).rest = ':' :: ' ' :: rest :=
    Cursor.rest_upTo ⟨word, hrest.symm⟩
  have hupTo : s.cursor.upTo (':' :: ' ' :: rest) =
      Cursor.advance word.length (word ++ ':' :: ' ' :: rest) s.cursor.mark := by
    rw [← Cursor.upTo_append, ← hrest]
  obtain ⟨hline, hindex⟩ := Cursor.mark_advance
    (fun c hc => (ha.line c hc).2) (':' :: ' ' :: rest) s.cursor.mark
  rw [← hupTo] at hline hindex
  refine ⟨_, plain_eq hoffer hoffered hread, ?_⟩
  refine ⟨hoffered.pushed, ?_, hbehind⟩
  refine ⟨_, _, k, rfl, rfl, hnumber, hmark ▸ hcolumn, ?_⟩
  -- The colon stands on the line of the word, at most 1024 bytes behind its start.
  show k.isStale (s.cursor.upTo (':' :: ' ' :: rest)).mark = false
  rw [PossibleKey.isStale, hmark, hline, hindex]
  simp only [Nat.lt_irrefl, decide_false, Bool.false_or, decide_eq_false_iff_not]
  omega

theorem next_word {word rest : List Char} (hne : word ≠ []) (ha : AllowsPlain word)
    (hshort : total Char.utf8Size word ≤ 1024) (hi : indents = [] ∨ indents = [0])
    (hs : AtLine kinds indents (word ++ ':' :: ' ' :: rest) s) :
    ∃ t, s.next = .ok t ∧ AtColon word kinds indents rest t := by
  obtain ⟨m, hm, hskip⟩ := hs.line
  have hzero : m.column = 0 := hm (by simp)
  obtain ⟨c, cs, rfl⟩ := List.exists_cons_of_ne_nil hne
  have hindents : ∀ n ∈ indents.head?, n ≤ m.column := by
    rcases hi with rfl | rfl <;> simp
  have hfresh : ∀ k ∈ s.key, k.isStale m = false := by
    rw [hs.noKey]
    exact fun k hk => nomatch hk
  have hthere : Stands kinds indents
      { s with keyAllowed := true, cursor := ⟨c :: cs ++ ':' :: ' ' :: rest, m⟩ } :=
    hs.moved ⟨c :: cs ++ ':' :: ' ' :: rest, m⟩ s.key true
  obtain ⟨t, ht, hcolon⟩ := plain_word ha hshort hthere hs.noKey rfl hzero rfl
  refine ⟨t, ?_, hcolon⟩
  rw [next_eq hs.toStands hskip hfresh hindents]
  exact (hthere.tokenAt_plain ha (by decide) (' ' :: rest)).trans ht

/-- A word that a colon follows is a key, and the first one opens a block mapping. -/
theorem next_colon {word rest : List Char} (hi : indents = [] ∨ indents = [0])
    (hs : AtColon word kinds indents rest s) :
    ∃ t, s.next = .ok t ∧
      Stands (.value :: .scalar (String.ofList word) .plain :: .key ::
        ((if indents = [] then [.mappingStart] else []) ++ kinds)) [0] t ∧
      t.key = none ∧ t.keyAllowed = false ∧ t.cursor.rest = ' ' :: rest := by
  obtain ⟨tok, ts, k, htokens, hkey, hnumber, hcolumn, hfresh⟩ := hs.possible
  have hskip : toToken false s.keyAllowed false s.cursor.mark s.cursor.rest =
      (s.keyAllowed, ⟨':' :: ' ' :: rest, s.cursor.mark⟩) := by
    rw [hs.colon]
    exact toToken_firm _ ⟨rfl, rfl, by decide, by decide⟩ _
  have hfresh : ∀ k ∈ s.key, k.isStale s.cursor.mark = false := by
    rw [hkey]
    rintro _ ⟨⟩
    exact hfresh
  have hindents : ∀ n ∈ indents.head?, n ≤ s.cursor.mark.column := by
    rcases hi with rfl | rfl <;> simp
  have hsame : ({ s with cursor := ⟨':' :: ' ' :: rest, s.cursor.mark⟩ } : Scan) = s := by
    rw [← hs.colon]
  obtain ⟨opened, hopened, hinsert⟩ := insertKey_eq hs.toStands htokens hnumber hcolumn hi
  have htoken : s.tokenAt ':' (' ' :: rest) = .ok (Scan.take { s with
      tokens := tok :: ⟨.key, k.mark, k.mark⟩ :: (opened ++ ts), indents := [0], key := none,
      keyAllowed := false } .value 1) := by
    have hvalue : s.tokenAt ':' (' ' :: rest) = s.value := by
      simp [tokenAt, atDocumentIndicator, atSpaceOrEnd, isBlank]
    rw [hvalue, value, hkey]
    simp only [hinsert]
  have hkinds := hs.kinds
  rw [htokens, List.map_cons, List.cons.injEq] at hkinds
  obtain ⟨hword, hkinds⟩ := hkinds
  have hnext := next_eq hs.toStands hskip hfresh hindents
  rw [hsame, htoken] at hnext
  refine ⟨_, hnext, ⟨hs.readable, hs.block, hs.running, ?_, rfl⟩, rfl, rfl, ?_⟩
  · simp [take, push, hword, hkinds, hopened]
  · simp [take, hs.colon]

/-! ## Lines -/

/-- A line of a block mapping: a plain word and a written value. -/
structure Line where
  key : String
  value : List Char
  text : String
  style : Style
  nonempty : key.toList ≠ []
  plain : AllowsPlain key.toList
  short : total Char.utf8Size key.toList ≤ 1024
  written : Written value text style

namespace Line

def chars (l : Line) : List Char := field l.key l.value

def tokens (l : Line) : List Token.Kind :=
  [.key, .scalar l.key .plain, .value, .scalar l.text l.style]

theorem chars_eq (l : Line) (rest : List Char) :
    l.chars ++ rest =
      l.key.toList ++ ':' :: ' ' :: (l.value ++ (Block.closing l.value ++ rest)) := by
  simp [chars, field, Block.closing]

theorem printable (l : Line) : Printable l.chars := by
  refine printable_append.2 ⟨printable_append.2 ⟨l.plain.printable, ?_⟩, ?_⟩
  · exact printable_cons.2 ⟨rfl, printable_cons.2 ⟨rfl, l.written.printable⟩⟩
  · split
    · exact printable_nil
    · exact printable_of_all rfl

theorem length_chars (l : Line) : 3 ≤ l.chars.length := by
  have hpos : 0 < l.key.toList.length := List.length_pos_iff.2 l.nonempty
  simp only [chars, field, List.length_append, List.length_cons]
  omega

theorem unindented (l : Line) (rest : List Char) : Unindented (l.chars ++ rest) := by
  obtain ⟨c, cs, hc⟩ := List.exists_cons_of_ne_nil l.nonempty
  have hplain := l.plain
  rw [hc] at hplain
  rw [chars_eq, hc]
  rintro _ ⟨⟩
  exact Plain.firm_of_allowsPlain hplain

theorem unindented_flatMap (ls : List Line) {rest : List Char} (hr : Unindented rest) :
    Unindented (ls.flatMap chars ++ rest) := by
  cases ls with
  | nil => exact hr
  | cons l ls =>
    rw [List.flatMap_cons, List.append_assoc]
    exact l.unindented _

theorem length_flatMap (ls : List Line) : 3 * ls.length ≤ (ls.flatMap chars).length := by
  induction ls with
  | nil => exact Nat.zero_le _
  | cons l ls ih =>
    have hl := l.length_chars
    rw [List.flatMap_cons, List.length_append, List.length_cons]
    omega

end Line

theorem next_value {value : List Char} {text : String} {style : Style} {rest : List Char}
    (hw : Written value text style) (hs : Stands kinds [0] s) (hk : s.key = none)
    (hallowed : s.keyAllowed = false) (hr : Unindented rest)
    (hrest : s.cursor.rest = ' ' :: (value ++ (Block.closing value ++ rest))) :
    ∃ t, s.next = .ok t ∧ AtLine (.scalar text style :: kinds) [0] rest t := by
  have hthere : Stands kinds [0] { s with
      keyAllowed := false
      cursor := ⟨value ++ (Block.closing value ++ rest),
        s.cursor.mark.past ' ' (value ++ (Block.closing value ++ rest))⟩ } :=
    hs.moved _ s.key false
  obtain ⟨c, cs, t, hvalue, hc, htoken, hline⟩ := tokenAt_value hw hthere hk rfl hr rfl
  have hvalue : value ++ (Block.closing value ++ rest) = c :: cs := hvalue
  have hskip : toToken false s.keyAllowed false s.cursor.mark s.cursor.rest =
      (false, ⟨c :: cs, s.cursor.mark.past ' ' (c :: cs)⟩) := by
    rw [hrest, hallowed, toToken_space, hvalue]
    exact toToken_firm _ hc cs
  have hfresh : ∀ k ∈ s.key, k.isStale (s.cursor.mark.past ' ' (c :: cs)) = false := by
    rw [hk]
    exact fun k hk => nomatch hk
  have hindents : ∀ n ∈ [0].head?, n ≤ (s.cursor.mark.past ' ' (c :: cs)).column := by simp
  refine ⟨t, ?_, hline⟩
  rw [next_eq hs hskip hfresh hindents, ← hvalue]
  exact htoken

theorem run_line (l : Line) {rest : List Char} (hi : indents = [] ∨ indents = [0])
    (hr : Unindented rest) (hs : AtLine kinds indents (l.chars ++ rest) s) :
    ∃ b t, (∀ n before, run (n + 3) before s = run n b t) ∧
      AtLine (l.tokens.reverse ++ ((if indents = [] then [.mappingStart] else []) ++ kinds)) [0]
        rest t := by
  rw [l.chars_eq] at hs
  obtain ⟨word, hword, hcolon⟩ := next_word l.nonempty l.plain l.short hi hs
  obtain ⟨colon, hvalue, hstands, hkey, hallowed, hrest⟩ := next_colon hi hcolon
  obtain ⟨t, ht, hline⟩ := next_value l.written hstands hkey hallowed hr hrest
  have hfirst := run_next hs.toStands (by simp [hs.noKey]) hword
  have hsecond : ∀ n before, run (n + 1) before word = run n word colon := by
    obtain ⟨_, _, k, -, hk, -, -, hfresh⟩ := hcolon.possible
    exact run_next hcolon.toStands (by simp [hk, hfresh]) hvalue
  have hthird := run_next hstands (by simp [hkey]) ht
  refine ⟨colon, t, fun n before => ?_, ?_⟩
  · rw [hfirst, hsecond, hthird]
  · rw [String.ofList_toList] at hline
    exact hline

theorem run_lines (ls : List Line) {rest : List Char} (hr : Unindented rest)
    (hs : AtLine kinds [0] (ls.flatMap Line.chars ++ rest) s) :
    ∀ b, ∃ b' t, (∀ n, run (n + 3 * ls.length) b s = run n b' t) ∧
      AtLine ((ls.flatMap Line.tokens).reverse ++ kinds) [0] rest t := by
  induction ls generalizing kinds s with
  | nil => exact fun b => ⟨b, s, fun n => rfl, hs⟩
  | cons l ls ih =>
    intro b
    rw [List.flatMap_cons, List.append_assoc] at hs
    obtain ⟨b', t, hrun, hline⟩ := run_line l (.inr rfl) (Line.unindented_flatMap ls hr) hs
    obtain ⟨b'', t', hruns, hlines⟩ := ih hline b'
    refine ⟨b'', t', fun n => ?_, ?_⟩
    · rw [← hruns n, List.length_cons, Nat.mul_succ, ← Nat.add_assoc, hrun]
    · rw [List.flatMap_cons, List.reverse_append, List.append_assoc]
      exact hlines

/-! ## The end -/

theorem run_ended (hk : s.key = none) (ho : s.outerKeys = []) (he : s.ended = true) (n : Nat)
    (before : Scan) : run n before s = ⟨s.tokens.reverse, .ok s.cursor.mark⟩ := by
  have hdrop : s.dropStaleKeys = .ok s := by
    obtain ⟨cursor, forbidden, tokens, ind, key, outerKeys, keyAllowed, ended⟩ := s
    obtain rfl : key = none := hk
    obtain rfl : outerKeys = [] := ho
    rfl
  unfold run
  simp only [hdrop, he, if_true]

theorem finish_eq (hs : Stands kinds [0] s) (hk : s.key = none) :
    ∃ t, s.finish = .ok t ∧ t.key = none ∧ t.outerKeys = [] ∧ t.ended = true ∧
      t.tokens.map Token.kind = .blockEnd :: kinds := by
  obtain ⟨cursor, forbidden, tokens, ind, key, outerKeys, keyAllowed, ended⟩ := s
  obtain rfl : ind = [0] := hs.indents
  obtain rfl : outerKeys = [] := hs.block
  obtain rfl : key = none := hk
  exact ⟨_, rfl, rfl, rfl, rfl, congrArg _ hs.kinds⟩

/-- The end of the text closes the block mapping. -/
theorem run_end (hs : AtLine kinds [0] [] s) (n : Nat) (before : Scan) :
    ∃ ts m, run (n + 1) before s = ⟨ts, .ok m⟩ ∧
      ts.map Token.kind = (Token.Kind.blockEnd :: kinds).reverse := by
  obtain ⟨m, -, hskip⟩ := hs.line
  have hfresh : ∀ k ∈ s.key, k.isStale m = false := by simp [hs.noKey]
  have hnext := next_skipped hs.toStands hskip hfresh (by simp)
  have hthere : Stands kinds [0] { s with keyAllowed := true, cursor := ⟨[], m⟩ } :=
    hs.moved ⟨[], m⟩ s.key true
  obtain ⟨t, ht, hk, ho, he, hkinds⟩ := finish_eq hthere hs.noKey
  refine ⟨t.tokens.reverse, t.cursor.mark, ?_, ?_⟩
  · rw [run_next hs.toStands (by simp [hs.noKey]) (hnext.trans ht)]
    exact run_ended hk ho he n s
  · rw [List.map_reverse, hkinds]

end Scan

/-- A written block mapping has the tokens of its lines. -/
theorem Tokens.ofText_lines (l : Scan.Line) (ls : List Scan.Line) :
    ∃ ts m, Tokens.ofText ((l :: ls).flatMap Scan.Line.chars) = ⟨ts, .ok m⟩ ∧
      ts.map Token.kind = .mappingStart :: (l :: ls).flatMap Scan.Line.tokens ++ [.blockEnd] := by
  have hp : Printable ((l :: ls).flatMap Scan.Line.chars) := by
    intro c hc
    obtain ⟨k, -, hc⟩ := List.mem_flatMap.1 hc
    exact k.printable c hc
  have hlong := Scan.Line.length_flatMap (l :: ls)
  have hend : Unindented [] := fun c hc => nomatch hc
  have hstart : Scan.AtLine [] [] (l.chars ++ (ls.flatMap Scan.Line.chars ++ []))
      (Scan.ofIntake ⟨(l :: ls).flatMap Scan.Line.chars, none⟩) := by
    rw [List.append_nil]
    exact ⟨⟨rfl, rfl, rfl, rfl, rfl⟩, rfl, .start, fun _ => rfl,
      Scan.toToken_unindented .start (l.unindented _)⟩
  obtain ⟨b, s, hfirst, hline⟩ :=
    Scan.run_line l (.inl rfl) (Scan.Line.unindented_flatMap ls hend) hstart
  obtain ⟨b', t, hothers, hlines⟩ := Scan.run_lines ls hend hline b
  obtain ⟨ts, m, hlast, hkinds⟩ := Scan.run_end hlines
    (((l :: ls).flatMap Scan.Line.chars).length - 3 * ls.length - 3) b'
  refine ⟨ts, m, ?_, ?_⟩
  · -- A line takes three steps and has at least three characters, so the steps suffice.
    have hsteps : ((l :: ls).flatMap Scan.Line.chars).length + 1 =
        ((l :: ls).flatMap Scan.Line.chars).length - 3 * ls.length - 3 + 1 + 3 * ls.length + 3 := by
      rw [List.length_cons] at hlong
      omega
    simp only [Tokens.ofText, ofText_printable hp]
    rw [hsteps, hfirst, hothers, hlast]
  · rw [hkinds]
    simp [Scan.Line.tokens]

end GraphStack.Yaml
