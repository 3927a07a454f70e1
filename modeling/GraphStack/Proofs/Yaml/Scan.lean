import GraphStack.Proofs.Yaml.Literal
import GraphStack.Proofs.Yaml.Plain
import GraphStack.Proofs.Yaml.Quoted
import GraphStack.Total
import GraphStack.Yaml.Token

/-!
# Values are scanned as they are written

Outside of flow collections the scan reads one token where the blanks before it end. Whatever the
style, a written value is one token with its text, and behind it a line begins.
-/

namespace GraphStack.Yaml

open Render

/-! ## Places -/

namespace Cursor

theorem upTo_append (read rest : List Char) (m : Mark) :
    (⟨read ++ rest, m⟩ : Cursor).upTo rest = advance read.length (read ++ rest) m := by
  rw [upTo, skip, List.length_append, Nat.add_sub_cancel]

theorem column_advance {c : Char} {rest : List Char} (hb : isBreak c = true)
    (hj : joinsNext c rest = false) (before : List Char) (m : Mark) :
    (advance (before.length + 1) (before ++ c :: rest) m).mark.column = 0 := by
  induction before generalizing m with
  | nil =>
    have hpast : (m.past c rest).column = 0 := by
      rw [Mark.past, hb, hj]
      rfl
    exact hpast
  | cons x before ih => exact ih (m.past x (before ++ c :: rest))

/-- Behind a line end a line begins. -/
theorem column_upTo {c : Cursor} {before rest : List Char} {x : Char}
    (hc : c.rest = before ++ x :: rest) (hb : isBreak x = true) (hj : joinsNext x rest = false) :
    (c.upTo rest).mark.column = 0 := by
  obtain ⟨cs, m⟩ := c
  obtain rfl : cs = before ++ x :: rest := hc
  have hread : before ++ x :: rest = (before ++ [x]) ++ rest := by simp
  have hupTo := upTo_append (before ++ [x]) rest m
  rw [← hread] at hupTo
  rw [hupTo, List.length_append, List.length_singleton]
  exact column_advance hb hj before m

theorem mark_advance {word : List Char} (hw : ∀ c ∈ word, isBreak c = false) (rest : List Char)
    (m : Mark) : (advance word.length (word ++ rest) m).mark.line = m.line ∧
      (advance word.length (word ++ rest) m).mark.index = m.index + total Char.utf8Size word := by
  induction word generalizing m with
  | nil => exact ⟨rfl, rfl⟩
  | cons c word ih =>
    have hpast : m.past c (word ++ rest) = ⟨m.index + c.utf8Size, m.line, m.column + 1⟩ := by
      rw [Mark.past, hw c List.mem_cons_self]
      rfl
    have hstep : advance (c :: word).length (c :: word ++ rest) m =
        advance word.length (word ++ rest) ⟨m.index + c.utf8Size, m.line, m.column + 1⟩ := by
      rw [← hpast]
      rfl
    obtain ⟨hline, hindex⟩ := ih (fun d hd => hw d (List.mem_cons_of_mem _ hd))
      ⟨m.index + c.utf8Size, m.line, m.column + 1⟩
    rw [hstep, hline, hindex, total_cons]
    exact ⟨rfl, Nat.add_assoc ..⟩

end Cursor

namespace Scan

/-! ## Standing in a text -/

/-- Outside of flow collections, in a text that is readable to its end: the tokens so far, the last
one first, are of these kinds, and block collections at these columns are open. -/
structure Stands (kinds : List Token.Kind) (indents : List Nat) (s : Scan) : Prop where
  readable : s.forbidden = none
  block : s.outerKeys = []
  running : s.ended = false
  kinds : s.tokens.map Token.kind = kinds
  indents : s.indents = indents

/-- At the start of a line, where a key may begin, or at the end of the text. -/
structure AtLine (kinds : List Token.Kind) (indents : List Nat) (rest : List Char) (s : Scan) : Prop
    extends Stands kinds indents s where
  noKey : s.key = none
  line : ∃ m : Mark, (rest ≠ [] → m.column = 0) ∧
    toToken false s.keyAllowed false s.cursor.mark s.cursor.rest = (true, ⟨rest, m⟩)

variable {s : Scan} {kinds : List Token.Kind} {indents : List Nat}

namespace Stands

theorem inFlow (hs : Stands kinds indents s) : s.inFlow = false := by
  rw [Scan.inFlow, hs.block]
  rfl

theorem look (hs : Stands kinds indents s) (n : Nat) : s.look n = .ok s := by
  rw [Scan.look, blocked?, hs.readable]

theorem blocked? (hs : Stands kinds indents s) (n : Nat) (unread : List Char) :
    s.blocked? n unread = none := by rw [Scan.blocked?, hs.readable]

/-- Neither the place, nor the possible key, nor whether a key may begin there counts. -/
theorem moved (hs : Stands kinds indents s) (cursor : Cursor) (key : Option PossibleKey)
    (allowed : Bool) :
    Stands kinds indents { s with cursor := cursor, key := key, keyAllowed := allowed } :=
  ⟨hs.readable, hs.block, hs.running, hs.kinds, hs.indents⟩

theorem pushed (hs : Stands kinds indents s) {kind : Token.Kind} {start stop : Mark}
    {cursor : Cursor} {allowed : Bool} :
    Stands (kind :: kinds) indents
      { s.push ⟨kind, start, stop⟩ with cursor := cursor, keyAllowed := allowed } :=
  ⟨hs.readable, hs.block, hs.running, congrArg (kind :: ·) hs.kinds, hs.indents⟩

theorem indent (hs : Stands kinds [0] s) : s.indent = 0 := by
  rw [Scan.indent, hs.indents]
  rfl

theorem dropStaleKeys (hs : Stands kinds indents s)
    (hfresh : ∀ k ∈ s.key, k.isStale s.cursor.mark = false) : s.dropStaleKeys = .ok s := by
  obtain ⟨cursor, forbidden, tokens, ind, key, outerKeys, keyAllowed, ended⟩ := s
  obtain rfl : outerKeys = [] := hs.block
  cases key with
  | none => rfl
  | some k =>
    have hk : k.isStale cursor.mark = false := hfresh k rfl
    simp [Scan.dropStaleKeys, hk]

theorem closeBlocks (hs : Stands kinds indents s) {column : Nat}
    (hi : ∀ n ∈ indents.head?, n ≤ column) : s.closeBlocks column = s := by
  obtain ⟨cursor, forbidden, tokens, ind, key, outerKeys, keyAllowed, ended⟩ := s
  obtain rfl : ind = indents := hs.indents
  rw [Scan.closeBlocks, hs.inFlow, if_neg Bool.false_ne_true]
  cases ind with
  | nil => rfl
  | cons n ns =>
    have hn : n ≤ column := hi n rfl
    have hdeeper : ¬ (decide ((column : Int) < (n : Int)) = true) := by
      simp only [decide_eq_true_eq]
      omega
    have hclosed : (n :: ns).takeWhile (fun k : Nat => decide ((column : Int) < k)) = [] :=
      List.takeWhile_cons_of_neg hdeeper
    have hopen : (n :: ns).dropWhile (fun k : Nat => decide ((column : Int) < k)) = n :: ns :=
      List.dropWhile_cons_of_neg hdeeper
    simp only [hclosed, hopen]
    rfl

end Stands

theorem dropKey_of_none (hk : s.key = none) : s.dropKey = .ok s := by rw [dropKey, hk]

theorem next_skipped (hs : Stands kinds indents s) {cursor : Cursor} {allowed : Bool}
    (hskip : toToken false s.keyAllowed false s.cursor.mark s.cursor.rest = (allowed, cursor))
    (hfresh : ∀ k ∈ s.key, k.isStale cursor.mark = false)
    (hi : ∀ n ∈ indents.head?, n ≤ cursor.mark.column) :
    s.next = match cursor.rest with
      | [] => ({ s with keyAllowed := allowed, cursor := cursor } : Scan).finish
      | c :: cs => ({ s with keyAllowed := allowed, cursor := cursor } : Scan).tokenAt c cs := by
  have hthere : Stands kinds indents { s with keyAllowed := allowed, cursor := cursor } :=
    hs.moved cursor s.key allowed
  have hskipped : s.skipToToken = { s with keyAllowed := allowed, cursor := cursor } := by
    rw [skipToToken, hs.inFlow, hskip]
  have hclose := hthere.closeBlocks hi
  unfold next
  rw [hskipped, hthere.look]
  obtain ⟨rest, m⟩ := cursor
  cases rest <;>
    simp only [bind, Except.bind, hthere.dropStaleKeys hfresh, Scan.column, hclose, hthere.look]

/-- A token is read where the blanks before it end. -/
theorem next_eq (hs : Stands kinds indents s) {c : Char} {cs : List Char} {m : Mark}
    {allowed : Bool} (hskip : toToken false s.keyAllowed false s.cursor.mark s.cursor.rest =
      (allowed, ⟨c :: cs, m⟩))
    (hfresh : ∀ k ∈ s.key, k.isStale m = false) (hi : ∀ n ∈ indents.head?, n ≤ m.column) :
    s.next = ({ s with keyAllowed := allowed, cursor := ⟨c :: cs, m⟩ } : Scan).tokenAt c cs :=
  next_skipped hs hskip hfresh hi

theorem Stands.tokenAt_plain (hs : Stands kinds indents s) {c d : Char} {cs : List Char}
    (ha : AllowsPlain (c :: cs)) (hd : d ≠ '-' ∧ d ≠ '.') (rest : List Char) :
    s.tokenAt c (cs ++ d :: rest) = s.plain := by
  have hne := Plain.ne_of_allowsPlain ha
  simp only [List.forall_mem_cons] at hne
  have hspace := fun hc => Plain.atSpaceOrEnd_of_allowsPlain ha hc (d :: rest)
  have hword := Plain.atDocumentIndicator_of_allowsPlain ha hd rest
  have hstarts := Plain.starts_of_allowsPlain ha (d :: rest)
  have hhyphen : ¬ (c = '-' ∧ atSpaceOrEnd (cs ++ d :: rest) = true) := by
    rintro ⟨hc, h⟩
    exact Bool.false_ne_true ((hspace (.inl hc)).symm.trans h)
  have hquestion : ¬ (c = '?' ∧ atSpaceOrEnd (cs ++ d :: rest) = true) := by
    rintro ⟨hc, h⟩
    exact Bool.false_ne_true ((hspace (.inr (.inl hc))).symm.trans h)
  have hcolon : ¬ (c = ':' ∧ atSpaceOrEnd (cs ++ d :: rest) = true) := by
    rintro ⟨hc, h⟩
    exact Bool.false_ne_true ((hspace (.inr (.inr hc))).symm.trans h)
  simp only [tokenAt, hs.inFlow, hne, hword, hhyphen, hquestion, hcolon, hstarts,
    Bool.false_eq_true, false_or, and_false, false_and, if_false, if_true]

theorem plain_eq {offered : Scan} {r : Plain.Result} {n : Nat} {rest : List Char}
    (hoffer : s.offerKey = .ok offered) (hoffered : Stands kinds indents offered)
    (hread : Plain.read false (offered.indent + 1) offered.cursor.rest = .ok (⟨r, n⟩, rest)) :
    s.plain = .ok
      { offered.push ⟨.scalar (String.ofList r.text) .plain, offered.cursor.mark,
          (offered.cursor.upTo rest).mark⟩ with
        cursor := offered.cursor.upTo rest, keyAllowed := r.brokeLine } := by
  simp only [plain, hoffer, hoffered.inFlow, hread, hoffered.blocked?]

theorem Stands.readToken_eq {α : Type} (hs : Stands kinds indents s) {n ahead : Nat} {a : α}
    {read : List Char → Step (Seen α)} {kind : α → Token.Kind} {rest : List Char}
    (hread : read (s.cursor.skip n).rest = .ok (⟨a, ahead⟩, rest)) :
    s.readToken n read kind =
      .ok { s.push ⟨kind a, s.cursor.mark, ((s.cursor.skip n).upTo rest).mark⟩ with
        cursor := (s.cursor.skip n).upTo rest } := by
  simp only [readToken, hread, hs.blocked?]

/-! ## Values -/

section Skipping

variable {inFlow allowed : Bool} (m : Mark)

theorem toToken_space (cs : List Char) :
    toToken inFlow allowed false m (' ' :: cs) =
      toToken inFlow allowed false (m.past ' ' cs) cs := by
  rw [toToken]
  rfl

theorem toToken_firm {c : Char} (hc : Firm c) (cs : List Char) :
    toToken inFlow allowed false m (c :: cs) = (allowed, ⟨c :: cs, m⟩) := by
  obtain ⟨hb, hs, hmark, hcomment⟩ := hc
  simp only [isBlank, Bool.or_eq_false_iff, decide_eq_false_iff_not] at hs
  simp [toToken, hb, hs.1, hs.2, hmark, hcomment]

theorem toToken_unindented {rest : List Char} (hr : Unindented rest) :
    toToken inFlow allowed false m rest = (allowed, ⟨rest, m⟩) := by
  cases rest with
  | nil => rfl
  | cons c rest => exact toToken_firm m (hr c rfl) rest

/-- Behind a line end a key may begin. -/
theorem toToken_lineEnd {rest : List Char} (hr : Unindented rest) :
    toToken false allowed false m ('\n' :: rest) = (true, ⟨rest, m.past '\n' rest⟩) := by
  have hstep : toToken false allowed false m ('\n' :: rest) =
      toToken false (allowed || true) false (m.past '\n' rest) rest := rfl
  rw [hstep, toToken_unindented _ hr, Bool.or_true]

end Skipping

/-- A value as it is written for a text in a style. -/
inductive Written : List Char → String → Style → Prop
  | plain {cs : List Char} (hne : cs ≠ []) (ha : AllowsPlain cs) :
    Written cs (String.ofList cs) .plain
  | single {cs : List Char} (he : Quoted.Even cs) : Written (single cs) (String.ofList cs) .single
  | double (cs : List Char) : Written (double cs) (String.ofList cs) .double
  | literal {cs : List Char} (hne : cs ≠ []) (hp : Printable cs) :
    Written (literal cs) (String.ofList cs) .literal

theorem Written.printable {value : List Char} {text : String} {style : Style}
    (hw : Written value text style) : Printable value := by
  cases hw with
  | plain hne ha => exact ha.printable
  | single he => exact printable_single he.printable
  | double cs => exact printable_double cs
  | literal hne hp => exact printable_literal hp

theorem ne_nil_of_needsQuotes {s : String} (hq : needsQuotes s = false) : s.toList ≠ [] := by
  intro he
  obtain rfl : s = "" := String.toList_eq_nil_iff.1 he
  cases hq

/-- Every text is written in its style. -/
theorem written_scalar (s : String) : Written (scalar s) s (styleOf s) := by
  have hsuits := suits_styleOf s
  unfold scalar
  generalize styleOf s = style at hsuits
  have htext : String.ofList s.toList = s := String.ofList_toList
  cases hsuits with
  | plain hq ha =>
    have hw := Written.plain (ne_nil_of_needsQuotes hq) ha
    rwa [htext] at hw
  | single hn ha =>
    have hw := Written.single (.of_allowsSingle hn ha)
    rwa [htext] at hw
  | double =>
    have hw := Written.double s.toList
    rwa [htext] at hw
  | literal hn ha =>
    have hw := Written.literal (List.ne_nil_of_mem hn) (printable_of_allowsLiteral ha)
    rwa [htext] at hw

section Value

variable {rest : List Char} {cs : List Char}

theorem plain_value (hs : Stands kinds [0] s) (hk : s.key = none) (hallowed : s.keyAllowed = false)
    (ha : AllowsPlain cs) (hr : Unindented rest) (hrest : s.cursor.rest = cs ++ '\n' :: rest) :
    ∃ t, s.plain = .ok t ∧ AtLine (.scalar (String.ofList cs) .plain :: kinds) [0] rest t := by
  obtain ⟨n, hread⟩ := Plain.read_line (.of_allowsPlain ha) hr
  have hoffer : s.offerKey = .ok s := by rw [offerKey, hallowed, if_neg Bool.false_ne_true]
  have hcolumn : (s.cursor.upTo rest).mark.column = 0 :=
    Cursor.column_upTo hrest rfl rfl
  have hbehind : (s.cursor.upTo rest).rest = rest := by
    refine Cursor.rest_upTo ⟨cs ++ ['\n'], ?_⟩
    rw [hrest]
    simp
  have hread : Plain.read false (s.indent + 1) s.cursor.rest = .ok (⟨⟨cs, true⟩, n⟩, rest) := by
    rw [hs.indent, hrest]
    exact hread
  refine ⟨_, plain_eq hoffer hs hread, ?_⟩
  refine ⟨hs.pushed, hk, ?_⟩
  refine ⟨(s.cursor.upTo rest).mark, fun _ => hcolumn, ?_⟩
  exact (congrArg _ hbehind).trans (toToken_unindented _ hr)

/-- After a token that a reader reads up to a line end, a key may begin. -/
theorem readToken_lineEnd {read : List Char → Step (Seen (List Char))} {c : Char} {body : List Char}
    {n : Nat} {style : Style} (hs : Stands kinds [0] s) (hk : s.key = none)
    (hrest : s.cursor.rest = c :: (body ++ '\n' :: rest)) (hr : Unindented rest)
    (hread : read (body ++ '\n' :: rest) = .ok (⟨cs, n⟩, '\n' :: rest)) :
    ∃ t, s.readToken 1 read (fun text => .scalar (String.ofList text) style) = .ok t ∧
      AtLine (.scalar (String.ofList cs) style :: kinds) [0] rest t := by
  have hinner : (s.cursor.skip 1).rest = body ++ '\n' :: rest := by
    rw [Cursor.rest_skip, hrest]
    rfl
  rw [← hinner] at hread
  have hbehind : ((s.cursor.skip 1).upTo ('\n' :: rest)).rest = '\n' :: rest :=
    Cursor.rest_upTo ⟨body, hinner.symm⟩
  refine ⟨_, hs.readToken_eq hread, ?_⟩
  refine ⟨hs.pushed, hk, ?_⟩
  exact ⟨_, fun _ => rfl, (congrArg _ hbehind).trans (toToken_lineEnd _ hr)⟩

theorem block_value (hs : Stands kinds [0] s) (hk : s.key = none) (hne : cs ≠ [])
    (hp : Printable cs) (hr : Unindented rest)
    (hrest : s.cursor.rest = '|' :: ((literal cs).tail ++ (Block.closing cs ++ rest))) :
    ∃ t, s.block false = .ok t ∧
      AtLine (.scalar (String.ofList cs) .literal :: kinds) [0] rest t := by
  obtain ⟨before, c, hend, hb, hc⟩ := Block.exists_lineEnd hne hp
  have hinner : (s.cursor.skip 1).rest = before ++ c :: rest := by
    rw [Cursor.rest_skip, hrest, ← List.append_assoc, hend]
    simp
  have hread : Block.read false 0 (s.cursor.skip 1).rest = .ok (cs, rest) := by
    rw [Cursor.rest_skip, hrest]
    exact Block.read_literal hne hp hr
  have hpeeking : peeking (Block.read false s.indent) (s.cursor.skip 1).rest =
      .ok (⟨cs, 1⟩, rest) := by
    rw [hs.indent]
    simp only [peeking, hread]
  have hallowed : Stands kinds [0] { s with keyAllowed := true } := hs.moved s.cursor s.key true
  have hbehind : ((s.cursor.skip 1).upTo rest).rest = rest := by
    refine Cursor.rest_upTo ⟨before ++ [c], ?_⟩
    rw [hinner]
    simp
  have hcolumn : ((s.cursor.skip 1).upTo rest).mark.column = 0 :=
    Cursor.column_upTo hinner hb (joinsNext_eq_false hc rest)
  have hblock : s.block false = Scan.readToken { s with keyAllowed := true } 1
      (peeking (Block.read false s.indent)) fun text => .scalar (String.ofList text) .literal := by
    rw [block, dropKey_of_none hk]
    rfl
  refine ⟨_, hblock.trans (hallowed.readToken_eq hpeeking), ?_⟩
  refine ⟨hallowed.pushed, hk, ?_⟩
  exact ⟨_, fun _ => hcolumn, (congrArg _ hbehind).trans (toToken_unindented _ hr)⟩

theorem quoted_value {read : List Char → Step (Seen (List Char))} {c : Char} {body : List Char}
    {n : Nat} {style : Style} (hs : Stands kinds [0] s) (hk : s.key = none)
    (hallowed : s.keyAllowed = false) (hr : Unindented rest)
    (hrest : s.cursor.rest = c :: (body ++ '\n' :: rest))
    (hread : read (body ++ '\n' :: rest) = .ok (⟨cs, n⟩, '\n' :: rest)) :
    ∃ t, s.quoted read style = .ok t ∧
      AtLine (.scalar (String.ofList cs) style :: kinds) [0] rest t := by
  have hsame : ({ s with keyAllowed := false } : Scan) = s := by rw [← hallowed]
  have hquoted : s.quoted read style =
      s.readToken 1 read fun text => .scalar (String.ofList text) style := by
    rw [quoted, keyToken, offerKey, hallowed, if_neg Bool.false_ne_true]
    simp only [hsame]
  rw [hquoted]
  exact readToken_lineEnd hs hk hrest hr hread

theorem tokenAt_single (cs : List Char) :
    s.tokenAt '\'' cs = s.quoted (Quoted.readSingle [] .nothing 0) .single := by
  simp [tokenAt, atDocumentIndicator]

theorem tokenAt_double (cs : List Char) :
    s.tokenAt '"' cs = s.quoted (Quoted.readDouble [] .nothing 0) .double := by
  simp [tokenAt, atDocumentIndicator]

theorem tokenAt_literal (hs : Stands kinds indents s) (cs : List Char) :
    s.tokenAt '|' cs = s.block false := by
  simp [tokenAt, atDocumentIndicator, hs.inFlow]

/-- Whatever the style, a value is one token, and behind it a line begins. -/
theorem tokenAt_value {value : List Char} {text : String} {style : Style}
    (hw : Written value text style) (hs : Stands kinds [0] s) (hk : s.key = none)
    (hallowed : s.keyAllowed = false) (hr : Unindented rest)
    (hrest : s.cursor.rest = value ++ (Block.closing value ++ rest)) :
    ∃ c cs t, s.cursor.rest = c :: cs ∧ Firm c ∧ s.tokenAt c cs = .ok t ∧
      AtLine (.scalar text style :: kinds) [0] rest t := by
  cases hw with
  | plain hne ha =>
    obtain ⟨c, cs, rfl⟩ := List.exists_cons_of_ne_nil hne
    have hclosing : Block.closing (c :: cs) = ['\n'] :=
      Block.closing_of_isBreak fun d hd => (ha.line d (List.mem_of_getLast? hd)).2
    rw [hclosing] at hrest
    obtain ⟨t, ht, hline⟩ := plain_value hs hk hallowed ha hr hrest
    refine ⟨c, _, t, hrest, Plain.firm_of_allowsPlain ha, ?_, hline⟩
    exact (hs.tokenAt_plain ha (by decide) rest).trans ht
  | @single cs he =>
    have hclosing : Block.closing (single cs) = ['\n'] := by
      refine Block.closing_of_isBreak fun d hd => ?_
      rw [single, List.getLast?_concat] at hd
      cases hd
      rfl
    rw [hclosing] at hrest
    have hquote : ('\n' :: rest).head? ≠ some '\'' := by simp
    obtain ⟨n, hread⟩ := Quoted.readSingle_single he hquote
    obtain ⟨t, ht, hline⟩ := quoted_value hs hk hallowed hr hrest hread
    exact ⟨'\'', _, t, hrest, ⟨rfl, rfl, by decide, by decide⟩, (tokenAt_single _).trans ht, hline⟩
  | double cs =>
    have hclosing : Block.closing (double cs) = ['\n'] := by
      refine Block.closing_of_isBreak fun d hd => ?_
      rw [double, List.getLast?_concat] at hd
      cases hd
      rfl
    rw [hclosing] at hrest
    obtain ⟨n, hread⟩ := Quoted.readDouble_double cs ('\n' :: rest)
    obtain ⟨t, ht, hline⟩ := quoted_value hs hk hallowed hr hrest hread
    exact ⟨'"', _, t, hrest, ⟨rfl, rfl, by decide, by decide⟩, (tokenAt_double _).trans ht, hline⟩
  | @literal cs hne hp =>
    rw [Block.closing_literal hne] at hrest
    obtain ⟨t, ht, hline⟩ := block_value hs hk hne hp hr hrest
    exact ⟨'|', _, t, hrest, ⟨rfl, rfl, by decide, by decide⟩, (tokenAt_literal hs _).trans ht,
      hline⟩

end Value

end Scan
end GraphStack.Yaml
