import GraphStack.Config.Json
import GraphStack.Proofs.Json.Reach

/-!
# Where a refused JSON text is marked

The reader of documents stays in the text, so the bytes that it has read are bytes of the text.
From the line and the column that it reports, `offsetOf` finds the last byte read again, except
behind a line feed: there the column is 0, and the next byte is marked when there is one
(`span_of_refused`).
-/

namespace GraphStack.Config

open GraphStack.Json

/-! ## Reading stays in the text -/

theorem stays_readField (d : Draft) (key : String) (cs : List Char) :
    Stays cs (readField d key cs) := by
  have hcolon := stays_skipColon cs
  unfold readField
  split
  · split
    · exact within_badKey _ _
    · split
      · next hq => exact hcolon.halt_within hq
      · next rest hq =>
        have hvalue := (stays_readText rest).mono (hcolon.rest_suffix hq)
        split
        · next hq => exact hvalue.halt_within hq
        · next hq => exact hvalue.rest_suffix hq
  · split
    · split
      · exact within_badKey _ _
      · split
        · next hq => exact hcolon.halt_within hq
        · next rest hq =>
          have hvalue := (stays_readOptionalCount rest).mono (hcolon.rest_suffix hq)
          split
          · next hq => exact hvalue.halt_within hq
          · next hq => exact hvalue.rest_suffix hq
    · exact within_badKey _ _

theorem stays_readObject (cs : List Char) : Stays cs (readObject cs) := by
  have hmembers := stays_readMembers (m := member) stays_readField true .empty cs
  unfold readObject
  split
  · next hq => exact hmembers.halt_within hq
  · next rest hq =>
    have hclose := (stays_closeObject rest).mono (hmembers.rest_suffix hq)
    split
    · next hq => exact hclose.halt_within hq
    · next hq => exact hclose.rest_suffix hq

theorem stays_readElements (cs : List Char) : Stays cs (readElements cs) := by
  unfold readElements
  split
  · next hfirst => exact within_nextElement hfirst
  · next hfirst => exact suffix_of_nextElement hfirst
  · next rest hfirst =>
    have hlabel := (stays_readText rest).mono (suffix_of_nextElement hfirst)
    split
    · next hq => exact hlabel.halt_within hq
    · next hq =>
      have hrest := hlabel.rest_suffix hq
      split
      · next hsecond => exact (within_nextElement hsecond).mono hrest
      · next hsecond => exact (suffix_of_nextElement hsecond).trans hrest
      · next rest hsecond =>
        have hlimit := (stays_readOptionalCount rest).mono (suffix_of_nextElement hsecond)
        split
        · next hq => exact (hlimit.halt_within hq).mono hrest
        · next hq => exact (hlimit.rest_suffix hq).trans hrest

theorem stays_readList (cs : List Char) : Stays cs (readList cs) := by
  have helements := stays_readElements cs
  unfold readList
  split
  · next hq => exact helements.halt_within hq
  · next rest hq =>
    have hclose := (stays_closeList rest).mono (helements.rest_suffix hq)
    split
    · next hq => exact hclose.halt_within hq
    · next hq => exact hclose.rest_suffix hq

/-- A document that is refused is refused at a place in it. -/
theorem within_readDocument {cs : List Char} {halt : Halt} (h : readDocument cs = .error halt) :
    halt.Within cs := by
  have object {ds : List Char} (hs : skipSpace cs = '\x7b' :: ds) : Stays cs (readObject ds) :=
    (stays_readObject ds).mono (suffix_of_skipSpace hs)
  have list {ds : List Char} (hs : skipSpace cs = '[' :: ds) : Stays cs (readList ds) :=
    (stays_readList ds).mono (suffix_of_skipSpace hs)
  unfold readDocument at h
  dsimp only at h
  split at h
  · next hread =>
    cases h
    split at hread
    · next hs => exact (object hs).halt_within hread
    · next hs => exact (list hs).halt_within hread
    · cases hread
      exact (within_misfit _ _).mono (skipSpace_suffix cs)
  · next d rest hread =>
    have hrest : rest <:+ cs := by
      split at hread
      · next hs => exact (object hs).rest_suffix hread
      · next hs => exact (list hs).rest_suffix hread
      · cases hread
    split at h
    · next hend =>
      cases h
      exact (within_endOfText hend).mono hrest
    · cases h

/-! ## Places -/

/-- The lines before the last one and the bytes in the last one are all bytes that were read. -/
theorem linesLength_add_lastLine {cs : List Char} {k : Nat} (hk : k ≤ byteLength cs) :
    linesLength (((bytes cs).take k).count lineFeed) cs + lastLine ((bytes cs).take k) = k := by
  induction cs generalizing k with
  | nil =>
    obtain rfl := Nat.le_zero.1 hk
    rfl
  | cons c cs ih =>
    rw [byteLength_cons] at hk
    by_cases hlt : k < c.utf8Size
    · obtain ⟨hnot, hlength⟩ := take_bytes_cons_of_lt hlt cs
      rw [List.count_eq_zero.2 hnot, lastLine_of_not_mem hnot, hlength, linesLength, Nat.zero_add]
    · have hsize := Nat.not_lt.1 hlt
      have hrest := ih (k := k - c.utf8Size) (by omega)
      rw [take_bytes_cons_of_le hsize]
      generalize (bytes cs).take (k - c.utf8Size) = read at hrest
      -- a line feed is a line of its own, another character lengthens the line that comes next
      by_cases hc : c = '\n'
      · subst hc
        have hcount : (lineFeed :: read).count lineFeed = read.count lineFeed + 1 :=
          List.count_cons_self
        have hencode : String.utf8EncodeChar '\n' ++ read = lineFeed :: read := rfl
        rw [hencode, hcount, lastLine_lineFeed_cons, linesLength, if_pos rfl]
        omega
      · have hnot := lineFeed_not_mem hc
        have hcount : (String.utf8EncodeChar c ++ read).count lineFeed = read.count lineFeed := by
          rw [List.count_append, List.count_eq_zero.2 hnot, Nat.zero_add]
        rw [hcount]
        by_cases hread : lineFeed ∈ read
        · obtain ⟨m, hm⟩ := Nat.exists_eq_add_one.2 (List.count_pos_iff.2 hread)
          rw [hm] at hrest ⊢
          rw [lastLine_append_of_mem _ hread, linesLength, if_neg hc]
          omega
        · rw [List.count_eq_zero.2 hread, linesLength, lastLine_of_not_mem hread] at hrest
          rw [List.count_eq_zero.2 hread, linesLength, lastLine_append_of_not_mem _ hread,
            lastLine_of_not_mem hnot, String.length_utf8EncodeChar]
          omega

/-- The offset of the last byte read, or of the one after it behind a line feed. -/
theorem offsetOf_behind {cs : List Char} {k : Nat} (hpos : 0 < k) (hk : k ≤ byteLength cs) :
    offsetOf cs (.behind ((bytes cs).take k)) =
      if ((bytes cs).take k).getLast? = some lineFeed ∧ k < byteLength cs then k else k - 1 := by
  have hlines := linesLength_add_lastLine hk
  have hne : (bytes cs).take k ≠ [] := by
    rw [← List.length_pos_iff, List.length_take, length_bytes]
    omega
  have hzero := lastLine_eq_zero_iff hne
  have hline : 1 + ((bytes cs).take k).count lineFeed - 1 = ((bytes cs).take k).count lineFeed :=
    Nat.add_sub_cancel_left ..
  rw [offsetOf, Place.behind, hline]
  split_ifs with hfeed
  · have hcolumn := hzero.2 hfeed.1
    dsimp only
    omega
  · by_cases hlast : ((bytes cs).take k).getLast? = some lineFeed
    · have hend : ¬ k < byteLength cs := fun hlt => hfeed ⟨hlast, hlt⟩
      have hcolumn := hzero.2 hlast
      dsimp only
      omega
    · have hcolumn := mt hzero.1 hlast
      dsimp only
      omega

/-- A text is refused where the reader stopped. The place that the message names counts the line
feeds among the bytes read and the bytes behind the last of them. The last byte read is marked,
but when it is a line feed and not the last byte of the text, the byte behind it is. -/
theorem span_of_refused {text : String} {halt : Halt} (h : readDocument text.toList = .error halt)
    (hpos : 0 < halt.bytesRead text.toList) :
    let k := halt.bytesRead text.toList
    let read := (bytes text.toList).take k
    read.length = k ∧
    halt.place text.toList = ⟨1 + read.count lineFeed, lastLine read⟩ ∧
    ∃ f, ofJson text = .error f ∧ f.kind = .config ∧ f.message = halt.message text.toList ∧
      f.span = some
        (if read.getLast? = some lineFeed ∧ k < (bytes text.toList).length then ⟨k, k + 1⟩
        else ⟨k - 1, k⟩) := by
  intro k read
  have hk : k ≤ byteLength text.toList := (within_readDocument h).bytesRead_le
  have hplace : halt.place text.toList = .behind read := Place.after_eq [] hk
  refine ⟨?_, hplace, malformed ⟨jsonSourceName, text⟩ (halt.message text.toList)
    (.point (offsetOf text.toList (halt.place text.toList))), ?_, rfl, rfl, ?_⟩
  · rw [List.length_take, length_bytes]
    omega
  · simp only [ofJson, ofJsonNamed, h]
  · have hoffset := offsetOf_behind hpos hk
    rw [malformed, hplace, hoffset, length_bytes, Span.point]
    split_ifs
    · rfl
    · have hsucc : k - 1 + 1 = k := Nat.sub_add_cancel hpos
      rw [hsucc]

/-- A label cut by a line feed is refused there, and the byte behind the line feed is marked. -/
theorem span_of_line_feed :
    readDocument "\"a\nb\"".toList = .error (.atNext .controlCharacter ['\n', 'b', '"']) ∧
    ∃ f, ofJson "\"a\nb\"" = .error f ∧ f.span = some ⟨3, 4⟩ := by
  have hread : readDocument "\"a\nb\"".toList =
      .error (.atNext .controlCharacter ['\n', 'b', '"']) := by cbv
  obtain ⟨-, -, f, hf, -, -, hspan⟩ := span_of_refused hread (by decide)
  exact ⟨hread, f, hf, hspan⟩

end GraphStack.Config
