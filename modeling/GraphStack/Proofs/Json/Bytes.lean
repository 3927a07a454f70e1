import GraphStack.Json.Halt
import Mathlib

/-!
# Bytes and places of a text

The place after some bytes of a text counts the line feeds among them and the bytes after the last
line feed (`Place.after_eq`). No character but the line feed itself has its byte in UTF-8.
-/

namespace GraphStack.Json

theorem byteLength_eq_sum (cs : List Char) : byteLength cs = (cs.map Char.utf8Size).sum := by
  have hfold : ∀ n, cs.foldl (fun n c => n + c.utf8Size) n = n + (cs.map Char.utf8Size).sum := by
    induction cs with
    | nil => exact fun n => rfl
    | cons c cs ih =>
      intro n
      rw [List.foldl_cons, ih, List.map_cons, List.sum_cons, Nat.add_assoc]
  rw [byteLength, hfold, Nat.zero_add]

@[simp]
theorem byteLength_nil : byteLength [] = 0 := rfl

@[simp]
theorem byteLength_cons (c : Char) (cs : List Char) :
    byteLength (c :: cs) = c.utf8Size + byteLength cs := by
  rw [byteLength_eq_sum, byteLength_eq_sum, List.map_cons, List.sum_cons]

@[simp]
theorem byteLength_append (cs ds : List Char) :
    byteLength (cs ++ ds) = byteLength cs + byteLength ds := by
  rw [byteLength_eq_sum, byteLength_eq_sum, byteLength_eq_sum, List.map_append, List.sum_append]

theorem length_le_byteLength (cs : List Char) : cs.length ≤ byteLength cs := by
  induction cs with
  | nil => exact le_refl 0
  | cons c cs ih =>
    have := c.utf8Size_pos
    rw [List.length_cons, byteLength_cons]
    omega

theorem byteLength_le_of_suffix {cs ds : List Char} (h : cs <:+ ds) :
    byteLength cs ≤ byteLength ds := by
  obtain ⟨front, rfl⟩ := h
  rw [byteLength_append]
  omega

/-- The bytes of a text in UTF-8. -/
def bytes (cs : List Char) : List UInt8 := cs.flatMap String.utf8EncodeChar

@[simp]
theorem bytes_cons (c : Char) (cs : List Char) :
    bytes (c :: cs) = String.utf8EncodeChar c ++ bytes cs := List.flatMap_cons

theorem length_bytes (cs : List Char) : (bytes cs).length = byteLength cs := by
  induction cs with
  | nil => rfl
  | cons c cs ih =>
    rw [bytes_cons, List.length_append, String.length_utf8EncodeChar, ih, byteLength_cons]

/-- The byte of a line feed. -/
def lineFeed : UInt8 := 10

theorem lineFeed_ne_ofNat {n : Nat} (hn : n < 256) (hne : n ≠ 10) : lineFeed ≠ UInt8.ofNat n := by
  intro h
  have := congrArg UInt8.toNat h
  rw [UInt8.toNat_ofNat_of_lt' hn] at this
  exact hne this.symm

/-- No other character has the byte of a line feed in it. -/
theorem lineFeed_not_mem {c : Char} (hc : c ≠ '\n') : lineFeed ∉ String.utf8EncodeChar c := by
  have hv : c.val.toNat ≠ 10 := fun h => hc (Char.ext (UInt32.toNat_inj.1 h))
  unfold String.utf8EncodeChar
  dsimp only
  generalize c.val.toNat = v at hv
  -- all bytes of a longer encoding are at least 128
  have hbyte {m : Nat} (hlow : 128 ≤ m) (hhigh : m < 256) : lineFeed ≠ UInt8.ofNat m :=
    lineFeed_ne_ofNat hhigh (by omega)
  split_ifs with h₁ h₂ h₃
  · exact fun h => lineFeed_ne_ofNat (by omega) hv (List.mem_singleton.1 h)
  all_goals
    simp only [List.mem_cons, List.not_mem_nil, or_false, not_or]
    refine ⟨hbyte (by omega) (by omega), ?_⟩
  · exact hbyte (by omega) (by omega)
  · exact ⟨hbyte (by omega) (by omega), hbyte (by omega) (by omega)⟩
  · exact ⟨hbyte (by omega) (by omega), hbyte (by omega) (by omega), hbyte (by omega) (by omega)⟩

/-! ## Places -/

/-- The number of bytes after the last line feed. -/
def lastLine (bs : List UInt8) : Nat := (bs.reverse.takeWhile (· ≠ lineFeed)).length

theorem lastLine_append_of_not_mem (bs : List UInt8) {ds : List UInt8} (h : lineFeed ∉ ds) :
    lastLine (bs ++ ds) = lastLine bs + ds.length := by
  have hall : ∀ d ∈ ds.reverse, decide (d ≠ lineFeed) = true := fun d hd =>
    decide_eq_true fun he => h (he ▸ List.mem_reverse.1 hd)
  rw [lastLine, List.reverse_append, List.takeWhile_append_of_pos hall, List.length_append,
    List.length_reverse, lastLine, Nat.add_comm]

theorem lastLine_append_of_mem (bs : List UInt8) {ds : List UInt8} (h : lineFeed ∈ ds) :
    lastLine (bs ++ ds) = lastLine ds := by
  have hlength : (ds.reverse.takeWhile (· ≠ lineFeed)).length ≠ ds.reverse.length := by
    intro he
    have hself := (List.takeWhile_prefix (· ≠ lineFeed)).eq_of_length he
    have := List.takeWhile_eq_self_iff.1 hself lineFeed (List.mem_reverse.2 h)
    simp at this
  rw [lastLine, List.reverse_append, List.takeWhile_append, if_neg hlength, lastLine]

theorem lastLine_of_not_mem {bs : List UInt8} (h : lineFeed ∉ bs) : lastLine bs = bs.length := by
  have hlast := lastLine_append_of_not_mem [] h
  have hnil : lastLine [] = 0 := rfl
  rwa [List.nil_append, hnil, Nat.zero_add] at hlast

theorem lastLine_lineFeed_cons (bs : List UInt8) : lastLine (lineFeed :: bs) = lastLine bs := by
  by_cases h : lineFeed ∈ bs
  · exact lastLine_append_of_mem [lineFeed] h
  · rw [lastLine_of_not_mem h]
    have := lastLine_append_of_not_mem [lineFeed] h
    simpa [lastLine] using this

/-- A line feed is the last byte, or there is a byte on the last line. -/
theorem lastLine_eq_zero_iff {bs : List UInt8} (h : bs ≠ []) :
    lastLine bs = 0 ↔ bs.getLast? = some lineFeed := by
  obtain ⟨init, b, rfl⟩ := (List.eq_nil_or_concat bs).resolve_left h
  by_cases hb : b = lineFeed
  · subst hb
    simp [lastLine]
  · simp [lastLine, hb]

/-- The place of the next byte, when these bytes have been read. -/
def Place.behind (bs : List UInt8) : Place := ⟨1 + bs.count lineFeed, lastLine bs⟩

theorem take_bytes_cons_of_lt {c : Char} {k : Nat} (hk : k < c.utf8Size) (cs : List Char) :
    lineFeed ∉ (bytes (c :: cs)).take k ∧ ((bytes (c :: cs)).take k).length = k := by
  have hlength := String.length_utf8EncodeChar c
  rw [bytes_cons, List.take_append_of_le_length (by omega), List.length_take_of_le (by omega)]
  refine ⟨fun h => ?_, rfl⟩
  by_cases hc : c = '\n'
  · subst hc
    have hzero : k = 0 := Nat.lt_one_iff.1 hk
    subst hzero
    exact absurd h (by simp)
  · exact lineFeed_not_mem hc (List.mem_of_mem_take h)

theorem take_bytes_cons_of_le {c : Char} {k : Nat} (hk : c.utf8Size ≤ k) (cs : List Char) :
    (bytes (c :: cs)).take k =
      String.utf8EncodeChar c ++ (bytes cs).take (k - c.utf8Size) := by
  have hlength := String.length_utf8EncodeChar c
  rw [bytes_cons, List.take_append, List.take_of_length_le (by omega), hlength]

/-- Behind the bytes in front of `cs`, the place after `k` bytes of `cs`. -/
theorem Place.after_eq (front : List UInt8) {cs : List Char} {k : Nat} (hk : k ≤ byteLength cs) :
    Place.after (1 + front.count lineFeed) (lastLine front) cs k =
      Place.behind (front ++ (bytes cs).take k) := by
  induction cs generalizing front k with
  | nil =>
    obtain rfl := Nat.le_zero.1 hk
    simp [Place.after, Place.behind]
  | cons c cs ih =>
    rw [byteLength_cons] at hk
    rw [Place.after]
    split_ifs with hlt hc
    · obtain ⟨hnot, hlength⟩ := take_bytes_cons_of_lt hlt cs
      rw [Place.behind, lastLine_append_of_not_mem _ hnot, List.count_append,
        List.count_eq_zero.2 hnot, hlength, Nat.add_zero]
    · subst hc
      have hfront : lastLine (front ++ [lineFeed]) = 0 := by
        rw [lastLine_append_of_mem _ List.mem_cons_self]
        rfl
      have hplace := ih (front ++ [lineFeed]) (k := k - '\n'.utf8Size) (by omega)
      rw [hfront, List.count_append, List.append_assoc] at hplace
      rw [take_bytes_cons_of_le (Nat.not_lt.1 hlt)]
      exact hplace
    · have hnot := lineFeed_not_mem hc
      have hplace := ih (front ++ String.utf8EncodeChar c) (k := k - c.utf8Size) (by omega)
      rw [lastLine_append_of_not_mem _ hnot, List.count_append, List.count_eq_zero.2 hnot,
        String.length_utf8EncodeChar, List.append_assoc, Nat.add_zero] at hplace
      rw [take_bytes_cons_of_le (Nat.not_lt.1 hlt), hplace]

end GraphStack.Json
