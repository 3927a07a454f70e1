import GraphStack.Proofs.Number.Layout
import GraphStack.Proofs.Value.Shape
import GraphStack.Value.Text

/-!
# Values and their JSON texts

The JSON text of a value tells its tree: where it ends is seen from the text itself, so two values
with the same text, or with texts that go on differently behind them, have the same tree
(`Value.sameTree_of_json`). Keys are written in ascending order, so values with the same tree have
the same text. A link is told from a map by its number, which has neither a point nor an exponent.
-/

namespace GraphStack

namespace Value

open Json (encode isDigit)

/-! ## Texts in a row -/

/-- What can stand behind a value. -/
def Ended (r : List Char) : Prop := ∀ c ∈ r.head?, c = ',' ∨ c = ']' ∨ c = '\x7d'

variable {r s as bs : List Char} {close : Char}

theorem ended_nil : Ended [] := by simp [Ended]

theorem ended_cons {c : Char} (hc : c = ',' ∨ c = ']' ∨ c = '\x7d') (r : List Char) :
    Ended (c :: r) := by
  simpa [Ended] using hc

/-- Two words of the same kind of characters end where these end. -/
theorem append_inj_of_chars {P : Char → Prop} (ha : ∀ c ∈ as, P c) (hb : ∀ c ∈ bs, P c)
    (hr : ∀ c ∈ r.head?, ¬ P c) (hs : ∀ c ∈ s.head?, ¬ P c) (h : as ++ r = bs ++ s) :
    as = bs ∧ r = s := by
  induction as generalizing bs with
  | nil =>
    cases bs with
    | nil => exact ⟨rfl, h⟩
    | cons b bs =>
      obtain rfl : r = b :: (bs ++ s) := h
      exact absurd (hb b List.mem_cons_self) (hr b rfl)
  | cons a as ih =>
    cases bs with
    | nil =>
      obtain rfl : a :: (as ++ r) = s := h
      exact absurd (ha a List.mem_cons_self) (hs a rfl)
    | cons b bs =>
      rw [List.cons_append, List.cons_append, List.cons.injEq] at h
      obtain ⟨rfl, rfl⟩ := ih (fun c hc => ha c (List.mem_cons_of_mem _ hc))
        (fun c hc => hb c (List.mem_cons_of_mem _ hc)) h.2
      exact ⟨by rw [h.1], rfl⟩

/-- A string ends at the first quote that is not escaped. -/
theorem encode_append_inj (h : encode as ++ r = encode bs ++ s) : as = bs ∧ r = s := by
  have read (cs rest : List Char) :
      Json.decode (cs.flatMap Json.encodeChar ++ '"' :: rest) = .ok (cs, rest) :=
    Json.decode_eq_ok_iff.2 ⟨_, Json.spells_encode cs, rfl⟩
  have hbody : as.flatMap Json.encodeChar ++ '"' :: r = bs.flatMap Json.encodeChar ++ '"' :: s := by
    simpa [encode] using h
  have hread := read as r
  rw [hbody, read bs s] at hread
  cases hread
  exact ⟨rfl, rfl⟩

section Sequence

variable {α : Type} {f : α → List Char} {R : α → α → Prop} {xs ys : List α}

theorem ended_further (hc : close = ']' ∨ close = '\x7d') (f : α → List Char) (zs : List α)
    (r : List Char) : Ended (zs.flatMap (fun z => ',' :: f z) ++ close :: r) := by
  cases zs with
  | nil => exact ended_cons (.inr hc) r
  | cons z zs => exact ended_cons (.inl rfl) _

/-- Each further text of a sequence comes behind a comma, up to the closing bracket. -/
theorem further_inj (hc : close = ']' ∨ close = '\x7d')
    (hcancel : ∀ x ∈ xs, ∀ y ∈ ys, ∀ r s, Ended r → Ended s → f x ++ r = f y ++ s → R x y ∧ r = s)
    (h : xs.flatMap (fun x => ',' :: f x) ++ close :: r =
      ys.flatMap (fun y => ',' :: f y) ++ close :: s) : List.Forall₂ R xs ys ∧ r = s := by
  have hne : close ≠ ',' := by rcases hc with rfl | rfl <;> decide
  induction xs generalizing ys with
  | nil =>
    cases ys with
    | nil =>
      cases h
      exact ⟨.nil, rfl⟩
    | cons y ys =>
      cases h
      exact absurd rfl hne
  | cons x xs ih =>
    cases ys with
    | nil =>
      cases h
      exact absurd rfl hne
    | cons y ys =>
      rw [List.flatMap_cons, List.flatMap_cons, List.append_assoc, List.append_assoc,
        List.cons_append, List.cons_append, List.cons.injEq] at h
      obtain ⟨hxy, htail⟩ := hcancel x List.mem_cons_self y List.mem_cons_self _ _
        (ended_further hc f xs r) (ended_further hc f ys s) h.2
      obtain ⟨hrest, hrs⟩ := ih (fun x hx y hy => hcancel x (List.mem_cons_of_mem _ hx) y
        (List.mem_cons_of_mem _ hy)) htail
      exact ⟨.cons hxy hrest, hrs⟩

theorem intercalate_cons (f : α → List Char) (x : α) (xs : List α) :
    [','].intercalate ((x :: xs).map f) = f x ++ xs.flatMap (fun x => ',' :: f x) := by
  induction xs generalizing x with
  | nil => simp
  | cons y ys ih =>
    rw [List.map_cons, List.map_cons, List.intercalate_cons_cons, ← List.map_cons, ih,
      List.flatMap_cons]
    simp

/-- Sequences with the same text have as many parts, and these agree one by one. -/
theorem sequence_inj (hc : close = ']' ∨ close = '\x7d')
    (hhead : ∀ z, z ∈ xs ∨ z ∈ ys → ∀ r, (f z ++ r).head? ≠ some close)
    (hcancel : ∀ x ∈ xs, ∀ y ∈ ys, ∀ r s, Ended r → Ended s → f x ++ r = f y ++ s → R x y ∧ r = s)
    (h : [','].intercalate (xs.map f) ++ close :: r = [','].intercalate (ys.map f) ++ close :: s) :
    List.Forall₂ R xs ys ∧ r = s := by
  cases xs with
  | nil =>
    cases ys with
    | nil =>
      cases h
      exact ⟨.nil, rfl⟩
    | cons y ys =>
      rw [intercalate_cons, List.append_assoc] at h
      exact absurd (congrArg List.head? h).symm (hhead y (.inr List.mem_cons_self) _)
  | cons x xs =>
    cases ys with
    | nil =>
      rw [intercalate_cons, List.append_assoc] at h
      exact absurd (congrArg List.head? h) (hhead x (.inl List.mem_cons_self) _)
    | cons y ys =>
      rw [intercalate_cons, intercalate_cons, List.append_assoc, List.append_assoc] at h
      refine further_inj hc hcancel ?_
      simpa using h

end Sequence

/-! ## What is written -/

variable {v w : Value} {vs ws : List Value} {es fs : List (String × Value)} {t t' : MapId}
  {id : NodeId}

def sorted (es : List (String × Value)) : List (String × Value) :=
  es.mergeSort fun a b => a.1 ≤ b.1

def member (e : String × Value) : List Char := encode e.1.toList ++ ':' :: e.2.json.toList

theorem mem_sorted {e : String × Value} : e ∈ sorted es ↔ e ∈ es :=
  (List.mergeSort_perm es _).mem_iff

theorem jsons_eq_map (vs : List Value) : jsons vs = vs.map json := by
  induction vs with
  | nil => rfl
  | cons v vs ih => rw [jsons, ih, List.map_cons]

theorem entryJsons_eq_map (es : List (String × Value)) :
    entryJsons es = es.map fun e => (e.1, e.2.json) := by
  induction es with
  | nil => rfl
  | cons e es ih => rw [entryJsons, ih, List.map_cons]

theorem toList_jsonMember (k j : String) :
    (jsonMember (k, j)).toList = encode k.toList ++ ':' :: j.toList := by
  simp [jsonMember, Json.encodeString]

theorem toList_json_text (s : String) : (text s).json.toList = encode s.toList := by
  simp [json, Json.encodeString]

theorem toList_json_list (vs : List Value) :
    (list vs).json.toList = '[' :: ([','].intercalate (vs.map (·.json.toList)) ++ [']']) := by
  simp [json, jsons_eq_map, String.toList_intercalate, Function.comp_def]

theorem toList_json_map (t : MapId) (es : List (String × Value)) :
    (map t es).json.toList =
      '\x7b' :: ([','].intercalate ((sorted es).map member) ++ ['\x7d']) := by
  have hsorted : (entryJsons es).mergeSort (fun a b => a.1 ≤ b.1) =
      (sorted es).map fun e => (e.1, e.2.json) := by
    rw [entryJsons_eq_map, sorted, List.map_mergeSort]
    exact fun _ _ _ _ => rfl
  have hmember : String.toList ∘ jsonMember ∘ (fun e : String × Value => (e.1, e.2.json)) =
      member := by
    funext e
    exact toList_jsonMember e.1 e.2.json
  rw [json, hsorted]
  simp [String.toList_intercalate, ← hmember, Function.comp_def]

theorem toList_json_node (id : NodeId) :
    (node id).json.toList =
      '\x7b' :: (encode "node".toList ++ ':' :: (Nat.toDigits 10 id.number ++ ['\x7d'])) := by
  simp [json, toList_jsonMember]

/-! ## First characters -/

def FiniteNumbers (v : Value) : Prop := ∀ x, v.Contains (.number x) → x.isFinite

theorem FiniteNumbers.item (hf : (list vs).FiniteNumbers) (hv : v ∈ vs) : v.FiniteNumbers :=
  fun x hx => hf x (.item hv hx)

theorem FiniteNumbers.entry {e : String × Value} (hf : (map t es).FiniteNumbers) (he : e ∈ es) :
    e.2.FiniteNumbers := fun x hx => hf x (.entry he hx)

@[simp] theorem finiteNumbers_list : (list vs).FiniteNumbers ↔ ∀ v ∈ vs, v.FiniteNumbers := by
  refine ⟨fun hf v hv => hf.item hv, fun hf x hx => ?_⟩
  cases hx with
  | item hv hx => exact hf _ hv x hx

@[simp] theorem finiteNumbers_map :
    (map t es).FiniteNumbers ↔ ∀ e ∈ es, e.2.FiniteNumbers := by
  refine ⟨fun hf e he => hf.entry he, fun hf x hx => ?_⟩
  cases hx with
  | entry he hx => exact hf _ he x hx

@[simp] theorem finiteNumbers_number {x : Double} : (number x).FiniteNumbers ↔ x.isFinite := by
  refine ⟨fun hf => hf x (.refl _), fun hx y hy => ?_⟩
  cases hy
  exact hx

@[simp] theorem finiteNumbers_text (s : String) : (text s).FiniteNumbers := by rintro x (_ | _)

@[simp] theorem finiteNumbers_node (id : NodeId) : (node id).FiniteNumbers := by rintro x (_ | _)

/-- What the first character of a value shows: one character stands for all that begin a number, and
one for both truth values. -/
def lead (c : Char) : Char :=
  if isDigit c ∨ c = '-' then '0' else if c = 'f' then 't' else c

/-- What a value begins with. -/
def opening : Value → Char
  | nil => 'n'
  | bool _ => 't'
  | number _ => '0'
  | text _ => '"'
  | list _ => '['
  | map _ _ => '\x7b'
  | node _ => '\x7b'

theorem json_number {x : Double} (hx : x.isFinite) : (number x).json = Layout.json.text x := by
  rw [json, jsonNumber, if_pos hx]

theorem head_json (hf : v.FiniteNumbers) :
    ∃ c cs, v.json.toList = c :: cs ∧ lead c = v.opening := by
  cases v with
  | nil => exact ⟨'n', "ull".toList, by simp [json], by decide⟩
  | bool b =>
    cases b with
    | true => exact ⟨'t', "rue".toList, by simp [json], by decide⟩
    | false => exact ⟨'f', "alse".toList, by simp [json], by decide⟩
  | number x =>
    have hx := hf x (.refl _)
    obtain ⟨c, cs, hcs, hc⟩ := Layout.head_text .json hx
    exact ⟨c, cs, by rw [json_number hx, hcs], if_pos hc.symm⟩
  | text s => exact ⟨'"', _, toList_json_text s, (by decide : lead '"' = '"')⟩
  | list vs => exact ⟨'[', _, toList_json_list vs, (by decide : lead '[' = '[')⟩
  | map t es => exact ⟨'\x7b', _, toList_json_map t es, (by decide : lead '\x7b' = '\x7b')⟩
  | node id => exact ⟨'\x7b', _, toList_json_node id, (by decide : lead '\x7b' = '\x7b')⟩

theorem opening_eq (hv : v.FiniteNumbers) (hw : w.FiniteNumbers)
    (h : v.json.toList ++ r = w.json.toList ++ s) : v.opening = w.opening := by
  obtain ⟨c, cs, hcs, hc⟩ := head_json hv
  obtain ⟨d, ds, hds, hd⟩ := head_json hw
  rw [hcs, hds, List.cons_append, List.cons_append, List.cons.injEq] at h
  rw [← hc, ← hd, h.1]

theorem Ended.not_isNumberChar (hr : Ended r) : ∀ c ∈ r.head?, ¬ Layout.IsNumberChar c := by
  intro c hc
  rcases hr c hc with rfl | rfl | rfl <;> simp [Layout.IsNumberChar, isDigit]

/-- A value does not begin with the end of a list. -/
theorem head_ne_close (hf : v.FiniteNumbers) (r : List Char) :
    (v.json.toList ++ r).head? ≠ some ']' := by
  obtain ⟨c, cs, hcs, hc⟩ := head_json hf
  rw [hcs, List.cons_append, List.head?_cons, ne_eq, Option.some.injEq]
  rintro rfl
  have hlead : lead ']' = ']' := by decide
  rw [hlead] at hc
  cases v <;> cases hc

theorem head_member (e : String × Value) (r : List Char) :
    (member e ++ r).head? ≠ some '\x7d' := by
  simp [member, encode]

theorem member_append_inj {e e' : String × Value} (h : member e ++ r = member e' ++ s) :
    e.1 = e'.1 ∧ e.2.json.toList ++ r = e'.2.json.toList ++ s := by
  rw [member, member, List.append_assoc, List.append_assoc] at h
  obtain ⟨hk, hv⟩ := encode_append_inj h
  exact ⟨String.toList_inj.1 hk, List.tail_eq_of_cons_eq hv⟩

/-! ## The tree of a text -/

theorem isNumberChar_of_digit {n : Nat} {c : Char} (hc : c ∈ Nat.toDigits 10 n) :
    Layout.IsNumberChar c := .inl (Layout.digits_toDigits n c hc)

/-- A number is read up to the first character that can stand in no number. -/
theorem number_append_inj {x y : Double} (hx : x.isFinite) (hy : y.isFinite) (hr : Ended r)
    (hs : Ended s) (h : (number x).json.toList ++ r = (number y).json.toList ++ s) :
    x = y ∧ r = s := by
  rw [json_number hx, json_number hy] at h
  obtain ⟨ht, hrs⟩ := append_inj_of_chars (fun c hc => Layout.chars_text hx hc)
    (fun c hc => Layout.chars_text hy hc) hr.not_isNumberChar hs.not_isNumberChar h
  exact ⟨Layout.text_injective hx hy (String.toList_inj.1 ht), hrs⟩

theorem node_append_inj {id id' : NodeId}
    (h : (node id).json.toList ++ r = (node id').json.toList ++ s) : id = id' ∧ r = s := by
  rw [toList_json_node, toList_json_node] at h
  have hbody : Nat.toDigits 10 id.number ++ '\x7d' :: r =
      Nat.toDigits 10 id'.number ++ '\x7d' :: s := by simpa using h
  have hend (r : List Char) := (ended_cons (.inr (.inr rfl)) r).not_isNumberChar
  obtain ⟨hdigits, hrs⟩ := append_inj_of_chars (fun c hc => isNumberChar_of_digit hc)
    (fun c hc => isNumberChar_of_digit hc) (hend r) (hend s) hbody
  have hnumber : id.number = id'.number := by
    rw [← Layout.digitsValue_toDigits id.number, hdigits, Layout.digitsValue_toDigits]
  cases id
  cases id'
  exact ⟨congrArg NodeId.mk hnumber, List.tail_eq_of_cons_eq hrs⟩

/-- No value is written with the digits of a natural number alone. -/
theorem json_ne_toDigits (hf : v.FiniteNumbers) (hr : Ended r) (hs : Ended s) (n : Nat) :
    v.json.toList ++ r ≠ Nat.toDigits 10 n ++ s := by
  intro h
  obtain ⟨c, cs, hcs, hc⟩ := head_json hf
  obtain ⟨d, ds, hds, hd⟩ := Json.exists_digit_toDigits n
  have hfirst : c = d := by
    rw [hcs, hds, List.cons_append, List.cons_append, List.cons.injEq] at h
    exact h.1
  have hopening : v.opening = '0' := by
    rw [← hc, hfirst]
    exact if_pos (.inl hd)
  cases v with
  | number x =>
    have hx := hf x (.refl _)
    rw [json_number hx] at h
    obtain ⟨hdigits, -⟩ := append_inj_of_chars (fun c hc => Layout.chars_text hx hc)
      (fun c hc => isNumberChar_of_digit hc) hr.not_isNumberChar hs.not_isNumberChar h
    have hmark := Layout.mark_mem_text (l := .json) rfl hx
    rw [hdigits] at hmark
    rcases hmark with hm | hm
    · exact absurd (Layout.digits_toDigits n _ hm) (by decide)
    · exact absurd (Layout.digits_toDigits n _ hm) (by decide)
  | _ => cases hopening

/-- The number of a node is no value that a map could hold. -/
theorem json_map_ne_node (hf : (map t es).FiniteNumbers) (id : NodeId) (r s : List Char) :
    (map t es).json.toList ++ r ≠ (node id).json.toList ++ s := by
  rw [toList_json_map, toList_json_node]
  intro h
  have hbody : [','].intercalate ((sorted es).map member) ++ '\x7d' :: r =
      encode "node".toList ++ ':' :: (Nat.toDigits 10 id.number ++ '\x7d' :: s) := by
    simpa using h
  have hsorted : ∀ e ∈ sorted es, e.2.FiniteNumbers := fun e he => hf.entry (mem_sorted.1 he)
  generalize sorted es = xs at hbody hsorted
  cases xs with
  | nil => simp [encode] at hbody
  | cons e xs =>
    rw [intercalate_cons, List.append_assoc, member, List.append_assoc] at hbody
    have hvalue := List.tail_eq_of_cons_eq (encode_append_inj hbody).2
    exact json_ne_toDigits (hsorted e List.mem_cons_self) (ended_further (.inr rfl) member xs r)
      (ended_cons (.inr (.inr rfl)) s) id.number hvalue

theorem sameTree_list (h : List.Forall₂ SameTree vs ws) : SameTree (list vs) (list ws) := by
  refine .list h.length_eq fun i v w hv hw => ?_
  obtain ⟨hi, rfl⟩ := List.getElem?_eq_some_iff.1 hv
  obtain ⟨hj, rfl⟩ := List.getElem?_eq_some_iff.1 hw
  exact (List.forall₂_iff_get.1 h).2 i hi hj

/-- Entries under one key that have the same tree. -/
def SameEntry (e f : String × Value) : Prop := e.1 = f.1 ∧ SameTree e.2 f.2

theorem exists_sameEntry {e : String × Value} (h : List.Forall₂ SameEntry es fs) (he : e ∈ es) :
    ∃ f ∈ fs, SameEntry e f := by
  induction h with
  | nil => cases he
  | cons hef _ ih =>
    rcases List.mem_cons.1 he with rfl | he
    · exact ⟨_, List.mem_cons_self, hef⟩
    · obtain ⟨f, hf, hef⟩ := ih he
      exact ⟨f, List.mem_cons_of_mem _ hf, hef⟩

theorem keys_eq (h : List.Forall₂ SameEntry es fs) : es.map (·.1) = fs.map (·.1) := by
  induction h with
  | nil => rfl
  | cons hef _ ih => rw [List.map_cons, List.map_cons, hef.1, ih]

theorem sameTree_map (hn : (fs.map (·.1)).Nodup)
    (h : List.Forall₂ SameEntry (sorted es) (sorted fs)) : SameTree (map t es) (map t' fs) := by
  have key (es : List (String × Value)) (k : String) :
      k ∈ (sorted es).map (·.1) ↔ k ∈ es.map (·.1) := by
    simp only [List.mem_map, mem_sorted]
  refine .map (fun k => ?_) fun k v w hv hw => ?_
  · rw [← key es, ← key fs, keys_eq h]
  · obtain ⟨f, hf, hk, hvf⟩ := exists_sameEntry h (mem_sorted.2 hv)
    obtain ⟨k', w'⟩ := f
    obtain rfl : k = k' := hk
    rwa [entry_unique hn hw (mem_sorted.1 hf)]

theorem list_append_inj (hfv : (list vs).FiniteNumbers) (hfw : (list ws).FiniteNumbers)
    (hcancel : ∀ v ∈ vs, ∀ w ∈ ws, ∀ r s, Ended r → Ended s →
      v.json.toList ++ r = w.json.toList ++ s → SameTree v w ∧ r = s)
    (h : (list vs).json.toList ++ r = (list ws).json.toList ++ s) :
    SameTree (list vs) (list ws) ∧ r = s := by
  rw [toList_json_list, toList_json_list] at h
  have hbody : [','].intercalate (vs.map (·.json.toList)) ++ ']' :: r =
      [','].intercalate (ws.map (·.json.toList)) ++ ']' :: s := by simpa using h
  obtain ⟨hitems, hrs⟩ := sequence_inj (.inl rfl)
    (fun z hz => head_ne_close (hz.elim hfv.item hfw.item)) hcancel hbody
  exact ⟨sameTree_list hitems, hrs⟩

theorem map_append_inj (hn : (fs.map (·.1)).Nodup)
    (hcancel : ∀ e ∈ es, ∀ f ∈ fs, ∀ r s, Ended r → Ended s →
      e.2.json.toList ++ r = f.2.json.toList ++ s → SameTree e.2 f.2 ∧ r = s)
    (h : (map t es).json.toList ++ r = (map t' fs).json.toList ++ s) :
    SameTree (map t es) (map t' fs) ∧ r = s := by
  rw [toList_json_map, toList_json_map] at h
  have hbody : [','].intercalate ((sorted es).map member) ++ '\x7d' :: r =
      [','].intercalate ((sorted fs).map member) ++ '\x7d' :: s := by simpa using h
  have hmember : ∀ e ∈ sorted es, ∀ f ∈ sorted fs, ∀ r s, Ended r → Ended s →
      member e ++ r = member f ++ s → SameEntry e f ∧ r = s := by
    intro e he f hf r s hr hs h
    obtain ⟨hk, hv⟩ := member_append_inj h
    obtain ⟨ht, hrs⟩ := hcancel e (mem_sorted.1 he) f (mem_sorted.1 hf) r s hr hs hv
    exact ⟨⟨hk, ht⟩, hrs⟩
  obtain ⟨hentries, hrs⟩ := sequence_inj (.inr rfl) (fun z _ => head_member z) hmember hbody
  exact ⟨sameTree_map hn hentries, hrs⟩

/-- A value can be read off its text, and where it ends too. -/
theorem sameTree_of_json (hw : w.Keyed) (hfv : v.FiniteNumbers) (hfw : w.FiniteNumbers)
    (hr : Ended r) (hs : Ended s) (h : v.json.toList ++ r = w.json.toList ++ s) :
    SameTree v w ∧ r = s := by
  have hopening := opening_eq hfv hfw h
  induction v using tree_induction generalizing w r s with
  | nil =>
    cases w
    case nil => exact ⟨.nil, List.append_cancel_left h⟩
    all_goals cases hopening
  | bool b =>
    cases w
    case bool b' =>
      cases b <;> cases b'
      case false.true => simp [json] at h
      case true.false => simp [json] at h
      all_goals exact ⟨.bool _, List.append_cancel_left h⟩
    all_goals cases hopening
  | number x =>
    cases w
    case number y =>
      obtain ⟨hxy, hrs⟩ := number_append_inj (hfv x (.refl _)) (hfw y (.refl _)) hr hs h
      exact ⟨.number hxy, hrs⟩
    all_goals cases hopening
  | text a =>
    cases w
    case text b =>
      rw [toList_json_text, toList_json_text] at h
      obtain ⟨hab, hrs⟩ := encode_append_inj h
      obtain rfl := String.toList_inj.1 hab
      exact ⟨.text a, hrs⟩
    all_goals cases hopening
  | list vs ih =>
    cases w
    case list ws =>
      refine list_append_inj hfv hfw ?_ h
      intro v hv w hm r s hr hs h
      exact ih v hv (hw.item hm) (hfv.item hv) (hfw.item hm) hr hs h
        (opening_eq (hfv.item hv) (hfw.item hm) h)
    all_goals cases hopening
  | map t es ih =>
    cases w
    case map t' fs =>
      refine map_append_inj hw.nodup ?_ h
      intro e he f hf r s hr hs h
      exact ih e he (hw.entry hf) (hfv.entry he) (hfw.entry hf) hr hs h
        (opening_eq (hfv.entry he) (hfw.entry hf) h)
    case node id => exact absurd h (json_map_ne_node hfv id r s)
    all_goals cases hopening
  | node id =>
    cases w
    case node id' =>
      obtain ⟨rfl, hrs⟩ := node_append_inj h
      exact ⟨.node id, hrs⟩
    case map t fs => exact absurd h.symm (json_map_ne_node hfw id s r)
    all_goals cases hopening

/-! ## The text of a tree -/

theorem nodup_entryJsons (hn : (es.map (·.1)).Nodup) : (entryJsons es).Nodup := by
  refine List.Nodup.of_map (·.1) ?_
  rw [entryJsons_eq_map, List.map_map]
  exact hn

/-- Sorted by their keys, the same members come in the same order. -/
theorem mergeSort_eq_of_perm {ms ns : List (String × String)} (hp : ms.Perm ns)
    (hn : (ms.map (·.1)).Nodup) :
    ms.mergeSort (fun a b => a.1 ≤ b.1) = ns.mergeSort (fun a b => a.1 ≤ b.1) := by
  have ascending (ms : List (String × String)) :
      (ms.mergeSort fun a b => a.1 ≤ b.1).Pairwise fun a b => a.1 ≤ b.1 := by
    refine (List.pairwise_mergeSort (fun a b c hab hbc => ?_) (fun a b => ?_) ms).imp
      fun h => of_decide_eq_true h
    · exact decide_eq_true ((of_decide_eq_true hab).trans (of_decide_eq_true hbc))
    · simpa using String.le_total a.1 b.1
  have hm := List.mergeSort_perm ms fun a b => a.1 ≤ b.1
  have hm' := List.mergeSort_perm ns fun a b => a.1 ≤ b.1
  refine List.Perm.eq_of_pairwise (fun a b ha hb hab hba => ?_) (ascending ms) (ascending ns)
    ((hm.trans hp).trans hm'.symm)
  have hmem : b ∈ ms := hp.mem_iff.2 (hm'.mem_iff.1 hb)
  exact List.inj_on_of_nodup_map hn (hm.mem_iff.1 ha) hmem (le_antisymm hab hba)

theorem json_list_eq (hl : vs.length = ws.length)
    (hi : ∀ (i : Nat) v w, vs[i]? = some v → ws[i]? = some w → v.json = w.json) :
    (list vs).json = (list ws).json := by
  have hitems : vs.map json = ws.map json := by
    refine List.ext_getElem (by simp [hl]) fun i hiv hiw => ?_
    rw [List.length_map] at hiv hiw
    rw [List.getElem_map, List.getElem_map]
    exact hi i _ _ (List.getElem?_eq_getElem hiv) (List.getElem?_eq_getElem hiw)
  rw [json, json, jsons_eq_map, jsons_eq_map, hitems]

theorem json_map_eq (hn : (es.map (·.1)).Nodup) (hn' : (fs.map (·.1)).Nodup)
    (hk : ∀ k, k ∈ es.map (·.1) ↔ k ∈ fs.map (·.1))
    (he : ∀ k v w, (k, v) ∈ es → (k, w) ∈ fs → v.json = w.json) :
    (map t es).json = (map t' fs).json := by
  have hp : (entryJsons es).Perm (entryJsons fs) := by
    refine (List.perm_ext_iff_of_nodup (nodup_entryJsons hn) (nodup_entryJsons hn')).2 fun m => ?_
    rw [entryJsons_eq_map, entryJsons_eq_map, List.mem_map, List.mem_map]
    constructor
    · rintro ⟨⟨k, v⟩, hm, rfl⟩
      obtain ⟨w, hm'⟩ := exists_entry ((hk k).1 (List.mem_map_of_mem hm))
      exact ⟨(k, w), hm', by rw [he k v w hm hm']⟩
    · rintro ⟨⟨k, w⟩, hm', rfl⟩
      obtain ⟨v, hm⟩ := exists_entry ((hk k).2 (List.mem_map_of_mem hm'))
      exact ⟨(k, v), hm, by rw [he k v w hm hm']⟩
  have hkeys : ((entryJsons es).map (·.1)).Nodup := by
    rw [entryJsons_eq_map, List.map_map]
    exact hn
  rw [json, json, mergeSort_eq_of_perm hp hkeys]

theorem json_of_sameTree (h : SameTree v w) (hv : v.Keyed) (hw : w.Keyed) : v.json = w.json := by
  induction h with
  | nil => rfl
  | bool b => rfl
  | number h => rw [h]
  | text s => rfl
  | list hl _ ih =>
    refine json_list_eq hl fun i v w hi hj => ?_
    exact ih i v w hi hj (hv.item (List.mem_of_getElem? hi)) (hw.item (List.mem_of_getElem? hj))
  | map hk _ ih =>
    refine json_map_eq hv.nodup hw.nodup hk fun k v w hm hm' => ?_
    exact ih k v w hm hm' (hv.entry hm) (hw.entry hm')
  | node id => rfl

theorem typeName_eq (h : SameTree v w) : v.typeName = w.typeName := by cases h <;> rfl

/-- The JSON text of a value without infinities and NaN is the text of its tree and of no other: not
of a value of another kind, and the text of a link is not that of any map. -/
theorem json_eq_iff_sameTree (hv : v.Keyed) (hw : w.Keyed) (hfv : v.FiniteNumbers)
    (hfw : w.FiniteNumbers) :
    (v.json = w.json ↔ SameTree v w) ∧
    (v.typeName ≠ w.typeName → v.json ≠ w.json) ∧
    ∀ id t, (node id).json ≠ (map t [("node", v)]).json := by
  have hsame (h : v.json = w.json) : SameTree v w :=
    (sameTree_of_json hw hfv hfw ended_nil ended_nil (by rw [h])).1
  refine ⟨⟨hsame, fun h => json_of_sameTree h hv hw⟩, fun hne h => hne (typeName_eq (hsame h)), ?_⟩
  intro id t h
  have hfinite : (map t [("node", v)]).FiniteNumbers := by simpa using hfv
  exact json_map_ne_node hfinite id [] [] (by rw [h])

/-- Two keys that could be taken for the ends of a string and of a list, in either order. -/
def marked (quoteFirst : Bool) : Value :=
  if quoteFirst then .map ⟨0⟩ [("\"", .text ","), ("]", .list [.node ⟨1⟩, .number ⟨0⟩])]
  else .map ⟨1⟩ [("]", .list [.node ⟨1⟩, .number ⟨0⟩]), ("\"", .text ",")]

theorem json_eq_iff_sameTree_marked :
    ((marked true).Keyed ∧ (marked false).Keyed ∧ (marked true).FiniteNumbers ∧
      (marked false).FiniteNumbers) ∧
    (marked true).json = (marked false).json ∧
    (marked true).json ≠ (text "").json ∧
    (node ⟨1⟩).json ≠ (map ⟨2⟩ [("node", marked true)]).json := by
  have hk (b : Bool) : (marked b).Keyed := by cases b <;> simp [marked]
  have hf (b : Bool) : (marked b).FiniteNumbers := by
    have hzero : (⟨0⟩ : Double).isFinite := by decide
    cases b <;> simp [marked, hzero]
  have htree : SameTree (marked true) (marked false) := by
    refine .map (fun k => by simp [or_comm]) fun k v w hv hw => ?_
    obtain rfl := entry_unique (hk true).nodup hv (List.mem_reverse.1 hw)
    exact (Corresponds.refl_iff ((hk true).entry hv)).2 fun _ _ => rfl
  obtain ⟨heq, -, hnode⟩ := json_eq_iff_sameTree (hk true) (hk false) (hf true) (hf false)
  obtain ⟨-, hkind, -⟩ := json_eq_iff_sameTree (hk true) (keyed_text "") (hf true)
    (finiteNumbers_text "")
  exact ⟨⟨hk true, hk false, hf true, hf false⟩, heq.2 htree, hkind (by decide), hnode ⟨1⟩ ⟨2⟩⟩

end Value
end GraphStack
