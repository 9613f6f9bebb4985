import Pseudonym.Proofs.Lexemes
import Pseudonym.Proofs.Occurrences
import Pseudonym.Proofs.Utf8
import Pseudonym.Stylesheet.Scan

/-!
# The scan takes no slice that is refused

The scan of a stylesheet's bytes finds the preludes that the reader of its characters finds (`scan?_eq`). Every byte that means
something to the scan is an ASCII byte, and such a byte is a character of its own; so wherever the scan may be, even inside a
character that a backslash hides, it goes on behind the character as it does there (`scanFrom_succ`, `quoteEnd_succ`). With
that the scan takes a lexeme as the reader does: what it keeps are the ranges of the reader's segments (`Section.scan`), and by
induction on the lexemes both end with the same preludes (`scanIn_eq`). The preludes are slices of the stylesheet, none of them
is empty, and they are in order (`scan_slices`).
-/

namespace Pseudonym

/-! ## Slices -/

namespace Text

/-- A slice is refused unless it begins and ends at boundaries, and in this order. -/
theorem isSome_slice?_iff {t : Text} {a b : Nat} : (t.slice? a b).isSome ↔ a ≤ b ∧ t.IsBoundary a ∧ t.IsBoundary b := by
  constructor
  · intro h
    obtain ⟨u, hu⟩ := Option.isSome_iff_exists.1 h
    unfold slice? at hu
    split at hu
    · next hle =>
      obtain ⟨v, hv, hw⟩ := Option.bind_eq_some_iff.1 hu
      obtain ⟨s, rfl, rfl⟩ := eq_append_of_from? hv
      obtain ⟨w, rfl, hsize⟩ := eq_append_of_upTo? hw
      refine ⟨hle, ⟨s, _, rfl, rfl⟩, s ++ u, w, (List.append_assoc s u w).symm, ?_⟩
      rw [utf8Size_append, hsize]
      omega
    · cases hu
  · rintro ⟨hle, ⟨s, v, rfl, rfl⟩, s', w, hs', rfl⟩
    obtain ⟨u, rfl, rfl⟩ := Stylesheet.exists_append_of_utf8Size_le hs' hle
    rw [utf8Size_append, slice?_append]
    rfl

end Text

/-! ## The bytes of a character -/

namespace Utf8

/-- An ASCII character is one byte, and the byte is its number. -/
theorem toNat_toUInt8_of_ascii {q : Char} (hq : q.toNat < 0x80) : q.toUInt8.toNat = q.toNat :=
  (UInt32.toNat_toUInt8 q.val).trans (Nat.mod_eq_of_lt (Nat.lt_trans hq (by decide)))

/-- The first byte of a character's form tells ASCII characters, and the other bytes are no ASCII bytes. -/
theorem encodeChar_eq_cons (c : Char) : ∃ a us, encodeChar c = a :: us ∧ us.length + 1 = c.utf8Size ∧
    (∀ b ∈ us, 0x80 ≤ b.toNat) ∧ ∀ q : Char, q.toNat < 0x80 → (a = q.toUInt8 ↔ c = q) := by
  obtain ⟨a, us, hcons, hus⟩ : ∃ a us, encodeChar c = a :: us ∧ ∀ b ∈ us, 0x80 ≤ b.toNat := by
    unfold encodeChar
    dsimp only
    repeat' split
    all_goals exact ⟨_, _, rfl, by simp <;> omega⟩
  have hlength := length_encodeChar c
  rw [hcons, List.length_cons] at hlength
  refine ⟨a, us, hcons, hlength, hus, ?_⟩
  intro q hq
  have hbyte := toNat_toUInt8_of_ascii hq
  have hmem := ascii_mem_encodeChar (a := q.toUInt8) (by omega) (c := c)
  rw [hcons, List.mem_cons, hbyte, Char.toNat_inj] at hmem
  have htail : q.toUInt8 ∉ us := by
    intro h
    have := hus _ h
    omega
  rw [← hmem, or_iff_left htail, eq_comm]

/-- Behind the bytes of a text come those of the rest. -/
theorem drop_encode (u t : Text) : (encode (u ++ t)).toArray.toList.drop u.utf8Size = encode t := by
  rw [encode_append, ← length_encode, List.drop_left]

/-- A text has as many bytes as its size says. -/
theorem size_encode (t : Text) : (encode t).toArray.size = t.utf8Size := by
  rw [List.size_toArray, length_encode]

end Utf8

namespace Stylesheet

open Utf8 (encode)

variable {css t : Text} {bytes : Array UInt8} {s : Scan} {i : Nat} {b quote : UInt8} {u rest : Bytes}

/-! ## The loops, byte by byte -/

/-- The first byte behind a place stands there. -/
theorem getElem?_of_drop (h : bytes.toList.drop i = b :: rest) : bytes[i]? = some b := by
  rw [← Array.getElem?_toList, ← List.head?_drop, h]
  rfl

/-- Behind the first bytes from a place come the others. -/
theorem drop_of_drop_append (h : bytes.toList.drop i = u ++ rest) : bytes.toList.drop (i + u.length) = rest := by
  rw [← List.drop_drop, h, List.drop_left]

/-- A string ends at its quote; a backslash hides the next byte. -/
theorem quoteEnd_of_getElem? (h : bytes[i]? = some b) : quoteEnd bytes quote i =
    if b = quote then i
    else if b = '\\'.toUInt8 then quoteEnd bytes quote (i + 2)
    else quoteEnd bytes quote (i + 1) := by
  rw [quoteEnd]
  split <;> simp_all

/-- What the scan does at a byte. -/
theorem scanFrom_of_getElem? (h : bytes[i]? = some b) : scanFrom css bytes s i =
    if b = '/'.toUInt8 ∧ bytes[i + 1]? = some '*'.toUInt8 then
      (css.from? (i + 2)).bind fun rest =>
        let stop := commentEnd bytes (i + 2) rest
        scanFrom css bytes { s with start := stop, pending := s.beforeComment i } stop
    else if b = '"'.toUInt8 ∨ b = '\''.toUInt8 then scanFrom css bytes s (quoteEnd bytes b (i + 1) + 1)
    else if b = '{'.toUInt8 then
      (introducesAtRule css (s.closed i)).bind fun atRule =>
        scanFrom css bytes { start := i + 1, preludes := if atRule then s.preludes else s.preludes ++ s.closed i } (i + 1)
    else if b = '}'.toUInt8 ∨ b = ';'.toUInt8 then
      scanFrom css bytes { s with start := i + 1, pending := [] } (i + 1)
    else scanFrom css bytes s (i + 1) := by
  rw [scanFrom]
  split
  · simp_all
  · next b' h' =>
    cases h.symm.trans h'
    rfl

/-- Behind the last byte a string has ended. -/
theorem quoteEnd_of_size_le (h : bytes.size ≤ i) : quoteEnd bytes quote i = i := by
  rw [quoteEnd]
  split
  · rfl
  · next b hb => exact absurd (Array.getElem?_eq_some_iff.1 hb).1 (by omega)

/-- Behind the last byte the scan has ended. -/
theorem scanFrom_of_size_le (h : bytes.size ≤ i) : scanFrom css bytes s i = some s.preludes := by
  rw [scanFrom]
  split
  · rfl
  · next b hb => exact absurd (Array.getElem?_eq_some_iff.1 hb).1 (by omega)

/-! ## The loops, character by character -/

/-- A byte beyond ASCII is no ASCII character. -/
theorem ne_toUInt8 {q : Char} (hb : 0x80 ≤ b.toNat) (hq : q.toUInt8.toNat < 0x80) : b ≠ q.toUInt8 := by
  rintro rfl
  omega

/-- A loop that goes over bytes that are not ASCII goes on behind a character as it does behind the character's first byte. -/
theorem succ_eq_add_utf8Size {α : Type} {f : Nat → α} {c : Char}
    (hf : ∀ i b, bytes[i]? = some b → 0x80 ≤ b.toNat → f i = f (i + 1)) (h : bytes.toList.drop i = encode (c :: t)) :
    f (i + 1) = f (i + c.utf8Size) := by
  obtain ⟨a, u, hcons, hlength, hu, -⟩ := Utf8.encodeChar_eq_cons c
  have htail : bytes.toList.drop (i + 1) = u ++ encode t := by
    refine drop_of_drop_append (u := [a]) ?_
    rw [h, Utf8.encode_cons, hcons]
    rfl
  rw [← hlength, Nat.add_comm u.length, ← Nat.add_assoc]
  clear h hcons hlength
  -- by induction on the bytes of the character that are still to pass
  generalize i + 1 = i at htail ⊢
  induction u generalizing i with
  | nil => rfl
  | cons b u ih =>
    have hnext := ih (fun b hb => hu b (List.mem_cons_of_mem _ hb)) _ (drop_of_drop_append (u := [b]) htail)
    rw [hf i b (getElem?_of_drop htail) (hu b List.mem_cons_self), List.length_cons, Nat.add_comm u.length, ← Nat.add_assoc]
    exact hnext

/-- Within a character of several bytes a string does not end. -/
theorem quoteEnd_succ {q : Char} (hq : q.toUInt8.toNat < 0x80) {c : Char} (h : bytes.toList.drop i = encode (c :: t)) :
    quoteEnd bytes q.toUInt8 (i + 1) = quoteEnd bytes q.toUInt8 (i + c.utf8Size) := by
  refine succ_eq_add_utf8Size (fun i b hi hb => ?_) h
  rw [quoteEnd_of_getElem? hi, if_neg (ne_toUInt8 hb hq), if_neg (ne_toUInt8 hb (by decide))]

/-- Within a character of several bytes the scan goes on. -/
theorem scanFrom_succ {c : Char} (h : bytes.toList.drop i = encode (c :: t)) :
    scanFrom css bytes s (i + 1) = scanFrom css bytes s (i + c.utf8Size) := by
  refine succ_eq_add_utf8Size (fun i b hi hb => ?_) h
  have hne {q : Char} (hq : q.toUInt8.toNat < 0x80) : b ≠ q.toUInt8 := ne_toUInt8 hb hq
  rw [scanFrom_of_getElem? hi, if_neg (not_and_of_not_left _ (hne (by decide))),
    if_neg (not_or_intro (hne (by decide)) (hne (by decide))), if_neg (hne (by decide)),
    if_neg (not_or_intro (hne (by decide)) (hne (by decide)))]

/-- The byte at a character's begin tells ASCII characters. -/
theorem exists_getElem?_eq {c : Char} (h : bytes.toList.drop i = encode (c :: t)) :
    ∃ a, bytes[i]? = some a ∧ ∀ q : Char, q.toNat < 0x80 → (a = q.toUInt8 ↔ c = q) := by
  obtain ⟨a, u, hcons, -, -, ha⟩ := Utf8.encodeChar_eq_cons c
  rw [Utf8.encode_cons, hcons] at h
  exact ⟨a, getElem?_of_drop h, ha⟩

/-- An ASCII byte stands where its character does. -/
theorem getElem?_eq_toUInt8_iff (h : bytes.toList.drop i = encode t) {q : Char} (hq : q.toNat < 0x80) :
    bytes[i]? = some q.toUInt8 ↔ t.head? = some q := by
  cases t with
  | nil =>
    have hend : bytes.size ≤ i := by simpa using h
    simp [hend]
  | cons c t =>
    obtain ⟨a, hi, ha⟩ := exists_getElem?_eq h
    rw [hi, Option.some_inj, ha q hq, List.head?_cons, Option.some_inj]

/-- One round of a string's loop, the byte being a character's first. -/
theorem quoteEnd_cons {q c : Char} (hq : q.toNat < 0x80) (h : bytes.toList.drop i = encode (c :: t)) :
    quoteEnd bytes q.toUInt8 i =
      if c = q then i
      else if c = '\\' then quoteEnd bytes q.toUInt8 (i + 2)
      else quoteEnd bytes q.toUInt8 (i + c.utf8Size) := by
  obtain ⟨a, hi, ha⟩ := exists_getElem?_eq h
  have hbyte : q.toUInt8.toNat < 0x80 := by rwa [Utf8.toNat_toUInt8_of_ascii hq]
  rw [quoteEnd_of_getElem? hi, quoteEnd_succ hbyte h]
  simp only [ha q hq, ha '\\' (by decide)]

/-- One round of the scan, the byte being a character's first. -/
theorem scanFrom_cons {c : Char} (h : bytes.toList.drop i = encode (c :: t)) : scanFrom css bytes s i =
    if c = '/' ∧ t.head? = some '*' then
      (css.from? (i + 2)).bind fun rest =>
        let stop := commentEnd bytes (i + 2) rest
        scanFrom css bytes { s with start := stop, pending := s.beforeComment i } stop
    else if c = '"' ∨ c = '\'' then scanFrom css bytes s (quoteEnd bytes c.toUInt8 (i + 1) + 1)
    else if c = '{' then
      (introducesAtRule css (s.closed i)).bind fun atRule =>
        scanFrom css bytes { start := i + 1, preludes := if atRule then s.preludes else s.preludes ++ s.closed i } (i + 1)
    else if c = '}' ∨ c = ';' then
      scanFrom css bytes { s with start := i + 1, pending := [] } (i + 1)
    else scanFrom css bytes s (i + c.utf8Size) := by
  obtain ⟨a, hi, ha⟩ := exists_getElem?_eq h
  have hstar : c = '/' → (bytes[i + 1]? = some '*'.toUInt8 ↔ t.head? = some '*') := by
    rintro rfl
    exact getElem?_eq_toUInt8_iff (drop_of_drop_append (u := [_]) h) (by decide)
  rw [scanFrom_of_getElem? hi, scanFrom_succ (s := s) h]
  simp only [ha '/' (by decide), ha '"' (by decide), ha '\'' (by decide), ha '{' (by decide), ha '}' (by decide),
    ha ';' (by decide), and_congr_right_iff.2 hstar]
  refine if_congr Iff.rfl rfl (ite_congr rfl (fun hc => ?_) fun _ => rfl)
  have hquote : a = c.toUInt8 := (ha c (by rcases hc with rfl | rfl <;> decide)).2 rfl
  rw [hquote]

/-- Behind a character come the bytes of the rest. -/
theorem drop_utf8Size {c : Char} (h : bytes.toList.drop i = encode (c :: t)) :
    bytes.toList.drop (i + c.utf8Size) = encode t := by
  rw [← Utf8.length_encodeChar]
  exact drop_of_drop_append h

/-- A string's loop ends at the quote that ends the string, or behind all bytes. -/
theorem quoteEnd_splitQuoted {q : Char} (hq : q.toNat < 0x80) (hq' : q ≠ '\\') (h : bytes.toList.drop i = encode t) :
    quoteEnd bytes q.toUInt8 i + 1 = i + (splitQuoted q t).1.utf8Size ∨
      (splitQuoted q t).2 = [] ∧ bytes.size ≤ quoteEnd bytes q.toUInt8 i := by
  have hsize : q.utf8Size = 1 := Char.utf8Size_eq_one_iff.2 (UInt32.le_iff_toNat_le.2 (Nat.le_of_lt_succ hq))
  fun_induction splitQuoted q t generalizing i with
  | case1 =>
    have hend : bytes.size ≤ i := by simpa using h
    exact .inr ⟨rfl, by rwa [quoteEnd_of_size_le hend]⟩
  | case2 c t ih =>
    have hc : bytes.toList.drop (i + 1) = encode (c :: t) := drop_utf8Size h
    have hbyte : q.toUInt8.toNat < 0x80 := by rwa [Utf8.toNat_toUInt8_of_ascii hq]
    rw [quoteEnd_cons hq h, if_neg hq'.symm, if_pos rfl, quoteEnd_succ hbyte hc, Text.utf8Size, Text.utf8Size, ← Nat.add_assoc,
      ← Nat.add_assoc]
    exact ih (drop_utf8Size hc)
  | case3 t hne => exact .inl (by rw [quoteEnd_cons hq h, if_pos rfl, Text.utf8Size, hsize]; rfl)
  | case4 c t hne hc ih =>
    rw [quoteEnd_cons hq h, if_neg hc]
    by_cases hback : c = '\\'
    · have ht : t = [] := by
        cases t with
        | nil => rfl
        | cons d t => exact absurd rfl (hne d t hback)
      subst hback ht
      have hend : bytes.size ≤ i + 1 := by simpa using drop_of_drop_append (u := [_]) h
      rw [if_pos rfl, quoteEnd_of_size_le (by omega)]
      exact .inr ⟨rfl, by omega⟩
    · rw [if_neg hback, Text.utf8Size, ← Nat.add_assoc]
      exact ih (drop_utf8Size h)

/-- The search for a comment's end finds what the reader takes for it. -/
theorem commentEnd_splitComment (h : bytes.size = i + t.utf8Size) : commentEnd bytes i t = i + (splitComment t).1.utf8Size := by
  fun_induction splitComment t generalizing i with
  | case1 => exact h
  | case2 t => rfl
  | case3 c t hne ih =>
    have hstart : ¬ ['*', '/'].isPrefixOf (c :: t) := by
      intro hstart
      obtain ⟨r, hr⟩ := List.isPrefixOf_iff_prefix.1 hstart
      cases hr
      exact hne r rfl rfl
    have hnext := ih (i := i + c.utf8Size) (by rw [h, Text.utf8Size, Nat.add_assoc])
    rw [Text.utf8Size, ← Nat.add_assoc, ← hnext, commentEnd, commentEnd, Text.find?, if_neg hstart]
    cases Text.find? t ['*', '/'] with
    | none => rfl
    | some n => exact congrArg (· + 2) (Nat.add_assoc _ _ _).symm

/-! ## What the scan keeps of a section -/

/-- The first of the ranges that is not blank decides. -/
theorem introducesAtRule_cons {r : Nat × Nat} {rs : List (Nat × Nat)} (h : css.slice? r.1 r.2 = some t) :
    introducesAtRule css (r :: rs) =
      match Text.trimLeft t with
      | [] => introducesAtRule css rs
      | c :: _ => some (c == '@') := by
  rw [introducesAtRule, h]
  rfl

/-- The scan takes a section for an at-rule when the reader does, its stretches being slices of the stylesheet. -/
theorem introducesAtRule_rangesFrom (ss : List Segment) (before after : Text) :
    introducesAtRule (before ++ (Segment.join ss ++ after)) (rangesFrom before.utf8Size ss) =
      some ((Text.trimLeft (ss.flatMap Segment.selectorText)).head? == some '@') := by
  induction ss generalizing before with
  | nil => rfl
  | cons x ss ih =>
    have hnext := ih (before ++ x.text)
    rw [Text.utf8Size_append, List.append_assoc, ← List.append_assoc x.text] at hnext
    cases x with
    | other t => exact hnext
    | prelude t =>
      have hslice : Text.slice? (before ++ (t ++ Segment.join ss ++ after)) before.utf8Size (before.utf8Size + t.utf8Size) =
          some t := by
        rw [List.append_assoc]
        exact Text.slice?_append before t _
      have htrim : Text.trimLeft (t ++ ss.flatMap Segment.selectorText) = if (Text.trimLeft t).isEmpty then
          Text.trimLeft (ss.flatMap Segment.selectorText) else Text.trimLeft t ++ ss.flatMap Segment.selectorText :=
        List.dropWhile_append
      rw [Segment.join_cons, Segment.text_prelude, rangesFrom, introducesAtRule_cons hslice, List.flatMap_cons,
        Segment.selectorText, htrim]
      cases Text.trimLeft t with
      | nil => exact hnext
      | cons c r => rfl

namespace Section

/-- What the scan has kept when the reader is in a section that begins at a byte, and the preludes before it are given. -/
def scan (n : Nat) (s : Section) (preludes : List (Nat × Nat)) : Scan where
  start := n + (Segment.join s.segments.reverse).utf8Size
  pending := rangesFrom n s.segments.reverse
  preludes := preludes

/-- The preludes of a section's scan are those before it. -/
@[simp] theorem preludes_scan (n : Nat) (s : Section) (preludes : List (Nat × Nat)) : (s.scan n preludes).preludes = preludes :=
  rfl

/-- The stretches of a section when a comment begins are those of its segments. -/
theorem beforeComment_scan (n : Nat) (s : Section) (preludes : List (Nat × Nat)) :
    (s.scan n preludes).beforeComment (n + s.text.utf8Size) = rangesFrom n s.endPrelude.segments.reverse := by
  unfold endPrelude
  split
  · next h =>
    have hstart : (s.scan n preludes).start = n + s.text.utf8Size := by
      simp [scan, text, List.isEmpty_iff.1 h]
    rw [Scan.beforeComment, if_neg hstart.not_lt]
    rfl
  · next h =>
    have hstart : (s.scan n preludes).start < n + s.text.utf8Size := by
      have := Text.utf8Size_pos (t := s.current.reverse) (by simpa using h)
      simp [scan, text]
      omega
    rw [Scan.beforeComment, if_pos hstart]
    simp [scan, rangesFrom_append, rangesFrom, text, Nat.add_assoc]

/-- The stretches of a section when its last character has been read are those of its segments then. -/
theorem closed_scan (n : Nat) (s : Section) {c : Char} (hc : c.utf8Size = 1) (preludes : List (Nat × Nat)) :
    (s.scan n preludes).closed (n + s.text.utf8Size) = rangesFrom n (s.push c).endPrelude.segments.reverse := by
  have hpush : (s.push c).endPrelude.segments = .prelude (s.current.reverse ++ [c]) :: s.segments := by
    simp [endPrelude, push]
  rw [hpush, Scan.closed]
  simp [scan, rangesFrom_append, rangesFrom, text, Nat.add_assoc, Text.utf8Size, hc]

/-- A comment that is taken ends a range. -/
theorem scan_take_comment (n : Nat) (s : Section) (rest : Text) (preludes : List (Nat × Nat)) :
    (s.take (.comment rest)).scan n preludes =
      ⟨n + (s.take (.comment rest)).text.utf8Size, rangesFrom n s.endPrelude.segments.reverse, preludes⟩ := by
  have hcurrent : (s.take (.comment rest)).current = [] := by rw [take_comment]
  rw [scan, join_reverse_segments hcurrent, take_comment]
  simp [rangesFrom_append, rangesFrom]

/-- A lexeme that is taken and is no comment ends no range. -/
theorem scan_take {x : Lexeme} (hx : x.isComment = false) (n : Nat) (s : Section) (preludes : List (Nat × Nat)) :
    (s.take x).scan n preludes = s.scan n preludes := by
  rw [take_of_not_isComment hx]
  rfl

end Section

/-! ## One lexeme -/

/-- The scan's result from where the reader is in a section. -/
def scanIn (css before : Text) (preludes : List (Nat × Nat)) (s : Section) : Option (List (Nat × Nat)) :=
  scanFrom css (encode css).toArray (s.scan before.utf8Size preludes) (before.utf8Size + s.text.utf8Size)

section

variable {before : Text} {sec : Section} {preludes : List (Nat × Nat)}

/-- Behind what has been read come the bytes of the rest. -/
theorem drop_of_eq_append (hcss : css = before ++ (sec.text ++ t)) :
    (encode css).toArray.toList.drop (before.utf8Size + sec.text.utf8Size) = encode t := by
  rw [hcss, ← List.append_assoc, ← Text.utf8Size_append]
  exact Utf8.drop_encode _ t

/-- The bytes are those of what has been read and of the rest. -/
theorem size_of_eq_append (hcss : css = before ++ (sec.text ++ t)) :
    (encode css).toArray.size = before.utf8Size + sec.text.utf8Size + t.utf8Size := by
  rw [Utf8.size_encode, hcss, Text.utf8Size_append, Text.utf8Size_append, Nat.add_assoc]

/-- At the end of the bytes there is nothing more to find. -/
theorem scanIn_of_eq_append_nil (hcss : css = before ++ (sec.text ++ [])) : scanIn css before preludes sec = some preludes := by
  have hend : (encode css).toArray.size = before.utf8Size + sec.text.utf8Size := size_of_eq_append hcss
  rw [scanIn, scanFrom_of_size_le hend.le]
  rfl

/-- The scan over a comment. -/
theorem scanIn_comment (hcss : css = before ++ (sec.text ++ '/' :: '*' :: t)) :
    scanIn css before preludes sec = scanIn css before preludes (sec.take (.comment (splitComment t).1)) := by
  have hmarks (r : Text) : Text.utf8Size ('/' :: '*' :: r) = 2 + r.utf8Size := (Nat.add_assoc 1 1 _).symm
  have hrest : css.from? (before.utf8Size + sec.text.utf8Size + 2) = some t := by
    have h := Text.from?_append (before ++ (sec.text ++ ['/', '*'])) t
    rw [Text.utf8Size_append, Text.utf8Size_append, ← Nat.add_assoc, List.append_assoc, List.append_assoc] at h
    rw [hcss]
    exact h
  have hsize : (encode css).toArray.size = before.utf8Size + sec.text.utf8Size + 2 + t.utf8Size := by
    rw [size_of_eq_append hcss, hmarks]
    exact (Nat.add_assoc _ _ _).symm
  have hstop : before.utf8Size + sec.text.utf8Size + 2 + (splitComment t).1.utf8Size =
      before.utf8Size + (sec.take (.comment (splitComment t).1)).text.utf8Size := by
    rw [Section.text_take, Text.utf8Size_append, Lexeme.text, hmarks]
    omega
  rw [scanIn, scanFrom_cons (drop_of_eq_append hcss), if_pos ⟨rfl, rfl⟩, hrest, Option.bind_some, commentEnd_splitComment hsize,
    Section.beforeComment_scan, hstop, scanIn, Section.scan_take_comment]
  rfl

/-- The scan over a string. -/
theorem scanIn_quoted {c : Char} (hc : c = '"' ∨ c = '\'') (hcss : css = before ++ (sec.text ++ c :: t)) :
    scanIn css before preludes sec = scanIn css before preludes (sec.take (.quoted c (splitQuoted c t).1)) := by
  have hquote : c.toNat < 0x80 ∧ c ≠ '\\' ∧ c.utf8Size = 1 := by rcases hc with rfl | rfl <;> decide
  have hstart : ¬(c = '/' ∧ t.head? = some '*') := by rcases hc with rfl | rfl <;> simp
  have hdrop := drop_of_eq_append hcss
  have hsize := size_of_eq_append hcss
  have hstop : (sec.take (.quoted c (splitQuoted c t).1)).text.utf8Size =
      sec.text.utf8Size + 1 + (splitQuoted c t).1.utf8Size := by
    rw [Section.text_take, Text.utf8Size_append, Lexeme.text, Text.utf8Size, hquote.2.2, Nat.add_assoc]
  rw [scanIn, scanFrom_cons hdrop, if_neg hstart, if_pos hc, scanIn, Section.scan_take rfl, hstop]
  have hrest := drop_utf8Size hdrop
  rw [hquote.2.2] at hrest
  rcases quoteEnd_splitQuoted hquote.1 hquote.2.1 hrest with hend | ⟨hnil, hend⟩
  · rw [hend, Nat.add_assoc, Nat.add_assoc, Nat.add_assoc]
  · -- nothing ends the string: both sides are behind the last byte, but maybe not at one place
    have hall := append_splitQuoted c t
    rw [hnil, List.append_nil] at hall
    rw [Text.utf8Size, hquote.2.2] at hsize
    rw [scanFrom_of_size_le (by omega), scanFrom_of_size_le (by rw [hall]; omega)]

/-- The scan over any other character. -/
theorem scanIn_plain {c : Char} (hc : ¬(c = '"' ∨ c = '\'')) (hend : (Lexeme.plain c).isEnd = false)
    (hcomment : ¬(c = '/' ∧ t.head? = some '*')) (hcss : css = before ++ (sec.text ++ c :: t)) :
    scanIn css before preludes sec = scanIn css before preludes (sec.take (.plain c)) := by
  have hmark : c ≠ '{' ∧ ¬(c = '}' ∨ c = ';') := by simpa [Lexeme.isEnd, and_assoc] using hend
  rw [scanIn, scanFrom_cons (drop_of_eq_append hcss), if_neg hcomment, if_neg hc, if_neg hmark.1, if_neg hmark.2, scanIn,
    Section.scan_take rfl, Section.text_take, Text.utf8Size_append, Nat.add_assoc]
  rfl

/-- The scan over an opening brace: the section's stretches are preludes where the reader has preludes. -/
theorem scanIn_open (hcss : css = before ++ (sec.text ++ '{' :: t)) : scanIn css before preludes sec =
    scanIn css (before ++ (sec.take (.plain '{')).text) (preludes ++ rangesFrom before.utf8Size (sec.take (.plain '{')).opened)
      {} := by
  have hjoin : Segment.join (sec.push '{').endPrelude.segments.reverse = (sec.push '{').text := by
    rw [Section.join_reverse_segments (Section.current_endPrelude _), Section.text_endPrelude]
  have hclosed := Section.closed_scan before.utf8Size sec (c := '{') rfl preludes
  have hatRule : introducesAtRule css ((sec.scan before.utf8Size preludes).closed (before.utf8Size + sec.text.utf8Size)) =
      some (sec.push '{').endPrelude.isAtRule := by
    have h := introducesAtRule_rangesFrom (sec.push '{').endPrelude.segments.reverse before t
    rw [hjoin, Section.text_push, List.append_assoc] at h
    rw [hclosed, hcss]
    exact h
  have hopened : (if (sec.push '{').endPrelude.isAtRule then preludes else
      preludes ++ rangesFrom before.utf8Size (sec.push '{').endPrelude.segments.reverse) =
      preludes ++ rangesFrom before.utf8Size (sec.take (.plain '{')).opened := by
    show _ = preludes ++ rangesFrom before.utf8Size (sec.push '{').opened
    rw [Section.opened]
    split
    · rw [Section.dismissed, Section.rangesFrom_demoted, List.append_nil]
    · rfl
  have hnext : before.utf8Size + sec.text.utf8Size + 1 = (before ++ (sec.take (.plain '{')).text).utf8Size := by
    rw [Section.text_take, Text.utf8Size_append, Text.utf8Size_append]
    rfl
  rw [scanIn, scanFrom_cons (drop_of_eq_append hcss), if_neg (by simp), if_neg (by simp), if_pos rfl, hatRule, Option.bind_some,
    hclosed, Section.preludes_scan, hopened, hnext]
  rfl

/-- The scan over any other end of a section. -/
theorem scanIn_close {c : Char} (hc : c = '}' ∨ c = ';') (hcss : css = before ++ (sec.text ++ c :: t)) :
    scanIn css before preludes sec = scanIn css (before ++ (sec.take (.plain c)).text) preludes {} := by
  have hsize : c.utf8Size = 1 := by rcases hc with rfl | rfl <;> rfl
  have hstart : ¬(c = '/' ∧ t.head? = some '*') ∧ ¬(c = '"' ∨ c = '\'') ∧ c ≠ '{' := by rcases hc with rfl | rfl <;> simp
  rw [scanIn, scanFrom_cons (drop_of_eq_append hcss), if_neg hstart.1, if_neg hstart.2.1, if_neg hstart.2.2, if_pos hc, scanIn,
    Section.text_take]
  simp [Lexeme.text, Text.utf8Size, hsize, Section.scan, rangesFrom, Nat.add_assoc]

end

/-! ## The run -/

/-- The scan finds what the reader finds from within a section. -/
theorem scanIn_eq (before : Text) (sec : Section) (preludes : List (Nat × Nat)) (t : Text)
    (hcss : css = before ++ (sec.text ++ t)) :
    scanIn css before preludes sec = some (preludes ++ rangesFrom before.utf8Size (readLexemes sec (lexemes t))) := by
  fun_induction lexemes t generalizing before sec preludes with
  | case1 =>
    rw [scanIn_of_eq_append_nil hcss, readLexemes, Section.dismissed, Section.rangesFrom_demoted, List.append_nil]
  | case2 t ih =>
    have hnext : css = before ++ ((sec.take (.comment (splitComment t).1)).text ++ (splitComment t).2) := by
      rw [hcss, Section.text_take, List.append_assoc, Lexeme.text, List.cons_append, List.cons_append, append_splitComment]
    rw [scanIn_comment hcss, ih before _ preludes hnext, readLexemes_of_not_isEnd rfl]
  | case3 c t hne h ih =>
    have hnext : css = before ++ ((sec.take (.quoted c (splitQuoted c t).1)).text ++ (splitQuoted c t).2) := by
      rw [hcss, Section.text_take, List.append_assoc, Lexeme.text, List.cons_append, append_splitQuoted]
    rw [scanIn_quoted h hcss, ih before _ preludes hnext, readLexemes_of_not_isEnd rfl]
  | case4 c t hne h ih =>
    have hcomment : ¬(c = '/' ∧ t.head? = some '*') := by
      rintro ⟨rfl, hstar⟩
      obtain ⟨r, rfl⟩ := List.head?_eq_some_iff.1 hstar
      exact hne r rfl rfl
    have hsection : css = before ++ ((sec.take (.plain c)).text ++ t) := by
      rw [hcss, Section.text_take, List.append_assoc]
      rfl
    have hafter : css = before ++ (sec.take (.plain c)).text ++ (({} : Section).text ++ t) := by
      rw [hsection, List.append_assoc]
      rfl
    by_cases hopen : c = '{'
    · subst hopen
      rw [scanIn_open hcss, ih _ {} _ hafter, readLexemes, if_pos rfl, rangesFrom_append, Section.join_opened,
        Text.utf8Size_append, List.append_assoc]
    cases hend : (Lexeme.plain c).isEnd with
    | true =>
      have hclose : c = '}' ∨ c = ';' := by simpa [Lexeme.isEnd, hopen] using hend
      rw [scanIn_close hclose hcss, ih _ {} _ hafter, readLexemes, if_neg (by simpa using hopen), if_pos hend,
        rangesFrom_append, Section.join_dismissed, Text.utf8Size_append, Section.dismissed, Section.rangesFrom_demoted,
        List.nil_append]
    | false =>
      rw [scanIn_plain h hend hcomment hcss, ih _ _ _ hsection, readLexemes_of_not_isEnd hend]

/-- The scan finds the preludes that the reader finds, and no slice that it takes is refused. -/
theorem scan?_eq (css : Text) : scan? css = some (preludeRanges css) := by
  have h : scanIn css [] [] {} = _ := scanIn_eq [] {} [] css rfl
  rw [← readFrom_lexemes] at h
  exact h

/-! ## Harvest and exchange on slices -/

/-- At the range of a prelude stands the prelude. -/
theorem slice?_of_mem_preludesFrom (css : Text) {p : Nat × Text} (h : p ∈ preludesFrom 0 (segments css)) :
    css.slice? p.1 (p.1 + p.2.utf8Size) = some p.2 := by
  obtain ⟨before, after, hsegments, hstart⟩ := mem_preludesFrom_iff.1 h
  have hslice := Text.slice?_append (Segment.join before) p.2 (Segment.join after)
  rw [hstart, Nat.zero_add]
  rw [← Segment.text_prelude p.2, ← Segment.join_cons, ← Segment.join_append, ← hsegments, join_segments] at hslice
  exact hslice

/-- The slices at the ranges of preludes are the preludes. -/
theorem mapM_slice? {ps : List (Nat × Text)} (h : ∀ p ∈ ps, css.slice? p.1 (p.1 + p.2.utf8Size) = some p.2) :
    (ps.map fun p => (p.1, p.1 + p.2.utf8Size)).mapM (fun r => css.slice? r.1 r.2) = some (ps.map Prod.snd) := by
  induction ps with
  | nil => rfl
  | cons p ps ih =>
    rw [List.map_cons, List.mapM_cons, h p List.mem_cons_self, ih fun q hq => h q (List.mem_cons_of_mem _ hq)]
    rfl

/-- What is made of each prelude is made of the segments. -/
theorem flatMap_preludesFrom {α : Type} (f : Text → List α) (k : Nat) (ss : List Segment) :
    ((preludesFrom k ss).map Prod.snd).flatMap f = ss.flatMap fun
      | .prelude t => f t
      | .other _ => [] := by
  induction ss generalizing k with
  | nil => rfl
  | cons x ss ih => cases x <;> simp [preludesFrom, ih]

/-- No slice of the harvest is refused, and it is the class names. -/
theorem classNames?_eq (css : Text) : classNames? css = some (classNames css) := by
  have hslices := mapM_slice? fun p => slice?_of_mem_preludesFrom css (p := p)
  rw [← rangesFrom_eq_map] at hslices
  rw [classNames?, scan?_eq]
  rw [Option.bind_eq_bind, Option.bind_some, preludeRanges, hslices, Option.bind_eq_bind, Option.bind_some,
    flatMap_preludesFrom]
  rfl

/-- From a byte on, the copy of a gap that has begun and the exchange in what follows. -/
theorem exchangeFrom_rangesFrom (b : Codebook) (ss : List Segment) (before gap : Text) :
    exchangeFrom b (before ++ (gap ++ Segment.join ss)) before.utf8Size (rangesFrom (before.utf8Size + gap.utf8Size) ss) =
      some (gap ++ Piece.exchange b.get? (ss.flatMap Segment.pieces), Piece.exchanged b.get? (ss.flatMap Segment.pieces)) := by
  induction ss generalizing before gap with
  | nil =>
    rw [rangesFrom, exchangeFrom, Text.from?_append]
    rfl
  | cons x ss ih =>
    cases x with
    | other t =>
      have hnext := ih before (gap ++ t)
      rw [Text.utf8Size_append, ← Nat.add_assoc, List.append_assoc, List.append_assoc] at hnext
      exact hnext
    | prelude t =>
      have hgap := Text.slice?_append before gap (t ++ Segment.join ss)
      have hprelude := Text.slice?_append (before ++ gap) t (Segment.join ss)
      rw [Text.utf8Size_append, List.append_assoc] at hprelude
      have hnext : exchangeFrom b (before ++ (gap ++ (t ++ Segment.join ss))) (before.utf8Size + gap.utf8Size + t.utf8Size)
          (rangesFrom (before.utf8Size + gap.utf8Size + t.utf8Size) ss) =
          some (Piece.exchange b.get? (ss.flatMap Segment.pieces), Piece.exchanged b.get? (ss.flatMap Segment.pieces)) := by
        have h := ih (before ++ gap ++ t) []
        rw [Text.utf8Size_append, Text.utf8Size_append, List.append_assoc, List.append_assoc] at h
        exact h
      rw [rangesFrom, exchangeFrom, Segment.join_cons, Segment.text_prelude, hgap, hprelude]
      simp [hnext, Segment.pieces]

/-- No slice of the exchange is refused, and it is the renamed stylesheet. -/
theorem rename?_eq (b : Codebook) (css : Text) : rename? b css = some (rename b css) := by
  have h : exchangeFrom b css 0 (preludeRanges css) =
      some (Piece.exchange b.get? (pieces css), Piece.exchanged b.get? (pieces css)) := by
    have h := exchangeFrom_rangesFrom b (segments css) [] []
    rw [join_segments] at h
    exact h
  rw [rename?, scan?_eq, Option.bind_eq_bind, Option.bind_some, h]
  rfl

/-! ## No prelude is empty -/

namespace Section

/-- A section that is dismissed has no prelude. -/
theorem prelude_notMem_dismissed (s : Section) (t : Text) : .prelude t ∉ s.dismissed := by
  intro h
  obtain ⟨x, -, hx⟩ := List.mem_map.1 h
  cases hx

/-- When a prelude ends, it is not empty. -/
theorem empty_notMem_endPrelude {s : Section} (h : .prelude [] ∉ s.segments) : .prelude [] ∉ s.endPrelude.segments := by
  unfold endPrelude
  split
  · exact h
  · next hcurrent =>
    rw [List.mem_cons, not_or]
    exact ⟨fun heq => hcurrent (by simpa using (Segment.prelude.inj heq).symm), h⟩

/-- A section that ends in a brace has no empty prelude. -/
theorem empty_notMem_opened {s : Section} (h : .prelude [] ∉ s.segments) : .prelude [] ∉ s.opened := by
  rw [opened]
  split
  · exact prelude_notMem_dismissed _ _
  · rw [List.mem_reverse]
    exact empty_notMem_endPrelude h

/-- A section with one lexeme more has no empty prelude. -/
theorem empty_notMem_take {s : Section} (h : .prelude [] ∉ s.segments) (x : Lexeme) : .prelude [] ∉ (s.take x).segments := by
  cases hx : x.isComment with
  | true =>
    obtain ⟨rest, rfl⟩ := Lexeme.isComment_iff.1 hx
    rw [take_comment, List.mem_cons, not_or]
    exact ⟨nofun, empty_notMem_endPrelude h⟩
  | false =>
    rw [take_of_not_isComment hx]
    exact h

end Section

/-- To read on brings no empty prelude. -/
theorem empty_notMem_readLexemes {sec : Section} (h : .prelude [] ∉ sec.segments) (xs : List Lexeme) :
    .prelude [] ∉ readLexemes sec xs := by
  fun_induction readLexemes sec xs with
  | case1 => exact Section.prelude_notMem_dismissed _ _
  | case2 s xs ih =>
    rw [List.mem_append, not_or]
    exact ⟨Section.empty_notMem_opened (Section.empty_notMem_take h _), ih List.not_mem_nil⟩
  | case3 s x xs hopen hend ih =>
    rw [List.mem_append, not_or]
    exact ⟨Section.prelude_notMem_dismissed _ _, ih List.not_mem_nil⟩
  | case4 s x xs hopen hend ih => exact ih (Section.empty_notMem_take h x)

/-- A prelude holds a character. -/
theorem ne_nil_of_mem_preludesFrom {p : Nat × Text} (h : p ∈ preludesFrom 0 (segments css)) : p.2 ≠ [] := by
  intro hp
  obtain ⟨before, after, hsegments, -⟩ := mem_preludesFrom_iff.1 h
  have hmem : .prelude [] ∈ segments css := by
    rw [hsegments, hp]
    exact List.mem_append_right _ List.mem_cons_self
  rw [segments, readFrom_lexemes] at hmem
  exact empty_notMem_readLexemes List.not_mem_nil _ hmem

/-- No prelude begins before the one in front of it ends. -/
theorem pairwise_rangesFrom (n : Nat) (ss : List Segment) : (rangesFrom n ss).Pairwise fun r r' => r.2 ≤ r'.1 := by
  induction ss generalizing n with
  | nil => exact .nil
  | cons x ss ih =>
    cases x with
    | other t => exact ih _
    | prelude t =>
      refine List.pairwise_cons.2 ⟨?_, ih _⟩
      intro r hr
      rw [rangesFrom_eq_map] at hr
      obtain ⟨p, hp, rfl⟩ := List.mem_map.1 hr
      obtain ⟨before, -, -, hstart⟩ := mem_preludesFrom_iff.1 hp
      exact hstart ▸ Nat.le_add_right _ _

/-- The scan of any stylesheet ends, and its ranges are those that the reader finds. None of them is empty, each lies within the
stylesheet and begins and ends at a boundary of it, and none begins before the one in front of it ends. No slice is refused: not
by the scan, not by the harvest of class names and not by their exchange, and these two do on slices what they do on
segments. -/
theorem scan_slices (css : Text) : scan? css = some (preludeRanges css) ∧
    (∀ r ∈ preludeRanges css, r.1 < r.2 ∧ r.2 ≤ css.utf8Size ∧ css.IsBoundary r.1 ∧ css.IsBoundary r.2) ∧
    ((preludeRanges css).Pairwise fun r r' => r.2 ≤ r'.1) ∧
    classNames? css = some (classNames css) ∧
    ∀ b, rename? b css = some (rename b css) := by
  refine ⟨scan?_eq css, ?_, pairwise_rangesFrom 0 (segments css), classNames?_eq css, fun b => rename?_eq b css⟩
  intro r hr
  rw [preludeRanges, rangesFrom_eq_map] at hr
  obtain ⟨p, hp, rfl⟩ := List.mem_map.1 hr
  have hslice := slice?_of_mem_preludesFrom css hp
  obtain ⟨-, hbegin, hend⟩ := Text.isSome_slice?_iff.1 (Option.isSome_of_eq_some hslice)
  have hpos := Text.utf8Size_pos (ne_nil_of_mem_preludesFrom hp)
  refine ⟨by omega, ?_, hbegin, hend⟩
  obtain ⟨u, v, rfl, hu⟩ := hend
  rw [← hu, Text.utf8Size_append]
  exact Nat.le_add_right _ _

/-- A backslash in front of a character of two bytes, a comment in a selector, and a backslash that nothing follows. -/
example : scan? "a['\\é']/*é*/b\x7b\x7d'\\".toList = some [(0, 8), (14, 16)] := by cbv

end Stylesheet

end Pseudonym
