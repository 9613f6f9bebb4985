import Mathlib.Data.List.Basic
import Pseudonym.Language
import Pseudonym.Proofs.Codebook
import Pseudonym.Proofs.Exchange
import Pseudonym.Proofs.Utf8

/-!
# What is written is read again in the same way

A file that is not UTF-8 is read byte by byte (`IsBytewise`). Class names and their pseudonyms are ASCII words, and an ASCII word
put for another one makes no bytes UTF-8 that were not (`isSome_decode?_exchange`), nor does it touch a byte beyond ASCII
(`keptByWords_highBytes`). So the file with its class names exchanged is read byte by byte again, and a file that is UTF-8 is UTF-8
still (`Language.decode_encode_rename`): whoever reads the rewritten file finds the text that was written, and all of the file
that is no ASCII (`Language.rename_keeps_bytes`).
-/

namespace Pseudonym

/-- A text of ASCII characters, at least one. -/
structure IsAsciiWord (t : Text) : Prop where
  nonempty : t ≠ []
  ascii : ∀ c ∈ t, c.toNat < 0x80

instance : DecidablePred IsAsciiWord := fun t =>
  decidable_of_iff (t.isEmpty = false ∧ (t.all fun c => c.toNat < 0x80) = true) <| by
    rw [← Bool.not_eq_true, List.isEmpty_iff, List.all_eq_true]
    exact ⟨fun h => ⟨h.1, fun c hc => of_decide_eq_true (h.2 c hc)⟩, fun h => ⟨h.nonempty, fun c hc => decide_eq_true (h.ascii c hc)⟩⟩

/-- A text that is read byte by byte: each character has a byte, and the bytes are not UTF-8. -/
structure IsBytewise (t : Text) : Prop where
  hasByte : ∀ c ∈ t, c.toNat < 256
  notUtf8 : Utf8.decode? (Charset.bytewise.encode t) = none

namespace Charset

/-- Texts are encoded one after the other. -/
@[simp] theorem encode_append (charset : Charset) (s t : Text) : charset.encode (s ++ t) = charset.encode s ++ charset.encode t := by
  cases charset <;> simp [encode]

/-- What is decoded byte by byte is a text that UTF-8 does not explain. -/
theorem isBytewise_decode {bytes : Bytes} (h : (decode bytes).2 = .bytewise) : IsBytewise (decode bytes).1 := by
  have hencode := encode_decode bytes
  unfold decode at h hencode ⊢
  cases hd : Utf8.decode? bytes with
  | some t =>
    rw [hd] at h
    cases h
  | none =>
    rw [hd] at hencode
    refine ⟨?_, by simp only [hencode, hd]⟩
    intro c hc
    obtain ⟨b, -, rfl⟩ := List.mem_map.1 hc
    rw [toNat_ofNat_toNat]
    exact b.toNat_lt

/-- Such a text is encoded byte by byte and decoded as it was. -/
theorem decode_encode_bytewise {t : Text} (h : IsBytewise t) : decode (Charset.bytewise.encode t) = (t, .bytewise) := by
  have hmap : (Charset.bytewise.encode t).map (fun b => Char.ofNat b.toNat) = t := by
    rw [encode, List.map_flatMap]
    have hchar : ∀ c ∈ t, (byteOf c).map (fun b => Char.ofNat b.toNat) = [c] := by
      intro c hc
      have hlt := h.hasByte c hc
      rw [byteOf_of_lt hlt, List.map_singleton, Utf8.Utf8Aux.toNat_toUInt8 hlt, Char.ofNat_toNat]
    rw [List.flatMap_congr hchar, List.flatMap_singleton']
  unfold decode
  rw [h.notUtf8]
  exact congrArg (·, Charset.bytewise) hmap

/-- A text in UTF-8 is decoded as it was. -/
theorem decode_encode_utf8 (t : Text) : decode (Charset.utf8.encode t) = (t, .utf8) := by
  unfold decode encode
  rw [Utf8.decode?_encode]

/-- A text is read as it was written, in the charset that it was written in. -/
theorem decode_encode {charset : Charset} {t : Text} (h : charset = .bytewise → IsBytewise t) :
    decode (charset.encode t) = (t, charset) := by
  cases charset with
  | utf8 => exact decode_encode_utf8 t
  | bytewise => exact decode_encode_bytewise (h rfl)

/-! ## ASCII words among bytes -/

/-- Bytes around an ASCII word are UTF-8 exactly when those before it and those behind it are. -/
theorem isSome_decode?_append_word {w : Text} (hw : IsAsciiWord w) (x y : Bytes) :
    (Utf8.decode? (x ++ Charset.bytewise.encode w ++ y)).isSome = ((Utf8.decode? x).isSome && (Utf8.decode? y).isSome) := by
  obtain ⟨hne, hascii⟩ := hw
  induction w generalizing x with
  | nil => exact absurd rfl hne
  | cons c w ih =>
    have hc := hascii c List.mem_cons_self
    have hbyte : (c.toNat.toUInt8).toNat < 0x80 := by
      rwa [Utf8.Utf8Aux.toNat_toUInt8 (by omega)]
    have hcons : Charset.bytewise.encode (c :: w) = c.toNat.toUInt8 :: Charset.bytewise.encode w := by
      rw [encode, List.flatMap_cons, byteOf_of_lt (by omega)]
      rfl
    rw [hcons, List.append_assoc, List.cons_append, Utf8.isSome_decode?_append_ascii hbyte]
    by_cases hrest : w = []
    · subst hrest
      rfl
    · have hnil : (Utf8.decode? []).isSome = true := rfl
      have := ih [] hrest fun d hd => hascii d (List.mem_cons_of_mem _ hd)
      rw [List.nil_append, hnil, Bool.true_and] at this
      rw [this]

end Charset

namespace Piece

/-- Names that have an image are ASCII words, and so are their images. -/
def AsciiOn (f : Text → Option Text) (ps : List Piece) : Prop :=
  ∀ n ∈ names ps, ∀ p, f n = some p → IsAsciiWord n ∧ IsAsciiWord p

variable {f : Text → Option Text} {ps : List Piece}

/-- Whether bytes are UTF-8 does not depend on the ASCII words among them. -/
theorem isSome_decode?_exchange (h : AsciiOn f ps) (x : Bytes) :
    (Utf8.decode? (x ++ Charset.bytewise.encode (exchange f ps))).isSome =
      (Utf8.decode? (x ++ Charset.bytewise.encode (join ps))).isSome := by
  induction ps generalizing x with
  | nil => rfl
  | cons p ps ih =>
    cases p with
    | fixed t =>
      have := ih h (x ++ Charset.bytewise.encode t)
      simpa [exchange] using this
    | name n =>
      have hrest : AsciiOn f ps := fun m hm => h m (List.mem_cons_of_mem _ hm)
      rw [exchange, join_cons, text_name, Charset.encode_append, Charset.encode_append,
        ← List.append_assoc, ← List.append_assoc]
      cases hn : f n with
      | none => exact ih hrest _
      | some p =>
        obtain ⟨hword, hword'⟩ := h n List.mem_cons_self p hn
        rw [Option.getD_some, Charset.isSome_decode?_append_word hword, Charset.isSome_decode?_append_word hword']
        exact congrArg _ (ih hrest [])

/-- A narrow text stays narrow when ASCII takes the place of its names. -/
theorem toNat_exchange_lt (h : AsciiOn f ps) (hps : ∀ c ∈ join ps, c.toNat < 256) : ∀ c ∈ exchange f ps, c.toNat < 256 := by
  refine forall_mem_exchange (fun n hn p hp _ c hc => ?_) hps
  have := (h n hn p hp).2.ascii c hc
  omega

end Piece

/-! ## What exchanging ASCII words keeps -/

/-- Whatever ASCII words in a text are exchanged for ASCII words, the text keeps a property. -/
def KeptByWords (P : Text → Prop) : Prop :=
  ∀ (f : Text → Option Text) (ps : List Piece), Piece.AsciiOn f ps → P (Piece.join ps) → P (Piece.exchange f ps)

/-- A text that is read byte by byte is so still with ASCII words exchanged for ASCII words. -/
theorem keptByWords_isBytewise : KeptByWords IsBytewise := by
  intro f ps hf h
  refine ⟨Piece.toNat_exchange_lt hf h.hasByte, ?_⟩
  have hsome := Piece.isSome_decode?_exchange hf []
  rw [List.nil_append, List.nil_append, h.notUtf8] at hsome
  simpa using hsome

/-- What is kept by ASCII words in place of names is kept by an exchange. -/
theorem KeptByWords.exchange? {P : Text → Prop} (hP : KeptByWords P) {f : Text → Option Text} {ps : List Piece}
    (hf : Piece.AsciiOn f ps) {t u : Text} (ht : P t) (hjoin : Piece.join ps = t) (h : Piece.exchange? f ps = some u) : P u := by
  obtain ⟨-, rfl⟩ := Piece.exchange?_eq_some_iff.1 h
  rw [← hjoin] at ht
  exact hP f ps hf ht

/-! ## The bytes beyond ASCII -/

/-- The bytes that are none of an ASCII character, in order. -/
def highBytes (bytes : Bytes) : Bytes := bytes.filter (0x80 ≤ ·)

/-- The bytes beyond ASCII of a text are those of its parts. -/
@[simp] theorem highBytes_append (x y : Bytes) : highBytes (x ++ y) = highBytes x ++ highBytes y := List.filter_append ..

namespace Charset

/-- An ASCII character is the byte of its number, in either charset. -/
theorem encode_ascii (charset : Charset) {c : Char} (h : c.toNat < 0x80) : charset.encode [c] = [c.toNat.toUInt8] := by
  cases charset with
  | utf8 => simp [encode, Utf8.encode, Utf8.encodeChar, h]
  | bytewise => simp [encode, byteOf_of_lt (show c.toNat < 256 by omega)]

/-- ASCII has no byte beyond ASCII. -/
theorem highBytes_encode_ascii (charset : Charset) {t : Text} (h : ∀ c ∈ t, c.toNat < 0x80) : highBytes (charset.encode t) = [] := by
  induction t with
  | nil => cases charset <;> rfl
  | cons c t ih =>
    rw [List.forall_mem_cons] at h
    have hbyte : (c.toNat.toUInt8).toNat = c.toNat := Utf8.Utf8Aux.toNat_toUInt8 (by omega)
    have hlow : ¬(0x80 : UInt8) ≤ c.toNat.toUInt8 := by
      rw [UInt8.le_iff_toNat_le, hbyte]
      exact Nat.not_le.2 h.1
    rw [← List.singleton_append, encode_append, highBytes_append, ih h.2, encode_ascii charset h.1, highBytes,
      List.filter_cons_of_neg (by simpa using hlow)]
    rfl

end Charset

/-- The bytes beyond ASCII stand between the words that are exchanged. -/
theorem keptByWords_highBytes (charset : Charset) (bytes : Bytes) : KeptByWords fun t => highBytes (charset.encode t) = bytes := by
  intro f ps hf h
  refine Eq.trans ?_ h
  clear h
  induction ps with
  | nil => rfl
  | cons p ps ih =>
    cases p with
    | fixed t => rw [Piece.exchange, Piece.join_cons, Piece.text_fixed, Charset.encode_append, Charset.encode_append,
        highBytes_append, highBytes_append, ih hf]
    | name n =>
      have hrest : Piece.AsciiOn f ps := fun m hm => hf m (List.mem_cons_of_mem _ hm)
      have hname : highBytes (charset.encode ((f n).getD n)) = highBytes (charset.encode n) := by
        cases hn : f n with
        | none => rfl
        | some p =>
          obtain ⟨hword, hword'⟩ := hf n List.mem_cons_self p hn
          rw [Option.getD_some, charset.highBytes_encode_ascii hword'.ascii, charset.highBytes_encode_ascii hword.ascii]
      rw [Piece.exchange, Piece.join_cons, Piece.text_name, Charset.encode_append, Charset.encode_append, highBytes_append,
        highBytes_append, ih hrest, hname]

/-! ## Substitutions in turn -/

/-- What each substitution keeps, substitutions made one after another keep. -/
theorem Substitution.inTurn_induction {ε : Type} {step : ε → Text → Option Text} {P : Text → Prop} {es : List ε}
    (hstep : ∀ e ∈ es, ∀ t u, P t → step e t = some u → P u) {t u : Text} (ht : P t) (h : inTurn step es t = some u) : P u := by
  induction es generalizing t u with
  | nil => cases h
  | cons e es ih =>
    have hrest := fun e' he' => hstep e' (List.mem_cons_of_mem _ he')
    rw [inTurn] at h
    split at h
    · exact ih hrest ht h
    · next v hv =>
      have hpv := hstep e List.mem_cons_self t v ht hv
      cases hes : inTurn step es v with
      | none =>
        rw [hes] at h
        exact Option.some.inj h ▸ hpv
      | some w =>
        rw [hes] at h
        exact Option.some.inj h ▸ ih hrest hpv hes

/-- What leads from each text to the next one leads from the first to the last. -/
theorem Substitution.inTurn_trans {ε : Type} {step : ε → Text → Option Text} {R : Text → Text → Prop}
    (htrans : ∀ s t u, R s t → R t u → R s u) {es : List ε} (hstep : ∀ e ∈ es, ∀ s t, step e s = some t → R s t) {t out : Text}
    (h : inTurn step es t = some out) : R t out := by
  induction es generalizing t with
  | nil => cases h
  | cons e es ih =>
    rw [List.forall_mem_cons] at hstep
    rw [inTurn] at h
    split at h
    · exact ih hstep.2 h
    · next v hv =>
      have hfirst := hstep.1 t v hv
      cases hrest : inTurn step es v with
      | none =>
        rw [hrest] at h
        exact Option.some.inj h ▸ hfirst
      | some w =>
        rw [hrest, Option.getD_some] at h
        obtain rfl := Option.some.inj h
        exact htrans _ _ _ hfirst (ih hstep.2 hrest)

/-! ## The languages -/

/-- A codebook of ASCII words. -/
def IsAsciiCodebook (b : Codebook) : Prop := ∀ e ∈ b.entries, IsAsciiWord e.1 ∧ IsAsciiWord e.2

/-- A codebook of ASCII puts ASCII in the place of each name. -/
theorem IsAsciiCodebook.asciiOn {b : Codebook} (h : IsAsciiCodebook b) (ps : List Piece) : Piece.AsciiOn b.get? ps :=
  fun _ _ _ hp => h _ (Codebook.mem_entries_of_get? hp)

/-- A word in quotes is an ASCII word. -/
theorem IsAsciiWord.quoted {t : Text} (h : IsAsciiWord t) {q : Char} (hq : q.toNat < 0x80) : IsAsciiWord (q :: t ++ [q]) := by
  refine ⟨by simp, ?_⟩
  intro c hc
  simp only [List.mem_append, List.mem_cons, List.not_mem_nil, or_false] at hc
  rcases hc with (rfl | hc) | rfl
  · exact hq
  · exact h.ascii c hc
  · exact hq

/-- The names in a cut at one literal are that literal. -/
theorem Piece.names_cut_literal (needle t : Text) : ∀ n ∈ names (cut (literal needle) t), n = needle := by
  refine names_cut (P := (· = needle)) ?_ t
  intro before t ps k h
  unfold literal at h
  split at h
  · cases h
    simp
  · cases h

/-- A literal of a codebook of ASCII words, and the literal of its pseudonym, are ASCII words. -/
theorem IsAsciiCodebook.literal {b : Codebook} (h : IsAsciiCodebook b) {l : Script.Literal} (hl : l ∈ Script.literals b) :
    IsAsciiWord l.text ∧ IsAsciiWord l.image := by
  obtain ⟨e, he, hl⟩ := List.mem_flatMap.1 hl
  obtain ⟨hname, hpseudonym⟩ := h e he
  have hquotes : '\''.toNat < 0x80 ∧ '"'.toNat < 0x80 := by decide
  simp only [List.mem_cons, List.not_mem_nil, or_false] at hl
  rcases hl with rfl | rfl
  · exact ⟨hname.quoted hquotes.1, hpseudonym.quoted hquotes.1⟩
  · exact ⟨hname.quoted hquotes.2, hpseudonym.quoted hquotes.2⟩

/-- What exchanging ASCII words keeps, renaming in a language keeps. -/
theorem KeptByWords.rename {P : Text → Prop} (hP : KeptByWords P) {b : Codebook} (hb : IsAsciiCodebook b) {l : Language}
    {t u : Text} (ht : P t) (h : l.rename b t = some u) : P u := by
  cases l with
  | stylesheet => exact hP.exchange? (hb.asciiOn _) ht (Stylesheet.join_pieces t) h
  | markup => exact hP.exchange? (hb.asciiOn _) ht (Markup.join_pieces t) h
  | script =>
    refine Substitution.inTurn_induction (fun e he s v hs hv => ?_) ht h
    obtain ⟨htext, himage⟩ := hb.literal he
    refine hP.exchange? ?_ hs (Script.Literal.join_pieces e s) hv
    intro n hn p hp
    rw [Piece.names_cut_literal _ _ n hn, ← Option.some.inj hp]
    exact ⟨htext, himage⟩

/-- A file with its class names exchanged is read as the text that was written, in the charset of the file. -/
theorem Language.decode_encode_rename {b : Codebook} (hb : IsAsciiCodebook b) (l : Language) (bytes : Bytes) :
    Charset.decode ((Charset.decode bytes).2.encode ((l.rename b (Charset.decode bytes).1).getD (Charset.decode bytes).1)) =
      ((l.rename b (Charset.decode bytes).1).getD (Charset.decode bytes).1, (Charset.decode bytes).2) := by
  refine Charset.decode_encode fun hcharset => ?_
  have ht := Charset.isBytewise_decode hcharset
  cases hu : l.rename b (Charset.decode bytes).1 with
  | none => exact ht
  | some u => exact keptByWords_isBytewise.rename hb ht hu

/-- Bytes are UTF-8 if and only if they are read as such. -/
theorem Charset.isSome_decode?_iff {bytes : Bytes} : (Utf8.decode? bytes).isSome = true ↔ (decode bytes).2 = .utf8 := by
  unfold decode
  cases Utf8.decode? bytes <;> simp

/-- A file that is read and written again holds the bytes that it held. With class names exchanged, when names and pseudonyms are
ASCII words, it holds the same bytes beyond ASCII in the same order, it is UTF-8 exactly if it was, and it is read as the text that
was written, in the charset that it was read in before. -/
theorem Language.rename_keeps_bytes {bytes : Bytes} {t : Text} {charset : Charset} (hread : Charset.decode bytes = (t, charset)) :
    charset.encode t = bytes ∧
    ∀ (b : Codebook) (l : Language) (out : Text), IsAsciiCodebook b → l.rename b t = some out →
      highBytes (charset.encode out) = highBytes bytes ∧
      ((Utf8.decode? (charset.encode out)).isSome = true ↔ (Utf8.decode? bytes).isSome = true) ∧
      Charset.decode (charset.encode out) = (out, charset) := by
  have hencode := Charset.encode_decode bytes
  rw [hread] at hencode
  refine ⟨hencode, fun b l out hb hout => ?_⟩
  have hagain := Language.decode_encode_rename hb l bytes
  rw [hread, hout, Option.getD_some] at hagain
  refine ⟨?_, ?_, hagain⟩
  · rw [← hencode]
    exact (keptByWords_highBytes charset _).rename hb rfl hout
  · rw [Charset.isSome_decode?_iff, Charset.isSome_decode?_iff, hagain, hread]

namespace LatinWitness

/-- Markup with a class attribute that begins with a name, and with three bytes beyond ASCII, each of which breaks the UTF-8. The
first two would be one character without the word in between. -/
def page (name : String) : Bytes :=
  Utf8.encode ("<p class=\"" ++ name ++ " ").toList ++ [0xC3] ++ Utf8.encode " btn".toList ++ [0xA9] ++
    Utf8.encode "\">caf".toList ++ [0xE9]

def book : Codebook := ⟨[("btn".toList, "Xy".toList)]⟩

end LatinWitness

open LatinWitness in
/-- A page in Latin-1 keeps its bytes beyond ASCII and is read byte by byte again. -/
theorem Language.rename_keeps_bytes_latin :
    Charset.decode (page "btn") = ((Charset.decode (page "btn")).1, .bytewise) ∧ IsAsciiCodebook book ∧
    Language.markup.rename book (Charset.decode (page "btn")).1 = some (Charset.decode (page "Xy")).1 ∧
    Charset.bytewise.encode (Charset.decode (page "Xy")).1 = page "Xy" ∧
    highBytes (page "Xy") = highBytes (page "btn") ∧ Charset.decode (page "Xy") = ((Charset.decode (page "Xy")).1, .bytewise) := by
  have hread : Charset.decode (page "btn") = ((Charset.decode (page "btn")).1, .bytewise) := Prod.ext rfl (by decide +kernel)
  have hbook : IsAsciiCodebook book := by
    unfold IsAsciiCodebook
    decide
  have hrename : Language.markup.rename book (Charset.decode (page "btn")).1 = some (Charset.decode (page "Xy")).1 := by
    decide +kernel
  have hwritten : Charset.bytewise.encode (Charset.decode (page "Xy")).1 = page "Xy" := by decide +kernel
  obtain ⟨-, hall⟩ := Language.rename_keeps_bytes hread
  obtain ⟨hhigh, -, hagain⟩ := hall book .markup _ hbook hrename
  rw [hwritten] at hhigh hagain
  exact ⟨hread, hbook, hrename, hwritten, hhigh, hagain⟩

end Pseudonym
