import Pseudonym.Proofs.Borders
import Pseudonym.Proofs.Stylesheets

/-!
# The class names of a stylesheet after an exchange of file names

A file name and the token that is put for it are runs of file-name characters, and to the reader of selector preludes a run is as
good as another one: no comment, no string and no end of a section is moved (`readFrom_flatten`). Where a name stands, no
file-name character stands before it and no identifier character behind it (`Bounded`), so what it has to do with class names is
only what stands behind its last dot, and this only where a selector ends behind the name (`styled_run`). A token keeps what
stands behind the last dot, unless that dot is the first character (`IsFileToken.lastClass`). So the exchange leaves the class
names of a stylesheet as they are, as long as no file is named by a dot and one of them (`classNames_renamed`).
-/

namespace Pseudonym.Stylesheet

open Piece (names cut)
open Reference (IsRun beginsInName)

/-! ## The class name at the end of a run -/

/-- The class name that a selector ends with when it ends with a run: what stands behind the last dot of the run. -/
def lastClass : Text → List Text
  | [] => []
  | c :: n => if '.' ∈ n then lastClass n else if c = '.' ∧ n ≠ [] then [n] else []

/-- A run without a dot ends with no class name. -/
theorem lastClass_of_not_mem {n : Text} (h : '.' ∉ n) : lastClass n = [] := by
  cases n with
  | nil => rfl
  | cons c n =>
    rw [List.mem_cons, not_or] at h
    rw [lastClass, if_neg h.2, if_neg fun hc => h.1 hc.1.symm]

/-- A run ends with the class name behind its last dot. -/
theorem lastClass_append {w : Text} (hw : '.' ∉ w) (u : Text) : lastClass (u ++ '.' :: w) = if w = [] then [] else [w] := by
  induction u with
  | nil => by_cases hne : w = [] <;> simp [lastClass, hw, hne]
  | cons c u ih => rw [List.cons_append, lastClass, if_pos (by simp), ih]

/-- A class name at the end of a run has a dot before it and none in it. -/
theorem exists_of_mem_lastClass {n m : Text} (h : m ∈ lastClass n) : m ≠ [] ∧ '.' ∉ m ∧ ∃ u, n = u ++ '.' :: m := by
  induction n with
  | nil => cases h
  | cons c n ih =>
    rw [lastClass] at h
    split at h
    · obtain ⟨hne, hdot, u, rfl⟩ := ih h
      exact ⟨hne, hdot, c :: u, rfl⟩
    · next hdot =>
      split at h
      · next hc =>
        rw [List.mem_singleton.1 h, hc.1]
        exact ⟨hc.2, hdot, [], rfl⟩
      · cases h

/-- A dot and an identifier, or none, style a class if the selector ends there. -/
theorem styledAt_dot_run {u t : Text} (hu : ∀ c ∈ u, isIdentChar c = true) (ht : t.head?.any isIdentChar = false) :
    styledAt ('.' :: (u ++ t)) =
      if (Text.trimLeft t).head?.any endsSelector then if u = [] then [] else [u] else [] := by
  by_cases hne : u = []
  · subst hne
    rw [List.nil_append, styledAt_dot ht, if_pos rfl, ite_self]
  · rw [styledAt_run hne hu ht, if_neg hne]

/-- Of a run, a selector can end with nothing but the class name behind the last dot. -/
theorem styled_run {n t : Text} (hn : ∀ c ∈ n, isFileNameChar c = true) (ht : t.head?.any isIdentChar = false) :
    styled (n ++ t) = (if (Text.trimLeft t).head?.any endsSelector then lastClass n else []) ++ styled t := by
  induction n with
  | nil => rw [lastClass, ite_self]; rfl
  | cons c n ih =>
    have hrest : ∀ d ∈ n, isFileNameChar d = true := fun d hd => hn d (List.mem_cons_of_mem _ hd)
    rw [List.cons_append, styled, lastClass]
    by_cases hdot : '.' ∈ n
    · -- another dot follows, and no selector ends before it
      have hnone : styledAt (c :: (n ++ t)) = [] := by
        by_cases hc : c = '.'
        · subst hc
          obtain ⟨u, v, rfl, hu⟩ := List.eq_append_cons_of_mem hdot
          have hchars : ∀ d ∈ u, isIdentChar d = true := by
            intro d hd
            refine Reference.RunsAux.isIdentChar_of_ne_dot (hrest d (List.mem_append_left _ hd)) ?_
            rintro rfl
            exact hu hd
          rw [List.append_assoc, styledAt_dot_run hchars rfl]
          rfl
        · exact styledAt_of_ne_dot hc _
      rw [hnone, List.nil_append, if_pos hdot, ih hrest]
    · have hchars : ∀ d ∈ n, isIdentChar d = true := by
        intro d hd
        refine Reference.RunsAux.isIdentChar_of_ne_dot (hrest d hd) ?_
        rintro rfl
        exact hdot hd
      rw [if_neg hdot, styled_append hdot]
      by_cases hc : c = '.'
      · subst hc
        rw [styledAt_dot_run hchars ht]
        by_cases hne : n = [] <;> simp [hne]
      · simp [styledAt_of_ne_dot hc, hc]

/-! ## Symbols whose words are file names -/

/-- Symbols whose words are runs of file-name characters that stand by themselves: no file-name character stands before a word,
and behind it neither a word nor an identifier character. The flag says whether a word may come first. -/
inductive Bounded : Bool → List (Symbol isFileNameChar) → Prop where
  | nil (b : Bool) : Bounded b []
  | char {c : Char} {l : List (Symbol isFileNameChar)} (b : Bool) : Bounded (!isFileNameChar c) l → Bounded b (.char c :: l)
  | word {w : Word isFileNameChar} {l : List (Symbol isFileNameChar)} :
      l.head?.any Symbol.isIdent = false → Bounded false l → Bounded true (.word w :: l)

namespace Bounded

variable {k l : List (Symbol isFileNameChar)}

/-- Where no word may come first, none does. -/
theorem of_false (h : Bounded false l) (b : Bool) : Bounded b l := by
  cases h with
  | nil => exact .nil b
  | char _ h => exact .char b h

/-- Words that stand by themselves where none may come first do so where one may. -/
theorem weaken {b : Bool} (h : Bounded b l) : Bounded true l := by
  cases b with
  | true => exact h
  | false => exact h.of_false true

/-- Where words stand by themselves, so do those of the first part. -/
theorem of_append_left {b : Bool} (h : Bounded b (k ++ l)) : Bounded b k := by
  induction k generalizing b with
  | nil => exact .nil b
  | cons x k ih =>
    rw [List.cons_append] at h
    cases h with
    | char _ h => exact .char b (ih h)
    | word hl h =>
      refine .word ?_ (ih h)
      cases k with
      | nil => rfl
      | cons y k => exact hl

/-- So do those of the second part, if a word may come first. -/
theorem of_append_right {b : Bool} (h : Bounded b (k ++ l)) : Bounded true l := by
  induction k generalizing b with
  | nil => exact h.weaken
  | cons x k ih =>
    rw [List.cons_append] at h
    cases h with
    | char _ h => exact ih h
    | word _ h => exact ih h

/-- Characters before symbols of which a word does not come first. -/
theorem chars_append (h : Bounded false l) (u : Text) (b : Bool) : Bounded b (u.map Symbol.char ++ l) := by
  induction u generalizing b with
  | nil => exact h.of_false b
  | cons c u ih => exact .char b (ih _)

/-- An identifier character that stands behind a file-name character is a symbol of its own. -/
theorem exists_run (h : Bounded false l) : ∃ (u : Text) (l' : List (Symbol isFileNameChar)),
    (∀ c ∈ u, isIdentChar c = true) ∧ l = u.map Symbol.char ++ l' ∧ l'.head?.any Symbol.isIdent = false := by
  induction l with
  | nil => exact ⟨[], [], by simp, rfl, rfl⟩
  | cons x l ih =>
    cases h with
    | @char c _ _ h =>
      by_cases hc : isIdentChar c = true
      · rw [isFileNameChar_of_isIdentChar hc] at h
        obtain ⟨u, l', hu, rfl, hl'⟩ := ih h
        exact ⟨c :: u, l', by simpa [hc] using hu, rfl, hl'⟩
      · exact ⟨[], .char c :: l, by simp, rfl, by simpa [Symbol.isIdent] using hc⟩

end Bounded

section Flatten

variable {f g : Word isFileNameChar → Word isFileNameChar} {l : List (Symbol isFileNameChar)}

/-- Where no identifier comes first among the symbols, none does in their text. -/
theorem head?_flatten_of_isIdent (h : l.head?.any Symbol.isIdent = false) : (flatten f l).head?.any isIdentChar = false := by
  cases l with
  | nil => rfl
  | cons x l =>
    cases x with
    | char c => exact h
    | word w => cases h

/-- Whatever is written for the words, the same class name is found at a dot outside of them. -/
theorem styledAt_dot_flatten (h : Bounded false l) : styledAt ('.' :: flatten f l) = styledAt ('.' :: flatten g l) := by
  obtain ⟨u, l', hu, rfl, hl'⟩ := h.exists_run
  rw [flatten_append, flatten_append, flatten_chars, flatten_chars, styledAt_dot_run hu (head?_flatten_of_isIdent hl'),
    styledAt_dot_run hu (head?_flatten_of_isIdent hl'), any_endsSelector_flatten, any_endsSelector_flatten]

/-- A selector that is written with other words has the same class names, if each word ends with the class name of the old one, or
with none where that is none of the selector's. -/
theorem styled_flatten_congr {b : Bool} (h : Bounded b l) {P : Text → Prop} (hP : ∀ n ∈ styled (flatten g l), P n)
    (hword : ∀ w, Symbol.word w ∈ l → lastClass (f w).text = lastClass (g w).text ∨
      lastClass (f w).text = [] ∧ ∀ n ∈ lastClass (g w).text, ¬P n) :
    styled (flatten f l) = styled (flatten g l) := by
  induction h with
  | nil => rfl
  | @char c l b hl ih =>
    rw [flatten_char, flatten_char, styled, styled] at *
    rw [ih (fun n hn => hP n (List.mem_append_right _ hn)) fun w hw => hword w (List.mem_cons_of_mem _ hw)]
    congr 1
    by_cases hc : c = '.'
    · subst hc
      exact styledAt_dot_flatten hl
    · rw [styledAt_of_ne_dot hc, styledAt_of_ne_dot hc]
  | @word w l hl _ ih =>
    rw [flatten_word, styled_run (g w).chars (head?_flatten_of_isIdent hl), any_endsSelector_flatten] at hP
    rw [flatten_word, flatten_word, styled_run (f w).chars (head?_flatten_of_isIdent hl),
      styled_run (g w).chars (head?_flatten_of_isIdent hl), any_endsSelector_flatten, any_endsSelector_flatten,
      ih (fun n hn => hP n (List.mem_append_right _ hn)) fun w hw => hword w (List.mem_cons_of_mem _ hw)]
    congr 1
    rcases hword w List.mem_cons_self with heq | ⟨hnone, hnot⟩
    · rw [heq]
    · -- where the selector ends behind the word, the class name would be one of the selector's
      split
      · next hends =>
        rw [hnone]
        refine (List.eq_nil_iff_forall_not_mem.2 fun n hn => hnot n hn (hP n ?_)).symm
        rw [if_pos hends]
        exact List.mem_append_left _ hn
      · rfl

/-- The same of a stylesheet. -/
theorem classNames_flatten_congr (h : Bounded true l) {P : Text → Prop} (hP : ∀ n ∈ classNames (flatten g l), P n)
    (hword : ∀ w, Symbol.word w ∈ l → lastClass (f w).text = lastClass (g w).text ∨
      lastClass (f w).text = [] ∧ ∀ n ∈ lastClass (g w).text, ¬P n) :
    classNames (flatten f l) = classNames (flatten g l) := by
  have hread (f : Word isFileNameChar → Word isFileNameChar) : segments (flatten f l) =
      (readSymbols .plain {} l).map (Stretch.flat f) :=
    readFrom_flatten (fun q h => by cases h) {} _
  have hsymbols : (readSymbols .plain {} l).flatMap Stretch.symbols = l := symbols_readSymbols .plain {} l
  unfold classNames at hP ⊢
  rw [hread, List.flatMap_map] at hP
  rw [hread, hread, List.flatMap_map, List.flatMap_map]
  generalize readSymbols .plain {} l = gs at *
  refine List.flatMap_congr fun s hs => ?_
  cases s with
  | other k => rfl
  | prelude k =>
    obtain ⟨as, bs, rfl⟩ := List.append_of_mem hs
    have hl : l = as.flatMap Stretch.symbols ++ (k ++ bs.flatMap Stretch.symbols) := by
      rw [← hsymbols, List.flatMap_append, List.flatMap_cons]
      rfl
    rw [hl] at h hword
    simp only [Stretch.flat, names_cut_lastClassToken] at hP ⊢
    refine styled_flatten_congr h.of_append_right.of_append_left ?_ fun w hw => hword w (by simp [hw])
    intro n hn
    refine hP n (List.mem_flatMap.2 ⟨.prelude k, by simp, ?_⟩)
    simpa only [Stretch.flat, names_cut_lastClassToken] using hn

end Flatten

/-! ## A text cut at a file name -/

/-- The symbols of a piece of a text that is cut at a name: the name is a word. -/
def nameSymbols (w : Word isFileNameChar) : Piece → List (Symbol isFileNameChar)
  | .fixed t => t.map Symbol.char
  | .name _ => [.word w]

section Name

variable {w : Word isFileNameChar}

/-- With another word in its place, the text is that with the name exchanged. -/
theorem flatten_nameSymbols {f : Word isFileNameChar → Word isFileNameChar} (ps : List Piece) :
    flatten f (ps.flatMap (nameSymbols w)) = Piece.exchange (fun _ => some (f w).text) ps := by
  induction ps with
  | nil => rfl
  | cons p ps ih =>
    rw [List.flatMap_cons, flatten_append, ih]
    cases p with
    | fixed t => rw [nameSymbols, flatten_chars]; rfl
    | name n => simp [nameSymbols, Piece.exchange]

/-- A text without the name is its characters. -/
theorem flatMap_nameSymbols_of_names_eq_nil {ps : List Piece} (h : names ps = []) :
    ps.flatMap (nameSymbols w) = (Piece.join ps).map Symbol.char := by
  induction ps with
  | nil => rfl
  | cons p ps ih =>
    cases p with
    | fixed t => rw [List.flatMap_cons, ih h, Piece.join_cons, List.map_append]; rfl
    | name n => cases h

/-- The only word is the name. -/
theorem eq_word_of_mem_nameSymbols {ps : List Piece} {v : Word isFileNameChar}
    (h : Symbol.word v ∈ ps.flatMap (nameSymbols w)) : v = w := by
  obtain ⟨p, -, hp⟩ := List.mem_flatMap.1 h
  cases p with
  | fixed t =>
    obtain ⟨c, -, hc⟩ := List.mem_map.1 hp
    cases hc
  | name n => exact Symbol.word.inj (List.mem_singleton.1 hp)

/-- A text that is cut at a name falls into symbols of which each word stands by itself. -/
theorem bounded_pieces (w : Word isFileNameChar) (t : Text) :
    Bounded true ((Reference.pieces w.text t).flatMap (nameSymbols w)) ∧
      (beginsInName t = false → Bounded false ((Reference.pieces w.text t).flatMap (nameSymbols w)) ∧
        ((Reference.pieces w.text t).flatMap (nameSymbols w)).head?.any Symbol.isIdent = false) := by
  induction t using Reference.run_induction with
  | nil =>
    rw [Reference.pieces_nil w.nonempty w.chars]
    exact ⟨.nil _, fun _ => ⟨.nil _, rfl⟩⟩
  | char c t hc ih =>
    rw [Reference.pieces_of_not_fileNameChar w.nonempty w.chars hc]
    have hrest : Bounded (!isFileNameChar c) ((Reference.pieces w.text t).flatMap (nameSymbols w)) := by
      rw [hc]
      exact ih.1
    refine ⟨.char _ hrest, fun _ => ⟨.char _ hrest, ?_⟩⟩
    have hident : isIdentChar c = false := by
      rw [← Bool.not_eq_true]
      intro hident
      rw [isFileNameChar_of_isIdentChar hident] at hc
      cases hc
    exact hident
  | run r t hr ih =>
    have hfirst : beginsInName (r ++ t) = true := by
      obtain ⟨c, r, rfl⟩ := List.exists_cons_of_ne_nil hr.nonempty
      exact hr.chars c List.mem_cons_self
    refine ⟨?_, fun hends => by rw [hfirst] at hends; cases hends⟩
    obtain ⟨hbounded, hhead⟩ := ih.2 hr.ends
    obtain ⟨qs, hnames, hpieces, hjoin⟩ := Reference.pieces_run w.nonempty w.chars hr
    rw [hpieces, List.flatMap_append, List.flatMap_append, flatMap_nameSymbols_of_names_eq_nil hnames, hjoin]
    split
    · next hbegins =>
      rw [Reference.begins, Bool.and_eq_true] at hbegins
      have hbehind := Reference.head?_of_endsBefore hbegins.2
      refine .word ?_ (hbounded.chars_append _ false)
      cases hdrop : r.drop w.text.length with
      | nil => exact hhead
      | cons d u =>
        rw [hdrop] at hbehind
        exact hbehind
    · exact hbounded.chars_append _ true

end Name

end Stylesheet

/-! ## Tokens for file names -/

section Token

variable {n p : Text}

/-- A token for a name of file-name characters is one too. -/
theorem IsFileToken.chars (h : IsFileToken (textExtension? n) p) (hn : ∀ c ∈ n, isFileNameChar c = true) :
    p ≠ [] ∧ ∀ c ∈ p, isFileNameChar c = true := by
  refine ⟨?_, h.forall_mem (fun c hc => isFileNameChar_of_isIdentChar (Token.isIdentChar_of_mem_alphanumerics c hc)) hn⟩
  obtain ⟨s, hlen, -, rfl⟩ := h
  intro hnil
  rw [(List.append_eq_nil_iff.1 hnil).1] at hlen
  cases hlen

/-- A token ends with the class name that the name ends with, unless the name is that class name behind a dot. -/
theorem IsFileToken.lastClass (h : IsFileToken (textExtension? n) p) : Stylesheet.lastClass p = Stylesheet.lastClass n ∨
    Stylesheet.lastClass p = [] ∧ ∀ m ∈ Stylesheet.lastClass n, n = '.' :: m := by
  obtain ⟨s, -, hs, rfl⟩ := h
  have hdot : '.' ∉ s := fun hm => absurd (Token.isIdentChar_of_mem_alphanumerics _ (hs _ hm)) (by decide)
  cases hext : textExtension? n with
  | some ext =>
    obtain ⟨pre, -, rfl, hnodot⟩ := textExtension?_eq_some hext
    rw [Stylesheet.lastClass_append hnodot]
    cases ext with
    | nil => exact .inl (Stylesheet.lastClass_of_not_mem (by simpa [Token.extensionSuffix] using hdot))
    | cons c ext => exact .inl (Stylesheet.lastClass_append hnodot s)
  | none =>
    refine .inr ⟨Stylesheet.lastClass_of_not_mem (by simpa [Token.extensionSuffix] using hdot), ?_⟩
    intro m hm
    obtain ⟨hne, hnodot, u, rfl⟩ := Stylesheet.exists_of_mem_lastClass hm
    by_contra hu
    rw [textExtension?_append (fun hnil => hu (by rw [hnil]; rfl)) hne hnodot] at hext
    cases hext

end Token

/-! ## The exchange -/

namespace Stylesheet

/-- One entry leaves the class names of a stylesheet as they are, unless it is for a file that is named by a dot and one of them. -/
theorem classNames_exchanged {n p t : Text} (hne : n ≠ []) (hn : ∀ c ∈ n, isFileNameChar c = true)
    (hp : IsFileToken (textExtension? n) p) (hsafe : ∀ m ∈ classNames t, n ≠ '.' :: m) :
    classNames (Reference.exchanged (n, p) t) = classNames t := by
  obtain ⟨hpne, hpchars⟩ := hp.chars hn
  obtain ⟨hbounded, -⟩ := bounded_pieces ⟨n, hne, hn⟩ t
  have hold : flatten id ((Reference.pieces n t).flatMap (nameSymbols ⟨n, hne, hn⟩)) = t := by
    have himage : ∀ m ∈ Piece.names (Reference.pieces n t), Piece.imageOf (fun _ => some n) m = Piece.imageOf (fun _ => none) m :=
      fun m hm => (Reference.names_pieces n t m hm).symm
    rw [flatten_nameSymbols, id, Piece.exchange_congr himage, Piece.exchange_none, Reference.join_pieces]
  have hnew : flatten (fun _ => ⟨p, hpne, hpchars⟩) ((Reference.pieces n t).flatMap (nameSymbols ⟨n, hne, hn⟩)) =
      Reference.exchanged (n, p) t := by
    rw [flatten_nameSymbols, Reference.exchanged_eq]
  rw [← hnew, classNames_flatten_congr (g := id) hbounded (P := (· ∈ classNames t)), hold]
  · rw [hold]
    exact fun _ hm => hm
  · intro w hw
    rw [eq_word_of_mem_nameSymbols hw]
    rcases hp.lastClass with heq | ⟨hnone, hdot⟩
    · exact .inl heq
    · exact .inr ⟨hnone, fun m hm hclass => hsafe m hclass (hdot m hm)⟩

/-- The exchange of file names leaves the class names of a stylesheet as they are, as long as none of the files is named by a dot and
one of them. -/
theorem classNames_renamed {b : Codebook} {t : Text} (hname : ∀ n ∈ b.names, n ≠ [] ∧ ∀ c ∈ n, isFileNameChar c = true)
    (htoken : ∀ e ∈ b.entries, IsFileToken (textExtension? e.1) e.2) (hsafe : ∀ m ∈ classNames t, '.' :: m ∉ b.names) :
    classNames (Reference.renamed b t) = classNames t := by
  rw [Reference.renamed_eq_foldl]
  obtain ⟨es⟩ := b
  induction es generalizing t with
  | nil => rfl
  | cons e es ih =>
    obtain ⟨n, p⟩ := e
    obtain ⟨hne, hn⟩ := hname n List.mem_cons_self
    have hone : classNames (Reference.exchanged (n, p) t) = classNames t := by
      refine classNames_exchanged hne hn (htoken _ List.mem_cons_self) ?_
      rintro m hm rfl
      exact hsafe m hm List.mem_cons_self
    rw [List.foldl_cons, ih (fun n hn => hname n (List.mem_cons_of_mem _ hn))
      (fun e he => htoken e (List.mem_cons_of_mem _ he)) (fun m hm hmem => ?_), hone]
    rw [hone] at hm
    exact hsafe m hm (List.mem_cons_of_mem _ hmem)

end Stylesheet

end Pseudonym
