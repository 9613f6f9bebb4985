import Mathlib.Data.List.ReduceOption
import Mathlib.Data.List.DropRight
import Pseudonym.LineDiff.Rendered

/-!
# Reading a diff back

The diff of two texts is a text again, and what it shows can be read off its lines (`shown`). A colour and a sign stand in front of
each line that is shown. The end of the colour stands behind it: in the same line of the diff if the line has been ended for display,
else at the start of the next one, and this tells the two apart. Whatever lines are shown, they are read back
(`shown_flatten_intersperse`).
-/

namespace Pseudonym.LineDiff

/-- A hunk as it is shown: its lines with what has become of them. -/
abbrev Shown := List (Mark × Line)

/-! ## The reader -/

/-- Does a line of the diff begin with the end of the colour of the line before it? That looks like the colour of a kept line, which
has a sign behind it. -/
def isClosing (l : Line) : Bool := colourEnd.isPrefixOf l && !(Mark.kept.colour ++ Mark.kept.sign).isPrefixOf l

/-- A line of the diff without the end of the colour of the line before it. -/
def opened (l : Line) : Line := if isClosing l then l.drop colourEnd.length else l

/-- What has become of the line that a line of the diff shows, with what stands behind the sign. -/
def marked? (l : Line) : Option (Mark × Text) := [Mark.kept, .deleted, .inserted].findSome? fun m =>
  if (m.colour ++ m.sign).isPrefixOf l then some (m, l.drop (m.colour ++ m.sign).length) else none

/-- What the lines of a diff show: lines with what has become of them, and nothing where one hunk ends and another begins. -/
def readLines : List Line → List (Option (Mark × Line))
  | [] => []
  | l :: ls =>
    if opened l = separator then none :: readLines ls
    else match marked? (opened l) with
      | none => readLines ls
      | some (m, t) => some (m, if ls.head?.any isClosing then t else t.rdrop (colourEnd.length + 1)) :: readLines ls

/-- The hunks that a diff shows. -/
def shown (out : Text) : List Shown := ((readLines (lines out)).splitOn none).map List.reduceOption

/-! ## The lines of a text -/

/-- A text that ends no line. -/
def Plain (t : Text) : Prop := ∀ c ∈ t, c ≠ '\n' ∧ c ≠ '\r'

instance (t : Text) : Decidable (Plain t) := List.decidableBAll (fun c => c ≠ '\n' ∧ c ≠ '\r') t

/-- What ends a line. -/
def endings : List Text := [['\n'], ['\r'], ['\r', '\n']]

/-- A line has nothing that ends it but at its end. -/
def IsLine (l : Line) : Prop := ∃ t, Plain t ∧ (l = t ∨ ∃ e ∈ endings, l = t ++ e)

theorem Plain.append {t u : Text} (ht : Plain t) (hu : Plain u) : Plain (t ++ u) := by
  intro c hc
  exact (List.mem_append.1 hc).elim (ht c) (hu c)

/-- A text that ends no line is not ended. -/
theorem isEnded_of_plain {t : Text} (h : Plain t) : isEnded t = false := by
  rw [isEnded]
  cases hlast : t.getLast? with
  | none => rfl
  | some c => simpa using h c (List.mem_of_getLast? hlast)

/-- A text with an ending is ended. -/
theorem isEnded_append {e : Text} (he : e ∈ endings) (t : Text) : isEnded (t ++ e) = true := by
  simp only [endings, List.mem_cons, List.not_mem_nil, or_false] at he
  rcases he with rfl | rfl | rfl <;> simp [isEnded]

/-- The characters before a line are part of it if they end none. -/
theorem lines_append {t s : Text} {l : Line} {ls : List Line} (ht : Plain t) (hs : lines s = l :: ls) :
    lines (t ++ s) = (t ++ l) :: ls := by
  induction t with
  | nil => exact hs
  | cons c t ih =>
    obtain ⟨hc, ht⟩ := List.forall_mem_cons.1 ht
    rw [List.cons_append, lines, if_neg (by simpa using hc), ih ht]
    · rfl
    · rintro _ rfl
      exact absurd rfl hc.2

/-- A line that is ended is the first of a text. -/
theorem lines_ended {e : Text} (he : e ∈ endings) {s : Text} (hs : s.head? ≠ some '\n') : lines (e ++ s) = e :: lines s := by
  simp only [endings, List.mem_cons, List.not_mem_nil, or_false] at he
  rcases he with rfl | rfl | rfl
  · simp [lines]
  · cases s with
    | nil => simp [lines]
    | cons c s =>
      have hc : c ≠ '\n' := by simpa using hs
      rw [List.singleton_append, lines, if_pos (.inr rfl)]
      rintro _ - heq
      exact hc (List.cons.inj heq).1
  · rfl

/-- The lines of a text are lines. -/
theorem isLine_of_mem_lines (t : Text) : ∀ l ∈ lines t, IsLine l := by
  have hcons {c : Char} {l : Line} (hc : ¬(c = '\n' ∨ c = '\r')) (hl : IsLine l) : IsLine (c :: l) := by
    obtain ⟨t, ht, hl⟩ := hl
    refine ⟨c :: t, List.forall_mem_cons.2 ⟨not_or.1 hc, ht⟩, hl.imp (congrArg _) ?_⟩
    rintro ⟨e, he, rfl⟩
    exact ⟨e, he, rfl⟩
  have hnil : Plain [] := fun _ hc => by cases hc
  fun_induction lines t with
  | case1 => exact fun _ h => by cases h
  | case2 t ih => exact List.forall_mem_cons.2 ⟨⟨[], hnil, .inr ⟨_, by decide, rfl⟩⟩, ih⟩
  | case3 c t _ hc ih => exact List.forall_mem_cons.2 ⟨⟨[], hnil, .inr ⟨[c], by rcases hc with rfl | rfl <;> decide, rfl⟩⟩, ih⟩
  | case4 c t _ hc e ih => exact List.forall_mem_cons.2 ⟨hcons hc ⟨[], hnil, .inl rfl⟩, fun _ h => by cases h⟩
  | case5 c t _ hc l ls e ih =>
    rw [e, List.forall_mem_cons] at ih
    exact List.forall_mem_cons.2 ⟨hcons hc ih.1, ih.2⟩

/-! ## What is shown is read back -/

/-- What the colour of the line before leaves to a line of the diff. -/
def closing : Bool → Text
  | true => colourEnd
  | false => []

/-- A line of the diff, or what stands between two hunks. -/
def renderItem : Option (Mark × Line) → Text
  | none => separator
  | some (m, l) => renderLine m l

/-- The end of a colour is told from the colour of the line. -/
theorem isClosing_front (c : Bool) (m : Mark) (t : Text) : isClosing (closing c ++ (m.colour ++ (m.sign ++ t))) = c := by
  cases c <;> cases m <;> rfl

/-- The end of a colour is told from what stands between two hunks. -/
theorem isClosing_separator (c : Bool) : isClosing (closing c ++ separator) = c := by
  cases c <;> decide

/-- Behind the end of a colour the line begins. -/
theorem opened_closing {c : Bool} {t : Text} (h : isClosing (closing c ++ t) = c) : opened (closing c ++ t) = t := by
  rw [opened, h]
  cases c <;> rfl

/-- A line that is shown is not taken for what stands between two hunks. -/
theorem front_ne_separator (m : Mark) (t : Text) : m.colour ++ (m.sign ++ t) ≠ separator := by
  intro h
  cases m <;> cases congrArg List.head? h

/-- The colour and the sign tell what has become of a line. -/
theorem marked?_front (m : Mark) (t : Text) : marked? (m.colour ++ (m.sign ++ t)) = some (m, t) := by
  cases m <;> rfl

/-- Neither a colour nor a sign ends a line. -/
theorem plain_front (c : Bool) (m : Mark) : Plain (closing c ++ (m.colour ++ m.sign)) := by
  cases c <;> cases m <;> decide

/-- A line that is ended is the first line of what it begins, and the colour ends in the next one. -/
theorem lines_renderLine_ended {t e : Text} (ht : Plain t) (he : e ∈ endings) (c : Bool) (m : Mark) (s : Text) :
    lines (closing c ++ (renderLine m (t ++ e) ++ s)) =
      (closing c ++ (m.colour ++ (m.sign ++ (t ++ e)))) :: lines (closing true ++ s) := by
  have hrest : lines (e ++ (closing true ++ s)) = e :: lines (closing true ++ s) :=
    lines_ended he (by simp [closing, colourEnd])
  have hlines := lines_append ((plain_front c m).append ht) hrest
  simpa [renderLine, isEnded_append he, closing] using hlines

/-- A line that is not ended is ended for display, behind the end of its colour. -/
theorem lines_renderLine_unended {t : Text} (ht : Plain t) (c : Bool) (m : Mark) (s : Text) :
    lines (closing c ++ (renderLine m t ++ s)) =
      (closing c ++ (m.colour ++ (m.sign ++ (t ++ (colourEnd ++ ['\n']))))) :: lines (closing false ++ s) := by
  have hrest : lines (['\n'] ++ s) = ['\n'] :: lines s := by simp [lines]
  have hlines := lines_append ((plain_front c m).append (ht.append (show Plain colourEnd by decide))) hrest
  simpa [renderLine, isEnded_of_plain ht, closing] using hlines

/-- What stands between two hunks is a line of its own, but for the end of a colour before it. -/
theorem lines_separator (c : Bool) (s : Text) :
    lines (closing c ++ (separator ++ s)) = (closing c ++ separator) :: lines (closing false ++ s) := by
  have hrest : lines (['\n'] ++ s) = ['\n'] :: lines s := by simp [lines]
  have hlines := lines_append (t := closing c ++ List.replicate 40 '-') (by cases c <;> decide) hrest
  simpa [separator, closing] using hlines

/-- The lines of a diff are read back, whether or not the end of a colour stands before them. The reader sees in each of them if
there is one. -/
theorem readLines_lines {items : List (Option (Mark × Line))} (hitems : ∀ y, some y ∈ items → IsLine y.2) (c : Bool) :
    readLines (lines (closing c ++ items.flatMap renderItem)) = items ∧
      (lines (closing c ++ items.flatMap renderItem)).head?.any isClosing = c := by
  induction items generalizing c with
  | nil => cases c <;> decide
  | cons x items ih =>
    specialize ih fun y hy => hitems y (List.mem_cons_of_mem _ hy)
    cases x with
    | none =>
      have hclosing := isClosing_separator c
      rw [List.flatMap_cons, renderItem, lines_separator, readLines, opened_closing hclosing, if_pos rfl, (ih false).1]
      exact ⟨rfl, hclosing⟩
    | some y =>
      obtain ⟨m, l⟩ := y
      obtain ⟨t, ht, hl⟩ := hitems (m, l) List.mem_cons_self
      rw [List.flatMap_cons, renderItem]
      rcases hl with rfl | ⟨e, he, rfl⟩
      · obtain ⟨hrest, hhead⟩ := ih false
        have hclosing := isClosing_front c m (l ++ (colourEnd ++ ['\n']))
        rw [lines_renderLine_unended ht, readLines, opened_closing hclosing, if_neg (front_ne_separator m _), marked?_front]
        refine ⟨?_, hclosing⟩
        simp only
        rw [hhead, if_neg Bool.false_ne_true, hrest]
        simp [List.rdrop, colourEnd]
      · obtain ⟨hrest, hhead⟩ := ih true
        have hclosing := isClosing_front c m (t ++ e)
        rw [lines_renderLine_ended ht he, readLines, opened_closing hclosing, if_neg (front_ne_separator m _), marked?_front]
        refine ⟨?_, hclosing⟩
        simp only
        rw [hhead, if_pos rfl, hrest]

/-- A diff is its lines with what stands between hunks. -/
theorem flatten_intersperse_eq (hs : List Hunk) : ((hs.map renderHunk).intersperse separator).flatten =
    ([none].intercalate (hs.map fun h => h.marked.map some)).flatMap renderItem := by
  have hhunk (h : Hunk) : (h.marked.map some).flatMap renderItem = renderHunk h := by
    rw [List.flatMap_map]
    rfl
  induction hs with
  | nil => rfl
  | cons h hs ih =>
    cases hs with
    | nil => simp [List.intercalate, hhunk]
    | cons h' hs =>
      rw [List.map_cons, List.map_cons] at ih ⊢
      rw [List.map_cons, List.map_cons, List.intersperse_cons_cons, List.flatten_cons, List.flatten_cons, ih,
        List.intercalate_cons_cons, List.flatMap_append, List.flatMap_append, hhunk, List.append_assoc]
      rfl

/-- What is listed between separators is listed. -/
theorem exists_mem_of_mem_intercalate {α : Type} {ls : List (List (Option α))} {y : α} (h : some y ∈ [none].intercalate ls) :
    ∃ l ∈ ls, some y ∈ l := by
  induction ls with
  | nil => cases h
  | cons l ls ih =>
    cases ls with
    | nil => exact ⟨l, List.mem_cons_self, by simpa [List.intercalate] using h⟩
    | cons l' ls =>
      rw [List.intercalate_cons_cons, List.mem_append, List.mem_append] at h
      rcases h with (h | h) | h
      · exact ⟨l, List.mem_cons_self, h⟩
      · cases List.mem_singleton.1 h
      · obtain ⟨k, hk, hy⟩ := ih h
        exact ⟨k, List.mem_cons_of_mem _ hk, hy⟩

/-- The hunks of a diff are read back. -/
theorem shown_flatten_intersperse {hs : List Hunk} (hne : hs ≠ []) (hlines : ∀ h ∈ hs, ∀ y ∈ h.marked, IsLine y.2) :
    shown ((hs.map renderHunk).intersperse separator).flatten = hs.map Hunk.marked := by
  have hitems : ∀ y, some y ∈ [none].intercalate (hs.map fun h => h.marked.map some) → IsLine y.2 := by
    intro y hy
    obtain ⟨l, hl, hy⟩ := exists_mem_of_mem_intercalate hy
    obtain ⟨h, hh, rfl⟩ := List.mem_map.1 hl
    exact hlines h hh y (by simpa using hy)
  have hread := (readLines_lines hitems false).1
  rw [shown, flatten_intersperse_eq]
  rw [closing, List.nil_append] at hread
  rw [hread, List.splitOn_intercalate none ?_ (by simpa using hne), List.map_map]
  · refine List.map_congr_left fun h _ => ?_
    simp [List.reduceOption]
  · simp

/-- A line that its text leaves unended is told from one that is ended. -/
example : shown "\x1b[31m- a\n\x1b[0m\x1b[32m+ a\x1b[0m\n".toList = [[(.deleted, "a\n".toList), (.inserted, "a".toList)]] := by decide

end Pseudonym.LineDiff
