import Mathlib.Data.List.Basic
import Pseudonym.Proofs.Displays
import Pseudonym.Proofs.Settlings

/-!
# The diff is a patch

The kept and deleted lines of a hunk are lines of the old text that stand together, its kept and inserted lines are lines of the new
one, and between two hunks the texts agree (`Patch`). Whoever knows how many lines lie between the hunks can apply them one after
the other, and comes out at the new text (`Patch.exists_applied`). All this is so of the hunks that the text of the diff shows
(`render_patches`). Nothing is shown exactly if there is nothing to show.
-/

namespace Pseudonym.LineDiff

namespace Shown

/-- The lines of the old text that a hunk shows: those it does not insert. -/
def before (h : Shown) : List Line := (h.filter (·.1 ≠ .inserted)).map Prod.snd

/-- The lines of the new text that a hunk shows: those it does not delete. -/
def after (h : Shown) : List Line := (h.filter (·.1 ≠ .deleted)).map Prod.snd

end Shown

/-- The hunks lead from the old lines to the new ones: each takes the place of the lines of the old text that it shows, and all
others are lines of both texts. -/
inductive Patch : List Shown → List Line → List Line → Prop
  | done (ls : List Line) : Patch [] ls ls
  | hunk (gap : List Line) {h : Shown} {hs : List Shown} {old new : List Line} (rest : Patch hs old new) :
      Patch (h :: hs) (gap ++ (h.before ++ old)) (gap ++ (h.after ++ new))

/-- Hunks applied in order, each behind so many lines that stay. A hunk applies only where the lines are those that it shows. -/
def applied? : List (Nat × Shown) → List Line → Option (List Line)
  | [], ls => some ls
  | (gap, h) :: hs, ls =>
    if h.before <+: ls.drop gap then
      (applied? hs (ls.drop (gap + h.before.length))).map fun new => ls.take gap ++ (h.after ++ new)
    else none

/-- A patch can be applied. -/
theorem Patch.exists_applied {hs : List Shown} {old new : List Line} (h : Patch hs old new) :
    ∃ gaps : List Nat, gaps.length = hs.length ∧ applied? (gaps.zip hs) old = some new := by
  induction h with
  | done ls => exact ⟨[], rfl, rfl⟩
  | @hunk gap h hs old new rest ih =>
    obtain ⟨gaps, hlength, happlied⟩ := ih
    refine ⟨gap.length :: gaps, congrArg (· + 1) hlength, ?_⟩
    rw [List.zip_cons_cons, applied?, List.drop_left, if_pos (List.prefix_append _ _), List.take_left, ← List.append_assoc,
      ← List.length_append, List.drop_left, happlied]
    rfl

/-- Each line that a patch shows is a line of one of the texts. -/
theorem Patch.mem_or_mem {hs : List Shown} {old new : List Line} (h : Patch hs old new) {s : Shown} (hs' : s ∈ hs)
    {y : Mark × Line} (hy : y ∈ s) : y.2 ∈ old ∨ y.2 ∈ new := by
  induction h with
  | done ls => cases hs'
  | @hunk gap h hs old new rest ih =>
    rcases List.mem_cons.1 hs' with rfl | hs'
    · obtain ⟨m, l⟩ := y
      by_cases hm : m = .inserted
      · have hl : l ∈ s.after := List.mem_map.2 ⟨(m, l), List.mem_filter.2 ⟨hy, by rw [hm]; rfl⟩, rfl⟩
        exact .inr (List.mem_append_right _ (List.mem_append_left _ hl))
      · have hl : l ∈ s.before := List.mem_map.2 ⟨(m, l), List.mem_filter.2 ⟨hy, by simpa using hm⟩, rfl⟩
        exact .inl (List.mem_append_right _ (List.mem_append_left _ hl))
    · exact (ih hs').imp (fun h => List.mem_append_right _ (List.mem_append_right _ h))
        fun h => List.mem_append_right _ (List.mem_append_right _ h)

/-! ## The lines of changes -/

section Changes

variable (cs cs' : List Change) (ls : List Line)

/-- The lines that changes start from. -/
def linesBefore : List Line := cs.flatMap Change.before

/-- The lines that changes end with. -/
def linesAfter : List Line := cs.flatMap Change.after

@[simp] theorem linesBefore_nil : linesBefore [] = [] := rfl

@[simp] theorem linesAfter_nil : linesAfter [] = [] := rfl

@[simp] theorem linesBefore_cons (c : Change) : linesBefore (c :: cs) = c.before ++ linesBefore cs := rfl

@[simp] theorem linesAfter_cons (c : Change) : linesAfter (c :: cs) = c.after ++ linesAfter cs := rfl

@[simp] theorem linesBefore_append : linesBefore (cs ++ cs') = linesBefore cs ++ linesBefore cs' := List.flatMap_append

@[simp] theorem linesAfter_append : linesAfter (cs ++ cs') = linesAfter cs ++ linesAfter cs' := List.flatMap_append

/-- A change shows the lines that it starts from. -/
theorem Change.before_marked (c : Change) : Shown.before c.marked = c.before := by
  cases c <;> simp [Shown.before, Change.marked, Change.before, List.filter_map, Function.comp_def, List.filter_true, List.filter_false]

/-- A change shows the lines that it ends with. -/
theorem Change.after_marked (c : Change) : Shown.after c.marked = c.after := by
  cases c <;> simp [Shown.after, Change.marked, Change.after, List.filter_map, Function.comp_def, List.filter_true, List.filter_false]

/-- A hunk shows the lines that its changes start from. -/
theorem Hunk.before_marked (h : Hunk) : Shown.before h.marked = linesBefore h := by
  induction h with
  | nil => rfl
  | cons c h ih =>
    rw [linesBefore_cons, ← ih, ← c.before_marked, marked, List.flatMap_cons, Shown.before, List.filter_append, List.map_append]
    rfl

/-- A hunk shows the lines that its changes end with. -/
theorem Hunk.after_marked (h : Hunk) : Shown.after h.marked = linesAfter h := by
  induction h with
  | nil => rfl
  | cons c h ih =>
    rw [linesAfter_cons, ← ih, ← c.after_marked, marked, List.flatMap_cons, Shown.after, List.filter_append, List.map_append]
    rfl

/-- Deleted lines are lines of the old text. -/
theorem lines_addDeleted : linesBefore (addDeleted ls cs) = ls ++ linesBefore cs ∧ linesAfter (addDeleted ls cs) = linesAfter cs := by
  unfold addDeleted
  split <;> simp [Change.before, Change.after]

/-- Inserted lines are lines of the new text. -/
theorem lines_addInserted :
    linesBefore (addInserted ls cs) = linesBefore cs ∧ linesAfter (addInserted ls cs) = ls ++ linesAfter cs := by
  unfold addInserted
  split <;> simp [Change.before, Change.after]

/-- Kept lines are lines of both texts. -/
theorem lines_addKept : linesBefore (addKept ls cs) = ls ++ linesBefore cs ∧ linesAfter (addKept ls cs) = ls ++ linesAfter cs := by
  unfold addKept
  split <;> simp [Change.before, Change.after]

/-- The changes of a script lead between the same lists as the script. -/
theorem lines_changesOf (s : Script) : linesBefore (changesOf s) = s.before ∧ linesAfter (changesOf s) = s.after := by
  induction s with
  | nil => exact ⟨rfl, rfl⟩
  | cons e s ih =>
    rw [Script.before_cons, Script.after_cons, ← ih.1, ← ih.2]
    cases e with
    | keep k => exact lines_addKept _ k
    | delete d => exact lines_addDeleted _ d
    | insert i => exact lines_addInserted _ i

/-- What is cut off before the first hunk is kept. -/
theorem exists_trimStart : ∃ gap, linesBefore cs = gap ++ linesBefore (trimStart cs) ∧
    linesAfter cs = gap ++ linesAfter (trimStart cs) := by
  unfold trimStart
  split
  · next k cs => exact ⟨k.take (k.length - context), by simp [Change.before, ← List.append_assoc],
      by simp [Change.after, ← List.append_assoc]⟩
  · exact ⟨[], rfl, rfl⟩

/-- What is cut off behind the last hunk is kept. -/
theorem exists_trimEnd : ∃ gap, linesBefore cs = linesBefore (trimEnd cs) ++ gap ∧ linesAfter cs = linesAfter (trimEnd cs) ++ gap := by
  fun_induction trimEnd cs with
  | case1 => exact ⟨[], rfl, rfl⟩
  | case2 k => exact ⟨k.drop context, by simp [Change.before], by simp [Change.after]⟩
  | case3 c cs _ ih =>
    obtain ⟨gap, hbefore, hafter⟩ := ih
    exact ⟨gap, by simp [hbefore], by simp [hafter]⟩

end Changes

/-! ## Hunks -/

/-- Changes that keep every line lead nowhere else. -/
theorem linesBefore_eq_of_keep {cs : List Change} (h : ∀ c ∈ cs, c.isKeep = true) : linesBefore cs = linesAfter cs := by
  induction cs with
  | nil => rfl
  | cons c cs ih =>
    rw [List.forall_mem_cons] at h
    rw [linesBefore_cons, linesAfter_cons, ih h.2]
    cases c with
    | keep k => rfl
    | replace d i => cases h.1

/-- The hunks of changes are a patch, whatever lies before and behind them, and the hunk that has been begun is the first of it. -/
theorem patch_hunksFrom (begun : Hunk) (cs : List Change) (gap rest : List Line) : Patch ((hunksFrom begun cs).map Hunk.marked)
    (gap ++ (linesBefore begun ++ (linesBefore cs ++ rest))) (gap ++ (linesAfter begun ++ (linesAfter cs ++ rest))) := by
  fun_induction hunksFrom begun cs generalizing gap with
  | case1 begun hkept =>
    rw [Bool.and_eq_true, List.all_eq_true] at hkept
    rw [linesBefore_eq_of_keep hkept.2]
    exact .done _
  | case2 begun hchanged =>
    rw [← begun.before_marked, ← begun.after_marked]
    exact .hunk gap (.done rest)
  | case3 begun k cs hlong ih =>
    have hk : k.take context ++ ((k.drop context).take (k.length - 2 * context) ++ k.drop (k.length - context)) = k := by
      have hlast : k.drop (k.length - context) = (k.drop context).drop (k.length - 2 * context) := by
        rw [List.drop_drop]
        congr 1
        omega
      rw [hlast, List.take_append_drop, List.take_append_drop]
    have hpatch := Patch.hunk (h := Hunk.marked (begun ++ [.keep (k.take context)])) gap (ih ((k.drop context).take (k.length - 2 * context)))
    rw [Hunk.before_marked, Hunk.after_marked] at hpatch
    have hjoin (ls ls' : List Line) : ls ++ (k.take context ++ ((k.drop context).take (k.length - 2 * context) ++
        (k.drop (k.length - context) ++ ls'))) = ls ++ (k ++ ls') := by
      rw [← List.append_assoc (k.take context), ← List.append_assoc (k.take context ++ _), List.append_assoc (k.take context), hk]
    simpa [Change.before, Change.after, hjoin] using hpatch
  | case4 begun k cs hshort ih => simpa using ih gap
  | case5 begun cs c _ ih => simpa using ih gap

/-- The hunks between two texts are a patch. -/
theorem patch_hunks (old new : Text) : Patch ((hunks old new).map Hunk.marked) (lines old) (lines new) := by
  let s := shortest (lines old) (lines new)
  have hdivision : Division (lines old) (lines new) s := division_shortest _ _
  have hchanges := lines_changesOf (settled s)
  rw [(sameEnds_settled s).before, (sameEnds_settled s).after, hdivision.before_eq, hdivision.after_eq] at hchanges
  obtain ⟨first, hfirst⟩ := exists_trimStart (changesOf (settled s))
  obtain ⟨last, hlast⟩ := exists_trimEnd (trimStart (changesOf (settled s)))
  rw [hlast.1, hlast.2] at hfirst
  rw [← hchanges.1, ← hchanges.2, hfirst.1, hfirst.2]
  exact patch_hunksFrom [] _ first last

/-! ## Nothing to show -/

/-- Hunks that show the same lines of both texts lead nowhere else. -/
theorem Patch.eq_of_forall_eq {hs : List Shown} {old new : List Line} (h : Patch hs old new)
    (heq : ∀ h ∈ hs, h.before = h.after) : old = new := by
  induction h with
  | done => rfl
  | hunk gap rest ih =>
    rw [List.forall_mem_cons] at heq
    rw [heq.1, ih heq.2]

/-- A list starts like itself. -/
theorem commonStart_self (ls : List Line) : commonStart ls ls = ls.length := by
  induction ls with
  | nil => rfl
  | cons l ls ih => rw [commonStart, if_pos rfl, ih, List.length_cons]

/-- Between a list and itself every line is kept. -/
theorem shortest_self (ls : List Line) : shortest ls ls = some? .keep ls := by
  rw [shortest, cutAndJoin]
  simp [commonStart_self, some?]

/-- Kept lines alone are no hunk. -/
theorem hunksOf_keep (k : List Line) : hunksOf [.keep k] = [] := by
  have hshort : ¬2 * context < ((k.drop (k.length - context)).take context).length := by
    rw [List.length_take, Nat.not_lt]
    exact Nat.le_trans (Nat.min_le_left _ _) (Nat.le_mul_of_pos_left _ (by decide))
  rw [hunksOf, trimStart, trimEnd, hunksFrom, if_neg hshort]
  rfl

/-- Lines that are all kept have nothing to settle and are one change. -/
theorem changesOf_settled_keep (k : List Line) : changesOf (settled [.keep k]) = [.keep k] := by
  simp [settled, settleAll, settleFrom, Edit.isDelete, Edit.isInsert, changesOf, addKept]

/-- There are no hunks between a text and itself. -/
theorem hunks_self (t : Text) : hunks t t = [] := by
  rw [hunks, shortest_self]
  cases lines t with
  | nil => simp [some?, settled, settleAll, settleFrom, changesOf, hunksOf, trimStart, trimEnd, hunksFrom]
  | cons l ls =>
    rw [some?, if_neg (by simp), changesOf_settled_keep, hunksOf_keep]

/-- A hunk all of whose lines are kept shows the same lines of both texts. -/
theorem Shown.before_eq_after {h : Shown} (hkept : ∀ l ∈ h, l.1 = .kept) : h.before = h.after := by
  rw [before, after, List.filter_eq_self.2, List.filter_eq_self.2]
  · intro l hl
    simp [hkept l hl]
  · intro l hl
    simp [hkept l hl]

/-- Some line of a hunk is not kept exactly if the texts differ. -/
theorem any_changed_iff {old new : Text} :
    ((hunks old new).any fun h => h.marked.any fun (m, _) => m != .kept) = true ↔ old ≠ new := by
  constructor
  · rintro hany rfl
    rw [hunks_self] at hany
    cases hany
  · intro hne
    by_contra hall
    have hkept : ∀ h ∈ (hunks old new).map Hunk.marked, Shown.before h = Shown.after h := by
      refine List.forall_mem_map.2 fun h hh => Shown.before_eq_after fun l hl => ?_
      by_contra hmark
      exact hall (List.any_eq_true.2 ⟨h, hh, List.any_eq_true.2 ⟨l, hl, by simpa using hmark⟩⟩)
    have hlines := (patch_hunks old new).eq_of_forall_eq hkept
    exact hne (by rw [← flatten_lines old, hlines, flatten_lines])

/-- The diff of two texts shows their hunks. -/
theorem shown_render {old new out : Text} (h : render? old new = some out) : shown out = (hunks old new).map Hunk.marked := by
  rw [render?] at h
  split at h
  · next hany =>
    rw [← Option.some.inj h]
    refine shown_flatten_intersperse (fun hnil => by rw [hnil] at hany; cases hany) fun h hh y hy => ?_
    rcases (patch_hunks old new).mem_or_mem (List.mem_map_of_mem hh) hy with hold | hnew
    · exact isLine_of_mem_lines old _ hold
    · exact isLine_of_mem_lines new _ hnew
  · cases h

/-- The diff of two texts is a patch that leads from the one to the other. It shows nothing exactly if they are equal. Otherwise it
shows hunks in order, and these can be read off its text; each shows lines of the old text that stand together, and the lines of the
new text that stand in their place, while what lies before, between and behind the hunks is the same in both texts. So applying the
hunks to the lines of the old text gives the new text. -/
theorem render_patches (old new : Text) :
    (render? old new = none ↔ old = new) ∧
      ∀ out, render? old new = some out → Patch (shown out) (lines old) (lines new) ∧
        ∃ gaps : List Nat, gaps.length = (shown out).length ∧
          (applied? (gaps.zip (shown out)) (lines old)).map List.flatten = some new := by
  refine ⟨?_, fun out h => ?_⟩
  · rw [render?, ite_eq_right_iff]
    simp only [reduceCtorEq, imp_false, any_changed_iff, not_not]
  · have hpatch : Patch (shown out) (lines old) (lines new) := shown_render h ▸ patch_hunks old new
    obtain ⟨gaps, hlength, happlied⟩ := hpatch.exists_applied
    exact ⟨hpatch, gaps, hlength, by rw [happlied, Option.map_some, flatten_lines]⟩

end Pseudonym.LineDiff
