import Pseudonym.LineDiff.Settled
import Pseudonym.Proofs.Divisions

/-!
# Settling moves the changes, not the lists

A step that moves through a script may absorb others, pass them, and hand the lines that it shares with its far end over to its near
one, but the script still leads from the same list to the same other one (`sameEnds_moveUp`, `sameEnds_moveDown`). So does a script
all of whose steps are settled (`sameEnds_settled`).
-/

namespace Pseudonym.LineDiff

/-- The scripts lead between the same two lists. -/
structure SameEnds (s t : Script) : Prop where
  before : s.before = t.before
  after : s.after = t.after

theorem SameEnds.refl (s : Script) : SameEnds s s := ⟨rfl, rfl⟩

/-- Scripts that lead between the same lists do so through a third. -/
theorem SameEnds.trans {s t u : Script} (h : SameEnds s t) (h' : SameEnds t u) : SameEnds s u :=
  ⟨h.before.trans h'.before, h.after.trans h'.after⟩

/-- The script with the step in its place. -/
def Focus.script (f : Focus) : Script := f.left.reverse ++ f.here :: f.right

@[simp] theorem Script.before_cons (e : Edit) (s : Script) : Script.before (e :: s) = e.before ++ s.before := rfl

@[simp] theorem Script.after_cons (e : Edit) (s : Script) : Script.after (e :: s) = e.after ++ s.after := rfl

@[simp] theorem Script.before_nil : Script.before [] = [] := rfl

@[simp] theorem Script.after_nil : Script.after [] = [] := rfl

section Keep

variable (k : List Line) (s : Script)

theorem sameEnds_keepIfAny : SameEnds (keepIfAny k s) (.keep k :: s) := by
  cases k with
  | nil => exact ⟨rfl, rfl⟩
  | cons l k => exact .refl _

theorem sameEnds_keepIfAny_reverse : SameEnds (keepIfAny k s).reverse (s.reverse ++ [.keep k]) := by
  cases k with
  | nil => constructor <;> simp [keepIfAny, Edit.before, Edit.after]
  | cons l k => constructor <;> simp [keepIfAny]

/-- Kept lines may be joined with those that follow. -/
theorem sameEnds_keepBefore : SameEnds (keepBefore k s) (.keep k :: s) := by
  unfold keepBefore
  split
  · constructor <;> simp [Edit.before, Edit.after]
  · exact .refl _

theorem sameEnds_keepBehind_reverse : SameEnds (keepBehind k s).reverse (s.reverse ++ [.keep k]) := by
  unfold keepBehind
  split
  · constructor <;> simp [Edit.before, Edit.after]
  · constructor <;> simp

end Keep

/-- A step that moves up leaves the lists as they are. -/
theorem sameEnds_moveUp (left : Script) (here : Edit) (right : Script) :
    SameEnds (moveUp left here right).script (left.reverse ++ here :: right) := by
  fun_induction moveUp left here right with
  | case1 => exact .refl _
  | case2 right left i b ih => exact ih.trans ⟨by simp [Edit.before], by simp [Edit.after]⟩
  | case3 right left d b ih => exact ih.trans ⟨by simp [Edit.before], by simp [Edit.after]⟩
  | case4 right left i d ih => exact ih.trans ⟨by simp [Edit.before], by simp [Edit.after]⟩
  | case5 right left d i ih => exact ih.trans ⟨by simp [Edit.before], by simp [Edit.after]⟩
  | case6 right left i k n hn hk ih =>
    obtain rfl := List.isEmpty_iff.1 hk
    exact ih.trans ⟨by simp [Edit.before], by simp [Edit.after]⟩
  | case7 => exact .refl _
  | case8 right left i k n hn shared ih =>
    have hk : k.take (k.length - n) ++ shared = k := by
      rw [show shared = k.drop (k.length - n) from (drop_commonEnd k i).symm, List.take_append_drop]
    have hi : i.take (i.length - n) ++ shared = i := List.take_append_drop _ _
    refine ih.trans ⟨?_, ?_⟩
    · calc
        _ = Script.before left.reverse ++ (k.take (k.length - n) ++ shared) ++ Script.before right := by
          simp [(sameEnds_keepIfAny_reverse _ _).before, (sameEnds_keepBefore _ _).before, Edit.before]
        _ = _ := by simp [hk, Edit.before]
    · calc
        _ = Script.after left.reverse ++ (k.take (k.length - n) ++ shared) ++ (i.take (i.length - n) ++ shared) ++ Script.after right := by
          simp [(sameEnds_keepIfAny_reverse _ _).after, (sameEnds_keepBefore _ _).after, Edit.after]
        _ = _ := by simp [hk, hi, Edit.after]
  | case9 right left d k hk ih =>
    obtain rfl := List.isEmpty_iff.1 hk
    exact ih.trans ⟨by simp [Edit.before], by simp [Edit.after]⟩
  | case10 => exact .refl _
  | case11 => exact .refl _

/-- A step that moves down leaves the lists as they are. -/
theorem sameEnds_moveDown (left : Script) (here : Edit) (right : Script) :
    SameEnds (moveDown left here right).script (left.reverse ++ here :: right) := by
  fun_induction moveDown left here right with
  | case1 => exact .refl _
  | case2 left right i b ih => exact ih.trans ⟨by simp [Edit.before], by simp [Edit.after]⟩
  | case3 left right d b ih => exact ih.trans ⟨by simp [Edit.before], by simp [Edit.after]⟩
  | case4 left right i d ih => exact ih.trans ⟨by simp [Edit.before], by simp [Edit.after]⟩
  | case5 left right d i ih => exact ih.trans ⟨by simp [Edit.before], by simp [Edit.after]⟩
  | case6 left right i k n hn hk ih =>
    obtain rfl := List.isEmpty_iff.1 hk
    exact ih.trans ⟨by simp [Edit.before], by simp [Edit.after]⟩
  | case7 => exact .refl _
  | case8 left right i k n hn shared ih =>
    have hk : shared ++ k.drop n = k := by
      rw [show shared = k.take n from (take_commonStart k i).symm, List.take_append_drop]
    have hi : shared ++ i.drop n = i := List.take_append_drop _ _
    refine ih.trans ⟨?_, ?_⟩
    · calc
        _ = Script.before left.reverse ++ (shared ++ k.drop n) ++ Script.before right := by
          simp [(sameEnds_keepBehind_reverse _ _).before, (sameEnds_keepIfAny _ _).before, Edit.before]
        _ = _ := by simp [hk, Edit.before]
    · calc
        _ = Script.after left.reverse ++ (shared ++ i.drop n) ++ (shared ++ k.drop n) ++ Script.after right := by
          simp [(sameEnds_keepBehind_reverse _ _).after, (sameEnds_keepIfAny _ _).after, Edit.after]
        _ = _ := by simp [hk, hi, Edit.after]
  | case9 left right d k hk ih =>
    obtain rfl := List.isEmpty_iff.1 hk
    exact ih.trans ⟨by simp [Edit.before], by simp [Edit.after]⟩
  | case10 => exact .refl _
  | case11 => exact .refl _

/-- A settled step leaves the lists as they are. -/
theorem sameEnds_settle (left : Script) (here : Edit) (right : Script) :
    SameEnds (settle left here right).script (left.reverse ++ here :: right) :=
  (sameEnds_moveDown _ _ _).trans (sameEnds_moveUp left here right)

/-- To settle the steps of a script leads between the same lists. -/
theorem sameEnds_settleFrom (wanted : Edit → Bool) (left right : Script) :
    SameEnds (settleFrom wanted left right) (left.reverse ++ right) := by
  fun_induction settleFrom wanted left right with
  | case1 left => rw [List.append_nil]; exact .refl _
  | case2 left e right hwanted ih =>
    rw [List.reverse_cons, List.append_assoc, List.singleton_append] at ih
    exact ih.trans (sameEnds_settle left e right)
  | case3 left e right hwanted ih =>
    rwa [List.reverse_cons, List.append_assoc, List.singleton_append] at ih

/-- A settled script leads between the same lists. -/
theorem sameEnds_settled (s : Script) : SameEnds (settled s) s :=
  (sameEnds_settleFrom Edit.isInsert [] _).trans (sameEnds_settleFrom Edit.isDelete [] s)

end Pseudonym.LineDiff
