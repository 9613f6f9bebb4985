import Pseudonym.Proofs.Searches

/-!
# Every script is a division

Lists of lines are divided until one of two is used up: lines that they share at their ends are kept, and what is left is cut in two
(`Division`). That is all a search does for a script (`division_shortest`): the place at which it cuts always lies inside, so that
there is no list it gives up on. A division leads from the one list to the other, wherever it cuts.
-/

namespace Pseudonym.LineDiff

/-- The script takes two lists apart: it deletes or inserts what is left of one when the other is used up, keeps what both begin
and end with, and goes on with two halves. -/
inductive Division : List Line → List Line → Script → Prop
  | rest {old new : List Line} (h : old = [] ∨ new = []) : Division old new (some? .delete old ++ some? .insert new)
  | halves {a b a' b' : List Line} {s t : Script} (hs : Division a a' s) (ht : Division b b' t) :
      Division (a ++ b) (a' ++ b') (s ++ t)
  | trimmed (first last : List Line) {old new : List Line} {s : Script} (hs : Division old new s) :
      Division (first ++ old ++ last) (first ++ new ++ last) (some? .keep first ++ s ++ some? .keep last)

/-- Scripts one after the other start from both their lists. -/
@[simp] theorem Script.before_append (s t : Script) : Script.before (s ++ t) = s.before ++ t.before := List.flatMap_append

/-- Scripts one after the other end with both their lists. -/
@[simp] theorem Script.after_append (s t : Script) : Script.after (s ++ t) = s.after ++ t.after := List.flatMap_append

/-- A step that reads no line for none reads its lines, or is left out. -/
theorem before_some? {edit : List Line → Edit} (h : (edit []).before = []) (ls : List Line) :
    Script.before (some? edit ls) = (edit ls).before := by
  cases ls with
  | nil => exact h.symm
  | cons l ls => exact List.append_nil _

/-- A step that writes no line for none writes its lines, or is left out. -/
theorem after_some? {edit : List Line → Edit} (h : (edit []).after = []) (ls : List Line) :
    Script.after (some? edit ls) = (edit ls).after := by
  cases ls with
  | nil => exact h.symm
  | cons l ls => exact List.append_nil _

namespace Division

variable {old new : List Line} {s : Script}

/-- A division starts from the old lines. -/
theorem before_eq (h : Division old new s) : s.before = old := by
  induction h with
  | rest => rw [Script.before_append, before_some? rfl, before_some? rfl]; exact List.append_nil _
  | halves _ _ ihs iht => rw [Script.before_append, ihs, iht]
  | trimmed first last _ ih =>
    rw [Script.before_append, Script.before_append, before_some? rfl, before_some? rfl, ih]
    rfl

/-- A division ends with the new lines. -/
theorem after_eq (h : Division old new s) : s.after = new := by
  induction h with
  | rest => rw [Script.after_append, after_some? rfl, after_some? rfl]; rfl
  | halves _ _ ihs iht => rw [Script.after_append, ihs, iht]
  | trimmed first last _ ih =>
    rw [Script.after_append, Script.after_append, after_some? rfl, after_some? rfl, ih]
    rfl

end Division

/-! ## What two lists share at their ends -/

/-- Behind what they share at their starts two lists go on with different lines. -/
theorem head_ne_of_commonStart {as bs : List Line} (ha : as.drop (commonStart as bs) ≠ []) (hb : bs.drop (commonStart as bs) ≠ []) :
    (as.drop (commonStart as bs)).head? ≠ (bs.drop (commonStart as bs)).head? := by
  induction as generalizing bs with
  | nil => exact absurd List.drop_nil ha
  | cons a as ih =>
    cases bs with
    | nil => exact absurd List.drop_nil hb
    | cons b bs =>
      rw [commonStart] at ha hb ⊢
      split
      · next h =>
        rw [if_pos h] at ha hb
        exact ih ha hb
      · next h => simpa using h

/-- From there on the two lists are the same. -/
theorem drop_commonEnd (as bs : List Line) :
    as.drop (as.length - commonEnd as bs) = bs.drop (bs.length - commonEnd as bs) := by
  have h := take_commonStart as.reverse bs.reverse
  rwa [List.take_reverse, List.take_reverse, List.reverse_inj] at h

theorem getElem?_zero_toArray (ls : List Line) : ls.toArray[0]? = ls.head? := by
  rw [List.getElem?_toArray, List.head?_eq_getElem?]

theorem getElem?_last_toArray (ls : List Line) : ls.toArray[ls.toArray.size - 1]? = ls.reverse.head? := by
  rw [List.getElem?_toArray, List.size_toArray, List.head?_reverse, List.getLast?_eq_getElem?]

theorem head?_take_of_ne_nil {ls : List Line} {n : Nat} (h : ls.take n ≠ []) : (ls.take n).head? = ls.head? := by
  rw [List.head?_take, if_neg]
  rintro rfl
  exact h List.take_zero

/-- What is left of two lists between the ends that they share differs at both ends. -/
theorem endsDiffer {as bs : List Line} (hfirst : as ≠ [] → bs ≠ [] → as.head? ≠ bs.head?)
    (ha : as.take (as.length - commonEnd as bs) ≠ []) (hb : bs.take (bs.length - commonEnd as bs) ≠ []) :
    EndsDiffer (as.take (as.length - commonEnd as bs)).toArray (bs.take (bs.length - commonEnd as bs)).toArray where
  old_pos := List.length_pos_iff.2 ha
  new_pos := List.length_pos_iff.2 hb
  first := by
    rw [getElem?_zero_toArray, getElem?_zero_toArray, head?_take_of_ne_nil ha, head?_take_of_ne_nil hb]
    exact hfirst (List.ne_nil_of_take_ne_nil ha) (List.ne_nil_of_take_ne_nil hb)
  last := by
    rw [getElem?_last_toArray, getElem?_last_toArray, ← List.drop_reverse, ← List.drop_reverse]
    refine head_ne_of_commonStart ?_ ?_
    · rwa [List.drop_reverse, Ne, List.reverse_eq_nil_iff]
    · rwa [List.drop_reverse, Ne, List.reverse_eq_nil_iff]

/-- Whatever earlier searches have left in the frontiers, the script for two lists divides them. -/
theorem division_cutAndJoin {old new : List Line} {f : Frontiers} {s : Nat} (h : f.HasRoom s)
    (hs : old.length + new.length < s) :
    Division old new (cutAndJoin old new f).1 ∧ (cutAndJoin old new f).2.HasRoom s := by
  fun_induction cutAndJoin old new f with
  | case1 old new f start old' new' tail old'' new'' inner f' hinner ihfirst ihsecond =>
    have hold' : old'.length ≤ old.length := by simp [old']
    have hnew' : new'.length ≤ new.length := by simp [new']
    have hold'' : old''.length ≤ old'.length := by simp [old'']
    have hnew'' : new''.length ≤ new'.length := by simp [new'']
    have hdivision : Division old'' new'' inner ∧ f'.HasRoom s := by
      split at hinner
      · next hempty =>
        obtain ⟨rfl, rfl⟩ := Prod.mk.inj hinner
        exact ⟨.rest (by simpa using hempty), h⟩
      · next hempty =>
        simp only [Bool.or_eq_true, List.isEmpty_iff, not_or] at hempty
        have hends : EndsDiffer old''.toArray new''.toArray := endsDiffer head_ne_of_commonStart hempty.1 hempty.2
        obtain ⟨⟨x, y⟩, hplace, hin, hroom⟩ := exists_middle hends h (by simp; omega)
        obtain ⟨hx, hxle, hy, hyle, hpos, hlt⟩ := hin
        rcases hmiddle : middle old''.toArray new''.toArray f with ⟨_, g⟩
        rw [hmiddle] at hplace hroom hinner
        subst hplace
        simp only [List.size_toArray] at hxle hyle hlt
        dsimp only at hx hxle hy hyle hpos hlt hinner hroom
        have hcut : x.toNat ≤ old''.length ∧ y.toNat ≤ new''.length ∧ 0 < x.toNat + y.toNat ∧
            x.toNat + y.toNat < old''.length + new''.length := by omega
        rw [dif_pos hcut] at hinner
        have hfirst := ihfirst x y g hcut hroom (by simp only [List.length_take]; omega)
        have hsecond := ihsecond x y hcut _ hfirst.2 (by simp only [List.length_drop]; omega)
        obtain ⟨rfl, rfl⟩ := Prod.mk.inj hinner
        refine ⟨?_, hsecond.2⟩
        have hhalves := Division.halves hfirst.1 hsecond.1
        rwa [List.take_append_drop, List.take_append_drop] at hhalves
    have hold : old.take start ++ old'' ++ old'.drop (old'.length - tail) = old := by
      rw [List.append_assoc, List.take_append_drop, List.take_append_drop]
    have hnew : old.take start ++ new'' ++ old'.drop (old'.length - tail) = new := by
      rw [take_commonStart, drop_commonEnd, List.append_assoc, List.take_append_drop, List.take_append_drop]
    have htrimmed := Division.trimmed (old.take start) (old'.drop (old'.length - tail)) hdivision.1
    rw [hold, hnew] at htrimmed
    exact ⟨htrimmed, hdivision.2⟩

/-- The script for two lists divides them. -/
theorem division_shortest (old new : List Line) : Division old new (shortest old new) :=
  (division_cutAndJoin ⟨Frontier.hasRoom_new _, Frontier.hasRoom_new _⟩ (by omega)).1

end Pseudonym.LineDiff
