import Pseudonym.LineDiff.Script

/-!
# Settling a script

Deletions and insertions are moved to where they read best. A step moves up as long as the step before it allows, then down
likewise: it absorbs a neighbour of its own kind and passes one of the other kind; an insertion slides along kept lines that
it shares with its far end; a step that keeps nothing is dropped. Each deletion is settled, then each insertion, from left to
right.

A step may come down in front of steps that had been settled already, but only if it has absorbed one of its kind on the way up;
otherwise it comes down at least as far as it was (`settling_lt`). So there is an end to it.
-/

namespace Pseudonym.LineDiff

/-- Kept lines put before a script, joined with those it begins with. -/
def keepBefore (ls : List Line) : Script → Script
  | .keep ls' :: s => .keep (ls ++ ls') :: s
  | s => .keep ls :: s

/-- Kept lines put behind a script that is given latest step first, joined with those it ends with. -/
def keepBehind (ls : List Line) : Script → Script
  | .keep ls' :: s => .keep (ls' ++ ls) :: s
  | s => .keep ls :: s

/-- A step on its way through a script: the steps before it, latest first, the step, and the steps behind it. -/
structure Focus where
  left : Script
  here : Edit
  right : Script

/-- The room that steps take: their lines, and one for each. -/
def room : Script → Nat
  | [] => 0
  | e :: s => e.lines.length + 1 + room s

/-- Kept lines as a step, unless there are none. -/
def keepIfAny (ls : List Line) (s : Script) : Script := if ls.isEmpty then s else .keep ls :: s

@[simp] theorem room_cons (e : Edit) (s : Script) : room (e :: s) = e.lines.length + 1 + room s := rfl

/-- Kept lines that have lost one at least take less room. -/
theorem room_keepIfAny_lt {ls k : List Line} (s : Script) (h : ls.length < k.length) :
    room (keepIfAny ls s) < room (.keep k :: s) := by
  unfold keepIfAny
  split
  · simp only [room_cons]
    omega
  · simp only [room_cons, Edit.lines]
    omega

/-- A step moved up as far as it goes. -/
def moveUp (left : Script) (here : Edit) (right : Script) : Focus :=
  match left with
  | [] => ⟨[], here, right⟩
  | before :: left =>
    match here, before with
    | .insert i, .insert b => moveUp left (.insert (b ++ i)) right
    | .delete d, .delete b => moveUp left (.delete (b ++ d)) right
    | .insert _, .delete _ => moveUp left here (before :: right)
    | .delete _, .insert _ => moveUp left here (before :: right)
    | .insert i, .keep k =>
      let n := commonEnd k i
      if n = 0 then if k.isEmpty then moveUp left here right else ⟨before :: left, here, right⟩
      else
        let shared := i.drop (i.length - n)
        moveUp (keepIfAny (k.take (k.length - n)) left) (.insert (shared ++ i.take (i.length - n))) (keepBefore shared right)
    | .delete _, .keep k => if k.isEmpty then moveUp left here right else ⟨before :: left, here, right⟩
    | .keep _, _ => ⟨before :: left, here, right⟩
termination_by room left
decreasing_by
  all_goals try (simp only [room_cons]; omega)
  have := commonEnd_le k i
  exact room_keepIfAny_lt _ (by simp only [List.length_take]; omega)

/-- A step moved down as far as it goes. -/
def moveDown (left : Script) (here : Edit) (right : Script) : Focus :=
  match right with
  | [] => ⟨left, here, []⟩
  | behind :: right =>
    match here, behind with
    | .insert i, .insert b => moveDown left (.insert (i ++ b)) right
    | .delete d, .delete b => moveDown left (.delete (d ++ b)) right
    | .insert _, .delete _ => moveDown (behind :: left) here right
    | .delete _, .insert _ => moveDown (behind :: left) here right
    | .insert i, .keep k =>
      let n := commonStart k i
      if n = 0 then if k.isEmpty then moveDown left here right else ⟨left, here, behind :: right⟩
      else
        let shared := i.take n
        moveDown (keepBehind shared left) (.insert (i.drop n ++ shared)) (keepIfAny (k.drop n) right)
    | .delete _, .keep k => if k.isEmpty then moveDown left here right else ⟨left, here, behind :: right⟩
    | .keep _, _ => ⟨left, here, behind :: right⟩
termination_by room right
decreasing_by
  all_goals try (simp only [room_cons]; omega)
  have := commonStart_le k i
  exact room_keepIfAny_lt _ (by simp only [List.length_drop]; omega)

/-- A step moved up, then down. -/
def settle (left : Script) (here : Edit) (right : Script) : Focus :=
  let up := moveUp left here right
  moveDown up.left up.here up.right

/-- How many steps of a script delete or insert. -/
def changing : Script → Nat
  | [] => 0
  | .keep _ :: s => changing s
  | .delete _ :: s => changing s + 1
  | .insert _ :: s => changing s + 1

/-- It makes no difference on which side of the cut a change is counted. -/
theorem changing_cons_add (e : Edit) (left right : Script) :
    changing (e :: left) + changing right = changing left + changing (e :: right) := by
  cases e <;> simp only [changing] <;> omega

/-- The room behind a step that has moved down as far as it goes. Line by line, an insertion passes a kept line that is its own
first line and becomes its last one. -/
def roomBelow : Edit → Script → Nat
  | _, [] => 0
  | .keep _, e :: s => room (e :: s)
  | .insert i, .insert b :: s => roomBelow (.insert (i ++ b)) s
  | .insert i, .delete _ :: s => roomBelow (.insert i) s
  | .insert i, .keep [] :: s => roomBelow (.insert i) s
  | .insert [], .keep (l :: k) :: s => room (.keep (l :: k) :: s)
  | .insert (l' :: i), .keep (l :: k) :: s =>
    if l = l' then roomBelow (.insert (i ++ [l])) (.keep k :: s) else room (.keep (l :: k) :: s)
  | .delete d, .insert _ :: s => roomBelow (.delete d) s
  | .delete d, .delete b :: s => roomBelow (.delete (d ++ b)) s
  | .delete d, .keep [] :: s => roomBelow (.delete d) s
  | .delete _, .keep (l :: k) :: s => room (.keep (l :: k) :: s)
termination_by _ s => room s
decreasing_by all_goals simp only [room_cons, Edit.lines, List.length_cons, List.length_nil]; omega

/-- A step that moves down has no more room behind it than before. -/
theorem roomBelow_le (here : Edit) (s : Script) : roomBelow here s ≤ room s := by
  fun_induction roomBelow here s <;> grind [room, Edit.lines]

/-- A step that keeps no lines may be dropped. -/
theorem roomBelow_keepIfAny (i k : List Line) (s : Script) :
    roomBelow (.insert i) (keepIfAny k s) = roomBelow (.insert i) (.keep k :: s) := by
  cases k with
  | nil => rw [roomBelow]; rfl
  | cons l k => rfl

/-- An insertion passes the kept lines that it begins with. -/
theorem roomBelow_append (ls i k : List Line) (s : Script) :
    roomBelow (.insert (ls ++ i)) (.keep (ls ++ k) :: s) = roomBelow (.insert (i ++ ls)) (.keep k :: s) := by
  induction ls generalizing i with
  | nil => simp
  | cons l ls ih =>
    rw [List.cons_append, List.cons_append, roomBelow, if_pos rfl, List.append_assoc, ih]
    simp

/-- Kept lines that an insertion begins with are passed, and become its last ones. -/
theorem roomBelow_keepBefore (ls i : List Line) (s : Script) :
    roomBelow (.insert (ls ++ i)) (keepBefore ls s) = roomBelow (.insert (i ++ ls)) s := by
  unfold keepBefore
  split
  · exact roomBelow_append ..
  · have h := roomBelow_append ls i [] s
    rwa [List.append_nil, roomBelow] at h

/-- An insertion stops at kept lines if it begins with another one. -/
theorem roomBelow_of_commonStart_eq_zero {i k : List Line} (hk : k ≠ []) (h : commonStart k i = 0) (s : Script) :
    roomBelow (.insert i) (.keep k :: s) = room (.keep k :: s) := by
  cases k with
  | nil => exact absurd rfl hk
  | cons l k =>
    cases i with
    | nil => rw [roomBelow]
    | cons l' i =>
      have hne : l ≠ l' := by
        rintro rfl
        simp [commonStart] at h
      rw [roomBelow, if_neg hne]

/-- Kept lines are no change. -/
@[simp] theorem changing_keepIfAny (k : List Line) (s : Script) : changing (keepIfAny k s) = changing s := by
  unfold keepIfAny
  split <;> rfl

/-- To keep more lines before a script changes nothing. -/
@[simp] theorem changing_keepBefore (k : List Line) (s : Script) : changing (keepBefore k s) = changing s := by
  unfold keepBefore
  split <;> rfl

/-- To keep more lines behind a script changes nothing. -/
@[simp] theorem changing_keepBehind (k : List Line) (s : Script) : changing (keepBehind k s) = changing s := by
  unfold keepBehind
  split <;> rfl

/-- A step that moves down meets no new change; it may be joined with one. -/
theorem changing_moveDown (left : Script) (here : Edit) (right : Script) :
    changing ((moveDown left here right).here :: (moveDown left here right).left) + changing (moveDown left here right).right ≤
      changing (here :: left) + changing right := by
  fun_induction moveDown left here right
  all_goals simp only [changing, changing_keepIfAny, changing_keepBehind] at *
  all_goals omega

/-- The room behind a step that has moved down is the one foreseen. -/
theorem room_moveDown (left : Script) (here : Edit) (right : Script) :
    room (moveDown left here right).right = roomBelow here right := by
  fun_induction moveDown left here right with
  | case1 => rw [roomBelow]; rfl
  | case2 left right i b ih => rw [ih, roomBelow]
  | case3 left right d b ih => rw [ih, roomBelow]
  | case4 left right i d ih => rw [ih, roomBelow]
  | case5 left right d i ih => rw [ih, roomBelow]
  | case6 left right i k n hn hk ih =>
    obtain rfl := List.isEmpty_iff.1 hk
    rw [ih, roomBelow]
  | case7 left right i k n hn hk => exact (roomBelow_of_commonStart_eq_zero (by simpa using hk) hn _).symm
  | case8 left right i k n hn shared ih =>
    have hshared : shared = k.take n := (take_commonStart k i).symm
    rw [ih, roomBelow_keepIfAny, ← roomBelow_append, List.take_append_drop, hshared, List.take_append_drop]
  | case9 left right d k hk ih =>
    obtain rfl := List.isEmpty_iff.1 hk
    rw [ih, roomBelow]
  | case10 left right d k hk =>
    cases k with
    | nil => exact absurd rfl hk
    | cons l k => rw [roomBelow]
  | case11 => rw [roomBelow]

/-- On its way up a step absorbs another one, or it can come down again as far as before. -/
theorem changing_moveUp (left : Script) (here : Edit) (right : Script) :
    changing ((moveUp left here right).here :: (moveUp left here right).left) + changing (moveUp left here right).right <
        changing (here :: left) + changing right ∨
      changing ((moveUp left here right).here :: (moveUp left here right).left) + changing (moveUp left here right).right =
          changing (here :: left) + changing right ∧
        roomBelow (moveUp left here right).here (moveUp left here right).right = roomBelow here right := by
  fun_induction moveUp left here right with
  | case1 => exact .inr ⟨rfl, rfl⟩
  | case2 right left i b ih => simp only [changing] at *; omega
  | case3 right left d b ih => simp only [changing] at *; omega
  | case4 right left i d ih =>
    rw [roomBelow] at ih
    simp only [changing] at *
    omega
  | case5 right left d i ih =>
    rw [roomBelow] at ih
    simp only [changing] at *
    omega
  | case6 right left i k n hn hk ih => exact ih
  | case7 right left i k n hn hk => exact .inr ⟨rfl, rfl⟩
  | case8 right left i k n hn shared ih =>
    rw [roomBelow_keepBefore, List.take_append_drop] at ih
    simpa only [changing, changing_keepIfAny, changing_keepBefore] using ih
  | case9 right left d k hk ih => exact ih
  | case10 right left d k hk => exact .inr ⟨rfl, rfl⟩
  | case11 => exact .inr ⟨rfl, rfl⟩

/-- Settling a step leaves fewer steps that change something, or less room behind the step. -/
theorem settling_lt (left : Script) (e : Edit) (right : Script) :
    Prod.Lex (· < ·) (· < ·)
      (changing ((settle left e right).here :: (settle left e right).left) + changing (settle left e right).right,
        room (settle left e right).right)
      (changing left + changing (e :: right), room (e :: right)) := by
  have hdown := changing_moveDown (moveUp left e right).left (moveUp left e right).here (moveUp left e right).right
  have hroom := room_moveDown (moveUp left e right).left (moveUp left e right).here (moveUp left e right).right
  have hbelow := roomBelow_le e right
  have hsplit := changing_cons_add e left right
  rw [Prod.lex_def]
  simp only [settle, room_cons]
  rcases changing_moveUp left e right with habsorbed | ⟨hsame, hback⟩
  · omega
  · omega

/-- Is the step a deletion? -/
def Edit.isDelete : Edit → Bool
  | .delete _ => true
  | _ => false

/-- Is the step an insertion? -/
def Edit.isInsert : Edit → Bool
  | .insert _ => true
  | _ => false

/-- The steps of a kind settled one after the other, those before the ones that are left to settle being given latest first. -/
def settleFrom (wanted : Edit → Bool) (left : Script) : Script → Script
  | [] => left.reverse
  | e :: right =>
    if wanted e then settleFrom wanted ((settle left e right).here :: (settle left e right).left) (settle left e right).right
    else settleFrom wanted (e :: left) right
termination_by right => (changing left + changing right, room right)
decreasing_by
  · exact settling_lt left e right
  · have hsame := changing_cons_add e left right
    have hless : room right < room (e :: right) := by simp only [room_cons]; omega
    rw [Prod.lex_def]
    omega

/-- The script with every step of a kind settled. -/
def settleAll (wanted : Edit → Bool) (s : Script) : Script := settleFrom wanted [] s

/-- The script with its deletions settled, then its insertions. -/
def settled (s : Script) : Script := settleAll Edit.isInsert (settleAll Edit.isDelete s)

end Pseudonym.LineDiff
