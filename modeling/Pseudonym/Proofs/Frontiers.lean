import Mathlib.Tactic.ByContra
import Pseudonym.LineDiff.Shortest

/-!
# The two searches meet within the lists

A search is on row `d` once it has made `d` edits on every diagonal that they can reach. What it has reached by then depends on row
`d - 1` alone (`Frontier.Row.next`), so that points which an earlier search has left in the frontier are never read. A search may
run past the end of a list, by one line for each edit at most, and then it has come to the end on a neighbouring diagonal as well.

The searches have met once they have read the old list between them on a diagonal. As long as they have not, either is short of both
ends there (`Frontier.Apart`). From that it follows that they do meet (`exists_middle`): the place where they meet is in neither list
outside, and it is neither the start nor the end of both.
-/

namespace Pseudonym.LineDiff

/-- The diagonals that `d` edits end on. -/
def OnRow (d : Nat) (k : Int) : Prop := k.natAbs ≤ d ∧ (d - k) % 2 = 0

/-- The diagonals of a row are listed. -/
theorem mem_diagonals {d : Nat} {k : Int} : k ∈ diagonals d ↔ OnRow d k := by
  simp only [diagonals, OnRow, List.mem_map, List.mem_range]
  constructor
  · rintro ⟨i, hi, rfl⟩
    omega
  · rintro ⟨hk, hrow⟩
    exact ⟨((d - k) / 2).toNat, by omega, by omega⟩

namespace Frontier

variable {f f' : Frontier} {s n m d e : Nat} {j k : Int}

/-! ## Reading what was written -/

/-- The frontier has a place for every diagonal up to a number on either side. -/
structure HasRoom (s : Nat) (f : Frontier) : Prop where
  offset : f.offset = s
  size : f.reached.size = 2 * s + 1

/-- A new frontier has room. -/
theorem hasRoom_new (s : Nat) : HasRoom s (new s) := ⟨rfl, by simp [new]⟩

/-- To write leaves the room as it is. -/
theorem HasRoom.set (h : f.HasRoom s) (k : Int) (x : Nat) : (f.set k x).HasRoom s :=
  ⟨h.offset, by simp [Frontier.set, h.size]⟩

/-- What is written is read. -/
theorem HasRoom.get_set_self (h : f.HasRoom s) (hk : k.natAbs ≤ s) (x : Nat) : (f.set k x).get k = x := by
  have hlt : (k + f.offset).toNat < f.reached.size := by
    rw [h.size, h.offset]
    omega
  simp [get, Frontier.set, Array.getD_eq_getD_getElem?, hlt]

/-- What is written to another diagonal is not read. -/
theorem HasRoom.get_set_of_ne (h : f.HasRoom s) (hk : k.natAbs ≤ s) (hj : j.natAbs ≤ s) (hne : j ≠ k) (x : Nat) :
    (f.set k x).get j = f.get j := by
  have hplace : (k + f.offset).toNat ≠ (j + f.offset).toNat := by
    rw [h.offset]
    omega
  simp [get, Frontier.set, Array.getD_eq_getD_getElem?, Array.getElem?_setIfInBounds_ne hplace]

/-! ## From one row to the next -/

/-- A diagonal is entered from the one above or from the one below it, where there was an edit less. -/
theorem enter_cases (f : Frontier) (h : OnRow (d + 1) k) :
    (OnRow d (k + 1) ∧ f.enter (d + 1 : Nat) k = f.get (k + 1)) ∨
      OnRow d (k - 1) ∧ f.enter (d + 1 : Nat) k = f.get (k - 1) + 1 := by
  unfold OnRow at *
  unfold enter
  split
  · next hdown => exact .inl ⟨by simp at hdown; omega, rfl⟩
  · next hacross => exact .inr ⟨by simp at hacross; omega, rfl⟩

/-- From above a diagonal is entered no earlier than was reached there. -/
theorem get_le_enter (f : Frontier) (h : OnRow d (k + 1)) : f.get (k + 1) ≤ f.enter (d + 1 : Nat) k := by
  unfold OnRow at h
  unfold enter
  split
  · exact Nat.le_refl _
  · next hacross => simp at hacross; omega

/-- From below a diagonal is entered behind what was reached there. -/
theorem get_lt_enter (f : Frontier) (h : OnRow d (k - 1)) : f.get (k - 1) < f.enter (d + 1 : Nat) k := by
  unfold OnRow at h
  unfold enter
  split
  · next hdown => simp at hdown; omega
  · exact Nat.lt_succ_self _

/-- A frontier that depends on its neighbours alone is the same when they are. -/
theorem enter_congr {d : Int} (habove : f'.get (k + 1) = f.get (k + 1)) (hbelow : f'.get (k - 1) = f.get (k - 1)) :
    f'.enter d k = f.enter d k := by
  rw [enter, enter, habove, hbelow]

/-- What a search has reached after `d` edits between lists of `n` and `m` lines: on each diagonal so many lines of the old list,
and of the new one so many less as the diagonal says. -/
structure Row (n m d : Nat) (f : Frontier) : Prop where
  start : d = 0 → f.get 0 = 0
  le_get : ∀ k, OnRow d k → k ≤ f.get k
  edits_le : ∀ k, OnRow d k → d ≤ 2 * f.get k - k
  old_le : ∀ k, OnRow d k → f.get k ≤ n + d
  new_le : ∀ k, OnRow d k → f.get k - k ≤ m + d
  below : ∀ k, OnRow d k → n < f.get k → OnRow d (k - 2) ∧ n ≤ f.get (k - 2)
  above : ∀ k, OnRow d k → m < f.get k - k → OnRow d (k + 2) ∧ m + (k + 2) ≤ f.get (k + 2)

/-- Where a step onto a diagonal leads behind the equal lines that follow it. -/
def exit (f : Frontier) (slide : Nat → Nat → Nat) (d k : Int) : Nat :=
  if 0 ≤ (f.enter d k : Int) - k then f.enter d k + slide (f.enter d k) ((f.enter d k : Int) - k).toNat else f.enter d k

/-- Equal lines go on within the lists only. -/
def Slides (n m : Nat) (slide : Nat → Nat → Nat) : Prop := ∀ x y, slide x y ≠ 0 → x + slide x y ≤ n ∧ y + slide x y ≤ m

variable {slide : Nat → Nat → Nat}

/-- A diagonal is left where it was entered, or behind equal lines within both lists. -/
theorem exit_cases (hs : Slides n m slide) (f : Frontier) (d k : Int) :
    f.exit slide d k = f.enter d k ∨
      f.enter d k ≤ f.exit slide d k ∧ f.exit slide d k ≤ n ∧ (f.exit slide d k : Int) - k ≤ m := by
  unfold exit
  split
  · by_cases h : slide (f.enter d k) ((f.enter d k : Int) - k).toNat = 0
    · exact .inl (by rw [h, Nat.add_zero])
    · have := hs _ _ h
      omega
  · exact .inl rfl

/-- A diagonal is not left before it was entered. -/
theorem enter_le_exit (hs : Slides n m slide) (f : Frontier) (d k : Int) : f.enter d k ≤ f.exit slide d k := by
  rcases exit_cases hs f d k with h | h
  · exact Nat.le_of_eq h.symm
  · exact h.1

/-- Where a diagonal is left depends on where it was entered only. -/
theorem exit_congr {d : Int} (h : f'.enter d k = f.enter d k) : f'.exit slide d k = f.exit slide d k := by
  rw [exit, exit, h]

namespace Row

/-- So many edits have read or written so many lines at least. -/
theorem enter_ge (h : Row n m d f) (hk : OnRow (d + 1) k) :
    k ≤ f.enter (d + 1 : Nat) k ∧ (d + 1 : Nat) ≤ 2 * (f.enter (d + 1 : Nat) k : Int) - k := by
  rcases enter_cases f hk with ⟨hrow, he⟩ | ⟨hrow, he⟩
  all_goals
    have := h.le_get _ hrow
    have := h.edits_le _ hrow
    omega

/-- A search that runs past the end of the old list has come to the end on the diagonal below. -/
theorem below_of_enter (h : Row n m d f) (hk : OnRow (d + 1) k) (hlt : n < f.enter (d + 1 : Nat) k) :
    OnRow d (k - 1) ∧ n ≤ f.get (k - 1) := by
  rcases enter_cases f hk with ⟨hrow, he⟩ | ⟨hrow, he⟩
  · have := h.below _ hrow (he ▸ hlt)
    rwa [show k + 1 - 2 = k - 1 by omega] at this
  · exact ⟨hrow, by omega⟩

/-- A search that runs past the end of the new list has come to the end on the diagonal above. -/
theorem above_of_enter (h : Row n m d f) (hk : OnRow (d + 1) k) (hlt : m < (f.enter (d + 1 : Nat) k : Int) - k) :
    OnRow d (k + 1) ∧ m + (k + 1) ≤ f.get (k + 1) := by
  rcases enter_cases f hk with ⟨hrow, he⟩ | ⟨hrow, he⟩
  · exact ⟨hrow, by omega⟩
  · have := h.above _ hrow (by omega)
    rwa [show k - 1 + 2 = k + 1 by omega] at this

/-- Every edit leads from row to row. -/
theorem next (h : Row n m d f) (hs : Slides n m slide)
    (hf : ∀ k, OnRow (d + 1) k → f'.get k = f.exit slide (d + 1 : Nat) k) : Row n m (d + 1) f' := by
  have hbound k (hk : OnRow (d + 1) k) :
      f.enter (d + 1 : Nat) k ≤ n + (d + 1) ∧ (f.enter (d + 1 : Nat) k : Int) - k ≤ m + (d + 1) := by
    rcases enter_cases f hk with ⟨hrow, he⟩ | ⟨hrow, he⟩
    all_goals
      have := h.old_le _ hrow
      have := h.new_le _ hrow
      omega
  have hexit k (hk : OnRow (d + 1) k) := hf k hk ▸ exit_cases hs f (d + 1 : Nat) k
  refine ⟨nofun, fun k hk => ?_, fun k hk => ?_, fun k hk => ?_, fun k hk => ?_, fun k hk hlt => ?_, fun k hk hlt => ?_⟩
  · have := h.enter_ge hk
    have := hexit k hk
    omega
  · have := h.enter_ge hk
    have := hexit k hk
    omega
  · have := hbound k hk
    have := hexit k hk
    omega
  · have := hbound k hk
    have := hexit k hk
    omega
  · obtain ⟨hrow, hn⟩ := h.below_of_enter hk (by have := hexit k hk; omega)
    have hk' : OnRow (d + 1) (k - 2) := by unfold OnRow at *; omega
    have hstep := get_le_enter f (k := k - 2) (by rwa [show k - 2 + 1 = k - 1 by omega])
    rw [show k - 2 + 1 = k - 1 by omega] at hstep
    have := hf _ hk' ▸ enter_le_exit hs f (d + 1 : Nat) (k - 2)
    exact ⟨hk', by omega⟩
  · obtain ⟨hrow, hm⟩ := h.above_of_enter hk (by have := hexit k hk; omega)
    have hk' : OnRow (d + 1) (k + 2) := by unfold OnRow at *; omega
    have hstep := get_lt_enter f (k := k + 2) (by rwa [show k + 2 - 1 = k + 1 by omega])
    rw [show k + 2 - 1 = k + 1 by omega] at hstep
    have := hf _ hk' ▸ enter_le_exit hs f (d + 1 : Nat) (k + 2)
    exact ⟨hk', by omega⟩

end Row

/-! ## Before the searches meet -/

/-- The diagonals on which a search with `d` edits may meet the other one. -/
def MayMeet (n m d : Nat) (k : Int) : Prop := (k - (n - m)).natAbs ≤ (d : Int) - ((n : Int) - m) % 2

instance (n m d : Nat) (k : Int) : Decidable (MayMeet n m d k) := inferInstanceAs (Decidable (_ ≤ _))

/-- Where a search may meet the other one it is short of both ends, with more lines left than the other has made edits. -/
structure Apart (n m d : Nat) (f : Frontier) : Prop where
  old_lt : ∀ k, OnRow d k → MayMeet n m d k → f.get k < n
  new_lt : ∀ k, OnRow d k → MayMeet n m d k → f.get k - k < m
  left_gt : ∀ k, OnRow d k → MayMeet n m d k → 2 * f.get k - k + (d - ((n : Int) - m) % 2) < n + m

namespace Apart

/-- The next step on a diagonal on which the searches may meet stays within the lists. -/
theorem enter_le (h : Apart n m d f) (hrow : Row n m d f) (hk : OnRow (d + 1) k) (hmeet : MayMeet n m (d + 1) k) :
    f.enter (d + 1 : Nat) k ≤ n ∧ (f.enter (d + 1 : Nat) k : Int) - k ≤ m := by
  have hparity := hk.2
  unfold MayMeet at hmeet
  constructor
  · by_contra hlt
    obtain ⟨hbelow, hn⟩ := hrow.below_of_enter hk (by omega)
    by_cases hin : MayMeet n m d (k - 1)
    · have := h.old_lt _ hbelow hin
      omega
    · have := hrow.new_le _ hbelow
      have := hbelow.2
      unfold MayMeet at hin
      omega
  · by_contra hlt
    obtain ⟨habove, hm⟩ := hrow.above_of_enter hk (by omega)
    by_cases hin : MayMeet n m d (k + 1)
    · have := h.new_lt _ habove hin
      omega
    · have := hrow.old_le _ habove
      have := habove.2
      unfold MayMeet at hin
      omega

/-- It does not come to the end of both at once. -/
theorem enter_lt (h : Apart n m d f) (hrow : Row n m d f) (hk : OnRow (d + 1) k) (hn : 0 < n) (hm : 0 < m)
    (hmeet : MayMeet n m (d + 1) k) : 2 * (f.enter (d + 1 : Nat) k : Int) - k < n + m := by
  have hle := h.enter_le hrow hk hmeet
  by_contra hge
  have hdelta : k = n - m := by omega
  have hend : f.enter (d + 1 : Nat) k = n := by omega
  have hparity := hk.2
  rcases enter_cases f hk with ⟨habove, he⟩ | ⟨hbelow, he⟩
  · by_cases hin : MayMeet n m d (k + 1)
    · have := h.old_lt _ habove hin
      omega
    · unfold MayMeet at hin
      have hd : d = 0 := by omega
      subst hd
      have hk0 : k + 1 = 0 := by unfold OnRow at habove; omega
      have := hrow.start rfl
      rw [hk0] at he
      omega
  · by_cases hin : MayMeet n m d (k - 1)
    · have := h.new_lt _ hbelow hin
      omega
    · unfold MayMeet at hin
      have hd : d = 0 := by omega
      subst hd
      have hk0 : k - 1 = 0 := by unfold OnRow at hbelow; omega
      have := hrow.start rfl
      rw [hk0] at he
      omega

/-- The searches meet before they have made as many edits as there are lines. -/
theorem lt_of_row (h : Apart n m d f) (hrow : Row n m d f) : 2 * d - ((n : Int) - m) % 2 < n + m := by
  by_contra hge
  -- the outermost diagonal on the side of the longer list is one on which they may meet
  by_cases hmeet : MayMeet n m d d
  · have hk : OnRow d d := ⟨by omega, by omega⟩
    have := hrow.edits_le _ hk
    have := h.left_gt _ hk hmeet
    omega
  · have hk : OnRow d (-d) := ⟨by omega, by omega⟩
    by_cases hmeet' : MayMeet n m d (-d)
    · have := hrow.edits_le _ hk
      have := h.left_gt _ hk hmeet'
      omega
    · unfold MayMeet at hmeet hmeet'
      omega

end Apart

/-- Without an edit nothing has been reached. -/
theorem row_zero (h : f.get 0 = 0) : Row n m 0 f := by
  have hzero k (hk : OnRow 0 k) : k = 0 := by unfold OnRow at hk; omega
  constructor
  · exact fun _ => h
  all_goals
    intro k hk
    obtain rfl := hzero k hk
    omega

/-- Without an edit the searches have not met, unless there is nothing to search. -/
theorem apart_zero (hn : 0 < n) (hm : 0 < m) (h : f.get 0 = 0) : Apart n m 0 f := by
  have hzero k (hk : OnRow 0 k) : k = 0 := by unfold OnRow at hk; omega
  constructor
  all_goals
    intro k hk hmeet
    obtain rfl := hzero k hk
    unfold MayMeet at hmeet
    omega

/-- A search is apart from one that it has not met. -/
theorem apart_of_lt {g : Frontier} (hg : Row n m e g) (he : e = (d : Int) - ((n : Int) - m) % 2)
    (h : ∀ k, OnRow d k → MayMeet n m d k → f.get k + g.get (n - m - k) < n) : Apart n m d f := by
  have hother k (hk : OnRow d k) (hmeet : MayMeet n m d k) : OnRow e (n - m - k) := by
    have := hk.2
    unfold MayMeet at hmeet
    unfold OnRow
    omega
  constructor
  · intro k hk hmeet
    have := h k hk hmeet
    omega
  · intro k hk hmeet
    have := h k hk hmeet
    have := hg.le_get _ (hother k hk hmeet)
    omega
  · intro k hk hmeet
    have := h k hk hmeet
    have := hg.edits_le _ (hother k hk hmeet)
    omega

end Frontier

end Pseudonym.LineDiff
