import Pseudonym.Proofs.Frontiers

/-!
# A place to cut

Both searches walk over their rows in turn, each noting how far it comes on a diagonal and leaving the other's frontier alone
(`Walks`). Until they meet they are `Underway`; the search that decides whether they have met is then short of both ends wherever it
may meet the other. So they meet at last, and at a place `Inside` both lists that is neither the start nor the end of both
(`exists_middle`). Nothing is asked of the frontiers but that they have room: what an earlier search has left in them does not count.
-/

namespace Pseudonym.LineDiff

/-! ## One search on the diagonals of a row -/

section Row

open Frontier

variable {step : Int → Frontiers → Search} {side other : Frontiers → Frontier} {slide : Nat → Nat → Nat} {s d : Nat}

/-- What a search does on a diagonal: it notes how far it comes there and leaves the other search alone. -/
structure Walks (side other : Frontiers → Frontier) (slide : Nat → Nat → Nat) (d : Nat) (step : Int → Frontiers → Search) :
    Prop where
  side_eq : ∀ k f, side (step k f).2 = (side f).set k ((side f).exit slide d k)
  other_eq : ∀ k f, other (step k f).2 = other f

/-- The frontiers on the way over a row: the diagonals next to those of the row are as they were. -/
structure OnTheWay (side other : Frontiers → Frontier) (s d : Nat) (f f' : Frontiers) : Prop where
  room : (side f').HasRoom s
  other_eq : other f' = other f
  next_eq : ∀ k, OnRow d k → (side f').get (k + 1) = (side f).get (k + 1) ∧ (side f').get (k - 1) = (side f).get (k - 1)

variable {f f' : Frontiers} {k : Int} {ks : List Int}

namespace OnTheWay

theorem refl (h : (side f).HasRoom s) : OnTheWay side other s d f f := ⟨h, rfl, fun _ _ => ⟨rfl, rfl⟩⟩

/-- On the way over a row, its diagonals are entered as before. -/
theorem enter_eq (h : OnTheWay side other s d f f') (hk : OnRow d k) : (side f').enter d k = (side f).enter d k :=
  enter_congr (h.next_eq k hk).1 (h.next_eq k hk).2

/-- On the way over a row, its diagonals are left as before. -/
theorem exit_eq (h : OnTheWay side other s d f f') (hk : OnRow d k) : (side f').exit slide d k = (side f).exit slide d k :=
  exit_congr (h.enter_eq hk)

/-- A step onto a diagonal of the row is one on the way. -/
theorem next (h : OnTheWay side other s d f f') (hw : Walks side other slide d step) (hs : d < s) (hk : OnRow d k) :
    OnTheWay side other s d f (step k f').2 := by
  refine ⟨hw.side_eq k f' ▸ h.room.set _ _, (hw.other_eq k f').trans h.other_eq, fun j hj => ?_⟩
  rw [hw.side_eq]
  unfold OnRow at hk
  have hj' := hj
  unfold OnRow at hj'
  constructor
  · rw [h.room.get_set_of_ne (by omega) (by omega) (by omega), (h.next_eq j hj).1]
  · rw [h.room.get_set_of_ne (by omega) (by omega) (by omega), (h.next_eq j hj).2]

/-- A search that has found the place found it on one of the diagonals. -/
theorem overDiagonals_some (hw : Walks side other slide d step) (hs : d < s) (h : OnTheWay side other s d f f')
    (hks : ∀ k ∈ ks, OnRow d k) (hfound : (overDiagonals step ks f').1.isSome) :
    ∃ k f'', OnRow d k ∧ OnTheWay side other s d f f'' ∧ overDiagonals step ks f' = step k f'' := by
  induction ks generalizing f' with
  | nil => cases hfound
  | cons k ks ih =>
    rw [List.forall_mem_cons] at hks
    rcases hstep : step k f' with ⟨_ | p, g⟩
    · have hg : g = (step k f').2 := by rw [hstep]
      rw [overDiagonals, hstep] at hfound ⊢
      exact ih (hg ▸ h.next hw hs hks.1) hks.2 hfound
    · refine ⟨k, f', hks.1, h, ?_⟩
      rw [overDiagonals, hstep]

/-- A search that has not found the place has been on all of them. -/
theorem overDiagonals_none (hw : Walks side other slide d step) (hs : d < s) (h : OnTheWay side other s d f f')
    (hks : ∀ k ∈ ks, OnRow d k) (hfound : (overDiagonals step ks f').1 = none) :
    OnTheWay side other s d f (overDiagonals step ks f').2 ∧
      (∀ k, OnRow d k → k ∈ ks ∨ (side f').get k = (side f).exit slide d k →
        (side (overDiagonals step ks f').2).get k = (side f).exit slide d k) ∧
      ∀ k ∈ ks, ∃ f'', OnTheWay side other s d f f'' ∧ (step k f'').1 = none := by
  induction ks generalizing f' with
  | nil => exact ⟨h, fun k _ hget => hget.resolve_left List.not_mem_nil, nofun⟩
  | cons k ks ih =>
    rw [List.forall_mem_cons] at hks
    rcases hstep : step k f' with ⟨_ | p, g⟩
    · have hg : g = (step k f').2 := by rw [hstep]
      rw [overDiagonals, hstep] at hfound ⊢
      obtain ⟨hway, hget, hnone⟩ := ih (hg ▸ h.next hw hs hks.1) hks.2 hfound
      refine ⟨hway, fun j hj hjk => hget j hj ?_, List.forall_mem_cons.2 ⟨⟨f', h, by rw [hstep]⟩, hnone⟩⟩
      rw [hg, hw.side_eq]
      by_cases hne : j = k
      · subst hne
        rw [h.room.get_set_self (by have := hj.1; omega), h.exit_eq hj]
        exact .inr rfl
      · rw [h.room.get_set_of_ne (by have := hks.1.1; omega) (by have := hj.1; omega) hne]
        exact hjk.imp_left fun hmem => (List.mem_cons.1 hmem).resolve_left hne
    · rw [overDiagonals, hstep] at hfound
      cases hfound

end OnTheWay

end Row

/-! ## Equal lines -/

section Slides

open Frontier

variable {old new : Array Line}

/-- Equal lines go on forward within the lists only. -/
theorem slides_slide (limit : Nat) : Slides old.size new.size (slide old new · · limit) := by
  intro x y h
  dsimp only at h ⊢
  fun_induction slide old new x y limit with
  | case1 => exact absurd rfl h
  | case2 x y limit heq ih =>
    simp only [Bool.and_eq_true, decide_eq_true_eq] at heq
    by_cases hlast : slide old new (x + 1) (y + 1) limit = 0
    · omega
    · have := ih hlast
      omega
  | case3 => exact absurd rfl h

/-- Equal lines go on backward within the lists only. -/
theorem slides_slideBack (limit : Nat) : Slides old.size new.size (slideBack old new · · limit) := by
  intro x y h
  dsimp only at h ⊢
  fun_induction slideBack old new x y limit with
  | case1 => exact absurd rfl h
  | case2 x y limit heq ih =>
    simp only [Bool.and_eq_true, decide_eq_true_eq] at heq
    by_cases hlast : slideBack old new (x + 1) (y + 1) limit = 0
    · omega
    · have := ih hlast
      omega
  | case3 => exact absurd rfl h

/-- Where the first lines differ, no equal lines follow. -/
theorem slide_start (h : old[0]? ≠ new[0]?) (limit : Nat) : slide old new 0 0 limit = 0 := by
  cases limit with
  | zero => rfl
  | succ limit => simp [slide, h]

/-- Where the last lines differ, no equal lines come before. -/
theorem slideBack_start (h : old[old.size - 1]? ≠ new[new.size - 1]?) (limit : Nat) : slideBack old new 0 0 limit = 0 := by
  cases limit with
  | zero => rfl
  | succ limit => simp [slideBack, h]

/-- Equal lines that go back to the start of both lists begin with the first line of both. -/
theorem start_eq_of_slideBack (x y limit : Nat) (hx : x + slideBack old new x y limit = old.size)
    (hy : y + slideBack old new x y limit = new.size) (h : slideBack old new x y limit ≠ 0) : old[0]? = new[0]? := by
  fun_induction slideBack old new x y limit with
  | case1 => exact absurd rfl h
  | case2 x y limit heq ih =>
    simp only [Bool.and_eq_true, decide_eq_true_eq, beq_iff_eq] at heq
    by_cases hlast : slideBack old new (x + 1) (y + 1) limit = 0
    · have hx0 : old.size - 1 - x = 0 := by omega
      have hy0 : new.size - 1 - y = 0 := by omega
      rw [hx0, hy0] at heq
      exact heq.2
    · exact ih (by omega) (by omega) hlast
  | case3 => exact absurd rfl h

end Slides

/-! ## Both searches -/

section Searches

open Frontier

variable {old new : Array Line} {s d : Nat} {f f' : Frontiers} {k : Int}

/-- The place splits each list in two, and one of them at least into two that are both shorter than both. -/
structure Inside (n m : Nat) (p : Int × Int) : Prop where
  old_ge : 0 ≤ p.1
  old_le : p.1 ≤ n
  new_ge : 0 ≤ p.2
  new_le : p.2 ≤ m
  pos : 0 < p.1 + p.2
  lt : p.1 + p.2 < n + m

/-- What the search forward does on a diagonal. -/
theorem advance_eq (old new : Array Line) (d : Nat) (k : Int) (f : Frontiers) :
    advance old new d k f =
      (if ((old.size : Int) - new.size) % 2 ≠ 0 ∧ MayMeet old.size new.size d k ∧
          old.size ≤ f.forward.exit (slide old new · · old.size) d k + f.backward.get (old.size - new.size - k) then
        some ((f.forward.enter d k : Int), (f.forward.enter d k : Int) - k) else none,
      { f with forward := f.forward.set k (f.forward.exit (slide old new · · old.size) d k) }) := by
  split
  · next h =>
    refine if_pos ?_
    have := h.2.1
    unfold MayMeet at this
    simp only [Bool.and_eq_true, decide_eq_true_eq]
    exact ⟨⟨h.1, by omega⟩, h.2.2⟩
  · next h =>
    refine if_neg fun hmeet => h ?_
    simp only [Bool.and_eq_true, decide_eq_true_eq] at hmeet
    exact ⟨hmeet.1.1, by unfold MayMeet; omega, hmeet.2⟩

/-- What the search backward does on a diagonal. -/
theorem retreat_eq (old new : Array Line) (d : Nat) (k : Int) (f : Frontiers) :
    retreat old new d k f =
      (if ((old.size : Int) - new.size) % 2 = 0 ∧ MayMeet old.size new.size d k ∧
          old.size ≤ f.backward.exit (slideBack old new · · old.size) d k + f.forward.get (old.size - new.size - k) then
        some ((old.size : Int) - f.backward.exit (slideBack old new · · old.size) d k,
          (new.size : Int) - (f.backward.exit (slideBack old new · · old.size) d k - k)) else none,
      { f with backward := f.backward.set k (f.backward.exit (slideBack old new · · old.size) d k) }) := by
  have hexit : f.backward.exit (slideBack old new · · old.size) d k = f.backward.enter d k +
      if 0 ≤ (f.backward.enter d k : Int) - k then
        slideBack old new (f.backward.enter d k) ((f.backward.enter d k : Int) - k).toNat old.size else 0 := by
    unfold exit
    split <;> rfl
  rw [hexit]
  unfold retreat
  dsimp only
  generalize (if 0 ≤ (f.backward.enter d k : Int) - k then
    slideBack old new (f.backward.enter d k) ((f.backward.enter d k : Int) - k).toNat old.size else 0) = c
  have hend : (f.backward.enter d k : Int) - k + c = (f.backward.enter d k + c : Nat) - k := by omega
  rw [hend]
  by_cases h : ((old.size : Int) - new.size) % 2 = 0 ∧ MayMeet old.size new.size d k ∧
      old.size ≤ f.backward.enter d k + c + f.forward.get (old.size - new.size - k)
  · rw [if_pos h]
    refine if_pos ?_
    have := h.2.1
    unfold MayMeet at this
    simp only [Bool.and_eq_true, decide_eq_true_eq]
    exact ⟨⟨h.1, by omega⟩, h.2.2⟩
  · rw [if_neg h]
    refine if_neg fun hmeet => h ?_
    simp only [Bool.and_eq_true, decide_eq_true_eq] at hmeet
    exact ⟨hmeet.1.1, by unfold MayMeet; omega, hmeet.2⟩

/-- The search forward leaves the other one alone. -/
theorem walks_advance (old new : Array Line) (d : Nat) :
    Walks (·.forward) (·.backward) (slide old new · · old.size) d (advance old new d) :=
  ⟨fun k f => by rw [advance_eq], fun k f => by rw [advance_eq]⟩

/-- The search backward leaves the other one alone. -/
theorem walks_retreat (old new : Array Line) (d : Nat) :
    Walks (·.backward) (·.forward) (slideBack old new · · old.size) d (retreat old new d) :=
  ⟨fun k f => by rw [retreat_eq], fun k f => by rw [retreat_eq]⟩

/-- Both frontiers have room. -/
structure Frontiers.HasRoom (s : Nat) (f : Frontiers) : Prop where
  forward : f.forward.HasRoom s
  backward : f.backward.HasRoom s

/-- The lists differ in their first lines and in their last ones. -/
structure EndsDiffer (old new : Array Line) : Prop where
  old_pos : 0 < old.size
  new_pos : 0 < new.size
  first : old[0]? ≠ new[0]?
  last : old[old.size - 1]? ≠ new[new.size - 1]?

/-- The searches after `d` and `e` edits, if they have not met. -/
structure Underway (old new : Array Line) (s d e : Nat) (f : Frontiers) : Prop where
  room : f.HasRoom s
  forward : Row old.size new.size d f.forward
  backward : Row old.size new.size e f.backward
  apart_forward : ((old.size : Int) - new.size) % 2 ≠ 0 → Apart old.size new.size d f.forward
  apart_backward : ((old.size : Int) - new.size) % 2 = 0 → Apart old.size new.size e f.backward

/-- Equal lines that a search passes do not lead to the start of both lists. -/
theorem exit_slideBack_ne (hfirst : old[0]? ≠ new[0]?) {f : Frontier} {d k : Int}
    (h : f.enter d k < f.exit (slideBack old new · · old.size) d k) :
    ¬(f.exit (slideBack old new · · old.size) d k = old.size ∧
      (f.exit (slideBack old new · · old.size) d k : Int) - k = new.size) := by
  rintro ⟨hold, hnew⟩
  unfold exit at h hold hnew
  split at h
  · next hy =>
    rw [if_pos hy] at hold hnew
    dsimp only at h hold hnew
    exact hfirst (start_eq_of_slideBack (f.enter d k) ((f.enter d k : Int) - k).toNat old.size (by omega) (by omega)
      (by omega))
  · omega

namespace Underway

/-- The search from the start finds a place where it enters a diagonal. -/
theorem inside_of_advance (h : Underway old new s d d f) (hends : EndsDiffer old new) (hs : d + 1 < s) {p : Int × Int}
    (hfound : (overDiagonals (advance old new (d + 1 : Nat)) (diagonals (d + 1)) f).1 = some p) :
    Inside old.size new.size p ∧ (overDiagonals (advance old new (d + 1 : Nat)) (diagonals (d + 1)) f).2.HasRoom s := by
  have hw := walks_advance old new (d + 1)
  obtain ⟨k, f', hk, hway, heq⟩ := (OnTheWay.refl h.room.forward).overDiagonals_some hw hs (fun k => mem_diagonals.1)
    (hfound ▸ rfl)
  have hroom := hway.next hw hs hk
  rw [heq] at hfound ⊢
  refine ⟨?_, hroom.room, hroom.other_eq ▸ h.room.backward⟩
  rw [advance_eq] at hfound
  split at hfound
  · next hmet =>
    have hplace := Option.some.inj hfound
    rw [hway.enter_eq hk] at hplace
    have hapart := h.apart_forward hmet.1
    have hle := hapart.enter_le h.forward hk hmet.2.1
    have hlt := hapart.enter_lt h.forward hk hends.old_pos hends.new_pos hmet.2.1
    have hge := h.forward.enter_ge hk
    subst hplace
    constructor
    all_goals dsimp only
    all_goals omega
  · cases hfound

/-- The search from the start has made another edit. -/
theorem next_forward (h : Underway old new s d d f) (hs : d + 1 < s)
    (hfound : (overDiagonals (advance old new (d + 1 : Nat)) (diagonals (d + 1)) f).1 = none) :
    Underway old new s (d + 1) d (overDiagonals (advance old new (d + 1 : Nat)) (diagonals (d + 1)) f).2 := by
  have hw := walks_advance old new (d + 1)
  obtain ⟨hway, hget, hnone⟩ := (OnTheWay.refl h.room.forward).overDiagonals_none hw hs (fun k => mem_diagonals.1) hfound
  have hrow k (hk : OnRow (d + 1) k) := hget k hk (.inl (mem_diagonals.2 hk))
  refine ⟨⟨hway.room, hway.other_eq ▸ h.room.backward⟩, h.forward.next (slides_slide _) hrow,
    hway.other_eq ▸ h.backward, fun hodd => ?_, fun heven => hway.other_eq ▸ h.apart_backward heven⟩
  refine apart_of_lt h.backward (by omega) fun k hk hmeet => ?_
  obtain ⟨f', hway', hstep⟩ := hnone k (mem_diagonals.2 hk)
  rw [advance_eq] at hstep
  split at hstep
  · cases hstep
  · next hmet =>
    rw [hway'.exit_eq hk, hway'.other_eq] at hmet
    rw [hrow k hk]
    exact Nat.lt_of_not_le fun hle => hmet ⟨hodd, hmeet, hle⟩

/-- The search from the end finds a place where it leaves a diagonal. -/
theorem inside_of_retreat (h : Underway old new s (d + 1) d f) (hends : EndsDiffer old new) (hs : d + 1 < s) {p : Int × Int}
    (hfound : (overDiagonals (retreat old new (d + 1 : Nat)) (diagonals (d + 1)) f).1 = some p) :
    Inside old.size new.size p ∧ (overDiagonals (retreat old new (d + 1 : Nat)) (diagonals (d + 1)) f).2.HasRoom s := by
  have hw := walks_retreat old new (d + 1)
  obtain ⟨k, f', hk, hway, heq⟩ := (OnTheWay.refl h.room.backward).overDiagonals_some hw hs (fun k => mem_diagonals.1)
    (hfound ▸ rfl)
  have hroom := hway.next hw hs hk
  rw [heq] at hfound ⊢
  refine ⟨?_, hroom.other_eq ▸ h.room.forward, hroom.room⟩
  rw [retreat_eq] at hfound
  split at hfound
  · next hmet =>
    have hplace := Option.some.inj hfound
    rw [hway.exit_eq hk] at hplace
    have hapart := h.apart_backward hmet.1
    have hle := hapart.enter_le h.backward hk hmet.2.1
    have hlt := hapart.enter_lt h.backward hk hends.old_pos hends.new_pos hmet.2.1
    have hge := h.backward.enter_ge hk
    have hexit := exit_cases (@slides_slideBack old new old.size) f.backward (d + 1 : Nat) k
    have hcorner : 2 * (f.backward.exit (slideBack old new · · old.size) (d + 1 : Nat) k : Int) - k ≠ old.size + new.size := by
      intro hcorner
      have hslid := exit_slideBack_ne hends.first (f := f.backward) (d := (d + 1 : Nat)) (k := k)
      omega
    subst hplace
    constructor
    all_goals dsimp only
    all_goals omega
  · cases hfound

/-- The search from the end has made another edit. -/
theorem next_backward (h : Underway old new s (d + 1) d f) (hs : d + 1 < s)
    (hfound : (overDiagonals (retreat old new (d + 1 : Nat)) (diagonals (d + 1)) f).1 = none) :
    Underway old new s (d + 1) (d + 1) (overDiagonals (retreat old new (d + 1 : Nat)) (diagonals (d + 1)) f).2 := by
  have hw := walks_retreat old new (d + 1)
  obtain ⟨hway, hget, hnone⟩ := (OnTheWay.refl h.room.backward).overDiagonals_none hw hs (fun k => mem_diagonals.1) hfound
  have hrow k (hk : OnRow (d + 1) k) := hget k hk (.inl (mem_diagonals.2 hk))
  refine ⟨⟨hway.other_eq ▸ h.room.forward, hway.room⟩, hway.other_eq ▸ h.forward,
    h.backward.next (slides_slideBack _) hrow, fun hodd => hway.other_eq ▸ h.apart_forward hodd, fun heven => ?_⟩
  refine apart_of_lt h.forward (by omega) fun k hk hmeet => ?_
  obtain ⟨f', hway', hstep⟩ := hnone k (mem_diagonals.2 hk)
  rw [retreat_eq] at hstep
  split at hstep
  · cases hstep
  · next hmet =>
    rw [hway'.exit_eq hk, hway'.other_eq] at hmet
    rw [hrow k hk]
    exact Nat.lt_of_not_le fun hle => hmet ⟨heven, hmeet, hle⟩

/-- Searches that have not met do meet. -/
theorem exists_place (h : Underway old new s d d f) (hends : EndsDiffer old new) {rounds : Nat}
    (hrounds : (old.size + new.size + 1) / 2 = d + rounds) (hs : d + rounds < s) :
    ∃ p, (searchFrom old new rounds (d + 1) f).1 = some p ∧ Inside old.size new.size p ∧
      (searchFrom old new rounds (d + 1) f).2.HasRoom s := by
  induction rounds generalizing d f with
  | zero =>
    by_cases hparity : ((old.size : Int) - new.size) % 2 = 0
    · have := (h.apart_backward hparity).lt_of_row h.backward
      omega
    · have := (h.apart_forward hparity).lt_of_row h.forward
      omega
  | succ rounds ih =>
    rw [searchFrom]
    rcases hforward : overDiagonals (advance old new (d + 1 : Nat)) (diagonals (d + 1)) f with ⟨_ | p, g⟩
    · have hg := h.next_forward (by omega) (by rw [hforward])
      rw [hforward] at hg
      dsimp only at hg ⊢
      rcases hbackward : overDiagonals (retreat old new (d + 1 : Nat)) (diagonals (d + 1)) g with ⟨_ | p, g'⟩
      · have hg' := hg.next_backward (by omega) (by rw [hbackward])
        rw [hbackward] at hg'
        exact ih hg' (by omega) (by omega)
      · have hin := hg.inside_of_retreat hends (by omega) (by rw [hbackward])
        rw [hbackward] at hin
        exact ⟨p, rfl, hin⟩
    · have hin := h.inside_of_advance hends (by omega) (by rw [hforward])
      rw [hforward] at hin
      exact ⟨p, rfl, hin⟩

end Underway

/-- Without an edit the searches do not meet. -/
theorem searchFrom_zero (hends : EndsDiffer old new) (hforward : f.forward.get 1 = 0) (hbackward : f.backward.get 1 = 0)
    (hroom : f.HasRoom s) (rounds : Nat) : searchFrom old new (rounds + 1) 0 f =
      searchFrom old new rounds 1 { forward := f.forward.set 0 0, backward := f.backward.set 0 0 } := by
  have hadvance : f.forward.exit (slide old new · · old.size) (0 : Nat) 0 = 0 := by
    simp [exit, enter, hforward, slide_start hends.first]
  have hretreat : f.backward.exit (slideBack old new · · old.size) (0 : Nat) 0 = 0 := by
    simp [exit, enter, hbackward, slideBack_start hends.last]
  have hold := hends.old_pos
  have hfirst : advance old new (0 : Nat) 0 f = (none, { f with forward := f.forward.set 0 0 }) := by
    have h := advance_eq old new 0 0 f
    rwa [if_neg (by unfold MayMeet; omega), hadvance] at h
  have hsecond : retreat old new (0 : Nat) 0 { f with forward := f.forward.set 0 0 } =
      (none, { forward := f.forward.set 0 0, backward := f.backward.set 0 0 }) := by
    have h := retreat_eq old new 0 0 { f with forward := f.forward.set 0 0 }
    have hzero := hroom.forward.get_set_self (k := 0) (Nat.zero_le _) 0
    rw [hretreat, if_neg] at h
    · exact h
    · rintro ⟨-, hmeet, hle⟩
      have hdelta : (old.size : Int) - new.size - 0 = 0 := by
        unfold MayMeet at hmeet
        omega
      rw [hdelta, hzero] at hle
      omega
  have hrow : diagonals 0 = [0] := rfl
  rw [searchFrom, hrow, overDiagonals, hfirst]
  dsimp only [overDiagonals]
  rw [hsecond]

/-- Both searches meet, whatever earlier ones have left in their frontiers, and cut the lists at a place inside. -/
theorem exists_middle (hends : EndsDiffer old new) (hroom : f.HasRoom s) (hs : (old.size + new.size + 1) / 2 < s) :
    ∃ p, (middle old new f).1 = some p ∧ Inside old.size new.size p ∧ (middle old new f).2.HasRoom s := by
  rw [middle, searchFrom_zero hends (hroom.forward.get_set_self (by simp; omega) 0)
    (hroom.backward.get_set_self (by simp; omega) 0) ⟨hroom.forward.set _ _, hroom.backward.set _ _⟩]
  have hforward := (hroom.forward.set 1 0).get_set_self (k := 0) (Nat.zero_le _) 0
  have hbackward := (hroom.backward.set 1 0).get_set_self (k := 0) (Nat.zero_le _) 0
  have hunderway : Underway old new s 0 0
      { forward := (f.forward.set 1 0).set 0 0, backward := (f.backward.set 1 0).set 0 0 } :=
    ⟨⟨(hroom.forward.set _ _).set _ _, (hroom.backward.set _ _).set _ _⟩, row_zero hforward, row_zero hbackward,
      fun _ => apart_zero hends.old_pos hends.new_pos hforward, fun _ => apart_zero hends.old_pos hends.new_pos hbackward⟩
  exact hunderway.exists_place hends (Nat.zero_add _).symm (by omega)

end Searches

end Pseudonym.LineDiff
