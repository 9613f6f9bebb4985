import Pseudonym.LineDiff.Script

/-!
# A shortest edit script, in linear space

Lines that two lists share at their starts and ends are kept. What is left of both is cut in two at a place on a shortest path
between them, and each half is treated alike. The place is found by two searches that advance one edit at a time, one from
the start and one from the end, and meet: for every diagonal `k`, the points at which `k` more lines are deleted than inserted,
a frontier holds the furthest point reached. The two frontiers live on from one cut to the next and are not wiped in between, so
that which of several shortest scripts comes out depends on the cuts before.
-/

namespace Pseudonym.LineDiff

/-- For each diagonal the number of lines read at the furthest point reached; nothing reached yet counts as zero. -/
structure Frontier where
  offset : Nat
  reached : Array Nat

namespace Frontier

/-- A frontier for diagonals up to a number on either side. -/
def new (size : Nat) : Frontier := { offset := size, reached := Array.replicate (2 * size + 1) 0 }

/-- The point reached on a diagonal. -/
def get (f : Frontier) (k : Int) : Nat := f.reached.getD (k + f.offset).toNat 0

/-- The frontier with another point on a diagonal. -/
def set (f : Frontier) (k : Int) (x : Nat) : Frontier :=
  { f with reached := f.reached.setIfInBounds (k + f.offset).toNat x }

/-- Where the step onto a diagonal leads after `d` edits: down from the diagonal above it or across from the one below it,
whichever has come further. -/
def enter (f : Frontier) (d k : Int) : Nat :=
  if k == -d || (k != d && f.get (k - 1) < f.get (k + 1)) then f.get (k + 1) else f.get (k - 1) + 1

end Frontier

/-- The frontiers of both searches. -/
structure Frontiers where
  forward : Frontier
  backward : Frontier

/-- How far equal lines go on from a pair of places, `limit` lines at most. -/
def slide (old new : Array Line) (x y : Nat) : Nat → Nat
  | 0 => 0
  | limit + 1 => if x < old.size && y < new.size && old[x]? == new[y]? then slide old new (x + 1) (y + 1) limit + 1 else 0

/-- How far equal lines go back from a pair of places counted from the ends, `limit` lines at most. -/
def slideBack (old new : Array Line) (x y : Nat) : Nat → Nat
  | 0 => 0
  | limit + 1 =>
    if x < old.size && y < new.size && old[old.size - 1 - x]? == new[new.size - 1 - y]? then
      slideBack old new (x + 1) (y + 1) limit + 1
    else 0

/-- What a search has come to: the place to cut, once it is found, and the frontiers. -/
abbrev Search := Option (Int × Int) × Frontiers

/-- The search from the start advances on one diagonal. It meets the other search when their difference in length is odd. -/
def advance (old new : Array Line) (d k : Int) (f : Frontiers) : Search :=
  let x := f.forward.enter d k
  let y := (x : Int) - k
  let x' := if 0 ≤ y then x + slide old new x y.toNat old.size else x
  let f := { f with forward := f.forward.set k x' }
  let delta := (old.size : Int) - new.size
  if delta % 2 ≠ 0 && (k - delta).natAbs ≤ d - 1 && old.size ≤ x' + f.backward.get (delta - k) then (some (x, y), f)
  else (none, f)

/-- The search from the end advances on one diagonal. It meets the other search when their difference in length is even. -/
def retreat (old new : Array Line) (d k : Int) (f : Frontiers) : Search :=
  let x := f.backward.enter d k
  let y := (x : Int) - k
  let n := if 0 ≤ y then slideBack old new x y.toNat old.size else 0
  let f := { f with backward := f.backward.set k (x + n) }
  let delta := (old.size : Int) - new.size
  if delta % 2 = 0 && (k - delta).natAbs ≤ d && old.size ≤ x + n + f.forward.get (delta - k) then
    (some ((old.size : Int) - (x + n : Nat), (new.size : Int) - (y + n)), f)
  else (none, f)

/-- One search on diagonals in turn, until the place is found. -/
def overDiagonals (step : Int → Frontiers → Search) : List Int → Frontiers → Search
  | [], f => (none, f)
  | k :: ks, f =>
    match step k f with
    | (some p, f) => (some p, f)
    | (none, f) => overDiagonals step ks f

/-- The diagonals that `d` edits can reach, from the highest to the lowest. -/
def diagonals (d : Nat) : List Int := (List.range (d + 1)).map fun i : Nat => (d : Int) - 2 * i

/-- Both searches in turn for a number of edits, one more each time. -/
def searchFrom (old new : Array Line) : Nat → Nat → Frontiers → Search
  | 0, _, f => (none, f)
  | n + 1, d, f =>
    match overDiagonals (advance old new d) (diagonals d) f with
    | (some p, f) => (some p, f)
    | (none, f) =>
      match overDiagonals (retreat old new d) (diagonals d) f with
      | (some p, f) => (some p, f)
      | (none, f) => searchFrom old new n (d + 1) f

/-- The place at which to cut two lists of lines. -/
def middle (old new : Array Line) (f : Frontiers) : Search :=
  let f := { forward := f.forward.set 1 0, backward := f.backward.set 1 0 }
  searchFrom old new ((old.size + new.size + 1) / 2 + 1) 0 f

/-- A step for lines, if there are any. -/
def some? (edit : List Line → Edit) (ls : List Line) : Script := if ls.isEmpty then [] else [edit ls]

/-- A script between two lists of lines, cut in two wherever a place to cut lies within them. -/
def cutAndJoin (old new : List Line) (f : Frontiers) : Script × Frontiers :=
  let start := commonStart old new
  let old' := old.drop start
  let new' := new.drop start
  let tail := commonEnd old' new'
  let old'' := old'.take (old'.length - tail)
  let new'' := new'.take (new'.length - tail)
  let (inner, f) :=
    if old''.isEmpty || new''.isEmpty then (some? .delete old'' ++ some? .insert new'', f)
    else
      match middle old''.toArray new''.toArray f with
      | (some (x, y), f) =>
        let x := x.toNat
        let y := y.toNat
        if _h : x ≤ old''.length ∧ y ≤ new''.length ∧ 0 < x + y ∧ x + y < old''.length + new''.length then
          let (first, f) := cutAndJoin (old''.take x) (new''.take y) f
          let (second, f) := cutAndJoin (old''.drop x) (new''.drop y) f
          (first ++ second, f)
        else ([.delete old'', .insert new''], f)
      | (none, f) => ([.delete old'', .insert new''], f)
  (some? .keep (old.take start) ++ inner ++ some? .keep (old'.drop (old'.length - tail)), f)
termination_by old.length + new.length
decreasing_by
  all_goals
    have h1 : old''.length ≤ old.length := by simp [old'', old']; omega
    have h2 : new''.length ≤ new.length := by simp [new'', new']; omega
    simp only [List.length_take, List.length_drop]
    omega

/-- A shortest script between two lists of lines. -/
def shortest (old new : List Line) : Script :=
  let size := old.length + new.length + 2
  (cutAndJoin old new { forward := .new size, backward := .new size }).1

end Pseudonym.LineDiff
