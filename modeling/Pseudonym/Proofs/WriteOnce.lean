import Mathlib.Data.List.Induction
import Mathlib.Data.List.Nodup
import Pseudonym.Codebook.Indexed
import Pseudonym.Proofs.Codebook

/-!
# Calls on a codebook with an index

An index is right if it gives each name of an entry its place and knows no other name (`IndexedCodebook.Coherent`). On such a
codebook a lookup does not run past the entries, and it answers as a codebook without an index does (`Coherent.get?_eq`). Each
call does one of four things (`IndexedCodebook.Served`): it asks, it meets a name that has its pseudonym, it fails to make one,
or it enters one; and each leaves the index right (`Served.coherent`). So it stays right through any calls on an empty codebook,
which is thereby written once (`performAll_writes_once`).
-/

namespace Pseudonym

variable {τ ε α β : Type} {b : IndexedCodebook} {t : τ}

namespace IndexedCodebook

/-! ## The parts of the work -/

/-- What work that is begun on a codebook comes to: its value or the overrun that stops it, and the codebook and the state that
are left. -/
def outcome (x : Work τ α) (b : IndexedCodebook) (t : τ) : Except Overrun α × IndexedCodebook × τ := x.run (b, t)

/-- A step that overruns is the end of a piece of work. -/
theorem outcome_bind (x : Work τ α) (f : α → Work τ β) (b : IndexedCodebook) (t : τ) :
    outcome (x >>= f) b t = match outcome x b t with
      | (.ok a, b', t') => outcome (f a) b' t'
      | (.error e, b', t') => (.error e, b', t') := by
  show (ExceptT.bindCont f (outcome x b t).1 : StateM _ _) (outcome x b t).2 = _
  rcases outcome x b t with ⟨_ | a, b', t'⟩ <;> rfl

@[simp] theorem outcome_pure (a : α) : outcome (pure a : Work τ α) b t = (.ok a, b, t) := rfl

@[simp] theorem outcome_current : outcome (current : Work τ _) b t = (.ok b, b, t) := rfl

@[simp] theorem outcome_outside (make : StateM τ α) :
    outcome (outside make) b t = (.ok (make.run t).1, b, (make.run t).2) := rfl

@[simp] theorem outcome_push (name p : Text) :
    outcome (push name p : Work τ _) b t = (.ok (), { b with entries := b.entries.push (name, p) }, t) := rfl

@[simp] theorem outcome_point (name : Text) (i : Nat) :
    outcome (point name i : Work τ _) b t = (.ok (), { b with index := b.index.insert name i }, t) := rfl

@[simp] theorem outcome_lift (r : Except Overrun α) : outcome (liftM r : Work τ α) b t = (r, b, t) := by
  cases r <;> rfl

/-! ## Codebooks whose index is right -/

/-- The index gives a name the place at which it stands among the entries, and no other name has a place in it. -/
def Coherent (b : IndexedCodebook) : Prop :=
  ∀ (name : Text) (i : Nat), b.index[name]? = some i ↔ ∃ p, b.entries[i]? = some (name, p)

/-- An answer is read at the place that the index gives. -/
theorem exists_place_of_get? {name p : Text} (h : b.get? name = .ok (some p)) :
    ∃ i, b.index[name]? = some i ∧ b.read i = .ok p := by
  rw [get?] at h
  cases hi : b.index[name]? with
  | none =>
    rw [hi] at h
    cases h
  | some i =>
    rw [hi] at h
    refine ⟨i, rfl, ?_⟩
    cases hp : b.read i with
    | error e =>
      simp only [hp] at h
      cases h
    | ok q =>
      simp only [hp] at h
      cases h
      rfl

/-- A name with a pseudonym is contained. -/
theorem contains_of_get? {name p : Text} (h : b.get? name = .ok (some p)) : b.contains name = true := by
  obtain ⟨i, hi, -⟩ := exists_place_of_get? h
  rw [contains, Std.HashMap.contains_eq_isSome_getElem?, hi]
  rfl

/-- The codebook with one entry more, of which the index knows. -/
def append (b : IndexedCodebook) (name p : Text) : IndexedCodebook where
  entries := b.entries.push (name, p)
  index := b.index.insert name b.size

/-- An empty codebook is coherent. -/
theorem coherent_empty : empty.Coherent := by
  intro name i
  simp [empty]

theorem contains_eq_false_iff {name : Text} : b.contains name = false ↔ b.index[name]? = none := by
  rw [contains, Std.HashMap.contains_eq_isSome_getElem?, Option.isSome_eq_false_iff, Option.isNone_iff_eq_none]

/-- To append an entry to the index and the list is to append it to the codebook. -/
theorem toCodebook_append (name p : Text) : (b.append name p).toCodebook = b.toCodebook.append name p := by
  simp [toCodebook, append, Codebook.append]

namespace Coherent

/-- To append an entry of a new name keeps the index right. -/
theorem append (h : b.Coherent) {name : Text} (hname : b.contains name = false) (p : Text) : (b.append name p).Coherent := by
  rw [contains_eq_false_iff] at hname
  intro other i
  have hold : ∀ q, b.entries[i]? ≠ some (name, q) := fun q hq => by
    rw [(h name i).2 ⟨q, hq⟩] at hname
    cases hname
  rw [IndexedCodebook.append, Std.HashMap.getElem?_insert, Array.getElem?_push, size]
  by_cases ho : name = other
  · subst ho
    rw [if_pos (beq_self_eq_true _), Option.some.injEq]
    by_cases hi : i = b.entries.size
    · simp [hi]
    · rw [if_neg hi]
      exact iff_of_false (Ne.symm hi) fun ⟨q, hq⟩ => hold q hq
  · rw [if_neg (by simpa using ho), h other i]
    by_cases hi : i = b.entries.size
    · simp [hi, ho]
    · rw [if_neg hi]

/-- No two entries have the same name. -/
theorem nodup_names (h : b.Coherent) : b.toCodebook.names.Nodup := by
  have hplace {k : Nat} {name : Text} (hk : b.toCodebook.names[k]? = some name) : b.index[name]? = some k := by
    rw [Codebook.names, List.getElem?_map, Option.map_eq_some_iff] at hk
    obtain ⟨e, he, rfl⟩ := hk
    exact (h e.1 k).2 ⟨e.2, by simpa [toCodebook] using he⟩
  rw [List.nodup_iff_getElem?_ne_getElem?]
  intro i j hij hj heq
  have hi := hplace (heq.trans (List.getElem?_eq_getElem hj))
  rw [hplace (List.getElem?_eq_getElem hj)] at hi
  exact Nat.ne_of_gt hij (Option.some.inj hi)

/-- A name is looked up without an overrun, and with the answer that its entry gives. -/
theorem get?_eq (h : b.Coherent) (name : Text) : b.get? name = .ok (b.toCodebook.get? name) := by
  rw [get?]
  cases hi : b.index[name]? with
  | some i =>
    obtain ⟨p, hp⟩ := (h name i).1 hi
    have hmem : (name, p) ∈ b.toCodebook.entries := by
      simpa [toCodebook] using Array.mem_of_getElem? hp
    rw [(Codebook.get?_eq_some_iff h.nodup_names).2 hmem]
    simp only [read, hp]
    rfl
  | none =>
    have hnone : b.toCodebook.get? name = none := by
      refine Option.eq_none_iff_forall_ne_some.2 fun p hp => ?_
      obtain ⟨i, hp⟩ := List.getElem?_of_mem (Codebook.mem_entries_of_get? hp)
      rw [(h name i).2 ⟨p, by simpa [toCodebook] using hp⟩] at hi
      cases hi
    rw [hnone]

/-- The index knows the names of the codebook. -/
theorem contains_eq (h : b.Coherent) (name : Text) : b.contains name = b.toCodebook.contains name := by
  have hget := h.get?_eq name
  rw [contains, Std.HashMap.contains_eq_isSome_getElem?, ← Codebook.isSome_get?]
  cases hp : b.toCodebook.get? name with
  | some p =>
    rw [hp] at hget
    obtain ⟨i, hi, -⟩ := exists_place_of_get? hget
    rw [hi]
    rfl
  | none =>
    cases hi : b.index[name]? with
    | none => rfl
    | some i =>
      obtain ⟨p, hp'⟩ := (h name i).1 hi
      rw [hp, get?, hi] at hget
      simp only [read, hp'] at hget
      cases hget

/-- A name that the index knows has a pseudonym, and the list is not overrun. -/
theorem exists_get? (h : b.Coherent) {name : Text} (hname : b.contains name = true) : ∃ p, b.get? name = .ok (some p) := by
  rw [h.contains_eq, Codebook.contains_iff_mem_names] at hname
  obtain ⟨p, hp⟩ := Codebook.exists_get?_of_mem_names hname
  exact ⟨p, by rw [h.get?_eq, hp]⟩

end Coherent

/-! ## Entering a name -/

theorem read_append (b : IndexedCodebook) (name p : Text) : (b.append name p).read b.size = .ok p := by
  simp [read, append, size]

theorem get?_append_self (b : IndexedCodebook) (name p : Text) : (b.append name p).get? name = .ok (some p) := by
  have hplace : (b.append name p).index[name]? = some b.size := by
    simp [append]
  rw [get?, hplace]
  simp only [read_append]
  rfl

/-- The last place, once there is one entry more. -/
theorem size_push (b : IndexedCodebook) (name p : Text) : size ⟨b.entries.push (name, p), b.index⟩ - 1 = b.size := by
  simp [size]

variable {name p : Text}

/-- A name with a pseudonym keeps it, and none is made. -/
theorem outcome_enter_of_get? (h : b.get? name = .ok (some p)) (make : StateM τ Text) :
    outcome (enter name make) b t = (.ok p, b, t) := by
  obtain ⟨i, hi, hp⟩ := exists_place_of_get? h
  simp only [enter, outcome_bind, outcome_current, hi, outcome_pure, outcome_lift, hp]

/-- A name without a pseudonym gets the one that is made. -/
theorem outcome_enter_of_absent (h : b.contains name = false) (make : StateM τ Text) :
    outcome (enter name make) b t = (.ok (make.run t).1, b.append name (make.run t).1, (make.run t).2) := by
  simp only [enter, outcome_bind, outcome_current, contains_eq_false_iff.1 h, outcome_outside, outcome_push, size_push,
    outcome_point, outcome_pure, outcome_lift]
  rw [← append, read_append]

variable {make : StateM τ (Except ε Text)}

theorem outcome_tryEnter_of_get? (h : b.get? name = .ok (some p)) (make : StateM τ (Except ε Text)) :
    outcome (tryEnter name make) b t = (.ok (.ok p), b, t) := by
  simp only [tryEnter, outcome_bind, outcome_current, contains_of_get? h, Bool.not_true, Bool.false_eq_true, if_false,
    outcome_lift, h, Option.getD_some, outcome_pure]

/-- When none can be made, nothing is entered. -/
theorem outcome_tryEnter_of_error (h : b.contains name = false) {e : ε} (hmake : (make.run t).1 = .error e) :
    outcome (tryEnter name make) b t = (.ok (.error e), b, (make.run t).2) := by
  simp only [tryEnter, outcome_bind, outcome_current, h, Bool.not_false, if_true, outcome_outside, hmake, outcome_pure]

/-- When one is made, it is entered. -/
theorem outcome_tryEnter_of_ok (h : b.contains name = false) (hmake : (make.run t).1 = .ok p) :
    outcome (tryEnter name make) b t = (.ok (.ok p), b.append name p, (make.run t).2) := by
  simp only [tryEnter, outcome_bind, outcome_current, h, Bool.not_false, if_true, outcome_outside, hmake, outcome_push,
    size_push, outcome_point, outcome_lift]
  rw [← append, get?_append_self]
  rfl

end IndexedCodebook

/-! ## One call -/

namespace Codebook

/-- What can be asked of a codebook. The pseudonyms are made in a state of their own. -/
inductive Call (τ ε : Type) where
  | get (name : Text)
  | contains (name : Text)
  | enter (name : Text) (make : StateM τ Text)
  | tryEnter (name : Text) (make : StateM τ (Except ε Text))

/-- What a codebook answers. -/
inductive Answer (ε : Type) where
  | found (pseudonym? : Option Text)
  | present (yes : Bool)
  | entered (result : Except ε Text)

namespace Call

/-- The name that a call is about. -/
def name : Call τ ε → Text
  | get name | contains name | enter name _ | tryEnter name _ => name

/-- What a call brings to make a pseudonym with. -/
def make? : Call τ ε → Option (StateM τ (Except ε Text))
  | get _ | contains _ => none
  | enter _ make => some (Except.ok <$> make)
  | tryEnter _ make => some make

end Call

/-- The answer to a call, the codebook that is left, and the state beside it. -/
def serve (b : Codebook) (t : τ) : Call τ ε → Answer ε × Codebook × τ
  | .get name => (.found (b.get? name), b, t)
  | .contains name => (.present (b.contains name), b, t)
  | .enter name make =>
    let ((p, b), t) := (b.tryEnter name make).run t
    (.entered (.ok p), b, t)
  | .tryEnter name make =>
    match (b.tryEnter name (ExceptT.mk make)).run.run t with
    | (.ok (p, b), t) => (.entered (.ok p), b, t)
    | (.error e, t) => (.entered (.error e), b, t)

/-- The answers to calls that are made one after the other, the codebook that is left, and the state beside it. -/
def serveAll (b : Codebook) (t : τ) : List (Call τ ε) → List (Answer ε) × Codebook × τ
  | [] => ([], b, t)
  | c :: cs =>
    let (answer, b, t) := b.serve t c
    let (answers, b, t) := serveAll b t cs
    (answer :: answers, b, t)

/-- The last call is served behind the others. -/
theorem serveAll_concat {calls : List (Call τ ε)} {c : Call τ ε} {answers : List (Answer ε)} {answer : Answer ε}
    {b b' b'' : Codebook} {t t' t'' : τ} (h : b.serveAll t calls = (answers, b', t'))
    (h' : b'.serve t' c = (answer, b'', t'')) : b.serveAll t (calls ++ [c]) = (answers ++ [answer], b'', t'') := by
  induction calls generalizing b t answers with
  | nil =>
    cases h
    simp only [List.nil_append, serveAll, h']
  | cons c' cs ih =>
    simp only [serveAll] at h
    cases h
    simp only [List.cons_append, serveAll, ih rfl]

variable {c : Call τ ε} {make : StateM τ (Except ε Text)}

theorem serve_of_make?_eq_none {b : Codebook} (hc : c.make? = none) : b.serve t c = ((b.serve t c).1, b, t) := by
  cases c with
  | get name => rfl
  | contains name => rfl
  | enter name make => cases hc
  | tryEnter name make => cases hc

theorem contains_eq_false_iff {b : Codebook} {name : Text} : b.contains name = false ↔ b.get? name = none := by
  rw [← isSome_get?, Option.isSome_eq_false_iff, Option.isNone_iff_eq_none]

/-- A name with a pseudonym is answered with it. -/
theorem serve_of_get? {b : Codebook} {p : Text} (hc : c.make? = some make) (h : b.get? c.name = some p) :
    b.serve t c = (.entered (.ok p), b, t) := by
  cases c <;> cases hc <;> simp only [Call.name] at h <;> simp only [serve, tryEnter, h] <;> rfl

/-- A name without a pseudonym is entered if one can be made. -/
theorem serve_of_absent {b : Codebook} (hc : c.make? = some make) (h : b.get? c.name = none) :
    b.serve t c = match make.run t with
      | (.ok p, t') => (.entered (.ok p), b.append c.name p, t')
      | (.error e, t') => (.entered (.error e), b, t') := by
  cases c with
  | get name => cases hc
  | contains name => cases hc
  | enter name make' =>
    cases hc
    simp only [Call.name] at h
    simp only [serve, tryEnter, h]
    rfl
  | tryEnter name make' =>
    cases hc
    simp only [Call.name] at h
    simp only [serve, tryEnter, h]
    show (match (ExceptT.bindCont _ (make.run t).1 : StateM _ _) (make.run t).2 with
        | (.ok (p, b), t) => (Answer.entered (.ok p), b, t)
        | (.error e, t) => (Answer.entered (.error e), b, t)) = _
    rcases make.run t with ⟨_ | p, t'⟩ <;> rfl

end Codebook

namespace IndexedCodebook

open Codebook (Call Answer)

/-- A call, as work on the codebook. -/
def perform : Call τ ε → Work τ (Answer ε)
  | .get name => return .found (← (← current).get? name)
  | .contains name => return .present ((← current).contains name)
  | .enter name make => return .entered (.ok (← enter name make))
  | .tryEnter name make => return .entered (← tryEnter name make)

variable {c : Call τ ε} {make : StateM τ (Except ε Text)}

/-- The call for a name with a pseudonym is answered from the index. -/
theorem outcome_perform_of_get? (hc : c.make? = some make) {p : Text} (h : b.get? c.name = .ok (some p)) :
    outcome (perform c) b t = (.ok (.entered (.ok p)), b, t) := by
  cases c with
  | get name => cases hc
  | contains name => cases hc
  | enter name make' =>
    rw [Call.name] at h
    simp only [perform, outcome_bind, outcome_enter_of_get? h, outcome_pure]
  | tryEnter name make' =>
    rw [Call.name] at h
    simp only [perform, outcome_bind, outcome_tryEnter_of_get? h, outcome_pure]

/-- The call for which no pseudonym can be made enters nothing. -/
theorem outcome_perform_of_error (hc : c.make? = some make) (h : b.contains c.name = false) {e : ε}
    (hmake : (make.run t).1 = .error e) : outcome (perform c) b t = (.ok (.entered (.error e)), b, (make.run t).2) := by
  cases c with
  | get name => cases hc
  | contains name => cases hc
  | enter name make' =>
    cases hc
    cases hmake
  | tryEnter name make' =>
    cases hc
    rw [Call.name] at h
    simp only [perform, outcome_bind, outcome_tryEnter_of_error h hmake, outcome_pure]

/-- The call for which a pseudonym is made enters it at the end. -/
theorem outcome_perform_of_ok (hc : c.make? = some make) (h : b.contains c.name = false) {p : Text}
    (hmake : (make.run t).1 = .ok p) :
    outcome (perform c) b t = (.ok (.entered (.ok p)), b.append c.name p, (make.run t).2) := by
  cases c with
  | get name => cases hc
  | contains name => cases hc
  | enter name make' =>
    cases hc
    obtain rfl : (make'.run t).1 = p := Except.ok.inj hmake
    rw [Call.name] at h
    simp only [perform, outcome_bind, outcome_enter_of_absent h, outcome_pure]
    rfl
  | tryEnter name make' =>
    cases hc
    rw [Call.name] at h
    simp only [perform, outcome_bind, outcome_tryEnter_of_ok h hmake, outcome_pure]
    rfl

/-- How a call is answered, and what it does to the codebook and to the state in which pseudonyms are made. -/
inductive Served (b : IndexedCodebook) (t : τ) (c : Call τ ε) : Answer ε → IndexedCodebook → τ → Prop where
  /-- A question is answered from the entries. -/
  | asked : c.make? = none → Served b t c (b.toCodebook.serve t c).1 b t
  /-- A name that has an entry keeps its pseudonym, and none is made. -/
  | again {make : StateM τ (Except ε Text)} {p : Text} : c.make? = some make → b.get? c.name = .ok (some p) →
      Served b t c (.entered (.ok p)) b t
  /-- A pseudonym that cannot be made is not entered. -/
  | failed {make : StateM τ (Except ε Text)} {e : ε} : c.make? = some make → b.contains c.name = false →
      (make.run t).1 = .error e → Served b t c (.entered (.error e)) b (make.run t).2
  /-- A pseudonym that is made is entered after all others. -/
  | entered {make : StateM τ (Except ε Text)} {p : Text} : c.make? = some make → b.contains c.name = false →
      (make.run t).1 = .ok p → Served b t c (.entered (.ok p)) (b.append c.name p) (make.run t).2

/-- On a coherent codebook no call runs past the entries. -/
theorem Coherent.exists_served (h : b.Coherent) (c : Call τ ε) (t : τ) : ∃ answer b' t',
    outcome (perform c) b t = (.ok answer, b', t') ∧ Served b t c answer b' t' := by
  cases hc : c.make? with
  | none =>
    refine ⟨_, b, t, ?_, .asked hc⟩
    cases c with
    | get name => simp only [perform, outcome_bind, outcome_current, outcome_lift, h.get?_eq, outcome_pure, Codebook.serve]
    | contains name => simp only [perform, outcome_bind, outcome_current, h.contains_eq, outcome_pure, Codebook.serve]
    | enter name make => cases hc
    | tryEnter name make => cases hc
  | some make =>
    cases hcontains : b.contains c.name with
    | true =>
      obtain ⟨p, hp⟩ := h.exists_get? hcontains
      exact ⟨_, b, t, outcome_perform_of_get? hc hp, .again hc hp⟩
    | false =>
      cases hmake : (make.run t).1 with
      | error e => exact ⟨_, b, _, outcome_perform_of_error hc hcontains hmake, .failed hc hcontains hmake⟩
      | ok p => exact ⟨_, _, _, outcome_perform_of_ok hc hcontains hmake, .entered hc hcontains hmake⟩

namespace Served

variable {answer : Answer ε} {b' : IndexedCodebook} {t' : τ}

/-- A call leaves the codebook coherent. -/
theorem coherent (hs : Served b t c answer b' t') (h : b.Coherent) : b'.Coherent := by
  cases hs with
  | asked | again | failed => exact h
  | entered _ hname _ => exact h.append hname _

/-- A codebook without an index does the same. -/
theorem serve_toCodebook (hs : Served b t c answer b' t') (h : b.Coherent) :
    b.toCodebook.serve t c = (answer, b'.toCodebook, t') := by
  cases hs with
  | asked hc => exact Codebook.serve_of_make?_eq_none hc
  | again hc hp =>
    rw [h.get?_eq] at hp
    exact Codebook.serve_of_get? hc (Except.ok.inj hp)
  | @failed make e hc hname hmake =>
    rw [h.contains_eq, Codebook.contains_eq_false_iff] at hname
    rw [Codebook.serve_of_absent hc hname]
    rcases hrun : make.run t with ⟨r, t'⟩
    obtain rfl : r = .error e := by rw [← hmake, hrun]
    rfl
  | @entered make p hc hname hmake =>
    rw [h.contains_eq, Codebook.contains_eq_false_iff] at hname
    rw [Codebook.serve_of_absent hc hname, toCodebook_append]
    rcases hrun : make.run t with ⟨r, t'⟩
    obtain rfl : r = .ok p := by rw [← hmake, hrun]
    rfl

end Served

/-- A call enters a pseudonym: its name has no entry, and what it brings makes the pseudonym. -/
def Enters (b : IndexedCodebook) (t : τ) (c : Call τ ε) (p : Text) : Prop :=
  b.contains c.name = false ∧ ∃ make, c.make? = some make ∧ (make.run t).1 = .ok p

/-- A call enters one pseudonym at most. -/
theorem Enters.unique {p q : Text} (hp : Enters b t c p) (hq : Enters b t c q) : p = q := by
  obtain ⟨-, make, hc, hmake⟩ := hp
  obtain ⟨-, make', hc', hmake'⟩ := hq
  obtain rfl := Option.some.inj (hc.symm.trans hc')
  exact Except.ok.inj (hmake.symm.trans hmake')

namespace Served

variable {answer : Answer ε} {b' : IndexedCodebook} {t' : τ}

/-- What is entered is the answer, and stands after all other entries. -/
theorem of_enters (hs : Served b t c answer b' t') {p : Text} (hp : Enters b t c p) :
    answer = .entered (.ok p) ∧ b' = b.append c.name p := by
  obtain ⟨habsent, make', hc', hmake'⟩ := hp
  cases hs with
  | asked hc => cases hc.symm.trans hc'
  | again hc hget => cases habsent.symm.trans (contains_of_get? hget)
  | failed hc hname hmake =>
    obtain rfl := Option.some.inj (hc.symm.trans hc')
    cases hmake.symm.trans hmake'
  | entered hc hname hmake =>
    obtain rfl := Option.some.inj (hc.symm.trans hc')
    cases hmake.symm.trans hmake'
    exact ⟨rfl, rfl⟩

/-- Where nothing is entered, the entries and the index stay as they are. -/
theorem of_not_enters (hs : Served b t c answer b' t') (hp : ∀ p, ¬Enters b t c p) : b' = b := by
  cases hs with
  | asked | again | failed => rfl
  | entered hc hname hmake => exact absurd ⟨hname, _, hc, hmake⟩ (hp _)

/-- A pseudonym is made where the name has no entry, and nowhere else. -/
theorem state_eq (hs : Served b t c answer b' t') (hc : c.make? = some make) :
    t' = if b.contains c.name = true then t else (make.run t).2 := by
  cases hs with
  | asked hc' => cases hc'.symm.trans hc
  | again hc' hget => rw [if_pos (contains_of_get? hget)]
  | failed hc' hname hmake =>
    obtain rfl := Option.some.inj (hc'.symm.trans hc)
    rw [hname, if_neg Bool.false_ne_true]
  | entered hc' hname hmake =>
    obtain rfl := Option.some.inj (hc'.symm.trans hc)
    rw [hname, if_neg Bool.false_ne_true]

/-- A call that only asks runs nothing. -/
theorem state_eq_of_asked (hs : Served b t c answer b' t') (hc : c.make? = none) : t' = t := by
  cases hs with
  | asked | again => rfl
  | failed hc' | entered hc' => cases hc.symm.trans hc'

/-- The entries stay where they are, and there is one more exactly if one is entered. -/
theorem entries_grow (hs : Served b t c answer b' t') :
    b.entries.toList <+: b'.entries.toList ∧ (b'.size = b.size + 1 ↔ ∃ p, Enters b t c p) := by
  by_cases hp : ∃ p, Enters b t c p
  · obtain ⟨p, hp⟩ := hp
    obtain ⟨-, rfl⟩ := hs.of_enters hp
    exact ⟨by simp [append], iff_of_true (by simp [append, size]) ⟨p, hp⟩⟩
  · obtain rfl := hs.of_not_enters (not_exists.1 hp)
    exact ⟨List.prefix_refl _, iff_of_false (Nat.ne_of_lt (Nat.lt_succ_self _)) hp⟩

/-- A name has the pseudonym that it had, or the one that is entered for it. -/
theorem get?_toCodebook (hs : Served b t c answer b' t') (h : b.Coherent) (name p : Text) :
    b'.toCodebook.get? name = some p ↔ b.toCodebook.get? name = some p ∨ c.name = name ∧ Enters b t c p := by
  by_cases hc : ∃ q, Enters b t c q
  · obtain ⟨q, hq⟩ := hc
    obtain ⟨-, rfl⟩ := hs.of_enters hq
    have habsent := hq.1
    rw [h.contains_eq, Codebook.contains_eq_false_iff] at habsent
    rw [toCodebook_append, Codebook.get?_append]
    by_cases hname : name = c.name
    · subst hname
      rw [habsent, if_pos rfl, Option.none_or]
      constructor
      · rintro ⟨⟩
        exact .inr ⟨rfl, hq⟩
      · rintro (⟨⟨⟩⟩ | ⟨-, hp⟩)
        rw [hq.unique hp]
    · rw [if_neg hname, Option.or_none]
      exact (or_iff_left fun hp => hname hp.1.symm).symm
  · obtain rfl := hs.of_not_enters (not_exists.1 hc)
    exact (or_iff_left fun hp => hc ⟨p, hp.2⟩).symm

end Served

/-! ## Many calls -/

/-- Calls that are made one after the other. -/
def performAll : List (Call τ ε) → Work τ (List (Answer ε))
  | [] => return []
  | c :: cs => return (← perform c) :: (← performAll cs)

/-- The last call is performed behind the others. -/
theorem performAll_concat {calls : List (Call τ ε)} {c : Call τ ε} {answers : List (Answer ε)} {answer : Answer ε}
    {b₁ b' b'' : IndexedCodebook} {t₁ t' t'' : τ} (h : outcome (performAll calls) b₁ t₁ = (.ok answers, b', t'))
    (h' : outcome (perform c) b' t' = (.ok answer, b'', t'')) :
    outcome (performAll (calls ++ [c])) b₁ t₁ = (.ok (answers ++ [answer]), b'', t'') := by
  induction calls generalizing b₁ t₁ answers with
  | nil =>
    cases h
    simp only [List.nil_append, performAll, outcome_bind, h', outcome_pure]
  | cons c' cs ih =>
    simp only [performAll, List.cons_append, outcome_bind] at h ⊢
    rcases hfirst : outcome (perform c') b₁ t₁ with ⟨_ | a, b₂, t₂⟩
    · simp [hfirst] at h
    · rw [hfirst] at h
      rcases hrest : outcome (performAll cs) b₂ t₂ with ⟨_ | as, b₃, t₃⟩
      · simp [hrest] at h
      · simp only [hrest, outcome_pure] at h
        cases h
        simp only [ih hrest, outcome_pure, List.cons_append]

/-- What calls on an empty codebook leave. -/
def behind (t : τ) (calls : List (Call τ ε)) : IndexedCodebook × τ := (outcome (performAll calls) empty t).2

/-- Among calls on an empty codebook there is one that enters the pseudonym for the name. -/
def EntersAmong (t : τ) (calls : List (Call τ ε)) (name p : Text) : Prop :=
  ∃ before c after, calls = before ++ c :: after ∧ c.name = name ∧ Enters (behind t before).1 (behind t before).2 c p

/-- What calls enter is entered by the last one or by those before. -/
theorem entersAmong_concat {calls : List (Call τ ε)} {name p : Text} : EntersAmong t (calls ++ [c]) name p ↔
    EntersAmong t calls name p ∨ c.name = name ∧ Enters (behind t calls).1 (behind t calls).2 c p := by
  constructor
  · rintro ⟨before, c', after, heq, hname, henters⟩
    rcases List.eq_nil_or_concat after with rfl | ⟨after, c'', rfl⟩
    · obtain ⟨rfl, hc⟩ := List.append_inj' heq rfl
      cases hc
      exact .inr ⟨hname, henters⟩
    · rw [List.concat_eq_append, ← List.cons_append, ← List.append_assoc] at heq
      obtain ⟨rfl, -⟩ := List.append_inj' heq rfl
      exact .inl ⟨before, c', after, rfl, hname, henters⟩
  · rintro (⟨before, c', after, rfl, hname, henters⟩ | ⟨hname, henters⟩)
    · exact ⟨before, c', after ++ [c], by simp, hname, henters⟩
    · exact ⟨calls, c, [], rfl, hname, henters⟩

/-- What calls on an empty codebook come to: none of them runs past the entries, and the index is right ever after. -/
theorem exists_outcome_performAll (t₀ : τ) (calls : List (Call τ ε)) : ∃ answers b t,
    outcome (performAll calls) empty t₀ = (.ok answers, b, t) ∧ b.Coherent ∧
    Codebook.empty.serveAll t₀ calls = (answers, b.toCodebook, t) ∧
    ∀ name p, b.toCodebook.get? name = some p ↔ EntersAmong t₀ calls name p := by
  induction calls using List.reverseRecOn with
  | nil =>
    refine ⟨[], empty, t₀, rfl, coherent_empty, rfl, fun name p => iff_of_false (by simp [toCodebook, empty, Codebook.get?]) ?_⟩
    rintro ⟨before, c, after, heq, -⟩
    simp at heq
  | append_singleton calls c ih =>
    obtain ⟨answers, b, t, hrun, hb, hplain, hget⟩ := ih
    obtain ⟨answer, b', t', hcall, hserved⟩ := hb.exists_served c t
    have hbehind : behind t₀ calls = (b, t) := congrArg Prod.snd hrun
    refine ⟨_, b', t', performAll_concat hrun hcall, hserved.coherent hb,
      Codebook.serveAll_concat hplain (hserved.serve_toCodebook hb), fun name p => ?_⟩
    rw [entersAmong_concat, hbehind, ← hget]
    exact hserved.get?_toCodebook hb name p

/-- A codebook with an index is written once, whatever calls are made on an empty one and whatever the pseudonyms are made with.
The names of its entries are distinct, the index has each of them with its place and nothing else, and a name has the pseudonym
that was first entered for it, for ever after. A call leaves the entries where they are, and there is one more exactly if it
enters a pseudonym for a name without one; else entries and index are what they were, also where no pseudonym can be made. One
is made, in the state that the calls before have left, exactly if the name has no entry. No call runs past the entries, and all
of it is as on a codebook without an index. -/
theorem performAll_writes_once (t₀ : τ) (calls : List (Call τ ε)) : ∃ answers b t,
    outcome (performAll calls) empty t₀ = (.ok answers, b, t) ∧
    (b.entries.toList.map (·.1)).Nodup ∧
    (∀ (name : Text) (i : Nat), b.index[name]? = some i ↔ ∃ p, b.entries[i]? = some (name, p)) ∧
    (∀ name p, b.get? name = .ok (some p) ↔ EntersAmong t₀ calls name p) ∧
    (∀ name, b.contains name = true ↔ ∃ p, EntersAmong t₀ calls name p) ∧
    Codebook.empty.serveAll t₀ calls = (answers, b.toCodebook, t) ∧
    ∀ c : Call τ ε, ∃ answer b' t',
      outcome (performAll (calls ++ [c])) empty t₀ = (.ok (answers ++ [answer]), b', t') ∧ Served b t c answer b' t' ∧
      b.entries.toList <+: b'.entries.toList ∧ (b'.size = b.size + 1 ↔ ∃ p, Enters b t c p) ∧
      ((∀ p, ¬Enters b t c p) → b' = b) ∧
      (∀ make, c.make? = some make → t' = if b.contains c.name = true then t else (make.run t).2) ∧
      (c.make? = none → t' = t) := by
  obtain ⟨answers, b, t, hrun, hb, hplain, hget⟩ := exists_outcome_performAll t₀ calls
  refine ⟨answers, b, t, hrun, hb.nodup_names, hb, ?_, ?_, hplain, fun c => ?_⟩
  · intro name p
    rw [hb.get?_eq, Except.ok.injEq, hget]
  · intro name
    rw [hb.contains_eq, ← Codebook.isSome_get?, Option.isSome_iff_exists]
    simp only [hget]
  · obtain ⟨answer, b', t', hcall, hserved⟩ := hb.exists_served c t
    obtain ⟨hkept, hsize⟩ := hserved.entries_grow
    exact ⟨answer, b', t', performAll_concat hrun hcall, hserved, hkept, hsize, hserved.of_not_enters,
      fun _ => hserved.state_eq, hserved.state_eq_of_asked⟩

end IndexedCodebook

end Pseudonym
