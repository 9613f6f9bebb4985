import Pseudonym.Project.Run

/-!
# What the steps of a pass do when they succeed

`Pass.Yields` says that a pass, begun in a workspace, ends well with a value in another workspace. A pass put together from others
yields what its parts yield in turn (`yields_bind`), so each step has one statement of what it does, and a program is taken apart
by rewriting.
-/

namespace Pseudonym.Pass

variable {σ α β : Type}

/-- What a pass begun in a workspace ends with: its value or its failure, and the workspace that it leaves. -/
def outcome (x : Pass σ α) (w : Workspace σ) : Except Failure α × Workspace σ := x.run w

/-- The pass begun in `w` ends with `a` in `w'`. -/
def Yields (x : Pass σ α) (w : Workspace σ) (a : α) (w' : Workspace σ) : Prop := x.outcome w = (.ok a, w')

/-! ## The parts of programs -/

variable {w w' : Workspace σ} {a a' : α} {b : β}

/-- A pass yields one thing. -/
theorem yields_of_outcome {x : Pass σ α} {v : Workspace σ} (h : x.outcome w = (.ok a, v)) :
    x.Yields w a' w' ↔ a' = a ∧ w' = v := by
  rw [Yields, h, Prod.mk.injEq, Except.ok.injEq, eq_comm, @eq_comm _ v]

/-- A pass that can be run yields what comes out. -/
theorem yields_of_toOption {x : Pass σ α} (h : (x.outcome w).1.toOption = some a) : x.Yields w a (x.outcome w).2 := by
  refine Prod.ext ?_ rfl
  cases hx : (x.outcome w).1 with
  | error e =>
    rw [hx] at h
    cases h
  | ok b =>
    rw [hx] at h
    exact congrArg _ (Option.some.inj h)

@[simp] theorem yields_pure : (pure a : Pass σ α).Yields w a' w' ↔ a' = a ∧ w' = w := yields_of_outcome rfl

/-- A step that fails is the end of a pass. -/
theorem outcome_bind (x : Pass σ α) (f : α → Pass σ β) (w : Workspace σ) :
    (x >>= f).outcome w = match x.outcome w with
      | (.ok a, v) => (f a).outcome v
      | (.error e, v) => (.error e, v) := by
  show (ExceptT.bindCont f (x.outcome w).1 : StateM _ _) (x.outcome w).2 = _
  rcases x.outcome w with ⟨_ | a, v⟩ <;> rfl

/-- A pass may look at its workspace. -/
theorem outcome_get : (get : Pass σ (Workspace σ)).outcome w = (.ok w, w) := rfl

/-- A pass may change its workspace. -/
theorem outcome_modify (f : Workspace σ → Workspace σ) : (modify f : Pass σ Unit).outcome w = (.ok (), f w) := rfl

/-- Two steps yield what the second one does behind the first. -/
@[simp] theorem yields_bind {x : Pass σ α} {f : α → Pass σ β} :
    (x >>= f).Yields w b w' ↔ ∃ a v, x.Yields w a v ∧ (f a).Yields v b w' := by
  unfold Yields
  rw [outcome_bind]
  rcases x.outcome w with ⟨e | a, v⟩
  · simp
  · constructor
    · exact fun h => ⟨a, v, rfl, h⟩
    · rintro ⟨a', v', h, h'⟩
      cases h
      exact h'

/-- Behind a step that is made, what comes of the whole is what comes of the rest. -/
theorem outcome_bind_of_yields {x : Pass σ α} {f : α → Pass σ β} {v : Workspace σ} (h : x.Yields w a v) :
    (x >>= f).outcome w = (f a).outcome v := by
  rw [outcome_bind, show x.outcome w = (.ok a, v) from h]

/-- What is made of a value is made of it where there is one. -/
theorem outcome_map (f : α → β) (x : Pass σ α) : (f <$> x).outcome w = match x.outcome w with
    | (.ok a, v) => (.ok (f a), v)
    | (.error e, v) => (.error e, v) := by
  rw [map_eq_pure_bind, outcome_bind]
  rcases x.outcome w with ⟨_ | a, v⟩ <;> rfl

/-- What is made of the value is yielded. -/
@[simp] theorem yields_map {x : Pass σ α} {f : α → β} :
    (f <$> x).Yields w b w' ↔ ∃ a, x.Yields w a w' ∧ b = f a := by
  rw [map_eq_pure_bind, yields_bind]
  constructor
  · rintro ⟨a, v, h, h'⟩
    obtain ⟨rfl, rfl⟩ := yields_pure.1 h'
    exact ⟨a, h, rfl⟩
  · rintro ⟨a, h, rfl⟩
    exact ⟨a, _, h, yields_pure.2 ⟨rfl, rfl⟩⟩

@[simp] theorem yields_get {v : Workspace σ} : (get : Pass σ (Workspace σ)).Yields w v w' ↔ w = v ∧ w = w' := by
  rw [yields_of_outcome outcome_get, eq_comm, @eq_comm _ w']

@[simp] theorem yields_modify {f : Workspace σ → Workspace σ} {u : Unit} :
    (modify f : Pass σ Unit).Yields w u w' ↔ w' = f w := by
  rw [yields_of_outcome (outcome_modify f), and_iff_right rfl]

@[simp] theorem yields_throw {e : Failure} : ¬ (throw e : Pass σ α).Yields w a w' := by
  intro h
  cases h

/-! ## The steps -/

@[simp] theorem yields_note {n : Notice} {u : Unit} : (note n).Yields w u w' ↔ w' = { w with trace := w.trace ++ [n] } :=
  yields_modify

@[simp] theorem yields_noteAll {ns : List Notice} {u : Unit} :
    (noteAll ns).Yields w u w' ↔ w' = { w with trace := w.trace ++ ns } :=
  yields_modify

/-- To reserve names changes the mint. -/
@[simp] theorem yields_reserve {names : List Text} {u : Unit} :
    (reserve names).Yields w u w' ↔ w' = { w with mint := w.mint.reserveAll names } :=
  yields_modify

/-- To list files finds those that are kept, and says so. -/
theorem yields_list {root : Path} {keep : Path → Bool} {paths : List Path} : (list root keep).Yields w paths w' ↔
    ∃ all, w.disk.files root = .ok all ∧ paths = all.filter keep ∧
      w' = { w with trace := w.trace ++ [.listing root, .listed paths.length] } := by
  simp only [list, yields_bind, yields_note, yields_get]
  constructor
  · rintro ⟨-, _, rfl, _, _, ⟨rfl, rfl⟩, h⟩
    split at h
    · exact absurd h yields_throw
    · next all hall =>
      simp only [yields_bind, yields_note, yields_pure] at h
      obtain ⟨-, v, rfl, rfl, rfl⟩ := h
      exact ⟨all, hall, rfl, by simp⟩
  · rintro ⟨all, hall, rfl, rfl⟩
    refine ⟨(), _, rfl, _, _, ⟨rfl, rfl⟩, ?_⟩
    rw [hall]
    simp

/-- To load a text decodes the bytes that are read. -/
theorem yields_load {path : Path} {r : Text × Charset} : (load path).Yields w r w' ↔
    ∃ bytes, w.disk.read path = .ok bytes ∧ r = Charset.decode bytes ∧
      w' = { w with trace := w.trace ++ if r.2 = .bytewise then [.readBytewise path] else [] } := by
  simp only [load, yields_bind, yields_get]
  constructor
  · rintro ⟨_, _, ⟨rfl, rfl⟩, h⟩
    split at h
    · exact absurd h yields_throw
    · next bytes hbytes =>
      refine ⟨bytes, hbytes, ?_⟩
      generalize Charset.decode bytes = q at h ⊢
      obtain ⟨t, _ | _⟩ := q
      · obtain ⟨rfl, rfl⟩ := yields_pure.1 h
        simp
      · obtain ⟨_, _, hnote, hpure⟩ := yields_bind.1 h
        obtain ⟨rfl, rfl⟩ := yields_pure.1 hpure
        exact ⟨rfl, yields_note.1 hnote⟩
  · rintro ⟨bytes, hbytes, rfl, rfl⟩
    refine ⟨_, _, ⟨rfl, rfl⟩, ?_⟩
    rw [hbytes]
    dsimp only
    generalize Charset.decode bytes = q
    obtain ⟨t, _ | _⟩ := q
    · exact yields_pure.2 ⟨rfl, by simp⟩
    · exact yields_bind.2 ⟨(), _, yields_note.2 rfl, yields_pure.2 ⟨rfl, rfl⟩⟩

/-- To save a text writes it as it was encoded. -/
theorem yields_save {path : Path} {t : Text} {charset : Charset} {u : Unit} : (save path t charset).Yields w u w' ↔
    ∃ disk, w.disk.write path (charset.encode t) = .ok disk ∧ w' = { w with disk } := by
  simp only [save, yields_bind, yields_get]
  constructor
  · rintro ⟨_, _, ⟨rfl, rfl⟩, h⟩
    split at h
    · exact absurd h yields_throw
    · next disk hdisk => exact ⟨disk, hdisk, yields_modify.1 h⟩
  · rintro ⟨disk, hdisk, rfl⟩
    refine ⟨_, _, ⟨rfl, rfl⟩, ?_⟩
    rw [hdisk]
    exact yields_modify.2 rfl

/-- To move a file changes the disk. -/
theorem yields_move {old new : Path} {u : Unit} : (move old new).Yields w u w' ↔
    ∃ disk, w.disk.move old new = .ok disk ∧ w' = { w with disk } := by
  simp only [move, yields_bind, yields_get]
  constructor
  · rintro ⟨_, _, ⟨rfl, rfl⟩, h⟩
    split at h
    · exact absurd h yields_throw
    · next disk hdisk => exact ⟨disk, hdisk, yields_modify.1 h⟩
  · rintro ⟨disk, hdisk, rfl⟩
    refine ⟨_, _, ⟨rfl, rfl⟩, ?_⟩
    rw [hdisk]
    exact yields_modify.2 rfl

/-- To mint a token changes the mint, and the collisions are told. -/
theorem yields_mint {kind : TokenKind} {ask : Mint σ → Mint.Strike σ} {p : Text} : (mint kind ask).Yields w p w' ↔
    (ask w.mint).token = .ok p ∧
      w' = { w with mint := (ask w.mint).mint, trace := w.trace ++ (ask w.mint).collisions.map (.collision kind) } := by
  simp only [mint, yields_bind, yields_get, yields_modify, yields_noteAll]
  constructor
  · rintro ⟨_, _, ⟨rfl, rfl⟩, -, _, rfl, -, _, rfl, h⟩
    split at h
    · next t ht =>
      obtain ⟨rfl, rfl⟩ := yields_pure.1 h
      exact ⟨ht, rfl⟩
    · exact absurd h yields_throw
  · rintro ⟨ht, rfl⟩
    refine ⟨_, _, ⟨rfl, rfl⟩, (), _, rfl, (), _, rfl, ?_⟩
    rw [ht]
    exact yields_pure.2 ⟨rfl, rfl⟩

/-- A pseudonym that stands in the codebook is used again; another one is made and entered. -/
theorem yields_tryEnter {b b' : Codebook} {name p : Text} {make : Pass σ Text} :
    (b.tryEnter name make).Yields w (p, b') w' ↔ (b.get? name = some p ∧ b' = b ∧ w' = w) ∨
      (b.get? name = none ∧ make.Yields w p w' ∧ b' = b.append name p) := by
  unfold Codebook.tryEnter
  cases hp : b.get? name with
  | some q => simp [eq_comm, and_assoc]
  | none =>
    constructor
    · intro h
      obtain ⟨q, v, hq, hpure⟩ := yields_bind.1 h
      obtain ⟨he, rfl⟩ := yields_pure.1 hpure
      obtain ⟨rfl, rfl⟩ := Prod.mk.inj he
      exact .inr ⟨rfl, hq, rfl⟩
    · rintro (⟨h, -⟩ | ⟨-, h, rfl⟩)
      · cases h
      · exact yields_bind.2 ⟨p, w', h, yields_pure.2 ⟨rfl, rfl⟩⟩

/-- A name has its pseudonym, or it gets one and is entered. -/
theorem yields_pseudonym {name p : Text} {make : Pass σ Text} : (pseudonym name make).Yields w p w' ↔
    (w.codebook.get? name = some p ∧ w' = w) ∨
      (w.codebook.get? name = none ∧ ∃ v, make.Yields w p v ∧ w' = { v with codebook := w.codebook.append name p }) := by
  simp only [pseudonym, yields_bind, yields_get, yields_modify, yields_pure]
  constructor
  · rintro ⟨_, _, ⟨rfl, rfl⟩, ⟨q, b⟩, v, h, -, _, rfl, rfl, rfl⟩
    rcases yields_tryEnter.1 h with ⟨hq, rfl, rfl⟩ | ⟨hq, hv, rfl⟩
    · exact .inl ⟨hq, rfl⟩
    · exact .inr ⟨hq, v, hv, rfl⟩
  · rintro (⟨hp, rfl⟩ | ⟨hp, v, hv, rfl⟩)
    · exact ⟨_, _, ⟨rfl, rfl⟩, (p, _), _, yields_tryEnter.2 (.inl ⟨hp, rfl, rfl⟩), (), _, rfl, rfl, rfl⟩
    · exact ⟨_, _, ⟨rfl, rfl⟩, (p, _), v, yields_tryEnter.2 (.inr ⟨hp, hv, rfl⟩), (), _, rfl, rfl, rfl⟩

end Pseudonym.Pass
