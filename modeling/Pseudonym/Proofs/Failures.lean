import Pseudonym.Proofs.Namings
import Pseudonym.Proofs.Replays
import Pseudonym.Proofs.Sessions

/-!
# Where the class pass fails

`Pass.Fails` says that a pass, begun in a workspace, fails and leaves another workspace; as with success, a pass put together from
others fails where the first of its parts does (`fails_bind`). Of the two parts of the class pass, the first one changes no file and
announces nothing, and the second one is never refused a token. So a pass that is refused one, or that cannot discover the class
names, has written nothing, and the codebook has kept its entries and gained those that were handed out before
(`ClassPass.fails_before_writing`). And it is refused one whenever the mint does not last for all the names that are missing
(`ClassPass.exists_fails_run`).
-/

namespace Pseudonym

variable {σ : Type}

/-! ## Why class names are not discovered -/

/-- Why a file cannot be read. -/
def readFailure? (d : Disk) (path : Path) : Option Failure :=
  match d.read path with
  | .ok _ => none
  | .error e => some (.file path e)

/-- Why the class names below a directory cannot be discovered: the files cannot be listed, or a stylesheet, the first of those,
cannot be read. -/
def discoveryFailure? (d : Disk) (root : Path) : Option Failure :=
  match d.files root with
  | .error (path, e) => some (.listing path e)
  | .ok paths => (paths.filter fun path => Language.ofPath? path == some .stylesheet).findSome? (readFailure? d)

/-- When the files cannot be listed, that is the failure. -/
theorem discoveryFailure?_of_files_error {d : Disk} {root path : Path} {e : DiskError} (h : d.files root = .error (path, e)) :
    discoveryFailure? d root = some (.listing path e) := by
  rw [discoveryFailure?, h]

/-- When they can be listed, it is that of the first stylesheet that cannot be read. -/
theorem discoveryFailure?_of_files {d : Disk} {root : Path} {paths : List Path} (h : d.files root = .ok paths) :
    discoveryFailure? d root = (paths.filter fun path => Language.ofPath? path == some .stylesheet).findSome? (readFailure? d) := by
  rw [discoveryFailure?, h]

namespace Pass

variable {α β : Type} {w w' : Workspace σ} {e : Failure} {o : Options}

/-- The pass begun in `w` fails with `e` and leaves `w'`. -/
def Fails (x : Pass σ α) (w : Workspace σ) (e : Failure) (w' : Workspace σ) : Prop := x.outcome w = (.error e, w')

/-! ## The parts of programs -/

/-- A pass fails in one way. -/
theorem fails_of_outcome {x : Pass σ α} {e' : Failure} {v : Workspace σ} (h : x.outcome w = (.error e', v)) :
    x.Fails w e w' ↔ e = e' ∧ w' = v := by
  rw [Fails, h, Prod.mk.injEq, Except.error.injEq, eq_comm, @eq_comm _ v]

/-- A pass that has a value does not fail. -/
theorem not_fails_of_outcome {x : Pass σ α} {a : α} {v : Workspace σ} (h : x.outcome w = (.ok a, v)) : ¬x.Fails w e w' := by
  intro hf
  rw [Fails, h] at hf
  cases hf

/-- Two steps fail if the first one does, or the second behind it. -/
@[simp] theorem fails_bind {x : Pass σ α} {f : α → Pass σ β} :
    (x >>= f).Fails w e w' ↔ x.Fails w e w' ∨ ∃ a v, x.Yields w a v ∧ (f a).Fails v e w' := by
  unfold Fails Yields
  rw [outcome_bind]
  rcases x.outcome w with ⟨e' | a, v⟩
  · simp
  · constructor
    · exact fun h => .inr ⟨a, v, rfl, h⟩
    · rintro (h | ⟨a', v', h, h'⟩)
      · cases h
      · cases h
        exact h'

@[simp] theorem fails_throw {e' : Failure} : (throw e' : Pass σ α).Fails w e w' ↔ e = e' ∧ w' = w := fails_of_outcome rfl

@[simp] theorem not_fails_pure {a : α} : ¬(pure a : Pass σ α).Fails w e w' := not_fails_of_outcome rfl

/-- What is made of the value does not fail. -/
@[simp] theorem fails_map {x : Pass σ α} {f : α → β} : (f <$> x).Fails w e w' ↔ x.Fails w e w' := by
  rw [map_eq_pure_bind, fails_bind]
  simp

/-- To look at the workspace does not fail. -/
@[simp] theorem not_fails_get : ¬(get : Pass σ (Workspace σ)).Fails w e w' := not_fails_of_outcome outcome_get

/-- To change the workspace does not fail. -/
@[simp] theorem not_fails_modify {f : Workspace σ → Workspace σ} : ¬(modify f : Pass σ Unit).Fails w e w' :=
  not_fails_of_outcome (outcome_modify f)

/-- What a pass leaves as it is, it leaves so when it fails. -/
theorem Keeps.eq_of_fails {γ : Type} {g : Workspace σ → γ} {x : Pass σ α} (hx : x.Keeps g) (h : x.Fails w e w') : g w' = g w := by
  have := hx w
  rwa [h] at this

/-! ## The steps -/

@[simp] theorem not_fails_note {n : Notice} : ¬(note n).Fails w e w' := not_fails_modify

@[simp] theorem not_fails_noteAll {ns : List Notice} : ¬(noteAll ns).Fails w e w' := not_fails_modify

@[simp] theorem not_fails_reserve {names : List Text} : ¬(reserve names).Fails w e w' := not_fails_modify

/-- The text files are not listed if the files below the root are not, and nothing but the trace has changed. -/
theorem fails_listTexts {root : Path} {languages : List Language} (h : (listTexts root languages).Fails w e w') :
    ∃ path err, w.disk.files root = .error (path, err) ∧ e = .listing path err ∧ ∃ trace, w' = { w with trace } := by
  simp only [listTexts, list, fails_bind, not_fails_note, not_fails_get, not_fails_pure, false_or, yields_note, yields_get, and_false,
    exists_false, or_false] at h
  obtain ⟨-, _, rfl, _, _, ⟨rfl, rfl⟩, h⟩ := h
  split at h
  · next path err hfiles =>
    obtain ⟨rfl, rfl⟩ := fails_throw.1 h
    exact ⟨path, err, hfiles, rfl, _, rfl⟩
  · simp at h

/-- A text is not loaded if the file cannot be read. -/
theorem fails_load {path : Path} (h : (load path).Fails w e w') : readFailure? w.disk path = some e ∧ w' = w := by
  simp only [load, fails_bind, not_fails_get, false_or, yields_get] at h
  obtain ⟨_, _, ⟨rfl, rfl⟩, h⟩ := h
  split at h
  · next err hread =>
    obtain ⟨rfl, rfl⟩ := fails_throw.1 h
    exact ⟨by rw [readFailure?, hread], rfl⟩
  · split at h <;> simp at h

/-- When a text is not saved, the file is named. -/
theorem fails_save {path : Path} {t : Text} {charset : Charset} (h : (save path t charset).Fails w e w') :
    ∃ err, e = .file path err := by
  rw [Fails, outcome_save] at h
  split at h <;> cases h
  exact ⟨_, rfl⟩

/-- No token is minted if the mint refuses, and the collisions before are told. -/
theorem fails_mint {kind : TokenKind} {ask : Mint σ → Mint.Strike σ} : (mint kind ask).Fails w e w' ↔
    ∃ err, (ask w.mint).token = .error err ∧ e = .mint err ∧
      w' = { w with mint := (ask w.mint).mint, trace := w.trace ++ (ask w.mint).collisions.map (.collision kind) } := by
  simp only [mint, fails_bind, not_fails_get, not_fails_modify, not_fails_noteAll, false_or, yields_get, yields_modify,
    yields_noteAll]
  constructor
  · rintro ⟨_, _, ⟨rfl, rfl⟩, -, _, rfl, -, _, rfl, h⟩
    split at h
    · exact absurd h not_fails_pure
    · next err herr =>
      obtain ⟨rfl, rfl⟩ := fails_throw.1 h
      exact ⟨err, herr, rfl, rfl⟩
  · rintro ⟨err, herr, rfl, rfl⟩
    refine ⟨_, _, ⟨rfl, rfl⟩, (), _, rfl, (), _, rfl, ?_⟩
    rw [herr]
    exact fails_throw.2 ⟨rfl, rfl⟩

/-- A pseudonym fails to come when it has to be made and cannot be made. -/
theorem fails_pseudonym {name : Text} {make : Pass σ Text} :
    (pseudonym name make).Fails w e w' ↔ w.codebook.get? name = none ∧ make.Fails w e w' := by
  have htry : (pseudonym name make).Fails w e w' ↔ (w.codebook.tryEnter name make).Fails w e w' := by
    simp only [pseudonym, fails_bind, not_fails_get, not_fails_modify, not_fails_pure, false_or, yields_get, and_false,
      exists_false, or_false]
    constructor
    · rintro ⟨_, _, ⟨rfl, rfl⟩, h⟩
      exact h
    · exact fun h => ⟨w, w, ⟨rfl, rfl⟩, h⟩
  rw [htry, Codebook.tryEnter]
  cases w.codebook.get? name <;> simp

/-! ## Rewriting -/

/-- When a file is not rewritten, it is named. -/
theorem fails_rewriteFile {path : Path} {r : Rewriter} (h : (rewriteFile o path r).Fails w e w') : ∃ err, e = .file path err := by
  simp only [rewriteFile, fails_bind, not_fails_note, not_fails_noteAll, false_or] at h
  obtain ⟨-, v, -, h | ⟨q, u, -, -, v, -, h⟩⟩ := h
  · have hread := (fails_load h).1
    unfold readFailure? at hread
    split at hread <;> cases hread
    exact ⟨_, rfl⟩
  · split at h
    · simp at h
    · simp only [fails_bind, not_fails_note, false_or] at h
      obtain ⟨-, _, -, -, _, -, h⟩ := h
      split at h
      · simp only [fails_bind, not_fails_pure, and_false, exists_false, or_false] at h
        exact fails_save h
      · simp at h

/-- When files are not rewritten, the one at which it ended is named. -/
theorem fails_rewriteFiles {files : List (Path × Rewriter)} (h : (rewriteFiles o files).Fails w e w') :
    ∃ path err, e = .file path err := by
  induction files generalizing w with
  | nil => simp [rewriteFiles] at h
  | cons f files ih =>
    simp only [rewriteFiles, fails_bind, not_fails_pure, and_false, exists_false, or_false] at h
    rcases h with h | ⟨_, _, -, h⟩
    · exact ⟨f.1, fails_rewriteFile h⟩
    · exact ih h

/-- What rewrites the text files takes no token, so it is refused none. -/
theorem not_fails_rewriteTexts {root : Path} {b : Codebook} {rewriter : Language → Rewriter} {done : Tally → Notice} {renamed : Nat}
    {m : MintError} : ¬(rewriteTexts root o b rewriter done renamed).Fails w (.mint m) w' := by
  intro h
  unfold rewriteTexts at h
  split at h
  · simp at h
  · simp only [fails_bind, not_fails_note, not_fails_pure, and_false, exists_false, or_false] at h
    rcases h with h | ⟨_, _, -, h⟩
    · obtain ⟨_, _, -, he, -⟩ := fails_listTexts h
      cases he
    · obtain ⟨_, _, he⟩ := fails_rewriteFiles h
      cases he

end Pass

namespace ClassPass

open Pass

section

variable {w w' : Workspace σ} {e : Failure} {o : Options} {root : Path}

/-- The class names are not discovered if some file cannot be read, and the first of these is named. -/
theorem fails_discover {paths : List Path} (h : (discover paths).Fails w e w') :
    paths.findSome? (readFailure? w.disk) = some e ∧ ∃ trace, w' = { w with trace } := by
  induction paths generalizing w with
  | nil => simp [discover] at h
  | cons path paths ih =>
    simp only [discover, fails_bind, not_fails_note, not_fails_pure, false_or, and_false, exists_false, or_false, yields_note,
      yields_load] at h
    obtain ⟨-, _, rfl, h | ⟨_, _, ⟨bytes, hbytes, -, rfl⟩, h⟩⟩ := h
    · obtain ⟨hread, rfl⟩ := fails_load h
      exact ⟨by rw [List.findSome?_cons, hread], _, rfl⟩
    · obtain ⟨hfind, trace, rfl⟩ := ih h
      have hread : readFailure? w.disk path = none := by
        rw [readFailure?, hbytes]
      exact ⟨by rw [List.findSome?_cons, hread, ← hfind], trace, rfl⟩

variable [WordSource σ]

/-! ## Handing out tokens -/

/-- A name that has a token does not fail to get one. -/
theorem fails_assign_cons_of_mem {length : Nat} {name : Text} {names : List Text} (h : name ∈ w.codebook.names) :
    (assign length (name :: names)).Fails w e w' ↔ (assign length names).Fails w e w' := by
  have hcontains := Codebook.contains_iff_mem_names.2 h
  simp only [assign, fails_bind, not_fails_get, false_or, yields_get]
  constructor
  · rintro ⟨_, _, ⟨rfl, rfl⟩, h⟩
    rwa [hcontains, if_neg (by simp)] at h
  · intro h
    refine ⟨w, w, ⟨rfl, rfl⟩, ?_⟩
    rwa [hcontains, if_neg (by simp)]

/-- A name that is missing is refused a token, or it gets one and a later name is refused. -/
theorem fails_assign_cons_of_notMem {length : Nat} {name : Text} {names : List Text} (h : name ∉ w.codebook.names) :
    (assign length (name :: names)).Fails w e w' ↔
      (mint .className (Mint.className length)).Fails w e w' ∨
      ∃ p v, (mint .className (Mint.className length)).Yields w p v ∧ (assign length names).Fails
        { v with codebook := w.codebook.append name p, trace := v.trace ++ [.classNamed name p] } e w' := by
  have hcontains : w.codebook.contains name = false := by
    rw [← Bool.not_eq_true, Codebook.contains_iff_mem_names]
    exact h
  have hget := Codebook.get?_eq_none_iff.2 h
  simp only [assign, fails_bind, not_fails_get, false_or, yields_get]
  constructor
  · rintro ⟨_, _, ⟨rfl, rfl⟩, h⟩
    rw [hcontains, if_pos (by simp)] at h
    simp only [fails_bind, fails_pseudonym, not_fails_note, false_or, yields_pseudonym, yields_note] at h
    rcases h with ⟨-, h⟩ | ⟨p, _, ⟨hp, -⟩ | ⟨-, v, hv, rfl⟩, -, _, rfl, h⟩
    · exact .inl h
    · rw [hget] at hp
      cases hp
    · exact .inr ⟨p, v, hv, h⟩
  · intro h
    refine ⟨w, w, ⟨rfl, rfl⟩, ?_⟩
    rw [hcontains, if_pos (by simp)]
    simp only [fails_bind, fails_pseudonym, not_fails_note, false_or, yields_pseudonym, yields_note]
    rcases h with h | ⟨p, v, hv, h⟩
    · exact .inl ⟨hget, h⟩
    · exact .inr ⟨p, _, .inr ⟨hget, v, hv, rfl⟩, (), _, rfl, h⟩

/-- A token is refused to the first name that is missing after those that got theirs. -/
theorem fails_assign {length : Nat} {names : List Text} (h : (assign length names).Fails w e w') :
    ∃ (gained : List (Text × Text)) (name : Text) (m : MintError), e = .mint m ∧
      w'.codebook.entries = w.codebook.entries ++ gained ∧
      gained.map (·.1) ++ [name] <+: w.codebook.missing names ∧
      w.mint.session (List.replicate gained.length (.className length)) =
        gained.map (fun g => ⟨.className length, some (.ok g.2)⟩) ∧
      ((w.mint.behind (List.replicate gained.length (.className length))).serve (.className length)).1 = some (.error m) := by
  induction names generalizing w with
  | nil => exact absurd h not_fails_pure
  | cons name names ih =>
    by_cases hname : name ∈ w.codebook.names
    · rw [Codebook.missing_cons_of_mem hname]
      exact ih ((fails_assign_cons_of_mem hname).1 h)
    · rcases (fails_assign_cons_of_notMem hname).1 h with h | ⟨p, v, hp, h⟩
      · obtain ⟨m, htoken, rfl, rfl⟩ := fails_mint.1 h
        refine ⟨[], name, m, rfl, (List.append_nil _).symm, ?_, rfl, congrArg some htoken⟩
        rw [Codebook.missing_cons_of_notMem hname []]
        exact List.prefix_append [name] _
      · obtain ⟨htoken, rfl⟩ := yields_mint.1 hp
        obtain ⟨gained, next, m, rfl, hbook, hprefix, hsession, hserve⟩ := ih h
        refine ⟨(name, p) :: gained, next, m, rfl, ?_, ?_, ?_, hserve⟩
        · exact hbook.trans (List.append_assoc w.codebook.entries [(name, p)] gained)
        · rw [Codebook.missing_cons_of_notMem hname p]
          exact (List.prefix_cons_inj _).2 hprefix
        · have hanswer : (w.mint.serve (.className length)).1 = some (.ok p) := congrArg some htoken
          rw [List.length_cons, List.replicate_succ, Mint.session, hanswer, List.map_cons]
          exact congrArg _ hsession

/-- If the mint refuses a token before each of the missing names has one, they are not all given one. -/
theorem exists_fails_assign {length k : Nat} {names : List Text} {m : MintError} (hk : k < (w.codebook.missing names).length)
    (hserved : ∀ s ∈ w.mint.session (List.replicate k (.className length)), ∃ p, s.answer? = some (.ok p))
    (hrefused : ((w.mint.behind (List.replicate k (.className length))).serve (.className length)).1 = some (.error m)) :
    ∃ w', (assign length names).Fails w (.mint m) w' := by
  induction names generalizing w k with
  | nil => exact absurd hk (by simp [Codebook.missing])
  | cons name names ih =>
    by_cases hname : name ∈ w.codebook.names
    · rw [Codebook.missing_cons_of_mem hname] at hk
      obtain ⟨w', h⟩ := ih hk hserved hrefused
      exact ⟨w', (fails_assign_cons_of_mem hname).2 h⟩
    · cases k with
      | zero => exact ⟨_, (fails_assign_cons_of_notMem hname).2 (.inl (fails_mint.2 ⟨m, Option.some.inj hrefused, rfl, rfl⟩))⟩
      | succ k =>
        rw [List.replicate_succ, Mint.session, List.forall_mem_cons] at hserved
        obtain ⟨⟨p, hp⟩, hserved⟩ := hserved
        rw [Codebook.missing_cons_of_notMem hname p, List.length_cons] at hk
        have hyields : (mint .className (Mint.className length)).Yields w p _ := yields_mint.2 ⟨Option.some.inj hp, rfl⟩
        exact Exists.imp (fun w' h => (fails_assign_cons_of_notMem hname).2 (.inr ⟨p, _, hyields, h⟩))
          (ih (Nat.lt_of_succ_lt_succ hk) hserved hrefused)

/-! ## The two parts of the pass -/

/-- The class names below a directory are discovered if they are all given tokens. -/
theorem discoveryFailure?_of_yields {length : Nat} {u : Unit} (h : (nameClasses root length).Yields w u w') :
    discoveryFailure? w.disk root = none := by
  obtain ⟨-, hlists, hreads, -⟩ := yields_nameClasses h
  rw [discoveryFailure?_of_files hlists, List.findSome?_eq_none_iff]
  intro path hpath
  obtain ⟨hpath, hsheet⟩ := List.mem_filter.1 hpath
  obtain ⟨bytes, hbytes⟩ := hreads path hpath (beq_iff_eq.1 hsheet)
  rw [readFailure?, hbytes]

/-- Class names are not given tokens because tokens would have no characters, because the names are not discovered, or because the
mint refuses a token. -/
theorem fails_nameClasses {length : Nat} (h : (nameClasses root length).Fails w e w') :
    (length = 0 ∧ e = .mint .emptyClassName ∧ w'.codebook = w.codebook) ∨
    (discoveryFailure? w.disk root = some e ∧ w'.codebook = w.codebook) ∨
    (length ≠ 0 ∧ ∃ trace, (assign length (styledBelow w.disk root)).Fails
      { w with mint := w.mint.reserveAll (styledBelow w.disk root), trace } e w') := by
  unfold nameClasses at h
  split at h
  · next hlength =>
    simp only [fails_bind, fails_throw, yields_throw, false_and, exists_false, or_false] at h
    obtain ⟨rfl, rfl⟩ := h
    exact .inl ⟨hlength, rfl, rfl⟩
  · next hlength =>
    simp only [fails_bind, not_fails_note, not_fails_reserve, false_or, yields_note, yields_reserve] at h
    obtain ⟨-, _, rfl, h | ⟨sheets, _, hsheets, h⟩⟩ := h
    · obtain ⟨path, err, hfiles, rfl, trace, rfl⟩ := fails_listTexts h
      exact .inr (.inl ⟨discoveryFailure?_of_files_error hfiles, rfl⟩)
    · obtain ⟨all, hall, rfl, _, rfl⟩ := yields_listTexts hsheets
      rw [map_fst_sheets] at h
      rcases h with h | ⟨names, _, hnames, -, _, rfl, h⟩
      · obtain ⟨hfind, _, rfl⟩ := fails_discover h
        exact .inr (.inl ⟨(discoveryFailure?_of_files hall).trans hfind, rfl⟩)
      · obtain ⟨rfl, -, trace, rfl⟩ := yields_discover hnames
        refine .inr (.inr ⟨hlength, trace, ?_⟩)
        rw [styledBelow, Disk.filesBelow_of_files hall]
        exact h

/-- A token that is refused before each of the missing names has one stops the pass. -/
theorem exists_fails_run {k : Nat} {m : MintError} (hlength : o.classLength ≠ 0) (hdiscovery : discoveryFailure? w.disk root = none)
    (hk : k < (w.codebook.missing (styledBelow w.disk root)).length)
    (hserved : ∀ s ∈ (w.mint.reserveAll (styledBelow w.disk root)).session (List.replicate k (.className o.classLength)),
      ∃ p, s.answer? = some (.ok p))
    (hrefused : (((w.mint.reserveAll (styledBelow w.disk root)).behind (List.replicate k (.className o.classLength))).serve
      (.className o.classLength)).1 = some (.error m)) :
    ∃ w', (run root o).Fails w (.mint m) w' := by
  have hassign (trace : List Notice) := exists_fails_assign (w := { w with mint := w.mint.reserveAll _, trace }) hk hserved hrefused
  rcases hnamed : (nameClasses root o.classLength).outcome w with ⟨e | u, w'⟩
  · rcases fails_nameClasses hnamed with ⟨hzero, -⟩ | ⟨hfailure, -⟩ | ⟨-, trace, h⟩
    · exact absurd hzero hlength
    · rw [hdiscovery] at hfailure
      cases hfailure
    · obtain ⟨v, hv⟩ := hassign trace
      obtain ⟨rfl, rfl⟩ := (fails_of_outcome hv).1 h
      refine ⟨w', ?_⟩
      rw [classPass_eq]
      exact fails_bind.2 (.inl hnamed)
  · obtain ⟨-, -, -, trace, h⟩ := yields_nameClasses hnamed
    obtain ⟨v, hv⟩ := hassign trace
    exact absurd hv (not_fails_of_outcome h)

omit [WordSource σ] in
/-- Where the names have their tokens, the mint has no complaint left. -/
theorem not_fails_renameClasses {m : MintError} : ¬(renameClasses root o : Pass σ Tally).Fails w (.mint m) w' := by
  intro h
  simp only [renameClasses, fails_bind, not_fails_get, not_fails_note, false_or] at h
  obtain ⟨_, _, -, _, _, -, h⟩ := h
  exact not_fails_rewriteTexts h

/-- The class pass fails before it writes. If it is refused a token, for the length of its tokens or because none is left, or if it
cannot discover the class names, then no file has changed and no change was announced. The codebook has kept its entries, and
those that it gained are for the first of the names that were missing, each with the token that the mint made for it: none
without tokens or without discovery, and otherwise all those before the name that no token was left for. -/
theorem fails_before_writing (h : (run root o).Fails w e w')
    (hearly : (∃ m, e = .mint m) ∨ (discoveryFailure? w.disk root).isSome) :
    w'.disk = w.disk ∧ w'.events = w.events ∧ ∃ gained,
      w'.codebook.entries = w.codebook.entries ++ gained ∧
      gained.map (·.1) <+: w.codebook.missing (styledBelow w.disk root) ∧
      (w.mint.reserveAll (styledBelow w.disk root)).session (List.replicate gained.length (.className o.classLength)) =
        gained.map (fun g => ⟨.className o.classLength, some (.ok g.2)⟩) ∧
      ((o.classLength = 0 ∧ e = .mint .emptyClassName ∧ gained = []) ∨
        (discoveryFailure? w.disk root = some e ∧ gained = []) ∨
        (e = .mint (.exhausted .className) ∧
          (∃ name, gained.map (·.1) ++ [name] <+: w.codebook.missing (styledBelow w.disk root)) ∧
          (((w.mint.reserveAll (styledBelow w.disk root)).behind
            (List.replicate gained.length (.className o.classLength))).serve (.className o.classLength)).1 =
              some (.error (.exhausted .className)))) := by
  rw [classPass_eq, fails_bind] at h
  have hnamed : (nameClasses root o.classLength).Fails w e w' := by
    refine h.resolve_right ?_
    rintro ⟨_, v, hyields, hrenamed⟩
    rcases hearly with ⟨m, rfl⟩ | hdiscovery
    · exact not_fails_renameClasses hrenamed
    · rw [discoveryFailure?_of_yields hyields] at hdiscovery
      cases hdiscovery
  obtain ⟨hdisk, hevents⟩ := Prod.mk.inj ((keeps_nameClasses isWork_recorded root o.classLength).eq_of_fails hnamed)
  refine ⟨hdisk, hevents, ?_⟩
  rcases fails_nameClasses hnamed with ⟨hlength, rfl, hbook⟩ | ⟨hdiscovery, hbook⟩ | ⟨hlength, trace, hassign⟩
  · exact ⟨[], by rw [hbook, List.append_nil], List.nil_prefix, rfl, .inl ⟨hlength, rfl, rfl⟩⟩
  · exact ⟨[], by rw [hbook, List.append_nil], List.nil_prefix, rfl, .inr (.inl ⟨hdiscovery, rfl⟩)⟩
  · obtain ⟨gained, name, m, rfl, hbook, hprefix, hsession, hserve⟩ := fails_assign hassign
    obtain rfl : m = .exhausted .className := by
      rcases Mint.serve_error_iff.1 hserve with ⟨hzero, -⟩ | ⟨kind, hkind, rfl, -⟩
      · exact absurd (Mint.Call.className.inj hzero) hlength
      · rw [Mint.Call.kind?, if_neg hlength] at hkind
        rw [Option.some.inj hkind]
    exact ⟨gained, hbook, (List.prefix_append _ _).trans hprefix, hsession, .inr (.inr ⟨rfl, ⟨name, hprefix⟩, hserve⟩)⟩

end

namespace StuckWitness

open SiteWitness (bytes)

/-- A site that styles a class name with an entry and two without, and a source that draws one letter over and over. -/
def site : Workspace WordCycle where
  disk := { entries := [
    ([bytes "site"], .directory),
    ([bytes "site", bytes "a.css"], .file (bytes ".item, .menu, .item, .page \x7b\x7d"))] }
  mint := { source := { words := [0], left := [] } }
  codebook := ⟨[("item".toList, "x".toList)]⟩

/-- Tokens of one letter are asked for. -/
def options : Options := { classLength := 1 }

/-- The mint of the site with some names taken. -/
def mint (taken : List Text) : Mint WordCycle := { site.mint with taken }

def names : List Text := ["page".toList, "menu".toList, "item".toList]

/-- The letter `a` is not handed out when it is taken, and the source has no other. -/
theorem serve_taken {taken : List Text} (h : "a".toList ∈ taken) :
    ((mint taken).serve (.className 1)).1 = some (.error (.exhausted .className)) := by
  refine congrArg some ?_
  rw [Mint.className, if_neg (by decide), Mint.strikeWithin_error_iff]
  refine ⟨rfl, fun p hp => ?_⟩
  rwa [Mint.eq_of_mem_candidates (p := "a".toList) (by rfl) (by rfl) hp]

end StuckWitness

open StuckWitness in
open SiteWitness (root) in
/-- The second name does not get a token: what has been entered before stays, and nothing is written. -/
theorem fails_before_writing_stuck : ∃ w', (run root options).Fails site (.mint (.exhausted .className)) w' ∧
    w'.disk = site.disk ∧ w'.events = site.events ∧
    w'.codebook.entries = [("item".toList, "x".toList), ("menu".toList, "a".toList)] := by
  have hdiscovery : discoveryFailure? site.disk root = none := by decide +kernel
  have hmissing : site.codebook.missing (styledBelow site.disk root) = ["menu".toList, "page".toList] := by decide +kernel
  have hmint : site.mint.reserveAll (styledBelow site.disk root) = mint names := by rfl
  have hfirst : (mint names).serve (.className 1) = (some (.ok "a".toList), mint ("a".toList :: names)) := by rfl
  have hsession : (mint names).session [.className 1] = [⟨.className 1, some (.ok "a".toList)⟩] := by
    rw [Mint.session, hfirst, Mint.session]
  have hsecond : (((mint names).behind [.className 1]).serve (.className 1)).1 = some (.error (.exhausted .className)) := by
    rw [Mint.behind, hfirst, Mint.behind]
    exact serve_taken List.mem_cons_self
  obtain ⟨w', hfails⟩ : ∃ w', (run root options).Fails site (.mint (.exhausted .className)) w' := by
    refine exists_fails_run (k := 1) (by decide) hdiscovery (by rw [hmissing]; decide) ?_ ?_
    · rw [hmint]
      intro s hs
      obtain rfl := List.mem_singleton.1 (hsession ▸ hs)
      exact ⟨_, rfl⟩
    · rw [hmint]
      exact hsecond
  obtain ⟨hdisk, hevents, gained, hbook, hprefix, hserved, hcase⟩ := fails_before_writing hfails (.inl ⟨_, rfl⟩)
  refine ⟨w', hfails, hdisk, hevents, ?_⟩
  rw [hmint] at hserved
  rw [hmissing, hmint] at hcase
  rw [hbook]
  rcases hcase with ⟨-, h, -⟩ | ⟨h, -⟩ | ⟨-, ⟨name, hname⟩, hrefused⟩
  · cases h
  · rw [hdiscovery] at h
    cases h
  · rcases gained with _ | ⟨⟨n, p⟩, _ | ⟨g, rest⟩⟩
    · -- the first token is not refused
      have hnone := (congrArg Prod.fst hfirst).symm.trans hrefused
      cases hnone
    · obtain rfl : n = "menu".toList := (List.cons_prefix_cons.1 hname).1
      have hp := hsession.symm.trans hserved
      cases hp
      rfl
    · exact absurd hname.length_le (by simp)

end ClassPass

end Pseudonym
