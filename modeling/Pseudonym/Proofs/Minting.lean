import Pseudonym.Mint
import Pseudonym.Proofs.Codebook
import Pseudonym.Proofs.Extension

/-!
# Fresh tokens and the codebooks they go into

A token that the mint hands out was not taken and is taken from then on (`Mint.className_ok`, `Mint.fileName_ok`). `Entered` says that
names are entered in a codebook in turn, each with a fresh token at first sight. However long the list of names is, the codebook
holds them once each in the order of their first occurrence, and the tokens are distinct and were taken by nobody
(`Entered.names_eq`, `Entered.fresh`).
-/

namespace Pseudonym

/-- A class token of a length: a letter, and letters and digits behind it. -/
def IsClassToken (length : Nat) (t : Text) : Prop :=
  t.length = length ∧ ∃ c s, t = c :: s ∧ c ∈ Token.letters ∧ ∀ d ∈ s, d ∈ Token.alphanumerics

namespace Mint

variable {σ : Type}

/-- To reserve names takes these and no others. -/
theorem mem_taken_reserveAll {m : Mint σ} {names : List Text} {other : Text} :
    other ∈ (m.reserveAll names).taken ↔ other ∈ names ∨ other ∈ m.taken := by
  unfold reserveAll
  induction names generalizing m with
  | nil => simp
  | cons name names ih => rw [List.foldl_cons, ih, mem_taken_reserve, List.mem_cons, ← or_assoc, or_comm (a := other ∈ names)]

/-- A token that is handed out is a candidate that was not taken, and it is taken afterwards. -/
theorem strikeWithin_ok {kind : TokenKind} {make : σ → Text × σ} {n : Nat} {m : Mint σ} {p : Text}
    (h : (strikeWithin kind make n m).token = .ok p) :
    (∃ s, p = (make s).1) ∧ p ∉ m.taken ∧ (strikeWithin kind make n m).mint.taken = p :: m.taken := by
  induction n generalizing m with
  | zero => cases h
  | succ n ih =>
    simp only [strikeWithin] at h ⊢
    split at h
    · next ht =>
      rw [if_pos ht]
      exact ih h
    · next ht =>
      rw [if_neg ht]
      cases h
      exact ⟨⟨m.source, rfl⟩, fun hm => ht (isTaken_iff_mem.2 hm), rfl⟩

variable [WordSource σ]

/-- What is drawn as a class token is one. -/
theorem isClassToken_className (n : Nat) (s : σ) : IsClassToken (n + 1) (Token.className (n + 1) s).1 :=
  ⟨Token.length_className _ s, (Token.pick Token.letters s).1,
    (Token.picks Token.alphanumerics n (Token.pick Token.letters s).2).1, rfl, Token.pick_mem (List.cons_ne_nil _ _) s,
    Token.picks_mem (List.cons_ne_nil _ _) n _⟩

/-- A class token that is handed out is one, was free, and is taken from then on. -/
theorem className_ok {length : Nat} {m : Mint σ} {p : Text} (h : (className length m).token = .ok p) :
    IsClassToken length p ∧ p ∉ m.taken ∧ (className length m).mint.taken = p :: m.taken := by
  cases length with
  | zero => cases h
  | succ n =>
    rw [className, if_neg (Nat.succ_ne_zero n)] at h ⊢
    obtain ⟨⟨s, rfl⟩, hfresh, htaken⟩ := strikeWithin_ok h
    exact ⟨isClassToken_className n s, hfresh, htaken⟩

/-- A file token that is handed out is one, was free, and is taken from then on. -/
theorem fileName_ok {extension : Option Text} {m : Mint σ} {p : Text} (h : (fileName extension m).token = .ok p) :
    IsFileToken extension p ∧ p ∉ m.taken ∧ (fileName extension m).mint.taken = p :: m.taken := by
  obtain ⟨⟨s, rfl⟩, hfresh, htaken⟩ := strikeWithin_ok h
  exact ⟨⟨_, Token.length_picks _ _ _, Token.picks_mem (List.cons_ne_nil _ _) _ _, rfl⟩, hfresh, htaken⟩

end Mint

/-- Names are entered in turn in a codebook, while names are taken: one that has no entry gets a token that is not taken, made for
it in the sense of `Made`, which is taken from then on. -/
inductive Entered (Made : Text → Text → Prop) : List Text → Codebook → List Text → Codebook → List Text → Prop where
  | nil (b : Codebook) (t : List Text) : Entered Made [] b t b t
  | old {name : Text} {names : List Text} {b b' : Codebook} {t t' : List Text} :
      name ∈ b.names → Entered Made names b t b' t' → Entered Made (name :: names) b t b' t'
  | new {name p : Text} {names : List Text} {b b' : Codebook} {t t' : List Text} :
      name ∉ b.names → Made name p → p ∉ t → Entered Made names (b.append name p) (p :: t) b' t' →
        Entered Made (name :: names) b t b' t'

namespace Entered

variable {Made : Text → Text → Prop} {names : List Text} {b b' : Codebook} {t t' : List Text}

/-- The names that were missing come in the order of their first occurrence, behind those that had an entry. -/
theorem names_append (h : Entered Made names b t b' t') : b'.names = b.names ++ b.missing names := by
  induction h with
  | nil b t => exact (List.append_nil _).symm
  | old hname _ ih => rw [ih, Codebook.missing_cons_of_mem hname]
  | @new name p names b b' t t' hname _ _ _ ih =>
    rw [ih, Codebook.names_append, Codebook.missing_cons_of_notMem hname p, List.append_assoc, List.singleton_append]

/-- Names that are entered one by one are each entered once. -/
theorem names_eq (h : Entered Made names .empty t b' t') : b'.names = names.eraseDups := by
  rw [h.names_append, Codebook.missing_empty]
  rfl

/-- An entry stays, and a new one holds a token that was made for its name. -/
theorem made (h : Entered Made names b t b' t') : ∀ e ∈ b'.entries, e ∈ b.entries ∨ Made e.1 e.2 := by
  induction h with
  | nil b t => exact fun e he => .inl he
  | old _ _ ih => exact ih
  | new _ hmade _ _ ih =>
    intro e he
    rcases ih e he with hold | hnew
    · rcases List.mem_append.1 hold with h | h
      · exact .inl h
      · obtain rfl := List.mem_singleton.1 h
        exact .inr hmade
    · exact .inr hnew

/-- What a name has been given it keeps. -/
theorem get?_of_get? (h : Entered Made names b t b' t') {n p : Text} (hn : b.get? n = some p) : b'.get? n = some p := by
  induction h with
  | nil b t => exact hn
  | old _ _ ih => exact ih hn
  | new _ _ _ _ ih => exact ih (by rw [Codebook.get?_append, hn]; rfl)

/-- The new tokens are distinct, none of them was taken, and each of them is taken afterwards. -/
theorem fresh (h : Entered Made names b t b' t') : ∃ ps, b'.pseudonyms = b.pseudonyms ++ ps ∧ t' = ps.reverse ++ t ∧
    ps.Nodup ∧ ∀ p ∈ ps, p ∉ t := by
  induction h with
  | nil b t => exact ⟨[], by simp⟩
  | old _ _ ih => exact ih
  | @new name p names b b' t t' _ _ hp _ ih =>
    obtain ⟨ps, hps, ht, hnodup, hfresh⟩ := ih
    refine ⟨p :: ps, ?_, by simp [ht], ?_, ?_⟩
    · rw [hps]
      simp [Codebook.append, Codebook.pseudonyms]
    · exact List.nodup_cons.2 ⟨fun hm => hfresh p hm List.mem_cons_self, hnodup⟩
    · intro q hq hqt
      rcases List.mem_cons.1 hq with rfl | hq
      · exact hp hqt
      · exact hfresh q hq (List.mem_cons_of_mem _ hqt)

end Entered

end Pseudonym
