import Mathlib.Algebra.Group.Nat.Defs
import Mathlib.Data.List.Induction
import Mathlib.Data.List.Nodup
import Mathlib.Data.List.Perm.Subperm
import Pseudonym.Proofs.Minting

/-!
# Calls on one mint

A mint is asked for class tokens and for file tokens, and names are reserved with it, in any order and number. Each call either
makes one name taken or leaves the taken names as they were (`mem_taken_serve`), and a token is refused exactly when every
candidate that is drawn for it is taken (`serve_error_iff`). So the tokens of a session are all distinct and differ from every
name that was taken before, and as there are only so many class tokens of a length, only so many of them are ever made
(`session_fresh`).
-/

namespace Pseudonym.Mint

/-- What can be asked of a mint. -/
inductive Call where
  | reserve (name : Text)
  | className (length : Nat)
  | fileName (extension : Option Text)
  deriving DecidableEq, Repr

/-- A call and its answer: a token, or why there is none. A reservation has no answer. -/
structure Served where
  call : Call
  answer? : Option (Except MintError Text)

namespace Served

/-- The token that came of a call. -/
def token? (s : Served) : Option Text := s.answer?.bind Except.toOption

/-- The name that a call has made taken. -/
def named? (s : Served) : Option Text :=
  match s.call with
  | .reserve name => some name
  | _ => s.token?

theorem token?_eq_some {s : Served} {p : Text} : s.token? = some p ↔ s.answer? = some (.ok p) := by
  obtain ⟨c, _ | _ | q⟩ := s <;> simp [token?, Except.toOption]

end Served

/-- The candidates that come out of a source, one after the other. -/
def candidates {σ : Type} (make : σ → Text × σ) : Nat → σ → List Text
  | 0, _ => []
  | n + 1, s => (make s).1 :: candidates make n (make s).2

namespace Call

/-- What a call is to make a token for. Class tokens of no characters are not made. -/
def kind? : Call → Option TokenKind
  | .reserve _ => none
  | .className length => if length = 0 then none else some .className
  | .fileName _ => some .fileName

/-- The tokens that a call may make. -/
def Makes : Call → Text → Prop
  | .reserve _, _ => False
  | .className length, p => IsClassToken length p
  | .fileName extension, p => IsFileToken extension p

variable {σ : Type} [WordSource σ]

/-- The candidates that are drawn from a source for a call. -/
def candidates : Call → Nat → σ → List Text
  | .reserve _, _, _ => []
  | .className length, n, s => Mint.candidates (Token.className length) n s
  | .fileName extension, n, s => Mint.candidates (Token.fileName extension) n s

end Call

variable {σ : Type}

/-! ## One call -/

/-- The mint gives up exactly when each of the candidates is taken. -/
theorem strikeWithin_error_iff {kind : TokenKind} {make : σ → Text × σ} {n : Nat} {m : Mint σ} {e : MintError} :
    (strikeWithin kind make n m).token = .error e ↔ e = .exhausted kind ∧ ∀ p ∈ candidates make n m.source, p ∈ m.taken := by
  induction n generalizing m with
  | zero => simp [strikeWithin, candidates, eq_comm]
  | succ n ih =>
    simp only [strikeWithin, candidates, List.forall_mem_cons]
    split
    · next ht => rw [ih, and_iff_right (isTaken_iff_mem.1 ht)]
    · next ht =>
      rw [isTaken_iff_mem] at ht
      simp [ht]

/-- A source that stays as it is has one candidate only. -/
theorem eq_of_mem_candidates {make : σ → Text × σ} {s : σ} {p : Text} (hp : (make s).1 = p) (hs : (make s).2 = s) {n : Nat}
    {q : Text} (hq : q ∈ candidates make n s) : q = p := by
  induction n with
  | zero => cases hq
  | succ n ih =>
    rw [candidates, hp, hs] at hq
    exact (List.mem_cons.1 hq).elim id ih

/-- A mint that gives up has learnt nothing new. -/
theorem taken_strikeWithin {kind : TokenKind} {make : σ → Text × σ} {n : Nat} {m : Mint σ} {e : MintError}
    (h : (strikeWithin kind make n m).token = .error e) : (strikeWithin kind make n m).mint.taken = m.taken := by
  induction n generalizing m with
  | zero => rfl
  | succ n ih =>
    simp only [strikeWithin] at h ⊢
    split at h
    · next ht =>
      rw [if_pos ht]
      exact ih h
    · cases h

variable [WordSource σ]

/-- The answer to a call, and the mint behind it. -/
def serve (m : Mint σ) : Call → Option (Except MintError Text) × Mint σ
  | .reserve name => (none, m.reserve name)
  | .className length => (some (m.className length).token, (m.className length).mint)
  | .fileName extension => (some (m.fileName extension).token, (m.fileName extension).mint)

variable {m : Mint σ} {c : Call}

/-- A token that is handed out is of the kind that was asked for, and was not taken. -/
theorem serve_ok {p : Text} (h : (m.serve c).1 = some (.ok p)) :
    c.Makes p ∧ p ∉ m.taken ∧ (m.serve c).2.taken = p :: m.taken := by
  cases c with
  | reserve name => cases h
  | className length => exact className_ok (Option.some.inj h)
  | fileName extension => exact fileName_ok (Option.some.inj h)

/-- A token is refused for two reasons: it was to have no characters, or every candidate is taken. -/
theorem serve_error_iff {e : MintError} : (m.serve c).1 = some (.error e) ↔
    (c = .className 0 ∧ e = .emptyClassName) ∨
      ∃ kind, c.kind? = some kind ∧ e = .exhausted kind ∧ ∀ p ∈ c.candidates maxAttempts m.source, p ∈ m.taken := by
  cases c with
  | reserve name => simp [serve, Call.kind?]
  | className length =>
    cases length with
    | zero => simp [serve, className, Call.kind?, eq_comm]
    | succ n =>
      simp only [serve, className, Call.kind?, Call.candidates, Option.some.injEq, if_neg (Nat.succ_ne_zero n),
        strikeWithin_error_iff]
      simp
  | fileName extension =>
    simp only [serve, fileName, Call.kind?, Call.candidates, Option.some.injEq, strikeWithin_error_iff]
    simp

/-- A call that fails leaves the taken names as they are. -/
theorem serve_error {e : MintError} (h : (m.serve c).1 = some (.error e)) : (m.serve c).2.taken = m.taken := by
  cases c with
  | reserve name => cases h
  | className length =>
    simp only [serve, className, Option.some.injEq] at h ⊢
    split at h
    · next hzero => rw [if_pos hzero]
    · next hzero =>
      rw [if_neg hzero]
      exact taken_strikeWithin h
  | fileName extension => exact taken_strikeWithin (Option.some.inj h)

/-- A call has made its name taken, and no other. -/
theorem mem_taken_serve {name : Text} :
    name ∈ (m.serve c).2.taken ↔ Served.named? ⟨c, (m.serve c).1⟩ = some name ∨ name ∈ m.taken := by
  have htoken (hc : ∀ n, c ≠ .reserve n) (hanswer : (m.serve c).1 ≠ none) :
      name ∈ (m.serve c).2.taken ↔ Served.named? ⟨c, (m.serve c).1⟩ = some name ∨ name ∈ m.taken := by
    have hnamed : Served.named? ⟨c, (m.serve c).1⟩ = (m.serve c).1.bind Except.toOption := by
      cases c with
      | reserve n => exact absurd rfl (hc n)
      | className length => rfl
      | fileName extension => rfl
    rw [hnamed]
    obtain ⟨e | p, ha⟩ := Option.ne_none_iff_exists'.1 hanswer
    · rw [serve_error ha, ha]
      simp [Except.toOption]
    · rw [(serve_ok ha).2.2, ha]
      simp [Except.toOption, eq_comm]
  cases c with
  | reserve n => exact mem_taken_reserve.trans (or_congr_left (by simp [Served.named?, eq_comm]))
  | className length => exact htoken (by simp) (by simp [serve])
  | fileName extension => exact htoken (by simp) (by simp [serve])

/-! ## Many calls -/

/-- Calls that are made one after the other, with their answers. -/
def session (m : Mint σ) : List Call → List Served
  | [] => []
  | c :: cs => ⟨c, (m.serve c).1⟩ :: session (m.serve c).2 cs

/-- The mint behind calls that are made one after the other. -/
def behind (m : Mint σ) : List Call → Mint σ
  | [] => m
  | c :: cs => behind (m.serve c).2 cs

/-- The last call is served behind the others. -/
theorem session_concat (m : Mint σ) (calls : List Call) (c : Call) :
    m.session (calls ++ [c]) = m.session calls ++ [⟨c, ((m.behind calls).serve c).1⟩] := by
  induction calls generalizing m with
  | nil => rfl
  | cons c' cs ih => rw [List.cons_append, session, session, behind, ih, List.cons_append]

/-- The last call leaves the mint that the session leaves. -/
theorem behind_concat (m : Mint σ) (calls : List Call) (c : Call) :
    m.behind (calls ++ [c]) = ((m.behind calls).serve c).2 := by
  induction calls generalizing m with
  | nil => rfl
  | cons c' cs ih => rw [List.cons_append, behind, behind, ih]

/-- What is taken behind a session was taken before it, or a call has made it taken. -/
theorem mem_taken_behind {calls : List Call} {name : Text} : name ∈ (m.behind calls).taken ↔
    name ∈ m.taken ∨ name ∈ (m.session calls).filterMap Served.named? := by
  induction calls using List.reverseRecOn with
  | nil => simp [behind, session]
  | append_singleton calls c ih =>
    rw [behind_concat, session_concat, mem_taken_serve, ih, List.filterMap_append, List.mem_append, or_comm, or_assoc]
    simp

/-- A token has been made taken by its call. -/
theorem Served.named?_of_token? {m : Mint σ} {c : Call} {p : Text} (h : Served.token? ⟨c, (m.serve c).1⟩ = some p) :
    Served.named? ⟨c, (m.serve c).1⟩ = some p := by
  cases c with
  | reserve name => cases h
  | className length => exact h
  | fileName extension => exact h

/-- A token that is handed out is a name that is taken. -/
theorem tokens_subset {calls : List Call} :
    (m.session calls).filterMap Served.token? ⊆ (m.session calls).filterMap Served.named? := by
  induction calls generalizing m with
  | nil => exact List.Subset.refl _
  | cons c cs ih =>
    intro p hp
    obtain ⟨s, hs, hp⟩ := List.mem_filterMap.1 hp
    rw [session] at hs ⊢
    rcases List.mem_cons.1 hs with rfl | hs
    · exact List.mem_filterMap.2 ⟨_, List.mem_cons_self, Served.named?_of_token? hp⟩
    · obtain ⟨s', hs', hp'⟩ := List.mem_filterMap.1 (ih (List.mem_filterMap.2 ⟨s, hs, hp⟩))
      exact List.mem_filterMap.2 ⟨s', List.mem_cons_of_mem _ hs', hp'⟩

/-- A token was not taken before the session, and no call before its own has made it taken. -/
theorem serve_fresh {calls : List Call} {p : Text} (h : ((m.behind calls).serve c).1 = some (.ok p)) :
    p ∉ m.taken ∧ p ∉ (m.session calls).filterMap Served.named? := by
  have hfresh := (serve_ok h).2.1
  rwa [mem_taken_behind, not_or] at hfresh

/-- The tokens of a session are distinct. -/
theorem nodup_tokens (m : Mint σ) (calls : List Call) : ((m.session calls).filterMap Served.token?).Nodup := by
  induction calls using List.reverseRecOn with
  | nil => exact List.nodup_nil
  | append_singleton calls c ih =>
    rw [session_concat, List.filterMap_append]
    cases htoken : Served.token? ⟨c, ((m.behind calls).serve c).1⟩ with
    | none => rwa [List.filterMap_cons_none htoken, List.filterMap_nil, List.append_nil]
    | some p =>
      rw [List.filterMap_cons_some htoken, List.filterMap_nil, ← List.concat_eq_append]
      exact ih.concat fun hp => (serve_fresh (Served.token?_eq_some.1 htoken)).2 (tokens_subset hp)

/-- Every token of a session is of the kind that its call asked for. -/
theorem makes_of_mem {calls : List Call} {s : Served} (hs : s ∈ m.session calls) {p : Text} (hp : s.token? = some p) :
    s.call.Makes p := by
  induction calls generalizing m with
  | nil => cases hs
  | cons c cs ih =>
    rw [session] at hs
    rcases List.mem_cons.1 hs with rfl | hs
    · exact (serve_ok (Served.token?_eq_some.1 hp)).1
    · exact ih hs

/-- What is taken stays taken. -/
theorem taken_subset_behind {calls : List Call} : m.taken ⊆ (m.behind calls).taken :=
  fun _ h => mem_taken_behind.2 (.inl h)

/-- Calls behind others find the mint that those leave. -/
theorem behind_append (m : Mint σ) (calls more : List Call) : m.behind (calls ++ more) = (m.behind calls).behind more := by
  induction calls generalizing m with
  | nil => rfl
  | cons c cs ih => exact ih _

/-! ## The number of class tokens -/

/-- The words of a length over an alphabet. -/
def wordsOver (alphabet : Text) : Nat → List Text
  | 0 => [[]]
  | n + 1 => alphabet.flatMap fun c => (wordsOver alphabet n).map (c :: ·)

/-- There are as many words as choices of their letters. -/
theorem length_wordsOver (alphabet : Text) (n : Nat) : (wordsOver alphabet n).length = alphabet.length ^ n := by
  induction n with
  | zero => rfl
  | succ n ih => simp [wordsOver, ih, Nat.pow_succ, Nat.mul_comm]

/-- A text of the letters is one of the words. -/
theorem mem_wordsOver {alphabet t : Text} (h : ∀ c ∈ t, c ∈ alphabet) : t ∈ wordsOver alphabet t.length := by
  induction t with
  | nil => exact List.mem_singleton.2 rfl
  | cons c t ih =>
    rw [List.forall_mem_cons] at h
    exact List.mem_flatMap.2 ⟨c, h.1, List.mem_map_of_mem (ih h.2)⟩

/-- The tokens of a length that have a letter first. -/
def classTokens (n : Nat) : List Text := Token.letters.flatMap fun c => (wordsOver Token.alphanumerics n).map (c :: ·)

/-- There are 52 letters for the first character of a class token, and 62 letters and digits for each of the others. -/
theorem length_classTokens (n : Nat) : (classTokens n).length = 52 * 62 ^ n := by
  have hletters : Token.letters.length = 52 := by decide
  have halphanumerics : Token.alphanumerics.length = 62 := by decide
  simp only [classTokens, List.length_flatMap, List.length_map, length_wordsOver, List.map_const', List.sum_replicate_nat, hletters,
    halphanumerics]

/-- A class token is one of those that there are. -/
theorem mem_classTokens {n : Nat} {p : Text} (h : IsClassToken (n + 1) p) : p ∈ classTokens n := by
  obtain ⟨hlen, c, s, rfl, hc, hs⟩ := h
  obtain rfl : s.length = n := Nat.succ.inj hlen
  exact List.mem_flatMap.2 ⟨c, hc, List.mem_map_of_mem (mem_wordsOver hs)⟩

/-! ## A session -/

/-- What a mint does in any session, from whatever names are taken before. The tokens are all distinct; one that is handed out is of
the kind that was asked for, was not taken before the session, and was neither reserved nor handed out in it. A name is taken
exactly if it was taken before, was reserved or was handed out, and is taken for ever after. A call fails exactly if a class
token of no characters is asked for, or all candidates that the mint may try are taken, and what is taken is then as before. And
only so many calls for class tokens of a length can ever succeed. -/
theorem session_fresh (m : Mint σ) (calls : List Call) :
    ((m.session calls).filterMap Served.token?).Nodup ∧
    (∀ c p, ((m.behind calls).serve c).1 = some (.ok p) →
      c.Makes p ∧ p ∉ m.taken ∧ p ∉ (m.session calls).filterMap Served.named?) ∧
    (∀ name, (m.behind calls).isTaken name = true ↔
      name ∈ m.taken ∨ name ∈ (m.session calls).filterMap Served.named?) ∧
    (∀ more name, (m.behind calls).isTaken name = true → (m.behind (calls ++ more)).isTaken name = true) ∧
    (∀ c e, ((m.behind calls).serve c).1 = some (.error e) ↔
      (c = .className 0 ∧ e = .emptyClassName) ∨
        ∃ kind, c.kind? = some kind ∧ e = .exhausted kind ∧
          ∀ p ∈ c.candidates maxAttempts (m.behind calls).source, (m.behind calls).isTaken p = true) ∧
    (∀ c e, ((m.behind calls).serve c).1 = some (.error e) →
      ((m.behind calls).serve c).2.taken = (m.behind calls).taken) ∧
    ∀ n, (((m.session calls).filter (·.call = .className (n + 1))).filterMap Served.token?).length ≤ 52 * 62 ^ n := by
  simp only [isTaken_iff_mem]
  refine ⟨nodup_tokens m calls, fun c p h => ⟨(serve_ok h).1, serve_fresh h⟩, fun name => mem_taken_behind, ?_,
    fun c e => serve_error_iff, fun c e => serve_error, ?_⟩
  · intro more name h
    rw [behind_append]
    exact taken_subset_behind h
  · intro n
    have hnodup : (((m.session calls).filter (·.call = .className (n + 1))).filterMap Served.token?).Nodup :=
      (List.filter_sublist.filterMap _).nodup (nodup_tokens m calls)
    rw [← length_classTokens]
    refine (hnodup.subperm fun p hp => mem_classTokens ?_).length_le
    obtain ⟨s, hs, hp⟩ := List.mem_filterMap.1 hp
    obtain ⟨hs, hcall⟩ := List.mem_filter.1 hs
    have hmakes := makes_of_mem hs hp
    rwa [of_decide_eq_true hcall] at hmakes

namespace LetterWitness

/-- A mint whose source draws the first and the second letter in turn. -/
def mint : Mint WordCycle where
  source := { words := [0, 354745078340568301] }

def calls : List Call := [.reserve "a".toList, .className 1, .fileName (some "png".toList)]

end LetterWitness

open LetterWitness in
/-- A letter is reserved, and the source draws it first: the tokens that are handed out are new all the same. -/
theorem session_fresh_letter :
    (mint.session calls).map Served.token? = [none, some "b".toList, some "0101010101.png".toList] ∧
    ((mint.behind calls).serve (.className 2)).1 = some (.ok "a1".toList) ∧
    ((mint.behind calls).serve (.className 0)).1 = some (.error .emptyClassName) ∧
    Call.Makes (.className 2) "a1".toList ∧
    "a1".toList ∉ (mint.session calls).filterMap Served.named? ∧
    ((mint.behind calls).serve (.className 0)).2.taken = (mint.behind calls).taken ∧
    (mint.behind (calls ++ [.className 2])).isTaken "a".toList = true := by
  obtain ⟨-, hfresh, htaken, hkept, -, hfailed, -⟩ := session_fresh mint calls
  have hok : ((mint.behind calls).serve (.className 2)).1 = some (.ok "a1".toList) := by rfl
  have herror : ((mint.behind calls).serve (.className 0)).1 = some (.error .emptyClassName) := by rfl
  obtain ⟨hmakes, -, hnew⟩ := hfresh _ _ hok
  have ha : (mint.behind calls).isTaken "a".toList = true := (htaken _).2 (.inr (by decide +kernel))
  exact ⟨by decide +kernel, hok, herror, hmakes, hnew, hfailed _ _ herror, hkept _ _ ha⟩

end Pseudonym.Mint
