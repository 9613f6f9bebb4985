import Pseudonym.Proofs.Literals

/-!
# Scripts before and after an exchange

The literals of a codebook are exchanged one after the other, each wherever it stands in what the ones before it have left. With
names and pseudonyms that hold no quotes, and no pseudonym that is a name, this is one pass over the strips of the script that was
there at first, from left to right (`rename_translates`). So the order of the entries does not matter, and nothing changes but the
names in literals: the script is cut at the same quotes afterwards, and each strip is what it was, or it was a literal.
-/

namespace Pseudonym.Script

/-- A strip after a pass: it is as it was, or it is a literal and has been exchanged. -/
def Strip.Becomes (f : Key → Option Text) (s s' : Strip) : Prop :=
  s' = s ∨ s.closed = true ∧ ∃ p, f s.key = some p ∧ s' = { s with body := p }

/-- A pass goes from strip to strip and changes nothing but literals. -/
theorem forall₂_translate (f : Key → Option Text) (last : Option Key) (ss : List Strip) :
    List.Forall₂ (Strip.Becomes f) ss (translate f last ss) := by
  induction ss generalizing last with
  | nil => exact .nil
  | cons s ss ih =>
    rcases translate_cons f last s ss with ⟨p, hclosed, -, hp, heq⟩ | ⟨-, heq⟩
    · rw [heq]
      exact .cons (.inr ⟨hclosed, p, hp, rfl⟩) (ih _)
    · rw [heq]
      exact .cons (.inl rfl) (ih _)

/-- A codebook for scripts is one in any order. -/
theorem IsLiteralCodebook.perm {b b' : Codebook} (hb : IsLiteralCodebook b) (h : b'.entries.Perm b.entries) :
    IsLiteralCodebook b' := by
  have hnames : b'.names.Perm b.names := h.map _
  have hpseudonyms : b'.pseudonyms.Perm b.pseudonyms := h.map _
  exact {
    nodup := hnames.nodup_iff.2 hb.nodup
    names := fun n hn => hb.names n (hnames.mem_iff.1 hn)
    pseudonyms := fun p hp => hb.pseudonyms p (hpseudonyms.mem_iff.1 hp)
    fresh := fun p hp hn => hb.fresh p (hpseudonyms.mem_iff.1 hp) (hnames.mem_iff.1 hn) }

/-- Renaming in a script is one pass over its strips: a strip between two equal quotes whose text is a name is a literal, and it is
exchanged unless the literal of the same name just before it was, which has the quote in between. There is no result exactly
if there is no literal. Any order of the entries gives the same, and only literals change. -/
theorem rename_translates {b : Codebook} (hb : IsLiteralCodebook b) (js : Text) :
    rename b js = translated? (fun k => b.get? k.2) js ∧
    (rename b js = none ↔ ∀ s ∈ (cutAtQuotes js).2, s.closed = true → s.body ∉ b.names) ∧
    (∀ b' : Codebook, b'.entries.Perm b.entries → rename b' js = rename b js) ∧
    ∀ out, rename b js = some out → (cutAtQuotes out).1 = (cutAtQuotes js).1 ∧
      List.Forall₂ (Strip.Becomes fun k => b.get? k.2) (cutAtQuotes js).2 (cutAtQuotes out).2 := by
  have heq := rename_eq hb js
  refine ⟨heq, ?_, ?_, ?_⟩
  · rw [heq, translated?, ite_eq_right_iff]
    simp only [reduceCtorEq, imp_false, Bool.not_eq_true, hits_eq_false_iff]
    exact forall₂_congr fun s _ => imp_congr_right fun _ => Codebook.get?_eq_none_iff
  · intro b' hperm
    rw [heq, rename_eq (hb.perm hperm)]
    exact translated?_congr fun s _ => Codebook.get?_perm hb.nodup hperm s.body
  · intro out hout
    rw [heq] at hout
    obtain ⟨-, hout⟩ := Option.ite_none_right_eq_some.1 hout
    obtain rfl := Option.some.inj hout
    have hcut := cutAtQuotes_translated (f := fun k : Key => b.get? k.2)
      (fun k p hp => hb.pseudonyms p (Codebook.mem_pseudonyms_of_get? hp)) js
    rw [hcut]
    exact ⟨rfl, forall₂_translate _ none _⟩

namespace SharedQuoteWitness

/-- Two names, one the beginning of the other. -/
def book : Codebook := ⟨[("a".toList, "x".toList), ("ab".toList, "y".toList)]⟩

/-- Three literals of one name in a row that share quotes, one of the other name, and a name between two kinds of quotes. -/
def js : Text := "f('a'a'a'ab'\"ab\"a'".toList

end SharedQuoteWitness

open SharedQuoteWitness in
/-- Literals that share quotes, in either order of the book. -/
theorem rename_translates_shared : IsLiteralCodebook book ∧
    rename book js = some "f('x'a'x'y'\"y\"a'".toList ∧
    rename ⟨book.entries.reverse⟩ js = some "f('x'a'x'y'\"y\"a'".toList ∧
    (cutAtQuotes "f('x'a'x'y'\"y\"a'".toList).1 = "f(".toList := by
  have hnames : (book.names.all fun n => n.all fun c => !isQuote c) = true := by decide
  have hpseudonyms : (book.pseudonyms.all fun p => p.all fun c => !isQuote c) = true := by decide
  have hb : IsLiteralCodebook book := ⟨by decide, by simpa using hnames, by simpa using hpseudonyms, by decide⟩
  obtain ⟨heq, -, hperm, hstrips⟩ := rename_translates hb js
  have hout : rename book js = some "f('x'a'x'y'\"y\"a'".toList := by
    rw [heq]
    decide +kernel
  exact ⟨hb, hout, (hperm _ (List.reverse_perm _)).trans hout, (hstrips _ hout).1.trans (by decide +kernel)⟩

end Pseudonym.Script
