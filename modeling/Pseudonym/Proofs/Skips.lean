import Pseudonym.Proofs.Mentions

/-!
# Mentions that the search passes over

The search takes an occurrence of a name as a whole, be it a reference or part of a longer name. A mention that is not exchanged
begins inside an occurrence that was taken (`exists_taken`). Where that one was exchanged, the mention overlaps it; but where it was
part of a longer name, the mention overlaps nothing that was exchanged, and a search for references alone would have found it
(`onlyReference`). The two searches agree on every text exactly if the name is apart from itself
(`search_finds_references`).
-/

namespace Pseudonym

theorem Piece.text_of_name? {q : Piece} {n : Text} (h : q.name? = some n) : q.text = n := by
  cases q with
  | fixed t => cases h
  | name m => exact Option.some.inj h

theorem Piece.length_text_le_join {q : Piece} {ps : List Piece} (h : q ∈ ps) : q.text.length ≤ (Piece.join ps).length := by
  obtain ⟨a, b, rfl⟩ := List.append_of_mem h
  rw [Piece.join_append, Piece.join_cons, List.length_append, List.length_append]
  omega

namespace Reference

open Piece (cut exchange join names search)

variable {n t : Text} {before : Option Char}

/-! ## The search, occurrence by occurrence -/

/-- A text is searched from occurrence to occurrence, character by character in between. -/
@[elab_as_elim]
theorem search_induction (hn : n ≠ []) {P : Option Char → Text → Prop} (hnil : ∀ before, P before [])
    (hchar : ∀ before c t, ¬n <+: c :: t → P (some c) t → P before (c :: t))
    (hname : ∀ before t, P n.getLast? t → P before (n ++ t)) (before : Option Char) (t : Text) : P before t := by
  induction hlength : t.length using Nat.strong_induction_on generalizing before t with
  | _ k ih =>
    by_cases hp : n <+: t
    · obtain ⟨s, rfl⟩ := hp
      have := List.length_pos_iff.2 hn
      exact hname before s (ih s.length (by simp [← hlength]; omega) _ s rfl)
    · cases t with
      | nil => exact hnil before
      | cons c t => exact hchar before c t hp (ih t.length (by simp [← hlength]) (some c) t rfl)

theorem search_nil (hn : n ≠ []) (before : Option Char) : search (occurrence n) 0 before [] = [] := by
  rw [search, occurrence_nil hn]
  rfl

theorem search_char {c : Char} (h : ¬n <+: c :: t) :
    search (occurrence n) 0 before (c :: t) = .fixed [c] :: search (occurrence n) 0 (some c) t := by
  have hocc : occurrence n before (c :: t) = none := if_neg fun hp => h (List.isPrefixOf_iff_prefix.1 hp)
  rw [search, hocc]

theorem getLast?_append_or (hn : n ≠ []) (w : Text) : (n ++ w).getLast?.or before = w.getLast?.or n.getLast? := by
  rw [List.getLast?_append, Option.or_assoc, List.getLast?_eq_some_getLast hn, Option.some_or]

/-- What is exchanged is a reference, by the text that was there. -/
theorem isReference_of_search (hn : n ≠ []) {a b : List Piece} (h : search (occurrence n) 0 before t = a ++ .name n :: b) :
    startsBehind ((join a).getLast?.or before) = true ∧ endsBefore (join b) = true := by
  induction before, t using search_induction hn generalizing a with
  | hnil before => rw [search_nil hn] at h; simp at h
  | hchar before c t hp ih =>
    rw [search_char hp] at h
    cases a with
    | nil => cases h
    | cons q a =>
      obtain ⟨rfl, hrest⟩ := List.cons.inj h
      rw [Piece.join_cons, Piece.text_fixed, List.singleton_append, getLast?_cons_or]
      exact ih hrest
  | hname before t ih =>
    rw [search_name hn] at h
    cases a with
    | nil =>
      obtain ⟨hq, rfl⟩ := List.cons.inj h
      split at hq
      · next hwhole =>
        rw [Piece.join_search (splits_occurrence n)]
        simpa using hwhole
      · cases hq
    | cons q a =>
      obtain ⟨rfl, hrest⟩ := List.cons.inj h
      have htext : (if startsBehind before && endsBefore t then Piece.name n else .fixed n).text = n := by split <;> rfl
      rw [Piece.join_cons, htext, getLast?_append_or hn]
      exact ih hrest

/-- A mention is exchanged, or it begins inside an occurrence that the search has taken as a whole. -/
theorem exists_taken (hn : n ≠ []) {u v : Text} (hstart : startsBehind (u.getLast?.or before) = true)
    (hend : endsBefore v = true) : ∃ a q b, search (occurrence n) 0 before (u ++ (n ++ v)) = a ++ q :: b ∧ q.text = n ∧
      (join a = u ∧ q = .name n ∨ (join a).length < u.length ∧ u.length < (join a).length + n.length) := by
  generalize ht : u ++ (n ++ v) = t
  induction before, t using search_induction hn generalizing u with
  | hnil before => simp [hn] at ht
  | hchar before c t hp ih =>
    cases u with
    | nil => exact absurd ⟨v, ht⟩ hp
    | cons d u =>
      obtain ⟨rfl, hrest⟩ := List.cons.inj ht
      rw [getLast?_cons_or] at hstart
      obtain ⟨a, q, b, hsearch, htext, hplace⟩ := ih hstart hrest
      refine ⟨.fixed [d] :: a, q, b, by rw [search_char hp, hsearch, List.cons_append], htext, ?_⟩
      rw [Piece.join_cons, Piece.text_fixed, List.singleton_append, List.length_cons, List.length_cons]
      exact hplace.imp (And.imp_left (congrArg _)) (by omega)
  | hname before t ih =>
    have htext : (if startsBehind before && endsBefore t then Piece.name n else .fixed n).text = n := by split <;> rfl
    rw [search_name hn]
    by_cases hlong : n.length ≤ u.length
    · -- the mention lies behind the occurrence
      obtain ⟨w, rfl⟩ := List.prefix_of_prefix_length_le ⟨t, rfl⟩ ⟨n ++ v, ht⟩ hlong
      rw [List.append_assoc, List.append_cancel_left_eq] at ht
      rw [getLast?_append_or hn] at hstart
      obtain ⟨a, q, b, hsearch, hq, hplace⟩ := ih hstart ht
      refine ⟨_ :: a, q, b, by rw [hsearch, List.cons_append], hq, ?_⟩
      rw [Piece.join_cons, htext, List.length_append, List.length_append]
      exact hplace.imp (And.imp_left (congrArg _)) (by omega)
    · refine ⟨[], _, _, rfl, htext, ?_⟩
      cases u with
      | nil =>
        obtain rfl : v = t := List.append_cancel_left ht
        have hwhole : (startsBehind before && endsBefore v) = true := by simpa using ⟨hstart, hend⟩
        exact .inl ⟨rfl, if_pos hwhole⟩
      | cons c u =>
        rw [Nat.not_le, List.length_cons] at hlong
        exact .inr ⟨by simp, by simp; omega⟩

/-! ## A search for references alone -/

/-- The matcher of a reference to a file. It takes no occurrence inside a longer name. -/
def onlyReference (n : Text) : Piece.Matcher := fun before t =>
  if n.isPrefixOf t && (startsBehind before && endsBefore (t.drop n.length)) then some ([.name n], n.length) else none

/-- The references to a file exchanged that a search for references alone finds. -/
def exchangeReferences? (n p t : Text) : Option Text := Piece.exchange? (fun _ => some p) (cut (onlyReference n) t)

/-- A name that stands as a whole is matched. -/
theorem onlyReference_name (hstart : startsBehind before = true) (hend : endsBefore t = true) :
    onlyReference n before (n ++ t) = some ([.name n], n.length) := by
  have hp : n.isPrefixOf (n ++ t) = true := List.isPrefixOf_iff_prefix.2 (List.prefix_append _ _)
  rw [onlyReference, if_pos (by simp [hp, hstart, hend])]

/-- A name that is part of a longer one is not. -/
theorem onlyReference_eq_none (h : ∀ v, t = n ++ v → startsBehind before = true → endsBefore v = false) :
    onlyReference n before t = none := by
  refine if_neg fun hmatch => ?_
  rw [Bool.and_eq_true, List.isPrefixOf_iff_prefix, Bool.and_eq_true] at hmatch
  obtain ⟨⟨v, rfl⟩, hstart, hend⟩ := hmatch
  rw [List.drop_left, h v rfl hstart] at hend
  cases hend

theorem search_onlyReference_name (hn : n ≠ []) (hstart : startsBehind before = true) (hend : endsBefore t = true) :
    search (onlyReference n) 0 before (n ++ t) = .name n :: search (onlyReference n) 0 n.getLast? t := by
  rw [Piece.search_append_of_match hn (onlyReference_name hstart hend), List.singleton_append]

/-- Where no reference begins, the search goes on behind one character. -/
theorem search_onlyReference_char {c : Char} (h : onlyReference n before (c :: t) = none) :
    search (onlyReference n) 0 before (c :: t) = .fixed [c] :: search (onlyReference n) 0 (some c) t := by
  rw [search, h]

theorem onlyReference_of_not_begins (h : ¬n <+: t) : onlyReference n before t = none :=
  onlyReference_eq_none fun v ht => absurd ⟨v, ht.symm⟩ h

/-- Wherever a name is mentioned, a search for references alone finds one. -/
theorem mem_names_of_mentions (hn : n ≠ []) (h : Mentions before n t) : n ∈ names (search (onlyReference n) 0 before t) := by
  induction t generalizing before with
  | nil => exact absurd h (mentions_nil hn)
  | cons c t ih =>
    cases hmatch : onlyReference n before (c :: t) with
    | some r =>
      obtain ⟨hcond, -⟩ := Option.ite_none_right_eq_some.1 hmatch
      rw [Bool.and_eq_true, List.isPrefixOf_iff_prefix, Bool.and_eq_true] at hcond
      obtain ⟨⟨v, hv⟩, hstart, hend⟩ := hcond
      rw [← hv, List.drop_left] at hend
      rw [← hv, search_onlyReference_name hn hstart hend]
      exact List.mem_cons_self
    | none =>
      rw [search_onlyReference_char hmatch]
      obtain ⟨u, v, ht, hstart, hend⟩ := h
      cases u with
      | nil =>
        rw [List.nil_append] at ht
        rw [ht, onlyReference_name (by exact hstart) hend] at hmatch
        cases hmatch
      | cons d u =>
        obtain ⟨rfl, hrest⟩ := List.cons.inj ht
        rw [getLast?_cons_or] at hstart
        exact ih ⟨u, v, hrest, hstart, hend⟩

/-- The pieces hold the same names, and whatever these are exchanged for, the same text comes out. -/
structure SameExchange (ps qs : List Piece) : Prop where
  names : names ps = names qs
  exchange : ∀ f, exchange f ps = exchange f qs

namespace SameExchange

variable {ps qs rs : List Piece}

theorem refl (ps : List Piece) : SameExchange ps ps := ⟨rfl, fun _ => rfl⟩

theorem trans (h : SameExchange ps qs) (h' : SameExchange qs rs) : SameExchange ps rs :=
  ⟨h.names.trans h'.names, fun f => (h.exchange f).trans (h'.exchange f)⟩

theorem symm (h : SameExchange ps qs) : SameExchange qs ps := ⟨h.names.symm, fun f => (h.exchange f).symm⟩

theorem cons (h : SameExchange ps qs) (p : Piece) : SameExchange (p :: ps) (p :: qs) := by
  cases p with
  | fixed t => exact ⟨h.names, fun f => congrArg (t ++ ·) (h.exchange f)⟩
  | name n => exact ⟨congrArg (n :: ·) h.names, fun f => congrArg ((f n).getD n ++ ·) (h.exchange f)⟩

/-- Fixed text may be cut. -/
theorem fixed_append (u w : Text) (ps : List Piece) : SameExchange (.fixed u :: .fixed w :: ps) (.fixed (u ++ w) :: ps) :=
  ⟨rfl, fun _ => (List.append_assoc ..).symm⟩

/-- Pieces that are exchanged alike give the same result. -/
theorem exchange?_eq (h : SameExchange ps qs) (f : Text → Option Text) : Piece.exchange? f ps = Piece.exchange? f qs := by
  rw [Piece.exchange?, Piece.exchange?, Piece.exchanged, Piece.exchanged, h.names, h.exchange]

end SameExchange

/-- Inside an occurrence of a name that is apart from itself no reference begins. -/
theorem search_onlyReference_inside (h : SelfApart n) (t : Text) {u w : Text} (hnw : n = u ++ w) (hu : u ≠ []) :
    SameExchange (search (onlyReference n) 0 u.getLast? (w ++ t)) (.fixed w :: search (onlyReference n) 0 n.getLast? t) := by
  induction w generalizing u with
  | nil =>
    rw [List.append_nil] at hnw
    rw [hnw]
    exact ⟨rfl, fun _ => rfl⟩
  | cons c w ih =>
    have hnone : onlyReference n u.getLast? (c :: (w ++ t)) = none := by
      refine onlyReference_eq_none fun v hv hstart => absurd hstart ?_
      have hprefix : c :: w <+: n :=
        List.prefix_of_prefix_length_le ⟨t, rfl⟩ ⟨v, hv.symm⟩ (by rw [hnw, List.length_append]; omega)
      rw [startsBehind, h u (c :: w) hnw hu (List.cons_ne_nil _ _) hprefix]
      exact Bool.false_ne_true
    have ih := ih (u := u ++ [c]) (by rw [hnw, List.append_assoc, List.singleton_append]) (by simp)
    rw [List.getLast?_concat] at ih
    rw [List.cons_append, search_onlyReference_char hnone]
    exact (ih.cons _).trans (.fixed_append [c] w _)

/-- Both searches exchange the same references to a name that is apart from itself. -/
theorem sameExchange_search (hn : n ≠ []) (h : SelfApart n) (before : Option Char) (t : Text) :
    SameExchange (search (occurrence n) 0 before t) (search (onlyReference n) 0 before t) := by
  induction before, t using search_induction hn with
  | hnil before =>
    have hnone : onlyReference n before [] = none := onlyReference_of_not_begins (by simpa using hn)
    rw [search_nil hn, search, hnone]
    exact .refl _
  | hchar before c t hp ih =>
    rw [search_char hp, search_onlyReference_char (onlyReference_of_not_begins hp)]
    exact ih.cons _
  | hname before t ih =>
    rw [search_name hn]
    split
    · next hwhole =>
      rw [Bool.and_eq_true] at hwhole
      rw [search_onlyReference_name hn hwhole.1 hwhole.2]
      exact ih.cons _
    · next hpart =>
      obtain ⟨c, w, hcw⟩ := List.exists_cons_of_ne_nil hn
      have hnone : onlyReference n before (c :: (w ++ t)) = none := by
        refine onlyReference_eq_none fun v hv hstart => ?_
        rw [← List.cons_append, ← hcw] at hv
        obtain rfl := List.append_cancel_left hv
        simpa [hstart] using hpart
      have hinside := search_onlyReference_inside h t (u := [c]) hcw (List.cons_ne_nil _ _)
      have htext : n ++ t = c :: (w ++ t) := by rw [hcw, List.cons_append]
      rw [htext, search_onlyReference_char hnone]
      refine (ih.cons _).trans (.symm ?_)
      have hjoined := (hinside.cons (.fixed [c])).trans (.fixed_append [c] w _)
      rwa [List.singleton_append, ← hcw] at hjoined

/-- A name that can begin inside another occurrence of it, behind a character that is none of a file name, is mentioned in a text in
which the search finds nothing. -/
theorem exists_passed_over (hn : n ≠ []) (h : ¬SelfApart n) : ∃ t, Mentions none n t ∧ ¬Stands n t := by
  simp only [SelfApart, not_forall] at h
  obtain ⟨u, v, hnuv, hu, hv, ⟨r, hr⟩, hlast⟩ := h
  obtain ⟨x, hx, hne⟩ : ∃ x, isFileNameChar x = true ∧ n.head? ≠ some x := by
    by_cases hhead : n.head? = some 'x'
    · exact ⟨'y', by decide, by rw [hhead]; decide⟩
    · exact ⟨'x', by decide, hhead⟩
  refine ⟨x :: (n ++ r), ⟨x :: u, [], ?_, ?_, rfl⟩, ?_⟩
  · calc x :: (n ++ r)
      _ = x :: (u ++ (v ++ r)) := by rw [hnuv, List.append_assoc]
      _ = x :: u ++ (n ++ []) := by rw [hr, List.append_nil, List.cons_append]
  · rw [Option.or_none, List.getLast?_cons, List.getLast?_eq_some_getLast hu, Option.getD_some]
    rw [List.getLast?_eq_some_getLast hu] at hlast
    simpa [startsBehind] using hlast
  · -- the occurrence behind the first character is taken, and too little is left behind it
    have hfirst : ¬n <+: x :: (n ++ r) := by
      obtain ⟨c, m, rfl⟩ := List.exists_cons_of_ne_nil hn
      rintro ⟨s, hs⟩
      exact hne (congrArg some (List.cons.inj hs).1)
    have hpart : startsBehind (some x) = false := by rw [startsBehind, Option.any_some, hx]; rfl
    have hshort : r.length < n.length := by
      have hlength := congrArg List.length hr
      have := List.length_pos_iff.2 hv
      rw [List.length_append] at hlength
      omega
    have hrest : n ∉ names (search (occurrence n) 0 n.getLast? r) := by
      intro hmem
      obtain ⟨q, hq, hname⟩ := List.mem_filterMap.1 hmem
      have hlength := Piece.length_text_le_join hq
      rw [Piece.join_search (splits_occurrence n), List.drop_zero, Piece.text_of_name? hname] at hlength
      omega
    rw [Stands, pieces, cut, search_char hfirst, search_name hn, hpart]
    simpa using hrest

/-- What the search exchanges are references, by the text that was there. A mention is one of them, or it begins inside an
occurrence of the name that the search has taken; that one may be part of a longer name, and then the mention is passed over though
it overlaps nothing that is exchanged. This never happens exactly if the name is apart from itself: then the search exchanges what
a search for references alone does. -/
theorem search_finds_references (hn : n ≠ []) :
    (∀ t p a b, pieces n t = a ++ .name n :: b → startsBehind (join a).getLast? = true ∧ endsBefore (join b) = true ∧
      exchange? (n, p) t = some (exchange (fun _ => some p) a ++ (p ++ exchange (fun _ => some p) b))) ∧
    (∀ u v, startsBehind u.getLast? = true → endsBefore v = true → ∃ a q b, pieces n (u ++ (n ++ v)) = a ++ q :: b ∧ q.text = n ∧
      (join a = u ∧ q = .name n ∨ (join a).length < u.length ∧ u.length < (join a).length + n.length)) ∧
    ((∀ p t, exchange? (n, p) t = exchangeReferences? n p t) ↔ SelfApart n) := by
  refine ⟨fun t p a b hpieces => ?_, fun u v hstart hend => ?_, ?_⟩
  · obtain ⟨hstart, hend⟩ := isReference_of_search hn hpieces
    rw [Option.or_none] at hstart
    refine ⟨hstart, hend, Piece.exchange?_eq_some_iff.2 ⟨⟨n, ?_, nofun⟩, ?_⟩⟩
    · rw [hpieces, Piece.names_append]
      exact List.mem_append_right _ List.mem_cons_self
    · rw [hpieces, Piece.exchange_append]
      rfl
  · exact exists_taken hn (by rwa [Option.or_none]) hend
  · constructor
    · intro hsame
      by_contra hnot
      obtain ⟨t, hmention, hstands⟩ := exists_passed_over hn hnot
      have hfound := mem_names_of_mentions hn hmention
      have hnone := hsame [] t
      rw [exchange?_eq_none_iff.2 hstands] at hnone
      have := Piece.exchange?_eq_none_iff.1 hnone.symm n hfound
      cases this
    · exact fun h p t => (sameExchange_search hn h none t).exchange?_eq _

/-- The occurrence behind the letter is taken, and the mention that begins inside it is passed over. -/
theorem search_finds_references_inside : "a a".toList ≠ [] ∧ exchange? ("a a".toList, "r".toList) "xa a a".toList = none ∧
    exchangeReferences? "a a".toList "r".toList "xa a a".toList = some "xa r".toList ∧ ¬SelfApart "a a".toList := by
  have hnone : exchange? ("a a".toList, "r".toList) "xa a a".toList = none := by decide
  have hsome : exchangeReferences? "a a".toList "r".toList "xa a a".toList = some "xa r".toList := by decide
  refine ⟨by decide, hnone, hsome, fun h => ?_⟩
  have hsame := (search_finds_references (n := "a a".toList) (by decide)).2.2.2 h "r".toList "xa a a".toList
  rw [hnone, hsome] at hsame
  cases hsame

/-- Not every reference is found that overlaps none which is exchanged. -/
theorem search_finds_references_false : ¬∀ n p t, n ≠ [] → exchange? (n, p) t = exchangeReferences? n p t := by
  intro h
  have hsame := h "a a".toList "r".toList "xa a a".toList (by decide)
  revert hsame
  decide

end Reference

end Pseudonym
