import Mathlib.Data.List.TakeWhile
import Pseudonym.Path
import Pseudonym.Proofs.Utf8
import Pseudonym.Token

/-!
# Extensions of names

The extension of a name is what stands behind its last dot, if something stands before that dot (`extensionOf_eq_some`,
`extensionOf_append`). Of a name that is a text the extension is a text too, and a part of it (`textExtension?_eq_some`). A file token
made for a name has the name's extension, unless that is empty (`IsFileToken`).
-/

namespace Pseudonym

namespace Path

/-- The extension that a name has holds no dot, and something stands before the dot that it follows. -/
theorem extensionOf_eq_some {name ext : Bytes} (h : extensionOf name = some ext) :
    ∃ pre, pre ≠ [] ∧ name = pre ++ dot :: ext ∧ dot ∉ ext := by
  unfold extensionOf at h
  simp only at h
  split at h
  · next hc =>
    obtain ⟨hlen, -⟩ := by simpa using hc
    cases h
    have e := List.takeWhile_append_dropWhile (p := (· != dot)) (l := name.reverse)
    have hd := List.head?_dropWhile_not (· != dot) name.reverse
    have hall := List.all_takeWhile (p := (· != dot)) (l := name.reverse)
    generalize name.reverse.takeWhile (· != dot) = x at *
    cases hy : name.reverse.dropWhile (· != dot) with
    | nil =>
      rw [hy, List.append_nil] at e
      have := congrArg List.length e
      simp only [List.length_reverse] at this
      omega
    | cons d y =>
      rw [hy] at e hd
      obtain rfl : d = dot := by simpa using hd
      have hname : name = y.reverse ++ dot :: x.reverse := by
        rw [← List.reverse_reverse name, ← e]
        simp
      refine ⟨y.reverse, ?_, hname, ?_⟩
      · rintro hnil
        rw [hname, hnil] at hlen
        simp at hlen
      · intro hm
        have := List.all_eq_true.1 hall dot (by simpa using hm)
        simp at this
  · cases h

/-- What stands behind the last dot is the extension, if something stands before that dot. -/
theorem extensionOf_append {pre ext : Bytes} (hpre : pre ≠ []) (hext : dot ∉ ext) (habove : pre ++ dot :: ext ≠ above) :
    extensionOf (pre ++ dot :: ext) = some ext := by
  have htake : (pre ++ dot :: ext).reverse.takeWhile (· != dot) = ext.reverse := by
    rw [List.reverse_append, List.reverse_cons, List.append_assoc, List.takeWhile_append_of_pos]
    · simp
    · intro b hb
      have : b ≠ dot := by
        rintro rfl
        exact hext (by simpa using hb)
      simpa using this
  have hlen : 0 < pre.length := List.length_pos_iff.2 hpre
  unfold extensionOf
  simp only [htake, List.reverse_reverse]
  rw [if_pos]
  simp only [Bool.and_eq_true, decide_eq_true_eq, bne_iff_ne]
  exact ⟨by simp only [List.length_append, List.length_cons]; omega, habove⟩

/-- A name without a dot has no extension. -/
theorem extensionOf_of_not_mem {name : Bytes} (h : dot ∉ name) : extensionOf name = none := by
  have htake : name.reverse.takeWhile (· != dot) = name.reverse := by
    rw [List.takeWhile_eq_self_iff]
    intro b hb
    have : b ≠ dot := by
      rintro rfl
      exact h (by simpa using hb)
    simpa using this
  unfold extensionOf
  simp only [htake, List.reverse_reverse]
  rw [if_neg]
  simp only [Bool.and_eq_true, decide_eq_true_eq, not_and]
  omega

end Path

/-- Letters and digits stand in identifiers. -/
theorem Token.isIdentChar_of_mem_alphanumerics : ∀ c ∈ alphanumerics, isIdentChar c = true := List.all_eq_true.1 (by decide)

/-- The extension of a name that is a text. -/
def textExtension? (name : Text) : Option Text := (Path.extensionOf (Utf8.encode name)).bind Utf8.decode?

/-- A token of ten letters and digits with an extension behind a dot, unless that is missing or empty. -/
def IsFileToken (extension : Option Text) (t : Text) : Prop :=
  ∃ s : Text, s.length = Token.fileTokenLength ∧ (∀ c ∈ s, c ∈ Token.alphanumerics) ∧ t = s ++ Token.extensionSuffix extension

/-- The extension of a text is a part of it behind a dot, holds no dot, and does not begin the text. -/
theorem textExtension?_eq_some {name ext : Text} (h : textExtension? name = some ext) :
    ∃ pre, pre ≠ [] ∧ name = pre ++ '.' :: ext ∧ '.' ∉ ext := by
  obtain ⟨bytes, hb, hd⟩ := Option.bind_eq_some_iff.1 h
  obtain ⟨pre, hne, hname, hdot⟩ := Path.extensionOf_eq_some hb
  obtain rfl := Utf8.encode_of_decode? hd
  have hdec := Utf8.decode?_encode name
  rw [hname, Utf8.decode?_append_ascii (by decide), Option.bind_eq_some_iff] at hdec
  obtain ⟨s, hs, ht⟩ := hdec
  rw [hd] at ht
  cases ht
  refine ⟨s, ?_, rfl, fun hm => hdot ((Utf8.ascii_mem_encode (a := Path.dot) (by decide)).2 hm)⟩
  rintro rfl
  exact hne (by simpa using (Utf8.encode_of_decode? hs).symm)

/-- What holds of letters and digits and of the characters of a name holds of those of a token that is made for the name. -/
theorem IsFileToken.forall_mem {P : Char → Prop} {n p : Text} (h : IsFileToken (textExtension? n) p)
    (htoken : ∀ c ∈ Token.alphanumerics, P c) (hn : ∀ c ∈ n, P c) : ∀ c ∈ p, P c := by
  obtain ⟨s, -, hs, rfl⟩ := h
  refine List.forall_mem_append.2 ⟨fun c hc => htoken c (hs c hc), fun c hc => ?_⟩
  unfold Token.extensionSuffix at hc
  split at hc
  · next x ext he =>
    obtain ⟨pre, -, rfl, -⟩ := textExtension?_eq_some he
    exact hn c (List.mem_append_right _ hc)
  · cases hc

/-- What stands behind the last dot of a text is its extension, if it is something and something stands before that dot. -/
theorem textExtension?_append {pre ext : Text} (hpre : pre ≠ []) (hext : ext ≠ []) (hdot : '.' ∉ ext) :
    textExtension? (pre ++ '.' :: ext) = some ext := by
  have hencode : Utf8.encode (pre ++ '.' :: ext) = Utf8.encode pre ++ Path.dot :: Utf8.encode ext := by
    rw [Utf8.encode_append, Utf8.encode_cons]
    rfl
  have hnil {t : Text} (ht : t ≠ []) : Utf8.encode t ≠ [] := fun h => ht (Utf8.encode_injective h)
  have habove : Utf8.encode pre ++ Path.dot :: Utf8.encode ext ≠ Path.above := by
    intro heq
    have hlen := congrArg List.length heq
    have hpos := List.length_pos_iff.2 (hnil hpre)
    have hpos' := List.length_pos_iff.2 (hnil hext)
    simp only [List.length_append, List.length_cons, Path.above, List.length_nil] at hlen
    omega
  have hdot' : Path.dot ∉ Utf8.encode ext := fun hm => hdot ((Utf8.ascii_mem_encode (a := Path.dot) (by decide)).1 hm)
  rw [textExtension?, hencode, Path.extensionOf_append (hnil hpre) hdot' habove, Option.bind_some, Utf8.decode?_encode]

end Pseudonym
