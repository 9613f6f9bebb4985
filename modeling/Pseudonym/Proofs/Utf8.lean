import Pseudonym.Document

/-!
# Reading back what was written

The chunk reader of UTF-8 and the encoder are inverse to each other: the bytes of a text are read as that text (`decode?_encode`),
and bytes that are read as a text are the bytes of it (`encode_of_decode?`). A byte below 0x80 is a chunk of its own wherever it
stands, so the bytes on its two sides are read apart (`decode?_append_ascii`). For documents it follows that every file's bytes
come back from its text (`Charset.encode_decode`).
-/

namespace Pseudonym

namespace Utf8

/-- A form that has begun, with `n` bytes owed after the next one, becomes the form of the character it is read as, whatever bytes
within its bounds follow. -/
def Begun.Completes : Nat → Begun → Prop
  | 0, p => p.owed = 1 ∧ ∀ b, p.low ≤ b → b ≤ p.high →
      encodeChar (Char.ofNat (p.value * 64 + b.toNat % 64)) = p.bytes ++ [b]
  | n + 1, p => p.owed = n + 2 ∧ ∀ b, p.low ≤ b → b ≤ p.high →
      Completes n { bytes := p.bytes ++ [b], value := p.value * 64 + b.toNat % 64, owed := p.owed - 1 }

namespace Utf8Aux

theorem toNat_ofNat {n : Nat} (h : n.isValidChar) : (Char.ofNat n).toNat = n := by
  rw [Char.ofNat, dif_pos h]
  rfl

theorem toUInt8_eq {n : Nat} {b : UInt8} (h : n = b.toNat) : n.toUInt8 = b := by
  subst h
  simp

/-- The number of a character is below the surrogates or above them. -/
theorem toNat_valid (c : Char) : c.toNat < 0xD800 ∨ 0xE000 ≤ c.toNat ∧ c.toNat < 0x110000 := by
  have h := c.valid
  simp only [UInt32.isValidChar, Nat.isValidChar] at h
  have e : c.toNat = c.val.toNat := rfl
  omega

/-! ## The bytes of a character, by how many there are -/

theorem encodeChar_one {a : UInt8} (h : a.toNat < 0x80) : encodeChar (Char.ofNat a.toNat) = [a] := by
  have e := toNat_ofNat (n := a.toNat) (by simp only [Nat.isValidChar]; omega)
  simp only [encodeChar, e]
  rw [if_pos h, toUInt8_eq rfl]

theorem encodeChar_two {a b : UInt8} {v : Nat} (hv : v = (a.toNat - 0xC0) * 64 + b.toNat % 64) (ha : 0xC2 ≤ a.toNat)
    (ha' : a.toNat < 0xE0) (hb : 0x80 ≤ b.toNat) (hb' : b.toNat ≤ 0xBF) : encodeChar (Char.ofNat v) = [a, b] := by
  have e := toNat_ofNat (n := v) (by simp only [Nat.isValidChar]; omega)
  simp only [encodeChar, e]
  rw [if_neg (by omega), if_pos (by omega), toUInt8_eq (b := a) (by omega), toUInt8_eq (b := b) (by omega)]

theorem encodeChar_three {a b c : UInt8} {v : Nat}
    (hv : v = ((a.toNat - 0xE0) * 64 + b.toNat % 64) * 64 + c.toNat % 64) (ha : 0xE0 ≤ a.toNat) (ha' : a.toNat < 0xF0)
    (hb : 0x80 ≤ b.toNat) (hb' : b.toNat ≤ 0xBF) (hc : 0x80 ≤ c.toNat) (hc' : c.toNat ≤ 0xBF) (hlow : 0x800 ≤ v)
    (hsur : v < 0xD800 ∨ 0xE000 ≤ v) : encodeChar (Char.ofNat v) = [a, b, c] := by
  have e := toNat_ofNat (n := v) (by simp only [Nat.isValidChar]; omega)
  simp only [encodeChar, e]
  rw [if_neg (by omega), if_neg (by omega), if_pos (by omega), toUInt8_eq (b := a) (by omega),
    toUInt8_eq (b := b) (by omega), toUInt8_eq (b := c) (by omega)]

theorem encodeChar_four {a b c d : UInt8} {v : Nat}
    (hv : v = (((a.toNat - 0xF0) * 64 + b.toNat % 64) * 64 + c.toNat % 64) * 64 + d.toNat % 64) (ha : 0xF0 ≤ a.toNat)
    (hb : 0x80 ≤ b.toNat) (hb' : b.toNat ≤ 0xBF) (hc : 0x80 ≤ c.toNat) (hc' : c.toNat ≤ 0xBF) (hd : 0x80 ≤ d.toNat)
    (hd' : d.toNat ≤ 0xBF) (hlow : 0x10000 ≤ v) (hhigh : v < 0x110000) :
    encodeChar (Char.ofNat v) = [a, b, c, d] := by
  have e := toNat_ofNat (n := v) (by simp only [Nat.isValidChar]; omega)
  simp only [encodeChar, e]
  rw [if_neg (by omega), if_neg (by omega), if_neg (by omega), toUInt8_eq (b := a) (by omega),
    toUInt8_eq (b := b) (by omega), toUInt8_eq (b := c) (by omega), toUInt8_eq (b := d) (by omega)]

/-! ## Every form that has begun ends as it should -/

theorem completes_two {b : UInt8} (hb : 0xC2 ≤ b.toNat) (hb' : b.toNat < 0xE0) :
    Begun.Completes 0 { bytes := [b], value := b.toNat - 0xC0, owed := 1 } := by
  refine ⟨rfl, ?_⟩
  intro c h1 h2
  simp only [UInt8.le_iff_toNat_le, UInt8.reduceToNat] at h1 h2
  exact encodeChar_two rfl hb hb' h1 h2

theorem completes_three {b low high : UInt8} {v : Nat} (hv : v = b.toNat - 0xE0) (hb : 0xE0 ≤ b.toNat)
    (hb' : b.toNat < 0xF0) (hl : 0x80 ≤ low.toNat) (hh : high.toNat ≤ 0xBF) (h0 : b.toNat = 0xE0 → 0xA0 ≤ low.toNat)
    (hD : b.toNat = 0xED → high.toNat ≤ 0x9F) :
    Begun.Completes 1 { bytes := [b], value := v, owed := 2, low, high } := by
  refine ⟨rfl, ?_⟩
  intro c h1 h2
  refine ⟨rfl, ?_⟩
  intro d h3 h4
  simp only [UInt8.le_iff_toNat_le, UInt8.reduceToNat] at h1 h2 h3 h4
  change encodeChar (Char.ofNat ((v * 64 + c.toNat % 64) * 64 + d.toNat % 64)) = [b, c, d]
  exact encodeChar_three (by rw [hv]) hb hb' (by omega) (by omega) h3 h4 (by omega) (by omega)

theorem completes_four {b low high : UInt8} {v : Nat} (hv : v = b.toNat - 0xF0) (hb : 0xF0 ≤ b.toNat)
    (hb' : b.toNat ≤ 0xF4) (hl : 0x80 ≤ low.toNat) (hh : high.toNat ≤ 0xBF) (h0 : b.toNat = 0xF0 → 0x90 ≤ low.toNat)
    (h4 : b.toNat = 0xF4 → high.toNat ≤ 0x8F) :
    Begun.Completes 2 { bytes := [b], value := v, owed := 3, low, high } := by
  refine ⟨rfl, ?_⟩
  intro c h1 h2
  refine ⟨rfl, ?_⟩
  intro d h3 h4
  refine ⟨rfl, ?_⟩
  intro e h5 h6
  simp only [UInt8.le_iff_toNat_le, UInt8.reduceToNat] at h1 h2 h3 h4 h5 h6
  change encodeChar (Char.ofNat (((v * 64 + c.toNat % 64) * 64 + d.toNat % 64) * 64 + e.toNat % 64)) = [b, c, d, e]
  exact encodeChar_four (by rw [hv]) hb (by omega) (by omega) h3 h4 h5 h6 (by omega) (by omega)

theorem first_completes {b : UInt8} {p : Begun} (h : first b = .inr p) : p.bytes = [b] ∧ ∃ n, p.Completes n := by
  have hle : UInt8.toNat 0x80 ≤ 0xBF := by decide
  unfold first at h
  simp only at h
  split at h
  · cases h
  split at h
  · cases h
  split at h
  · cases h
    exact ⟨rfl, 0, completes_two (by omega) (by omega)⟩
  split at h
  · cases h
    exact ⟨rfl, 1, completes_three (by omega) (by omega) (by omega) (by decide) (by decide) (fun _ => by decide)
      (by omega)⟩
  split at h
  · cases h
    exact ⟨rfl, 1, completes_three (by omega) (by omega) (by omega) (by decide) (by decide) (by omega)
      (fun _ => by decide)⟩
  split at h
  · cases h
    exact ⟨rfl, 1, completes_three rfl (by omega) (by omega) (by decide) (by decide) (by omega) (by omega)⟩
  split at h
  · cases h
    exact ⟨rfl, 2, completes_four (by omega) (by omega) (by omega) (by decide) (by decide) (fun _ => by decide)
      (by omega)⟩
  split at h
  · cases h
    exact ⟨rfl, 2, completes_four rfl (by omega) (by omega) (by decide) (by decide) (by omega) (by omega)⟩
  split at h
  · cases h
    exact ⟨rfl, 2, completes_four (by omega) (by omega) (by omega) (by decide) (by decide) (by omega)
      (fun _ => by decide)⟩
  · cases h

theorem first_char {b : UInt8} {c : Char} (h : first b = .inl (.char c)) : encodeChar c = [b] := by
  unfold first at h
  simp only at h
  split at h
  · next hb =>
    cases h
    exact encodeChar_one hb
  repeat' split at h
  all_goals cases h

/-- A byte that is accepted completes the character or leaves less to come. -/
theorem next_of_completes {n : Nat} {p : Begun} (hp : p.Completes n) {b : UInt8} {r : Chunk ⊕ Begun}
    (h : p.next b = some r) :
    (∃ c, r = .inl (.char c) ∧ encodeChar c = p.bytes ++ [b]) ∨
      ∃ q m, r = .inr q ∧ q.Completes m ∧ q.bytes = p.bytes ++ [b] := by
  unfold Begun.next at h
  split at h
  · next hb =>
    cases n with
    | zero =>
      obtain ⟨ho, hc⟩ := hp
      simp only [ho, if_true, Option.some.injEq] at h
      exact Or.inl ⟨_, h.symm, hc b hb.1 hb.2⟩
    | succ n =>
      obtain ⟨ho, hc⟩ := hp
      have hne : ¬p.owed = 1 := by omega
      simp only [hne, if_false, Option.some.injEq] at h
      exact Or.inr ⟨_, n, h.symm, hc b hb.1 hb.2, rfl⟩
  · cases h

end Utf8Aux

open Utf8Aux

/-! ## From bytes to text and back -/

@[simp] theorem encode_nil : encode [] = [] := rfl

@[simp] theorem encode_cons (c : Char) (t : Text) : encode (c :: t) = encodeChar c ++ encode t := rfl

@[simp] theorem encode_append (s t : Text) : encode (s ++ t) = encode s ++ encode t := by
  simp [encode]

/-- A text that is read on from a form that has begun is written with the bytes of that form and those read. -/
theorem encode_of_text?_chunksFrom {o : Option Begun} (ho : ∀ p, o = some p → ∃ n, p.Completes n) {bs : Bytes} {t : Text}
    (h : text? (chunksFrom o bs) = some t) : encode t = (o.map Begun.bytes).getD [] ++ bs := by
  induction bs generalizing o t with
  | nil =>
    cases o with
    | none =>
      simp only [chunksFrom, text?, Option.some.injEq] at h
      subst h
      rfl
    | some p => simp [chunksFrom, text?] at h
  | cons b bs ih =>
    cases o with
    | none =>
      simp only [chunksFrom] at h
      split at h
      · next u hu =>
        cases u with
        | broken bytes => simp [text?] at h
        | char c =>
          obtain ⟨t', ht', rfl⟩ := Option.map_eq_some_iff.1 h
          simpa [first_char hu] using ih (o := none) (by simp) ht'
      · next p hp =>
        obtain ⟨hb, hc⟩ := first_completes hp
        simpa [hb] using ih (o := some p) (fun q hq => by cases hq; exact hc) h
    | some p =>
      obtain ⟨n, hp⟩ := ho p rfl
      simp only [chunksFrom] at h
      split at h
      · next u hu =>
        rcases next_of_completes hp hu with ⟨c, hr, hc⟩ | ⟨q, m, hr, -, -⟩
        · cases hr
          obtain ⟨t', ht', rfl⟩ := Option.map_eq_some_iff.1 h
          simpa [hc] using ih (o := none) (by simp) ht'
        · cases hr
      · next q hq =>
        rcases next_of_completes hp hq with ⟨c, hr, -⟩ | ⟨q, m, hr, hc, hb⟩
        · cases hr
        · cases hr
          simpa [hb] using ih (o := some q) (fun q' hq' => by cases hq'; exact ⟨m, hc⟩) h
      · simp [text?] at h

/-- Bytes that are read as a text are the bytes of that text. -/
theorem encode_of_decode? {bs : Bytes} {t : Text} (h : decode? bs = some t) : encode t = bs := by
  simpa using encode_of_text?_chunksFrom (o := none) (by simp) h

namespace Utf8Aux

theorem toNat_toUInt8 {n : Nat} (h : n < 256) : n.toUInt8.toNat = n := by
  simp [Nat.mod_eq_of_lt h]

theorem chunksFrom_begin {p : Begun} {b : UInt8} (h : first b = .inr p) (bs : Bytes) :
    chunksFrom none (b :: bs) = chunksFrom (some p) bs := by
  simp only [chunksFrom, h]

/-- A byte within the bounds that completes a form. -/
theorem chunksFrom_last {p : Begun} {b : UInt8} (ho : p.owed = 1) (hl : p.low.toNat ≤ b.toNat) (hh : b.toNat ≤ p.high.toNat)
    (bs : Bytes) :
    chunksFrom (some p) (b :: bs) = .char (Char.ofNat (p.value * 64 + b.toNat % 64)) :: chunksFrom none bs := by
  have hn : p.next b = some (.inl (.char (Char.ofNat (p.value * 64 + b.toNat % 64)))) := by
    unfold Begun.next
    rw [if_pos ⟨UInt8.le_iff_toNat_le.2 hl, UInt8.le_iff_toNat_le.2 hh⟩]
    simp [ho]
  simp only [chunksFrom, hn]

/-- A byte within the bounds with more to come. -/
theorem chunksFrom_more {p : Begun} {b : UInt8} (ho : p.owed ≠ 1) (hl : p.low.toNat ≤ b.toNat) (hh : b.toNat ≤ p.high.toNat)
    (bs : Bytes) : chunksFrom (some p) (b :: bs) =
      chunksFrom (some { bytes := p.bytes ++ [b], value := p.value * 64 + b.toNat % 64, owed := p.owed - 1 }) bs := by
  have hn : p.next b = some (.inr { bytes := p.bytes ++ [b], value := p.value * 64 + b.toNat % 64, owed := p.owed - 1 }) := by
    unfold Begun.next
    rw [if_pos ⟨UInt8.le_iff_toNat_le.2 hl, UInt8.le_iff_toNat_le.2 hh⟩]
    simp [ho]
  simp only [chunksFrom, hn]

theorem first_of_two {b : UInt8} (h : 0xC2 ≤ b.toNat) (h' : b.toNat < 0xE0) :
    first b = .inr { bytes := [b], value := b.toNat - 0xC0, owed := 1 } := by
  simp only [first]
  rw [if_neg (by omega), if_neg (by omega), if_pos h']

/-- The first byte of three: the bounds of the next one shut out forms that are too long and the surrogates. -/
theorem first_of_three {b : UInt8} (h : 0xE0 ≤ b.toNat) (h' : b.toNat < 0xF0) :
    ∃ low high : UInt8, first b = .inr { bytes := [b], value := b.toNat - 0xE0, owed := 2, low, high } ∧
      low.toNat = (if b.toNat = 0xE0 then 0xA0 else 0x80) ∧ high.toNat = (if b.toNat = 0xED then 0x9F else 0xBF) := by
  simp only [first]
  rw [if_neg (by omega), if_neg (by omega), if_neg (by omega)]
  by_cases h0 : b.toNat = 0xE0
  · exact ⟨0xA0, 0xBF, by simp [h0], by simp [h0], by simp [h0]⟩
  by_cases hD : b.toNat = 0xED
  · exact ⟨0x80, 0x9F, by simp [hD], by simp [hD], by simp [hD]⟩
  · exact ⟨0x80, 0xBF, by simp [h0, hD, h'], by simp [h0], by simp [hD]⟩

/-- The first byte of four: the bounds of the next one shut out forms that are too long and numbers that are too great. -/
theorem first_of_four {b : UInt8} (h : 0xF0 ≤ b.toNat) (h' : b.toNat ≤ 0xF4) :
    ∃ low high : UInt8, first b = .inr { bytes := [b], value := b.toNat - 0xF0, owed := 3, low, high } ∧
      low.toNat = (if b.toNat = 0xF0 then 0x90 else 0x80) ∧ high.toNat = (if b.toNat = 0xF4 then 0x8F else 0xBF) := by
  simp only [first]
  rw [if_neg (by omega), if_neg (by omega), if_neg (by omega), if_neg (by omega), if_neg (by omega), if_neg (by omega)]
  by_cases h0 : b.toNat = 0xF0
  · exact ⟨0x90, 0xBF, by simp [h0], by simp [h0], by simp [h0]⟩
  by_cases h4 : b.toNat = 0xF4
  · exact ⟨0x80, 0x8F, by simp [h4], by simp [h4], by simp [h4]⟩
  · exact ⟨0x80, 0xBF, by simp [h0, show b.toNat < 0xF4 by omega], by simp [h0], by simp [h4]⟩

/-! ## A form of each length is read as its character -/

theorem chunksFrom_one {a : UInt8} (ha : a.toNat < 0x80) (bs : Bytes) :
    chunksFrom none (a :: bs) = .char (Char.ofNat a.toNat) :: chunksFrom none bs := by
  simp [chunksFrom, first, ha]

theorem chunksFrom_two {a b : UInt8} (ha : 0xC2 ≤ a.toNat) (ha' : a.toNat < 0xE0) (hb : 0x80 ≤ b.toNat)
    (hb' : b.toNat ≤ 0xBF) (bs : Bytes) : chunksFrom none (a :: b :: bs) =
      .char (Char.ofNat ((a.toNat - 0xC0) * 64 + b.toNat % 64)) :: chunksFrom none bs := by
  rw [chunksFrom_begin (first_of_two ha ha'), chunksFrom_last rfl (by simpa using hb) (by simpa using hb')]

theorem chunksFrom_three {a b c : UInt8} (ha : 0xE0 ≤ a.toNat) (ha' : a.toNat < 0xF0) (hb : 0x80 ≤ b.toNat)
    (hb' : b.toNat ≤ 0xBF) (h0 : a.toNat = 0xE0 → 0xA0 ≤ b.toNat) (hD : a.toNat = 0xED → b.toNat ≤ 0x9F)
    (hc : 0x80 ≤ c.toNat) (hc' : c.toNat ≤ 0xBF) (bs : Bytes) : chunksFrom none (a :: b :: c :: bs) =
      .char (Char.ofNat (((a.toNat - 0xE0) * 64 + b.toNat % 64) * 64 + c.toNat % 64)) :: chunksFrom none bs := by
  obtain ⟨low, high, hf, hl, hh⟩ := first_of_three ha ha'
  rw [chunksFrom_begin hf, chunksFrom_more (by simp) (by simp only [hl]; split <;> omega)
    (by simp only [hh]; split <;> omega), chunksFrom_last rfl (by simpa using hc) (by simpa using hc')]

theorem chunksFrom_four {a b c d : UInt8} (ha : 0xF0 ≤ a.toNat) (ha' : a.toNat ≤ 0xF4) (hb : 0x80 ≤ b.toNat)
    (hb' : b.toNat ≤ 0xBF) (h0 : a.toNat = 0xF0 → 0x90 ≤ b.toNat) (h4 : a.toNat = 0xF4 → b.toNat ≤ 0x8F)
    (hc : 0x80 ≤ c.toNat) (hc' : c.toNat ≤ 0xBF) (hd : 0x80 ≤ d.toNat) (hd' : d.toNat ≤ 0xBF) (bs : Bytes) :
    chunksFrom none (a :: b :: c :: d :: bs) =
      .char (Char.ofNat ((((a.toNat - 0xF0) * 64 + b.toNat % 64) * 64 + c.toNat % 64) * 64 + d.toNat % 64)) ::
        chunksFrom none bs := by
  obtain ⟨low, high, hf, hl, hh⟩ := first_of_four ha ha'
  rw [chunksFrom_begin hf, chunksFrom_more (by simp) (by simp only [hl]; split <;> omega)
    (by simp only [hh]; split <;> omega), chunksFrom_more (by simp) (by simpa using hc) (by simpa using hc'),
    chunksFrom_last rfl (by simpa using hd) (by simpa using hd')]

end Utf8Aux

/-- A character's form is read as that character, whatever follows. -/
theorem chunksFrom_encodeChar (c : Char) (bs : Bytes) : chunksFrom none (encodeChar c ++ bs) = .char c :: chunksFrom none bs := by
  have hv := toNat_valid c
  have he := Char.ofNat_toNat c
  simp only [encodeChar]
  generalize c.toNat = n at hv he ⊢
  split
  · have h1 := toNat_toUInt8 (n := n) (by omega)
    rw [List.singleton_append, chunksFrom_one (by omega), h1, he]
  split
  · have h1 := toNat_toUInt8 (n := 0xC0 + n / 64) (by omega)
    have h2 := toNat_toUInt8 (n := 0x80 + n % 64) (by omega)
    simp only [List.cons_append, List.nil_append]
    rw [chunksFrom_two (by omega) (by omega) (by omega) (by omega), h1, h2,
      show (0xC0 + n / 64 - 0xC0) * 64 + (0x80 + n % 64) % 64 = n by omega, he]
  split
  · have h1 := toNat_toUInt8 (n := 0xE0 + n / 4096) (by omega)
    have h2 := toNat_toUInt8 (n := 0x80 + n / 64 % 64) (by omega)
    have h3 := toNat_toUInt8 (n := 0x80 + n % 64) (by omega)
    simp only [List.cons_append, List.nil_append]
    rw [chunksFrom_three (by omega) (by omega) (by omega) (by omega) (by omega) (by omega) (by omega) (by omega), h1, h2, h3,
      show ((0xE0 + n / 4096 - 0xE0) * 64 + (0x80 + n / 64 % 64) % 64) * 64 + (0x80 + n % 64) % 64 = n by omega, he]
  · have h1 := toNat_toUInt8 (n := 0xF0 + n / 262144) (by omega)
    have h2 := toNat_toUInt8 (n := 0x80 + n / 4096 % 64) (by omega)
    have h3 := toNat_toUInt8 (n := 0x80 + n / 64 % 64) (by omega)
    have h4 := toNat_toUInt8 (n := 0x80 + n % 64) (by omega)
    simp only [List.cons_append, List.nil_append]
    rw [chunksFrom_four (by omega) (by omega) (by omega) (by omega) (by omega) (by omega) (by omega) (by omega) (by omega)
        (by omega), h1, h2, h3, h4,
      show (((0xF0 + n / 262144 - 0xF0) * 64 + (0x80 + n / 4096 % 64) % 64) * 64 + (0x80 + n / 64 % 64) % 64) * 64 +
        (0x80 + n % 64) % 64 = n by omega, he]

/-- The bytes of a text are read as its characters. -/
theorem chunksFrom_encode (t : Text) : chunksFrom none (encode t) = t.map .char := by
  induction t with
  | nil => rfl
  | cons c t ih => rw [encode_cons, chunksFrom_encodeChar, ih, List.map_cons]

/-- The bytes of a text are read as that text. -/
theorem decode?_encode (t : Text) : decode? (encode t) = some t := by
  rw [decode?, chunks, chunksFrom_encode]
  induction t with
  | nil => rfl
  | cons c t ih => simp [text?, ih]

/-- Texts with the same bytes are one. -/
theorem encode_injective {s t : Text} (h : encode s = encode t) : s = t := by
  have := decode?_encode s
  rw [h, decode?_encode] at this
  exact (Option.some.inj this).symm

/-! ## Bytes on the two sides of an ASCII byte -/

namespace Utf8Aux

/-- The bounds of the next byte lie above ASCII. -/
theorem low_first {b : UInt8} {p : Begun} (h : first b = .inr p) : 0x80 ≤ p.low.toNat := by
  unfold first at h
  simp only at h
  repeat' split at h
  all_goals cases h
  all_goals simp

theorem low_next {p q : Begun} {b : UInt8} (h : p.next b = some (.inr q)) : 0x80 ≤ q.low.toNat := by
  unfold Begun.next at h
  simp only at h
  repeat' split at h
  all_goals cases h
  simp

/-- An ASCII byte completes no character of several bytes. -/
theorem next_ascii {p : Begun} {a : UInt8} (hp : 0x80 ≤ p.low.toNat) (ha : a.toNat < 0x80) : p.next a = none := by
  unfold Begun.next
  rw [if_neg (fun h => by have := UInt8.le_iff_toNat_le.1 h.1; omega)]

end Utf8Aux

/-- An ASCII byte breaks off a form that has begun and is a chunk of its own. -/
theorem chunksFrom_append_ascii {o : Option Begun} (ho : ∀ p, o = some p → 0x80 ≤ p.low.toNat) {a : UInt8}
    (ha : a.toNat < 0x80) (x y : Bytes) :
    chunksFrom o (x ++ a :: y) = chunksFrom o x ++ .char (Char.ofNat a.toNat) :: chunksFrom none y := by
  have hf : first a = .inl (.char (Char.ofNat a.toNat)) := by simp [first, ha]
  induction x generalizing o with
  | nil =>
    cases o with
    | none => simp [chunksFrom, hf]
    | some p => simp [chunksFrom, hf, next_ascii (ho p rfl) ha]
  | cons b x ih =>
    have hfirst (p : Begun) (h : first b = .inr p) : chunksFrom (some p) (x ++ a :: y) =
        chunksFrom (some p) x ++ .char (Char.ofNat a.toNat) :: chunksFrom none y :=
      ih fun q hq => by cases hq; exact low_first h
    cases o with
    | none =>
      simp only [List.cons_append, chunksFrom]
      split
      · simp [ih (o := none)]
      · next p hp => exact hfirst p hp
    | some p =>
      simp only [List.cons_append, chunksFrom]
      split
      · simp [ih (o := none)]
      · next q hq => exact ih fun q' hq' => by cases hq'; exact low_next hq
      · split
        · simp [ih (o := none)]
        · next q hq => simp [hfirst q hq]

/-- Bytes are a text if their parts are. -/
theorem text?_append (us vs : List Chunk) :
    text? (us ++ vs) = (text? us).bind fun s => (text? vs).map (s ++ ·) := by
  induction us with
  | nil => simp [text?]
  | cons u us ih =>
    cases u with
    | char c => cases h : text? us <;> simp [text?, ih, h, Function.comp_def]
    | broken b => simp [text?]

/-- Bytes around an ASCII byte are read as the texts on its two sides, if they are texts, and its character between them. -/
theorem decode?_append_ascii {a : UInt8} (ha : a.toNat < 0x80) (x y : Bytes) : decode? (x ++ a :: y) =
    (decode? x).bind fun s => (decode? y).map fun t => s ++ Char.ofNat a.toNat :: t := by
  simp only [decode?, chunks]
  rw [chunksFrom_append_ascii (by simp) ha, text?_append]
  cases text? (chunksFrom none x) <;> cases h : text? (chunksFrom none y) <;> simp [text?, h]

/-- Bytes around an ASCII byte are read as a text exactly when those before it and those behind it are. -/
theorem isSome_decode?_append_ascii {a : UInt8} (ha : a.toNat < 0x80) (x y : Bytes) :
    (decode? (x ++ a :: y)).isSome = ((decode? x).isSome && (decode? y).isSome) := by
  rw [decode?_append_ascii ha]
  cases decode? x <;> cases decode? y <;> rfl

/-! ## The ASCII bytes of a text -/

/-- An ASCII byte belongs to the form of its own character only. -/
theorem ascii_mem_encodeChar {a : UInt8} (ha : a.toNat < 0x80) {c : Char} : a ∈ encodeChar c ↔ c.toNat = a.toNat := by
  have hv := toNat_valid c
  have hne {n : Nat} (hn : 0x80 ≤ n) (hn' : n < 256) : a ≠ n.toUInt8 := by
    rintro rfl
    rw [toNat_toUInt8 hn'] at ha
    omega
  simp only [encodeChar]
  split
  · have h1 := toNat_toUInt8 (n := c.toNat) (by omega)
    rw [List.mem_singleton]
    exact ⟨fun h => by rw [h, h1], fun h => by rw [← UInt8.toNat_inj, h1, h]⟩
  split
  · simp only [List.mem_cons, List.not_mem_nil, or_false]
    exact ⟨fun h => by rcases h with h | h <;> exact absurd h (hne (by omega) (by omega)), by omega⟩
  split
  · simp only [List.mem_cons, List.not_mem_nil, or_false]
    exact ⟨fun h => by rcases h with h | h | h <;> exact absurd h (hne (by omega) (by omega)), by omega⟩
  · simp only [List.mem_cons, List.not_mem_nil, or_false]
    exact ⟨fun h => by rcases h with h | h | h | h <;> exact absurd h (hne (by omega) (by omega)), by omega⟩

/-- A text holds an ASCII character exactly where its bytes hold that character's byte. -/
theorem ascii_mem_encode {a : UInt8} (ha : a.toNat < 0x80) {t : Text} : a ∈ encode t ↔ Char.ofNat a.toNat ∈ t := by
  simp only [encode, List.mem_flatMap, ascii_mem_encodeChar ha]
  constructor
  · rintro ⟨c, hc, e⟩
    rwa [← e, Char.ofNat_toNat]
  · intro h
    exact ⟨_, h, toNat_ofNat (by simp only [Nat.isValidChar]; omega)⟩

end Utf8

namespace Charset

theorem byteOf_of_lt {c : Char} (h : c.toNat < 256) : byteOf c = [c.toNat.toUInt8] := if_pos h

/-- The number of a byte's character is the byte's. -/
theorem toNat_ofNat_toNat (b : UInt8) : (Char.ofNat b.toNat).toNat = b.toNat := by
  have := b.toNat_lt
  exact Utf8.Utf8Aux.toNat_ofNat (by simp only [Nat.isValidChar]; omega)

theorem byteOf_ofNat (b : UInt8) : byteOf (Char.ofNat b.toNat) = [b] := by
  rw [byteOf_of_lt (by rw [toNat_ofNat_toNat]; exact b.toNat_lt), toNat_ofNat_toNat, Utf8.Utf8Aux.toUInt8_eq rfl]

/-- A file's bytes come back from its text. -/
theorem encode_decode (bytes : Bytes) : (decode bytes).2.encode (decode bytes).1 = bytes := by
  unfold decode
  split
  · next t h => exact Utf8.encode_of_decode? h
  · simp [encode, List.flatMap_map, byteOf_ofNat]

end Charset

end Pseudonym
