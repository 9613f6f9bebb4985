/-!
# Sources of random words

A source hands out 64-bit words, one after the other. A number below `n` is drawn from it without bias: a word times `n` is
split at the 64th bit, the upper part is the number, and the word is refused when the lower part lies beyond the zone in which
every number has the same share. A refused word is followed by another.

That may go on for ever, if a source hands out nothing but words that are refused. A draw here gives up at a limit that no generator
comes to (`WordSource.patience`). Where a word is accepted within the limit, the draw is the one without limit (`WordSource.Draws`,
`WordSource.draw_of_draws`).
-/

namespace Pseudonym

/-- A state from which one word after the other can be taken. -/
class WordSource (σ : Type) where
  /-- The next word, and the state behind it. -/
  next : σ → UInt64 × σ

/-- One of two kinds of sources is a source. -/
instance {σ τ : Type} [WordSource σ] [WordSource τ] : WordSource (σ ⊕ τ) where
  next
    | .inl s => let (w, s) := WordSource.next s; (w, .inl s)
    | .inr s => let (w, s) := WordSource.next s; (w, .inr s)

namespace WordSource

variable {σ : Type} [WordSource σ]

/-- The greatest lower part with which a word is accepted in a draw below `n`: `n`, moved up until its first bit is the highest
of 64, less one. -/
def zone (n : Nat) : Nat := (n <<< (63 - n.log2)) - 1

/-- Refused words in a row after which the next word is taken as it is, so that every draw ends. A source that comes here refuses
more often than one word in two, over and over. -/
def patience : Nat := 65536

/-- A number below `n`, with a limit on refused words. -/
def drawWithin (n : Nat) : Nat → σ → Nat × σ
  | 0, s =>
    let (w, s) := next s
    (w.toNat * n / UInt64.size, s)
  | k + 1, s =>
    let (w, s) := next s
    let t := w.toNat * n
    if t % UInt64.size ≤ zone n then (t / UInt64.size, s) else drawWithin n k s

/-- A number below `n`. -/
def draw (n : Nat) (s : σ) : Nat × σ := drawWithin n patience s

/-- Without a limit, so many words are refused before one is accepted and gives the number. -/
inductive Draws (n : Nat) : Nat → σ → Nat × σ → Prop where
  | accepted {s : σ} : (next s).1.toNat * n % UInt64.size ≤ zone n →
      Draws n 0 s ((next s).1.toNat * n / UInt64.size, (next s).2)
  | refused {s : σ} {k : Nat} {r : Nat × σ} : zone n < (next s).1.toNat * n % UInt64.size → Draws n k (next s).2 r →
      Draws n (k + 1) s r

/-- The limit makes no difference to a draw that comes to an end within it. -/
theorem drawWithin_of_draws {n k : Nat} {s : σ} {r : Nat × σ} (h : Draws n k s r) {limit : Nat} (hk : k ≤ limit) :
    drawWithin n limit s = r := by
  induction h generalizing limit with
  | accepted h =>
    cases limit with
    | zero => rfl
    | succ limit =>
      rw [drawWithin]
      exact if_pos h
  | @refused s k r h _ ih =>
    cases limit with
    | zero => exact absurd hk (Nat.not_succ_le_zero k)
    | succ limit =>
      rw [drawWithin]
      exact (if_neg (Nat.not_le.2 h)).trans (ih (Nat.le_of_succ_le_succ hk))

/-- A number that is drawn without limit is the one that is drawn, unless more words are refused than are waited for. -/
theorem draw_of_draws {n k : Nat} {s : σ} {r : Nat × σ} (h : Draws n k s r) (hk : k ≤ patience) : draw n s = r :=
  drawWithin_of_draws h hk

/-- A number that is drawn lies below the bound. -/
theorem drawWithin_lt {n : Nat} (h : 0 < n) (k : Nat) (s : σ) : (drawWithin n k s).1 < n := by
  have key (w : UInt64) : w.toNat * n / UInt64.size < n :=
    Nat.div_lt_of_lt_mul (Nat.mul_lt_mul_of_pos_right w.toNat_lt h)
  induction k generalizing s with
  | zero => exact key _
  | succ k ih =>
    simp only [drawWithin]
    split
    · exact key _
    · exact ih _

/-- A number that is drawn lies below the bound. -/
theorem draw_lt {n : Nat} (h : 0 < n) (s : σ) : (draw n s).1 < n := drawWithin_lt h _ s

end WordSource

/-- A source that hands out the words of a list and starts over at its end. -/
structure WordCycle where
  words : List UInt64
  left : List UInt64 := words
  deriving Repr

/-- The empty list counts as a list of zeros. -/
instance : WordSource WordCycle where
  next c :=
    match c.left, c.words with
    | w :: ws, _ => (w, { c with left := ws })
    | [], w :: ws => (w, { c with left := ws })
    | [], [] => (0, c)

end Pseudonym
