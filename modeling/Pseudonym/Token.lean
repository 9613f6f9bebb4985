import Pseudonym.Random.Source
import Pseudonym.Text.Basic

/-!
# Random tokens

A class token is a letter followed by letters and digits, so that it can stand wherever a class name can. A file token is ten
letters and digits, with the extension it is to have behind a dot.
-/

namespace Pseudonym

/-- What a token is to name. -/
inductive TokenKind where
  | className
  | fileName
  deriving DecidableEq, Repr

/-- The words for what a token is to name. -/
def TokenKind.label : TokenKind → String
  | .className => "class name"
  | .fileName => "file name"

namespace Token

variable {σ : Type} [WordSource σ]

/-- The letters that a class token begins with. -/
def letters : Text := "abcdefghijklmnopqrstuvwxyzABCDEFGHIJKLMNOPQRSTUVWXYZ".toList

/-- The letters and digits that tokens are made of. -/
def alphanumerics : Text := "0123456789".toList ++ letters

/-- The length of a file token without its extension. -/
def fileTokenLength : Nat := 10

/-- The length of a class token where none is asked for. -/
def defaultClassTokenLength : Nat := 8

/-- A character of an alphabet. -/
def pick (alphabet : Text) (s : σ) : Char × σ :=
  let (i, s) := WordSource.draw alphabet.length s
  (alphabet.getD i 'a', s)

/-- A number of characters of an alphabet. -/
def picks (alphabet : Text) : Nat → σ → Text × σ
  | 0, s => ([], s)
  | n + 1, s =>
    let (c, s) := pick alphabet s
    let (t, s) := picks alphabet n s
    (c :: t, s)

/-- A class token of a length; one of length zero is empty and costs no word. -/
def className : Nat → σ → Text × σ
  | 0, s => ([], s)
  | n + 1, s =>
    let (c, s) := pick letters s
    let (t, s) := picks alphanumerics n s
    (c :: t, s)

/-- What an extension adds to a name: a dot and itself, unless it is missing or empty. -/
def extensionSuffix : Option Text → Text
  | some (c :: ext) => '.' :: c :: ext
  | _ => []

/-- A file token with an extension. -/
def fileName (extension : Option Text) (s : σ) : Text × σ :=
  let (t, s) := picks alphanumerics fileTokenLength s
  (t ++ extensionSuffix extension, s)

/-- A character that is picked is one of the alphabet. -/
theorem pick_mem {alphabet : Text} (h : alphabet ≠ []) (s : σ) : (pick alphabet s).1 ∈ alphabet := by
  have hlt := WordSource.draw_lt (List.length_pos_iff.2 h) s
  simp only [pick, List.getD_eq_getElem?_getD, List.getElem?_eq_getElem hlt, Option.getD_some]
  exact List.getElem_mem hlt

/-- As many characters are picked as are asked for. -/
theorem length_picks (alphabet : Text) (n : Nat) (s : σ) : (picks alphabet n s).1.length = n := by
  induction n generalizing s with
  | zero => rfl
  | succ n ih => simp [picks, ih]

/-- All characters that are picked are of the alphabet. -/
theorem picks_mem {alphabet : Text} (h : alphabet ≠ []) (n : Nat) (s : σ) :
    ∀ c ∈ (picks alphabet n s).1, c ∈ alphabet := by
  induction n generalizing s with
  | zero => simp [picks]
  | succ n ih =>
    intro c hc
    simp only [picks, List.mem_cons] at hc
    rcases hc with rfl | hc
    · exact pick_mem h s
    · exact ih _ c hc

/-- A token has the length that is asked for. -/
theorem length_className (n : Nat) (s : σ) : (className n s).1.length = n := by
  cases n <;> simp [className, length_picks]

end Token

end Pseudonym
