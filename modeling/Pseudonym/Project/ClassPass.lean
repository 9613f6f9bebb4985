import Pseudonym.Project.Workspace

/-!
# The class pass

The names that the stylesheets below a directory style are found and reserved, each gets a class token, and then every stylesheet,
script and piece of markup below the directory is rewritten with the whole codebook. Nothing is written before the last token
has been handed out.
-/

namespace Pseudonym.ClassPass

variable {σ : Type}

/-- The class names that stylesheets style, file by file. -/
def discover : List Path → Pass σ (List Text)
  | [] => return []
  | path :: paths => do
    Pass.note (.scanning path)
    let (text, _) ← Pass.load path
    let rest ← discover paths
    return Stylesheet.classNames text ++ rest

/-- Gives each name that has no entry yet a class token. -/
def assign [WordSource σ] (length : Nat) : List Text → Pass σ Unit
  | [] => return ()
  | name :: names => do
    if !(← get).codebook.contains name then
      let token ← Pass.pseudonym name (Pass.mint .className (Mint.className length))
      Pass.note (.classNamed name token)
    assign length names

/-- What there is to tell about the names exchanged in a text. -/
def notices (b : Codebook) : Language → Text → List Notice
  | .stylesheet, t =>
    let n := Piece.exchanged b.get? (Stylesheet.pieces t)
    if n = 0 then [] else [.selectorsRenamed n]
  | .markup, t =>
    let n := Piece.exchanged b.get? (Markup.pieces t)
    if n = 0 then [] else [.attributesRenamed n]
  | .script, t => (Substitution.changes Script.Literal.exchange? (Script.literals b) t).map fun c => .literalRenamed c.1

/-- How the class names in a text of a language are exchanged. -/
def rewriter (b : Codebook) (l : Language) : Rewriter := { rename := l.rename b, notices := notices b l }

/-- Finds the class names below a directory, exchanges them, and counts. -/
def run [WordSource σ] (root : Path) (o : Options) : Pass σ Tally := do
  if o.classLength = 0 then throw (.mint .emptyClassName)
  Pass.note (.discovering root)
  let sheets ← Pass.listTexts root [.stylesheet]
  let names ← discover (sheets.map (·.1))
  Pass.reserve names
  assign o.classLength names
  let codebook := (← get).codebook
  Pass.note (.classesNamed codebook.size)
  if codebook.isEmpty then return {}
  let files ← Pass.listTexts root Language.all
  let changes ← Pass.rewriteFiles o (files.map fun (path, l) => (path, rewriter codebook l))
  let tally : Tally := { filesProcessed := files.length, contentChanges := changes }
  Pass.note (.classPassDone tally)
  return tally

end Pseudonym.ClassPass
