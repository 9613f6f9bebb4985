import Pseudonym.Project.ClassPass
import Pseudonym.Project.ImagePass

/-!
# A run over a project

A run is the class pass and then the image pass, each with a codebook of its own. The names of the images are reserved before the
first class token is made, so that no token of either kind is the name of an image.
-/

namespace Pseudonym

/-- What a run has done. -/
structure Report where
  classNames : Codebook
  imageNames : Codebook
  classes : Tally
  images : Tally
  deriving DecidableEq, Repr

namespace Project

variable {σ : Type} [WordSource σ]

/-- A pass with an empty codebook to start from, and what stands in it at the end. -/
def withFreshCodebook {α : Type} (pass : Pass σ α) : Pass σ (α × Codebook) := do
  modify fun w => { w with codebook := .empty }
  let a ← pass
  return (a, (← get).codebook)

/-- Exchanges the class names and the image names of the project at a directory. -/
def run (root : Path) (o : Options) : Pass σ Report := do
  if !(← get).disk.isDirectory root then throw (.root root)
  Pass.note (.started root)
  let _ ← ImagePass.reserveNames root
  let (classes, classNames) ← withFreshCodebook (ClassPass.run root o)
  let (images, imageNames) ← withFreshCodebook (ImagePass.run root o)
  Pass.note (.finished classNames.size imageNames.size)
  return { classNames, imageNames, classes, images }

end Project

end Pseudonym
