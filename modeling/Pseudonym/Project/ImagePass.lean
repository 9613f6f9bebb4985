import Pseudonym.Project.Workspace
import Pseudonym.Reference

/-!
# The image pass

The files below the image directory of a project are given new names with the same extension, and then the references to the old
names are rewritten in every text file of the project. Files of one name in different directories get the same new name, so that
a reference to it holds whichever file was meant. A file whose name is no text keeps it.
-/

namespace Pseudonym.ImagePass

variable {σ : Type}

/-- The directory of a project's images. -/
def directory (root : Path) : Path := root.join (Utf8.encode "img".toList)

/-- The name of a file as text. -/
def leaf? (path : Path) : Option Text := path.fileName?.bind Utf8.decode?

/-- Lists the images of a project and reserves their names; there are none without an image directory. -/
def reserveNames (root : Path) : Pass σ (List Path) := do
  if !(← get).disk.isDirectory (directory root) then return []
  let images ← Pass.list (directory root) fun _ => true
  Pass.reserve (images.filterMap leaf?)
  return images

/-- The path of an image under a new name. -/
def renamed (path : Path) (name : Text) : Path := path.withFileName (Utf8.encode name)

/-- Gives images their new names, announcing each change first; a dry run leaves it at that. Counts the images. -/
def renameAll [WordSource σ] (o : Options) : List Path → Pass σ Nat
  | [] => return 0
  | path :: paths => do
    match leaf? path with
    | none =>
      Pass.note (.nameSkipped path)
      renameAll o paths
    | some name =>
      let extension := path.extension?.bind Utf8.decode?
      let token ← Pass.pseudonym name (Pass.mint .fileName (Mint.fileName extension))
      let new := renamed path token
      Pass.note (.change (.rename path new))
      Pass.note (.pathChanging o.dryRun path new)
      if !o.dryRun then Pass.move path new
      let n ← renameAll o paths
      return n + 1

/-- How the references in a text are exchanged. -/
def rewriter (b : Codebook) : Rewriter where
  rename := Reference.rename b
  notices t := (Substitution.changes Reference.exchange? b.entries t).map fun (e, seen) =>
    .referencesRenamed e.1 e.2 (Piece.names (Reference.pieces e.1 seen)).length

/-- Renames the images of a project, exchanges the references to them, and counts. -/
def run [WordSource σ] (root : Path) (o : Options) : Pass σ Tally := do
  let dir := directory root
  if !(← get).disk.isDirectory dir then
    Pass.note (.noImages dir)
    return {}
  Pass.note (.renamingImages dir)
  let images ← reserveNames root
  let renamedPaths ← renameAll o images
  let codebook := (← get).codebook
  if codebook.isEmpty then return { pathsRenamed := renamedPaths }
  let files ← Pass.listTexts root Language.all
  let changes ← Pass.rewriteFiles o (files.map fun (path, _) => (path, rewriter codebook))
  let tally : Tally := { filesProcessed := files.length, pathsRenamed := renamedPaths, contentChanges := changes }
  Pass.note (.imagePassDone tally)
  return tally

end Pseudonym.ImagePass
