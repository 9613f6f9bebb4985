import Pseudonym.Markup
import Pseudonym.Script
import Pseudonym.Stylesheet.ClassName

/-!
# The languages of a project's text files

Class names are exchanged in stylesheets, markup and scripts, in each at the places where the language puts them.
-/

namespace Pseudonym

/-- The languages whose files hold class names. -/
inductive Language where
  | stylesheet
  | markup
  | script
  deriving DecidableEq, Repr

namespace Language

/-- Every language. -/
def all : List Language := [.stylesheet, .markup, .script]

/-- A text of a language with its class names exchanged, or nothing when it holds none that the codebook knows. -/
def rename (b : Codebook) : Language → Text → Option Text
  | .stylesheet => Stylesheet.rename b
  | .markup => Markup.rename b
  | .script => Script.rename b

end Language

end Pseudonym
