import Zeroxos.Agex.ParserNames
import Zeroxos.Agex.StmtYields
import Zeroxos.Agex.Lines

/-!
# The functions named `main`

A function of the source is written where it stands, and the top-level statements are written into a
function `main` behind everything else. Neither pass looks at what the other does. The top-level
statements come out once each, in their order, but a source that declares a `main` and has a
top-level statement makes two of them.
-/

namespace Zeroxos

namespace Agex

/-! ## Lines that open `main` -/

/-- Neither of two texts begins with the other. -/
def Apart (a b : List Char) : Prop := a.take b.length ≠ b.take a.length

instance (a b : List Char) : Decidable (Apart a b) := inferInstanceAs (Decidable (_ ≠ _))

end Agex

end Zeroxos
