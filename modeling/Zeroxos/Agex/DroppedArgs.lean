import Zeroxos.Agex.ParserNames
import Zeroxos.Agex.Lines
import Zeroxos.Agex.ExprContext

/-!
# Arguments that are left out

An argument is written when its text is in the output whatever the argument is. Three special cases
of the generator do not do that, and none of them gives a warning: `range` takes its first argument
only, the renamed methods take none, and a case pattern may lose its bindings.
-/

namespace Zeroxos

namespace Agex

variable {s : Scope} {T : Expr → String}

end Agex

end Zeroxos
