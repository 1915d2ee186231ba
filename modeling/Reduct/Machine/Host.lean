import Reduct.Term
import Reduct.Text.Spelled

/-!
# Functions of the host

A specification may call functions that it does not define. The host provides them under names:
each takes terms and gives a term, or a message on why it does not.
-/

namespace Reduct

/-- The functions that the host provides. -/
abbrev Host := Table (List Term → Except String Term)

/-- The names under which the host provides functions, in their order. -/
def Host.text (host : Host) : String :=
  "ForeignRegistry \x7b functions: [" ++ Text.join ", " (host.keys.map Text.spelled) ++ "] \x7d"

end Reduct
