import Wasmig.State.Restore
import Wasmig.State.RoundTrip

/-! Images nobody vouches for.

Every field of a proto3 message may be missing and every repeated field may be of any
length, so that most of what decodes is not a message the converters can take. A
message is complete when they can: no sub-message is missing, and the four arrays of a
label stack are of one length. The restores read a complete message; on anything else
they go astray or return what they should have refused, since neither they nor the
converters check (`restore_handledSafely_iff`). -/
namespace Wasmig
open Base

/-! ### Complete messages -/

end Wasmig
