import AttributeCodec.Proofs.Datum.Reached
import AttributeCodec.Proofs.Slot.Run

/-! The general encoding of a datum replaces what a hook told the slot before it declined. Only for a timestamp,
which has no general encoding, something is left. -/

namespace AttributeCodec

variable {quiet hook : Hook}

namespace Hook.Hushes

end Hook.Hushes

namespace Datum

section Outcome

variable {datum : Datum}

end Outcome

end Datum

end AttributeCodec
