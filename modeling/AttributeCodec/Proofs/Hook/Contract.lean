import AttributeCodec.Proofs.Datum.Delivery
import AttributeCodec.Proofs.Hook.Hushed

namespace AttributeCodec

namespace Hook

variable {hook : Hook}

end Hook

namespace Datum

variable {hook : Hook} {datum : Datum}

end Datum

end AttributeCodec
