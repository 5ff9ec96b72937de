import AttributeCodec.Codec
import AttributeCodec.Entity
import AttributeCodec.Binary64.Bits
import AttributeCodec.Instant.Calendar.Lemmas
import AttributeCodec.Script.Log
import AttributeCodec.Script.Take
import AttributeCodec.Proofs.Attribute.View
import AttributeCodec.Proofs.Reader.InPlace
import AttributeCodec.Proofs.Reader.Readable
import AttributeCodec.Proofs.Reader.Strict
import AttributeCodec.Proofs.Binary64.Rounding
import AttributeCodec.Proofs.Binary64.Whole
import AttributeCodec.Proofs.Number.Narrow
import AttributeCodec.Proofs.Binary64.Shortest
import AttributeCodec.Proofs.Number.Text
import AttributeCodec.Proofs.Attribute.Lawful
import AttributeCodec.Proofs.Codec.RoundTrip
import AttributeCodec.Proofs.Base64.Canonical
import AttributeCodec.Proofs.Attribute.Settings
import AttributeCodec.Proofs.Attribute.Json.Values
import AttributeCodec.Proofs.Attribute.Json.Tagged
import AttributeCodec.Proofs.Attribute.Json.Lossless
import AttributeCodec.Proofs.Attribute.Json.Exchange
import AttributeCodec.Proofs.Tree.Attribute
import AttributeCodec.Proofs.Tree.Sorted
import AttributeCodec.Proofs.Tree.Answers
import AttributeCodec.Proofs.Datum.Reread
import AttributeCodec.Proofs.Codec.Rewrite
import AttributeCodec.Proofs.Attribute.Position
import AttributeCodec.Proofs.Reader.SingleFault
import AttributeCodec.Proofs.Codec.Item
import AttributeCodec.Proofs.Slot.Run
import AttributeCodec.Proofs.Slot.Finish
import AttributeCodec.Proofs.Slot.Plain
import AttributeCodec.Proofs.Codec.UnknownKind
import AttributeCodec.Proofs.Entity.Overlay
import AttributeCodec.Proofs.Codec.Overlay
import AttributeCodec.Proofs.Entity.Encode
import AttributeCodec.Proofs.Codec.Key
import AttributeCodec.Proofs.Attribute.Blank
import AttributeCodec.Proofs.Datum.Blank
import AttributeCodec.Proofs.Agreement
import AttributeCodec.Proofs.Tree.Reordered
import AttributeCodec.Proofs.Attribute.Reordered
import AttributeCodec.Proofs.Reader.Reordered
import AttributeCodec.Proofs.Codec.Order
import AttributeCodec.Proofs.Reader.Typed
import AttributeCodec.Proofs.Binary64.Nearest
import AttributeCodec.Proofs.Numeral.Spelled
import AttributeCodec.Proofs.Number.Accepted
import AttributeCodec.Proofs.Number.Exact
import AttributeCodec.Proofs.Binary64.Integer
import AttributeCodec.Proofs.Codec.Integer
import AttributeCodec.Proofs.Number.Canonical
import AttributeCodec.Proofs.Codec.Instant
import AttributeCodec.Proofs.Codec.SortKey
import AttributeCodec.Proofs.Checks
import AttributeCodec.Proofs.Datum.Reached
import AttributeCodec.Proofs.Datum.InRange
import AttributeCodec.Proofs.Datum.Delivery
import AttributeCodec.Proofs.Datum.Mirrored
import AttributeCodec.Proofs.Hook.Hushed
import AttributeCodec.Proofs.Hook.Contract
import AttributeCodec.Proofs.Datum.Aborted
import AttributeCodec.Proofs.Datum.Reused
import AttributeCodec.Proofs.Attribute.Precedence
import AttributeCodec.Proofs.Attribute.Masked
import AttributeCodec.Proofs.Reader.Course
import AttributeCodec.Proofs.Reader.Children
