import Chronicle.Event
import Chronicle.Wire.Reader

/-!
# Event codecs

A codec turns a batch of events into the blob that is stored and back. The store only ever sees the
blob, so any codec will do; `Codec.fixedWidth` is the one in ordinary use. Codecs word their own
failures.
-/
namespace Chronicle

/-- A codec's refusal, in its own words. -/
inductive CodecError where
  | encode (reason : String)
  | decode (reason : String)
  deriving DecidableEq, Repr

def CodecError.message : CodecError → String
  | .encode reason => s!"Encode error: {reason}"
  | .decode reason => s!"Decode error: {reason}"

/-- A way to store batches as blobs. -/
structure Codec where
  name : String
  encode : List Event → Except CodecError Bytes
  decode : Bytes → Except CodecError (List Event)

namespace Event

/-- The written form: id, version, kind, payload. -/
def read : Wire.Reader Event := do
  let id ← Wire.readInt64
  let version ← Wire.readInt64
  let kind ← Wire.readText
  let payload ← Wire.readByteList
  pure ⟨id, version, kind, payload⟩

def write (e : Event) : Bytes :=
  Wire.writeInt64 e.id ++ Wire.writeInt64 e.version ++ Wire.writeText e.kind
    ++ Wire.writeBlock e.payload

end Event

namespace Codec

/-- The written form of a batch: the list of its events. -/
def writeBatch (events : List Event) : Bytes := Wire.writeList Event.write events

/-- Reads a batch off the front of a blob; what follows it does not matter. -/
def readBatch (blob : Bytes) : Except Wire.Fault (List Event) :=
  (Wire.readList Event.read).first blob

/-- `BincodeEventCodec`: batches in the fixed-width little-endian layout. -/
def fixedWidth : Codec where
  name := "bincode"
  encode events := .ok (writeBatch events)
  decode blob :=
    match readBatch blob with
    | .ok events => .ok events
    | .error fault => .error (.decode fault.message)

/-- The layout of `inner` behind a mark that tells its blobs from all others. -/
def tagged (name : String) (tag : UInt8) (inner : Codec) : Codec where
  name := name
  encode events := (tag :: ·) <$> inner.encode events
  decode
    | [] => .error (.decode "missing tag")
    | b :: blob => if b = tag then inner.decode blob else .error (.decode "missing tag")

/-- A codec that refuses every batch and every blob. -/
def refusing (name reason : String) : Codec where
  name := name
  encode _ := .error (.encode reason)
  decode _ := .error (.decode reason)

end Codec

end Chronicle
