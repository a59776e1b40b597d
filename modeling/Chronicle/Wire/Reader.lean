import Chronicle.Wire.Utf8
import Chronicle.Identity

/-!
# Reading and writing the shapes of the byte formats

Every byte format of the library is put together from a few shapes: fixed-width little-endian
numbers, blocks and texts after their length, lists after their count, optional values after a tag.
A `Reader` takes a value off the front of the bytes and leaves the rest; a reader and the writer of
the same shape stand side by side.
-/
namespace Chronicle.Wire

/-- Why bytes are not the written form of a value. -/
inductive Fault where
  /-- The bytes end inside a number, a tag or a counted element. -/
  | endOfInput
  /-- A block is shorter than the length before it says. -/
  | shortBlock
  | text (fault : Utf8.Fault)
  | tag (found : UInt8)
  | idLength (found : Nat)
  | durationOverflow
  | trailingBytes
  deriving DecidableEq, Repr

def Fault.message : Fault → String
  | .endOfInput => "io error: unexpected end of file"
  | .shortBlock => "io error: "
  | .text fault => s!"string is not valid utf8: {fault.message}"
  | .tag found => s!"tag for enum is not valid, found {found}"
  | .idLength found => s!"UUID parsing failed: invalid length: expected 16 bytes, found {found}"
  | .durationOverflow => "overflow deserializing Duration"
  | .trailingBytes => "Slice had bytes remaining after deserialization"

/-- Takes a value off the front of the bytes. -/
abbrev Reader (α : Type) := StateT Bytes (Except Fault) α

/-- The value at the front of `bytes`; what follows it is not looked at. -/
def Reader.first {α : Type} (r : Reader α) (bytes : Bytes) : Except Fault α :=
  (·.1) <$> r.run bytes

/-- The value that `bytes` write, with nothing after it. -/
def Reader.whole {α : Type} (r : Reader α) (bytes : Bytes) : Except Fault α :=
  match r.run bytes with
  | .ok (a, []) => .ok a
  | .ok (_, _ :: _) => .error .trailingBytes
  | .error fault => .error fault

def take (n : Nat) (fault : Fault) : Reader Bytes := fun bytes =>
  let front := bytes.take n
  if front.length = n then .ok (front, bytes.drop n) else .error fault

/-! ## Numbers -/

def number (width : Nat) : Reader Nat := LittleEndian.value <$> take width .endOfInput

def readUInt8 : Reader UInt8 := UInt8.ofNat <$> number 1
def readUInt32 : Reader UInt32 := UInt32.ofNat <$> number 4
def readUInt64 : Reader UInt64 := UInt64.ofNat <$> number 8
def readInt64 : Reader Int64 := UInt64.toInt64 <$> readUInt64

def writeUInt32 (n : UInt32) : Bytes := LittleEndian.write 4 n.toNat
def writeUInt64 (n : UInt64) : Bytes := LittleEndian.write 8 n.toNat
def writeInt64 (n : Int64) : Bytes := writeUInt64 n.toUInt64

/-- A length or a count. -/
def readCount : Reader Nat := number 8

def writeCount (n : Nat) : Bytes := LittleEndian.write 8 n

/-! ## Blocks, texts and ids -/

/-- A block of bytes after its length. -/
def readBlock : Reader Bytes := do
  let n ← readCount
  take n .shortBlock

def writeBlock (bytes : Bytes) : Bytes := writeCount bytes.length ++ bytes

/-- A text: the block of its UTF-8 bytes. -/
def readText : Reader String := do
  let bytes ← readBlock
  match Utf8.decode bytes with
  | .ok s => pure s
  | .error fault => throw (.text fault)

def writeText (s : String) : Bytes := writeBlock (Utf8.encode s)

/-- An id: a block of sixteen bytes. -/
def readId {k : Kind} : Reader (Id k) := do
  let bytes ← readBlock
  if bytes.length = 16 then pure (Id.ofBytes bytes) else throw (.idLength bytes.length)

def writeId {k : Kind} (id : Id k) : Bytes := writeBlock id.toBytes

/-! ## Lists and optional values -/

/-- Exactly `n` values, one after the other. -/
def times {α : Type} (r : Reader α) : Nat → Reader (List α)
  | 0 => pure []
  | n + 1 => do
    let a ← r
    let as ← times r n
    pure (a :: as)

/-- A list after its count. -/
def readList {α : Type} (r : Reader α) : Reader (List α) := do
  let n ← readCount
  times r n

def writeList {α : Type} (w : α → Bytes) (as : List α) : Bytes :=
  writeCount as.length ++ as.flatMap w

/-- Bytes as a list of one-byte elements: too few of them end the input inside an element. -/
def readByteList : Reader Bytes := do
  let n ← readCount
  take n .endOfInput

/-- A tag byte, 0 for nothing and 1 before a value. -/
def readOption {α : Type} (r : Reader α) : Reader (Option α) := do
  let tag ← readUInt8
  if tag = 0 then pure none
  else if tag = 1 then some <$> r
  else throw (.tag tag)

def writeOption {α : Type} (w : α → Bytes) : Option α → Bytes
  | none => [0]
  | some a => 1 :: w a

end Chronicle.Wire
