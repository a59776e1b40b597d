/-!
# Identifiers

Trees and branches are named by 128-bit universally unique identifiers. The kind is a parameter of
the type, so the id of a tree is never taken for the id of a branch. Ids are ordered as numbers,
which is also the order of their sixteen bytes, most significant first.

* `Id.text` prints the form `8-4-4-4-12` of lower-case hexadecimal digits; `Id.ofText?` reads it
  plain, in braces, after `urn:uuid:`, or without hyphens, all in either case of letters.
* `Id.ofBytes_toBytes`: the sixteen bytes determine the id.
-/
namespace Chronicle

/-- Position of a batch in its branch: the id of the batch's first event. -/
abbrev NodeId := Int64

/-- Stamp of one write; a later write of a branch carries a larger one. -/
abbrev TransactionId := Int64

/-- Position of an event in its history. -/
abbrev EventId := Int64

abbrev LeaseId := Int64

/-- A group of histories that one writer owns at a time. -/
abbrev ShardId := Int32

/-- Event ids, and so node ids, start here. -/
def firstEvent : EventId := 1

/-- The transaction before the first one. -/
def noTransaction : TransactionId := 0

/-- The end, exclusive, of every branch. -/
def nodeLimit : NodeId := Int64.maxValue

/-- The next node id; the largest one stays. -/
def NodeId.next (n : NodeId) : NodeId := if n = Int64.maxValue then n else n + 1

/-- Up to the largest number the next one is larger by one. -/
theorem toInt_add_one {n : Int64} (h : n ≠ Int64.maxValue) : (n + 1).toInt = n.toInt + 1 := by
  have hne : n.toInt ≠ Int64.maxValue.toInt := fun heq => h (Int64.toInt_inj.1 heq)
  have hlargest : Int64.maxValue.toInt = 2 ^ 63 - 1 := by decide
  have hone : (1 : Int64).toInt = 1 := by decide
  have hle := n.le_toInt
  have hlt := n.toInt_lt
  rw [Int64.toInt_add, hone, Int.bmod_eq_of_le (by omega) (by omega)]

/-- What an identifier names. -/
inductive Kind where
  | tree
  | branch
  deriving DecidableEq, Repr

/-- A universally unique identifier of a thing of kind `k`. -/
structure Id (k : Kind) where
  bits : BitVec 128
  deriving DecidableEq, Repr

abbrev TreeId := Id .tree
abbrev BranchId := Id .branch

namespace Id

variable {k : Kind}

instance : Inhabited (Id k) := ⟨⟨0⟩⟩

instance : LE (Id k) := ⟨fun a b => a.bits ≤ b.bits⟩
instance : LT (Id k) := ⟨fun a b => a.bits < b.bits⟩
instance : DecidableLE (Id k) := fun a b => inferInstanceAs (Decidable (a.bits ≤ b.bits))
instance : DecidableLT (Id k) := fun a b => inferInstanceAs (Decidable (a.bits < b.bits))

instance : Std.IsLinearOrder (Id k) where
  le_refl a := BitVec.le_refl a.bits
  le_trans a b c := BitVec.le_trans (x := a.bits) (y := b.bits) (z := c.bits)
  le_antisymm a b h1 h2 := by cases a; cases b; congr; exact BitVec.le_antisymm h1 h2
  le_total a b := BitVec.le_total a.bits b.bits

instance : Std.LawfulOrderLT (Id k) where
  lt_iff a b := by
    show a.bits < b.bits ↔ a.bits ≤ b.bits ∧ ¬ b.bits ≤ a.bits
    rw [BitVec.not_le]
    exact ⟨fun h => ⟨BitVec.le_of_lt h, h⟩, fun h => h.2⟩

/-! ## Bytes -/

/-- The low `count` bytes of `n`, most significant first. -/
def bigEndian (n : Nat) : Nat → List UInt8
  | 0 => []
  | count + 1 => UInt8.ofNat (n / Nat.pow 256 count) :: bigEndian n count

def bigEndianValue (bytes : List UInt8) : Nat := bytes.foldl (fun n b => n * 256 + b.toNat) 0

def toBytes (id : Id k) : List UInt8 := bigEndian id.bits.toNat 16

/-- The id that sixteen bytes write. -/
def ofBytes (bytes : List UInt8) : Id k := ⟨BitVec.ofNat 128 (bigEndianValue bytes)⟩

@[simp] theorem length_bigEndian (n count : Nat) : (bigEndian n count).length = count := by
  induction count with
  | zero => rfl
  | succ c ih => simp [bigEndian, ih]

@[simp] theorem length_toBytes (id : Id k) : id.toBytes.length = 16 := length_bigEndian ..

theorem foldl_bigEndian (n count start : Nat) :
    (bigEndian n count).foldl (fun n b => n * 256 + b.toNat) start
      = start * Nat.pow 256 count + n % Nat.pow 256 count := by
  induction count generalizing start with
  | zero => simp [bigEndian, Nat.mod_one]
  | succ c ih =>
    have hm : n % 256 ^ (c + 1) = n % 256 ^ c + 256 ^ c * (n / 256 ^ c % 256) := Nat.mod_mul
    have hb : (UInt8.ofNat (n / 256 ^ c)).toNat = n / 256 ^ c % 256 := by simp
    simp only [bigEndian, List.foldl_cons, ih, Nat.pow_eq]
    rw [hb, hm, Nat.pow_succ, Nat.add_mul, Nat.mul_assoc, Nat.mul_comm 256,
      Nat.mul_comm (n / 256 ^ c % 256)]
    omega

theorem ofBytes_toBytes (id : Id k) : ofBytes id.toBytes = id := by
  have h := foldl_bigEndian id.bits.toNat 16 0
  have hlt := id.bits.isLt
  cases id with
  | mk bits =>
    simp only [ofBytes, toBytes, bigEndianValue, Nat.pow_eq] at *
    rw [h]
    congr
    apply BitVec.eq_of_toNat_eq
    rw [BitVec.toNat_ofNat]
    omega

/-! ## Text -/

/-- The lengths of the hexadecimal groups between the hyphens. -/
def groups : List Nat := [8, 4, 4, 4, 12]

/-- The low `count` hexadecimal digits of `n`, most significant first. -/
def hexDigits (n : Nat) : Nat → List Char
  | 0 => []
  | count + 1 => Nat.digitChar (n / Nat.pow 16 count % 16) :: hexDigits n count

/-- Cuts `digits` into groups of the given lengths, with a hyphen between two groups. -/
def hyphenate : List Nat → List Char → List Char
  | [], digits => digits
  | [_], digits => digits
  | n :: ns, digits => digits.take n ++ '-' :: hyphenate ns (digits.drop n)

/-- The hyphenated lower-case form. -/
def text (id : Id k) : String := String.ofList (hyphenate groups (hexDigits id.bits.toNat 32))

instance : ToString (Id k) := ⟨text⟩

def hexValue? (c : Char) : Option Nat :=
  if '0' ≤ c ∧ c ≤ '9' then some (c.toNat - '0'.toNat)
  else if 'a' ≤ c ∧ c ≤ 'f' then some (c.toNat - 'a'.toNat + 10)
  else if 'A' ≤ c ∧ c ≤ 'F' then some (c.toNat - 'A'.toNat + 10)
  else none

def unhyphenate? : List Nat → List Char → Option (List Char)
  | [], digits => if digits.isEmpty then some [] else none
  | [n], digits => if digits.length = n then some digits else none
  | n :: ns, digits =>
    match digits.drop n with
    | '-' :: rest => (unhyphenate? ns rest).map (digits.take n ++ ·)
    | _ => none

/-- The id that 32 hexadecimal digits write. -/
def ofHex? (digits : List Char) : Option (Id k) :=
  if digits.length = 32 then
    (digits.foldlM (fun n c => (hexValue? c).map (n * 16 + ·)) 0).map fun n => ⟨BitVec.ofNat 128 n⟩
  else none

def ofHyphenated? (cs : List Char) : Option (Id k) := unhyphenate? groups cs >>= ofHex?

/-- `from_string`: the id of a text, with hyphens or without. -/
def ofText? (s : String) : Option (Id k) :=
  let cs := s.toList
  let urn := "urn:uuid:".toList
  if (cs.take urn.length).map Char.toLower = urn then ofHyphenated? (cs.drop urn.length)
  else match cs with
    | '\x7b' :: rest => if rest.getLast? = some '\x7d' then ofHyphenated? rest.dropLast else none
    | _ => ofHex? cs <|> ofHyphenated? cs

/-! ## Generated ids -/

/-- The id made of random bits: version 4, variant 1, as the bits six and eight bytes in say. -/
def random (bits : BitVec 128) : Id k :=
  let version := (bits &&& ~~~(0xF#128 <<< 76)) ||| (0x4#128 <<< 76)
  ⟨(version &&& ~~~(0x3#128 <<< 62)) ||| (0x2#128 <<< 62)⟩

end Id

end Chronicle
