import Chronicle.Wire.Reader

/-!
# Reading back what was written

`Reads r bytes a` says that a reader takes the value `a` off the front of `bytes` and stops at their
end, whatever follows. It is put together along the shapes: for each of them, the reader reads what
the writer of the shape writes. `Reads.whole` and `Reads.first` give the result for a text as a
whole.
-/
namespace Chronicle.Wire

variable {α β : Type}

/-- The reader takes `a` off the front of `bytes` and leaves what follows them. -/
def Reads (r : Reader α) (bytes : Bytes) (a : α) : Prop :=
  ∀ rest, r.run (bytes ++ rest) = .ok (a, rest)

namespace Reads

theorem pure (a : α) : Reads (Pure.pure a) [] a := fun _ => rfl

theorem bind {r : Reader α} {f : α → Reader β} {bytes more : Bytes} {a : α} {b : β}
    (h : Reads r bytes a) (hf : Reads (f a) more b) : Reads (r >>= f) (bytes ++ more) b := by
  intro rest
  rw [StateT.run_bind, List.append_assoc, h]
  exact hf rest

theorem bind_pure {r : Reader α} {f : α → Reader β} {bytes : Bytes} {a : α} {b : β}
    (h : Reads r bytes a) (hf : f a = Pure.pure b) : Reads (r >>= f) bytes b := by
  intro rest
  rw [StateT.run_bind, h]
  exact congrArg (fun g => StateT.run g rest) hf

theorem map {r : Reader α} {bytes : Bytes} {a : α} (h : Reads r bytes a) (f : α → β) :
    Reads (f <$> r) bytes (f a) := by
  intro rest
  rw [StateT.run_map, h]
  rfl

theorem whole {r : Reader α} {bytes : Bytes} {a : α} (h : Reads r bytes a) :
    r.whole bytes = .ok a := by
  have := h []
  rw [List.append_nil] at this
  rw [Reader.whole, this]

theorem first {r : Reader α} {bytes : Bytes} {a : α} (h : Reads r bytes a) (rest : Bytes) :
    r.first (bytes ++ rest) = .ok a := by
  rw [Reader.first, h]
  rfl

end Reads

theorem reads_take (bytes : Bytes) (fault : Fault) :
    Reads (take bytes.length fault) bytes bytes := by
  intro rest
  show take bytes.length fault (bytes ++ rest) = _
  simp [take]

/-! ## Numbers -/

theorem reads_number {width n : Nat} (h : n < Nat.pow 256 width) :
    Reads (number width) (LittleEndian.write width n) n := by
  have h1 := (reads_take (LittleEndian.write width n) .endOfInput).map LittleEndian.value
  rwa [LittleEndian.length_write, LittleEndian.value_write h] at h1

theorem reads_uint32 (n : UInt32) : Reads readUInt32 (writeUInt32 n) n := by
  have h := (reads_number (show n.toNat < Nat.pow 256 4 from UInt32.toNat_lt n)).map UInt32.ofNat
  rwa [UInt32.ofNat_toNat] at h

theorem reads_uint64 (n : UInt64) : Reads readUInt64 (writeUInt64 n) n := by
  have h := (reads_number (show n.toNat < Nat.pow 256 8 from UInt64.toNat_lt n)).map UInt64.ofNat
  rwa [UInt64.ofNat_toNat] at h

theorem reads_int64 (n : Int64) : Reads readInt64 (writeInt64 n) n :=
  (reads_uint64 n.toUInt64).map UInt64.toInt64

theorem reads_count {n : Nat} (h : n < UInt64.size) : Reads readCount (writeCount n) n :=
  reads_number h

/-! ## Blocks, texts and ids -/

theorem reads_block {bytes : Bytes} (h : bytes.length < UInt64.size) :
    Reads readBlock (writeBlock bytes) bytes :=
  (reads_count h).bind (reads_take bytes .shortBlock)

theorem reads_text {s : String} (h : (Utf8.encode s).length < UInt64.size) :
    Reads readText (writeText s) s :=
  (reads_block h).bind_pure (by rw [Utf8.decode_encode])

theorem reads_id {k : Kind} (id : Id k) : Reads readId (writeId id) id := by
  have hlength : id.toBytes.length < UInt64.size := by
    rw [Id.length_toBytes]
    decide
  apply (reads_block hlength).bind_pure
  rw [if_pos (by simp), Id.ofBytes_toBytes]

/-! ## Lists and optional values -/

theorem reads_times {r : Reader α} {w : α → Bytes} (as : List α) (h : ∀ a ∈ as, Reads r (w a) a) :
    Reads (times r as.length) (as.flatMap w) as := by
  induction as with
  | nil => exact Reads.pure []
  | cons a as ih =>
    rw [List.flatMap_cons, List.length_cons]
    exact (h a (List.mem_cons_self ..)).bind
      ((ih fun b hb => h b (List.mem_cons_of_mem _ hb)).bind_pure rfl)

theorem reads_list {r : Reader α} {w : α → Bytes} {as : List α} (hn : as.length < UInt64.size)
    (h : ∀ a ∈ as, Reads r (w a) a) : Reads (readList r) (writeList w as) as :=
  (reads_count hn).bind (reads_times as h)

theorem reads_byteList {bytes : Bytes} (h : bytes.length < UInt64.size) :
    Reads readByteList (writeBlock bytes) bytes :=
  (reads_count h).bind (reads_take bytes .endOfInput)

theorem reads_uint8 (n : UInt8) : Reads readUInt8 [n] n := by
  have h := (reads_number (show n.toNat < Nat.pow 256 1 from UInt8.toNat_lt n)).map UInt8.ofNat
  rw [UInt8.ofNat_toNat, LittleEndian.write, UInt8.ofNat_toNat] at h
  exact h

theorem reads_option {r : Reader α} {w : α → Bytes} {o : Option α}
    (h : ∀ a, o = some a → Reads r (w a) a) : Reads (readOption r) (writeOption w o) o := by
  cases o with
  | none => exact (reads_uint8 0).bind (Reads.pure none)
  | some a => exact (reads_uint8 1).bind ((h a rfl).map some)

end Chronicle.Wire
