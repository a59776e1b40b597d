import Chronicle.Proofs.Family
import Chronicle.Proofs.Action

/-!
# How long written tokens are

A token that was read is written in as many bytes as it was read from, although not always in the
same ones: a duration with an excess of nanoseconds is written with more seconds. So whether a token
that callers bring can be written again is seen from how long it is.

* `Reader.Takes`: what a reader takes off the front of bytes, and how many they are. It is put
  together along the shapes.
* `Token.length_of_decode`: the length of the written form of a token that was read.
-/
namespace Chronicle

open Archive (bind_eq_ok_iff)

namespace Wire

variable {α β : Type}

/-- A value that the reader takes off the front of bytes, and the number of bytes that it takes for
it, satisfy `P`. -/
def Reader.Takes (r : Reader α) (P : α → Nat → Prop) : Prop :=
  ∀ bytes a rest, r.run bytes = .ok (a, rest) → ∃ n, bytes.length = n + rest.length ∧ P a n

/-- A value that the reader takes is written in as many bytes as it takes for it. -/
abbrev Reader.Measures (r : Reader α) (w : α → Bytes) : Prop :=
  r.Takes fun a n => (w a).length = n

namespace Reader.Takes

variable {P : α → Nat → Prop} {Q : β → Nat → Prop}

theorem pure {a : α} (h : P a 0) : Takes (Pure.pure a) P := by
  intro bytes b rest hrun
  cases hrun
  exact ⟨0, (Nat.zero_add _).symm, h⟩

theorem throw (fault : Fault) : Takes (MonadExcept.throw fault : Reader α) P := by
  intro bytes a rest h
  cases h

theorem bind {r : Reader α} {f : α → Reader β} (h : r.Takes P)
    (hf : ∀ a n, P a n → (f a).Takes fun b m => Q b (n + m)) : (r >>= f).Takes Q := by
  intro bytes b rest hrun
  rw [StateT.run_bind, bind_eq_ok_iff] at hrun
  obtain ⟨⟨a, left⟩, ha, hb⟩ := hrun
  obtain ⟨n, hn, hP⟩ := h _ _ _ ha
  obtain ⟨m, hm, hQ⟩ := hf a n hP _ _ _ hb
  exact ⟨n + m, by rw [hn, hm, Nat.add_assoc], hQ⟩

theorem map {r : Reader α} {f : α → β} (h : r.Takes fun a n => Q (f a) n) : (f <$> r).Takes Q := by
  rw [map_eq_pure_bind]
  exact h.bind fun a n hQ => pure hQ

theorem imp {r : Reader α} {P' : α → Nat → Prop} (h : r.Takes P) (hP : ∀ a n, P a n → P' a n) :
    r.Takes P' := by
  intro bytes a rest hrun
  obtain ⟨n, hn, ha⟩ := h _ _ _ hrun
  exact ⟨n, hn, hP a n ha⟩

theorem whole {r : Reader α} (h : r.Takes P) {bytes : Bytes} {a : α}
    (hbytes : r.whole bytes = .ok a) : P a bytes.length := by
  unfold Reader.whole at hbytes
  split at hbytes
  · next b hrun =>
    cases hbytes
    obtain ⟨n, hn, ha⟩ := h _ _ _ hrun
    rw [hn]
    exact ha
  · cases hbytes
  · cases hbytes

end Reader.Takes

open Reader (Takes Measures)

/-! ## Shapes -/

theorem takes_take (k : Nat) (fault : Fault) :
    (take k fault).Takes fun bytes n => n = k ∧ bytes.length = k := by
  intro bytes front rest hrun
  change (if (bytes.take k).length = k then .ok (bytes.take k, bytes.drop k) else .error fault) =
    Except.ok (front, rest) at hrun
  split at hrun
  · next hlength =>
    cases hrun
    refine ⟨k, ?_, rfl, hlength⟩
    rw [List.length_take] at hlength
    rw [List.length_drop]
    omega
  · cases hrun

theorem takes_number (width : Nat) : (number width).Takes fun _ n => n = width :=
  .map ((takes_take _ _).imp fun _ _ h => h.1)

theorem measures_uint32 : Measures readUInt32 writeUInt32 :=
  .map ((takes_number 4).imp fun _ _ h => by rw [h, writeUInt32, LittleEndian.length_write])

theorem measures_uint64 : Measures readUInt64 writeUInt64 :=
  .map ((takes_number 8).imp fun _ _ h => by rw [h, writeUInt64, LittleEndian.length_write])

theorem measures_int64 : Measures readInt64 writeInt64 :=
  .map (measures_uint64.imp fun _ _ h => by
    rw [writeUInt64, LittleEndian.length_write] at h
    rw [writeInt64, writeUInt64, LittleEndian.length_write, h])

theorem length_writeBlock (bytes : Bytes) : (writeBlock bytes).length = 8 + bytes.length := by
  rw [writeBlock, writeCount, List.length_append, LittleEndian.length_write]

theorem measures_block : Measures readBlock writeBlock := by
  refine .bind (takes_number 8) fun length n hn => ?_
  refine (takes_take _ _).imp fun bytes m h => ?_
  rw [length_writeBlock, hn, h.1, h.2]

theorem measures_text : Measures readText writeText := by
  refine .bind measures_block fun bytes n hn => ?_
  split
  · next s hs =>
    refine .pure ?_
    rw [Utf8.decode_eq_ok_iff.1 hs] at hn
    exact hn
  · exact .throw _

theorem measures_id {k : Kind} : Measures (readId (k := k)) writeId := by
  refine .bind measures_block fun bytes n hn => ?_
  split
  · next hlength =>
    refine .pure ?_
    rw [length_writeBlock, hlength] at hn
    rw [writeId, length_writeBlock, Id.length_toBytes, hn]
    rfl
  · exact .throw _

theorem measures_times {r : Reader α} {w : α → Bytes} (h : Measures r w) (k : Nat) :
    Measures (times r k) (List.flatMap w) := by
  induction k with
  | zero => exact .pure rfl
  | succ k ih =>
    refine .bind h fun a n hn => .bind ih fun as m hm => .pure ?_
    rw [List.flatMap_cons, List.length_append, hn, hm]
    rfl

theorem measures_list {r : Reader α} {w : α → Bytes} (h : Measures r w) :
    Measures (readList r) (writeList w) := by
  refine .bind (takes_number 8) fun k n hn => (measures_times h k).imp fun as m hm => ?_
  rw [writeList, writeCount, List.length_append, LittleEndian.length_write, hn, hm]

theorem measures_option {r : Reader α} {w : α → Bytes} (h : Measures r w) :
    Measures (readOption r) (writeOption w) := by
  have htag : readUInt8.Takes fun _ n => n = 1 := .map (takes_number 1)
  refine .bind htag fun tag n hn => ?_
  subst hn
  split
  · exact .pure rfl
  split
  · refine .map (h.imp fun a m hm => ?_)
    rw [writeOption, List.length_cons, hm, Nat.add_comm]
  · exact .throw _

end Wire

open Wire

/-! ## Tokens -/

theorem Duration.measures : Reader.Measures Duration.read Duration.write := by
  refine .bind measures_uint64 fun seconds n hn => .bind measures_uint32 fun nanos m hm => ?_
  rw [writeUInt64, LittleEndian.length_write] at hn
  rw [writeUInt32, LittleEndian.length_write] at hm
  split
  · refine .pure ?_
    rw [Duration.write, List.length_append, writeUInt64, writeUInt32, LittleEndian.length_write,
      LittleEndian.length_write, hn, hm]
    rfl
  · exact .throw _

theorem Retention.measures : Reader.Measures Retention.read Retention.write := by
  have hoption := measures_option Duration.measures
  refine .bind hoption fun _ n hn => .bind hoption fun _ m hm =>
    .bind hoption fun _ k hk => .pure ?_
  simp only [Retention.write, List.length_append, hn, hm, hk]
  omega

namespace Token

theorem measures_span : Reader.Measures readSpan writeSpan := by
  refine .bind measures_id fun _ n hn => .bind measures_int64 fun _ m hm =>
    .bind measures_int64 fun _ k hk => .pure ?_
  simp only [writeSpan, List.length_append, hn, hm, hk]
  omega

theorem measures_body : Reader.Measures readBody writeBody := by
  refine .bind measures_text fun _ n₁ h₁ => .bind measures_text fun _ n₂ h₂ =>
    .bind measures_text fun _ n₃ h₃ => .bind measures_id fun _ n₄ h₄ =>
    .bind measures_id fun _ n₅ h₅ => .bind (measures_list measures_span) fun _ n₆ h₆ =>
    .bind Retention.measures fun _ n₇ h₇ => .pure ?_
  simp only [writeBody, List.length_append, h₁, h₂, h₃, h₄, h₅, h₆, h₇]
  omega

/-- A token is written in as many bytes as it was read from. -/
theorem length_of_decode {bytes : Bytes} {t : Token} (h : decode bytes = .ok t) :
    bytes.length = t.writeBody.length + 1 := by
  obtain ⟨body, rfl, hbody, -⟩ := decode_eq_ok_iff.1 h
  rw [List.length_cons, measures_body.whole hbody]

end Token

end Chronicle
