import Chronicle.Proofs.Family
import Chronicle.Proofs.Action

/-!
# Written tokens

A token is written with nothing behind it. Its body is put together from shapes that say themselves
how long they are, so a reader never looks at what follows: cut off anywhere the bytes of a token
are no token, and neither are they with more behind them.

* `Reader.Local`: what a reader takes off the front of bytes, it takes whatever follows them. It is
  put together along the shapes, like `Reads`.
* `Reader.Local.whole_unique`: what is read as a whole is no proper prefix of what is read as a
  whole.
* `Token.written_form`: writing and reading tokens.
-/
namespace Chronicle

open Archive (bind_eq_ok_iff)

namespace Wire

variable {α β : Type}

/-- What the reader takes off the front of bytes it takes whatever follows them. -/
def Reader.Local (r : Reader α) : Prop :=
  ∀ bytes a rest, r.run bytes = .ok (a, rest) →
    ∀ more, r.run (bytes ++ more) = .ok (a, rest ++ more)

namespace Reader.Local

theorem pure (a : α) : Local (Pure.pure a) := by
  intro bytes b rest h more
  cases h
  rfl

theorem throw (fault : Fault) : Local (MonadExcept.throw fault : Reader α) := by
  intro bytes a rest h
  cases h

theorem bind {r : Reader α} {f : α → Reader β} (h : r.Local) (hf : ∀ a, (f a).Local) :
    (r >>= f).Local := by
  intro bytes b rest hrun more
  rw [StateT.run_bind, bind_eq_ok_iff] at hrun ⊢
  obtain ⟨⟨a, left⟩, ha, hb⟩ := hrun
  exact ⟨(a, left ++ more), h _ _ _ ha more, hf a _ _ _ hb more⟩

theorem map {r : Reader α} (h : r.Local) (f : α → β) : (f <$> r).Local := by
  rw [map_eq_pure_bind]
  exact h.bind fun a => pure (f a)

/-- What is read as a whole is no proper prefix of what is read as a whole. -/
theorem whole_unique {r : Reader α} (h : r.Local) {bytes other : Bytes} {a b : α}
    (hbytes : r.whole bytes = .ok a) (hother : r.whole other = .ok b) (hstarts : bytes <+: other) :
    bytes = other := by
  obtain ⟨more, rfl⟩ := hstarts
  unfold whole at hbytes hother
  cases hrun : r.run bytes with
  | error fault =>
    rw [hrun] at hbytes
    cases hbytes
  | ok p =>
    obtain ⟨c, rest⟩ := p
    rw [hrun] at hbytes
    rw [h _ _ _ hrun more] at hother
    cases rest with
    | cons => cases hbytes
    | nil =>
      cases more with
      | nil => rw [List.append_nil]
      | cons => cases hother

end Reader.Local

/-! ## The shapes -/

theorem local_take (n : Nat) (fault : Fault) : (take n fault).Local := by
  intro bytes a rest h more
  show take n fault (bytes ++ more) = _
  change take n fault bytes = _ at h
  unfold take at h ⊢
  dsimp only at h ⊢
  split at h
  · next hlength =>
    cases h
    have hn : n ≤ bytes.length := hlength ▸ List.length_take_le' n bytes
    rw [List.take_append_of_le_length hn, if_pos hlength, List.drop_append_of_le_length hn]
  · cases h

theorem local_number (width : Nat) : (number width).Local := (local_take _ _).map _

theorem local_uint8 : readUInt8.Local := (local_number 1).map _

theorem local_uint32 : readUInt32.Local := (local_number 4).map _

theorem local_uint64 : readUInt64.Local := (local_number 8).map _

theorem local_int64 : readInt64.Local := local_uint64.map _

theorem local_block : readBlock.Local := (local_number 8).bind fun _ => local_take _ _

theorem local_text : readText.Local := by
  refine local_block.bind fun bytes => ?_
  split
  · exact .pure _
  · exact .throw _

theorem local_id {k : Kind} : (readId (k := k)).Local := by
  refine local_block.bind fun bytes => ?_
  split
  · exact .pure _
  · exact .throw _

theorem local_times {r : Reader α} (h : r.Local) (n : Nat) : (times r n).Local := by
  induction n with
  | zero => exact .pure []
  | succ n ih => exact h.bind fun a => ih.bind fun as => .pure (a :: as)

theorem local_list {r : Reader α} (h : r.Local) : (readList r).Local :=
  (local_number 8).bind fun n => local_times h n

theorem local_option {r : Reader α} (h : r.Local) : (readOption r).Local := by
  refine local_uint8.bind fun tag => ?_
  split
  · exact .pure none
  split
  · exact h.map some
  · exact .throw _

end Wire

open Wire

theorem Duration.local_read : Duration.read.Local := by
  refine local_uint64.bind fun seconds => local_uint32.bind fun nanos => ?_
  split
  · exact .pure _
  · exact .throw _

theorem Retention.local_read : Retention.read.Local :=
  (local_option Duration.local_read).bind fun _ => (local_option Duration.local_read).bind fun _ =>
    (local_option Duration.local_read).bind fun _ => .pure _

namespace Token

theorem local_span : readSpan.Local :=
  local_id.bind fun _ => local_int64.bind fun _ => local_int64.bind fun _ => .pure _

theorem local_body : readBody.Local :=
  local_text.bind fun _ => local_text.bind fun _ => local_text.bind fun _ =>
    local_id.bind fun _ => local_id.bind fun _ => (local_list local_span).bind fun _ =>
      Retention.local_read.bind fun _ => .pure _

/-- **Written tokens.** A token with a proper lineage whose body keeps within the limit is written,
as a version byte and its body, and read back as the same token; what is not written has a larger
body. Of two byte strings that are tokens neither is a proper prefix of the other. Whatever is a
token starts with the version byte, and its lineage starts at the first node, without a gap and
without an empty span. -/
theorem written_form :
    (∀ t : Token, Lineage.check t.lineage = .ok () → t.writeBody.length ≤ bodyLimit →
      t.encode = .ok (formatVersion :: t.writeBody) ∧
        decode (formatVersion :: t.writeBody) = .ok t) ∧
    (∀ t : Token, t.encode = .error .oversized ↔ bodyLimit < t.writeBody.length) ∧
    (∀ (bytes other : Bytes) (t u : Token), decode bytes = .ok t → decode other = .ok u →
      bytes <+: other → bytes = other) ∧
    ∀ (bytes : Bytes) (t : Token), decode bytes = .ok t →
      bytes.head? = some 1 ∧ Lineage.Follows 1 t.lineage := by
  refine ⟨?_, ?_, ?_, ?_⟩
  · intro t hlineage hlength
    have hencode : t.encode = .ok (formatVersion :: t.writeBody) := by
      rw [encode_eq, if_pos hlength]
    exact ⟨hencode, decode_encode hencode (Lineage.check_eq_ok_iff.1 hlineage)⟩
  · intro t
    rw [encode_eq]
    split
    · next hle => exact iff_of_false nofun (Nat.not_lt.2 hle)
    · next hlt => exact iff_of_true rfl (Nat.not_le.1 hlt)
  · intro bytes other t u hbytes hother hstarts
    obtain ⟨body, rfl, hbody, -⟩ := decode_eq_ok_iff.1 hbytes
    obtain ⟨body', rfl, hbody', -⟩ := decode_eq_ok_iff.1 hother
    rw [local_body.whole_unique hbody hbody' (List.cons_prefix_cons.1 hstarts).2]
  · intro bytes t h
    obtain ⟨body, rfl, -, hlineage⟩ := decode_eq_ok_iff.1 h
    exact ⟨rfl, hlineage⟩

/-- The token of a fork is read back; cut off or with more behind it, it is none. -/
theorem written_form_fork :
    decode (Forked.bytes Forked.fork) = .ok Forked.fork ∧
      ∀ bytes u, bytes <+: Forked.bytes Forked.fork ∨ Forked.bytes Forked.fork <+: bytes →
        decode bytes = .ok u → bytes = Forked.bytes Forked.fork := by
  obtain ⟨hwritten, -, hstarts, -⟩ := written_form
  have hfork := (hwritten Forked.fork rfl (by decide +kernel)).2
  refine ⟨hfork, fun bytes u hor hbytes => ?_⟩
  rcases hor with h | h
  · exact hstarts _ _ _ _ hbytes hfork h
  · exact (hstarts _ _ _ _ hfork hbytes h).symm

end Token

end Chronicle
