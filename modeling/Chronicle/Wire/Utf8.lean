import Chronicle.Wire.LittleEndian

/-!
# Text as bytes

UTF-8 in the strict form: shortest encodings only, no surrogates, nothing above U+10FFFF. A failure
names the index of the first byte of the offending sequence and, unless the input merely stops in
the middle of a sequence, how many bytes of it are already certain to be wrong.
`decode_eq_ok_iff` says that a text is read from its own bytes and from no others.
-/
namespace Chronicle.Utf8

/-- Where and how bytes stop being text. -/
inductive Fault where
  /-- The input ends inside the sequence that starts at `index`. -/
  | incomplete (index : Nat)
  /-- The `length` bytes from `index` begin no character. -/
  | invalid (index length : Nat)
  deriving DecidableEq, Repr

def Fault.message : Fault → String
  | .incomplete index => s!"incomplete utf-8 byte sequence from index {index}"
  | .invalid index length => s!"invalid utf-8 sequence of {length} bytes from index {index}"

def encode (s : String) : Bytes := s.toList.flatMap String.utf8EncodeChar

/-- A sequence of several bytes that has begun. -/
structure Sequence where
  /-- The index of its first byte. -/
  start : Nat
  /-- The bits of its bytes so far. -/
  value : Nat
  /-- The number of bytes still to come. -/
  missing : Nat
  /-- The bounds of the next byte: no overlong form, no surrogate, nothing above U+10FFFF. -/
  low : UInt8
  high : UInt8

/-- The sequence that a lead byte begins, if it is one. -/
def Sequence.ofLead? (index : Nat) (b : UInt8) : Option Sequence :=
  if b < 0xC2 then none
  else if b < 0xE0 then some ⟨index, b.toNat % 32, 1, 0x80, 0xBF⟩
  else if b < 0xF0 then
    some ⟨index, b.toNat % 16, 2, if b = 0xE0 then 0xA0 else 0x80, if b = 0xED then 0x9F else 0xBF⟩
  else if b < 0xF5 then
    some ⟨index, b.toNat % 8, 3, if b = 0xF0 then 0x90 else 0x80, if b = 0xF4 then 0x8F else 0xBF⟩
  else none

def Sequence.add (q : Sequence) (b : UInt8) : Sequence :=
  ⟨q.start, q.value * 64 + b.toNat % 64, q.missing - 1, 0x80, 0xBF⟩

/-- The characters of bytes, the first of which stands at `index`, possibly within a sequence. -/
def decodeFrom (index : Nat) : Option Sequence → Bytes → Except Fault (List Char)
  | none, [] => .ok []
  | some q, [] => .error (.incomplete q.start)
  | none, b :: bs =>
    if b < 0x80 then (Char.ofNat b.toNat :: ·) <$> decodeFrom (index + 1) none bs
    else match Sequence.ofLead? index b with
      | some q => decodeFrom (index + 1) (some q) bs
      | none => .error (.invalid index 1)
  | some q, b :: bs =>
    if b < q.low || q.high < b then .error (.invalid q.start (index - q.start))
    else if q.missing = 1 then
      (Char.ofNat (q.add b).value :: ·) <$> decodeFrom (index + 1) none bs
    else decodeFrom (index + 1) (some (q.add b)) bs

def decode (bytes : Bytes) : Except Fault String := String.ofList <$> decodeFrom 0 none bytes

/-! ## Reading back -/

/-- Whether a byte continues a sequence. -/
def IsTail (b : UInt8) : Prop := 0x80 ≤ b.toNat ∧ b.toNat ≤ 0xBF

theorem decodeFrom_lead {index : Nat} {b : UInt8} {q : Sequence} (hb : 0x80 ≤ b.toNat)
    (h : Sequence.ofLead? index b = some q) (bs : Bytes) :
    decodeFrom index none (b :: bs) = decodeFrom (index + 1) (some q) bs := by
  have h1 : ¬ b < 0x80 := fun h => by have := UInt8.lt_iff_toNat_lt.1 h; simp at this; omega
  rw [decodeFrom, if_neg h1, h]

theorem decodeFrom_tail {index : Nat} {b : UInt8} {q : Sequence} (hlow : q.low.toNat ≤ b.toNat)
    (hhigh : b.toNat ≤ q.high.toNat) (bs : Bytes) :
    decodeFrom index (some q) (b :: bs) =
      if q.missing = 1 then (Char.ofNat (q.add b).value :: ·) <$> decodeFrom (index + 1) none bs
      else decodeFrom (index + 1) (some (q.add b)) bs := by
  have h1 : (b < q.low || q.high < b) = false := by
    simp only [UInt8.lt_iff_toNat_lt, Bool.or_eq_false_iff, decide_eq_false_iff_not]; omega
  rw [decodeFrom, h1, if_neg (by simp)]

theorem decodeFrom_two {b c : UInt8} (hb : 0xC2 ≤ b.toNat ∧ b.toNat < 0xE0) (hc : IsTail c)
    (index : Nat) (bs : Bytes) :
    decodeFrom index none (b :: c :: bs) =
      (Char.ofNat (b.toNat % 32 * 64 + c.toNat % 64) :: ·) <$>
        decodeFrom (index + 2) none bs := by
  have hq : Sequence.ofLead? index b = some ⟨index, b.toNat % 32, 1, 0x80, 0xBF⟩ := by
    simp only [Sequence.ofLead?, UInt8.lt_iff_toNat_lt, UInt8.reduceToNat]
    rw [if_neg (by omega), if_pos (by omega)]
  rw [decodeFrom_lead (by omega) hq, decodeFrom_tail (by exact hc.1) (by exact hc.2),
    if_pos (by rfl)]
  rfl

theorem decodeFrom_three {b c d : UInt8} (hb : 0xE0 ≤ b.toNat ∧ b.toNat < 0xF0)
    (hc : IsTail c) (hE0 : b.toNat = 0xE0 → 0xA0 ≤ c.toNat) (hED : b.toNat = 0xED → c.toNat ≤ 0x9F)
    (hd : IsTail d) (index : Nat) (bs : Bytes) :
    decodeFrom index none (b :: c :: d :: bs) =
      (Char.ofNat ((b.toNat % 16 * 64 + c.toNat % 64) * 64 + d.toNat % 64) :: ·) <$>
        decodeFrom (index + 3) none bs := by
  have hq : Sequence.ofLead? index b = some ⟨index, b.toNat % 16, 2,
      if b = 0xE0 then 0xA0 else 0x80, if b = 0xED then 0x9F else 0xBF⟩ := by
    simp only [Sequence.ofLead?, UInt8.lt_iff_toNat_lt, UInt8.reduceToNat]
    rw [if_neg (by omega), if_neg (by omega), if_pos (by omega)]
  have hlow : (if b = 0xE0 then 0xA0 else 0x80 : UInt8).toNat ≤ c.toNat := by
    split
    · next h => subst h; exact hE0 rfl
    · exact hc.1
  have hhigh : c.toNat ≤ (if b = 0xED then 0x9F else 0xBF : UInt8).toNat := by
    split
    · next h => subst h; exact hED rfl
    · exact hc.2
  rw [decodeFrom_lead (by omega) hq, decodeFrom_tail hlow hhigh, if_neg (by simp),
    decodeFrom_tail (by exact hd.1) (by exact hd.2), if_pos (by rfl)]
  rfl

theorem decodeFrom_four {b c d e : UInt8} (hb : 0xF0 ≤ b.toNat ∧ b.toNat < 0xF5)
    (hc : IsTail c) (hF0 : b.toNat = 0xF0 → 0x90 ≤ c.toNat) (hF4 : b.toNat = 0xF4 → c.toNat ≤ 0x8F)
    (hd : IsTail d) (he : IsTail e) (index : Nat) (bs : Bytes) :
    decodeFrom index none (b :: c :: d :: e :: bs) =
      (Char.ofNat (((b.toNat % 8 * 64 + c.toNat % 64) * 64 + d.toNat % 64) * 64 + e.toNat % 64) :: ·)
        <$> decodeFrom (index + 4) none bs := by
  have hq : Sequence.ofLead? index b = some ⟨index, b.toNat % 8, 3,
      if b = 0xF0 then 0x90 else 0x80, if b = 0xF4 then 0x8F else 0xBF⟩ := by
    simp only [Sequence.ofLead?, UInt8.lt_iff_toNat_lt, UInt8.reduceToNat]
    rw [if_neg (by omega), if_neg (by omega), if_neg (by omega), if_pos (by omega)]
  have hlow : (if b = 0xF0 then 0x90 else 0x80 : UInt8).toNat ≤ c.toNat := by
    split
    · next h => subst h; exact hF0 rfl
    · exact hc.1
  have hhigh : c.toNat ≤ (if b = 0xF4 then 0x8F else 0xBF : UInt8).toNat := by
    split
    · next h => subst h; exact hF4 rfl
    · exact hc.2
  rw [decodeFrom_lead (by omega) hq, decodeFrom_tail hlow hhigh, if_neg (by simp),
    decodeFrom_tail (by exact hd.1) (by exact hd.2), if_neg (by simp [Sequence.add]),
    decodeFrom_tail (by exact he.1) (by exact he.2), if_pos (by rfl)]
  rfl

theorem toNat_ofNat_of_lt {n : Nat} (h : n < 256) : (UInt8.ofNat n).toNat = n := by
  rw [UInt8.toNat_ofNat']; omega

/-- The bytes of a character are read back as that character, whatever follows. -/
theorem decodeFrom_encodeChar (index : Nat) (c : Char) (bs : Bytes) :
    ∃ next, decodeFrom index none (String.utf8EncodeChar c ++ bs) =
      (c :: ·) <$> decodeFrom next none bs := by
  have hc : Char.ofNat c.val.toNat = c := Char.ofNat_toNat c
  have hv : c.val.toNat < 0xD800 ∨ 0xDFFF < c.val.toNat ∧ c.val.toNat < 0x110000 := c.valid
  unfold String.utf8EncodeChar
  dsimp only
  generalize c.val.toNat = v at hc hv ⊢
  have tail : ∀ n, (UInt8.ofNat (n % 64 + 128)).toNat = n % 64 + 128 := fun n =>
    toNat_ofNat_of_lt (by omega)
  have isTail : ∀ n, IsTail (UInt8.ofNat (n % 64 + 128)) := fun n => by
    rw [IsTail, tail]; omega
  split
  · have h1 := toNat_ofNat_of_lt (show v < 256 by omega)
    refine ⟨index + 1, ?_⟩
    rw [List.singleton_append, decodeFrom, if_pos, h1, hc]
    rw [UInt8.lt_iff_toNat_lt, h1]
    exact Nat.lt_succ_of_le ‹v ≤ 127›
  split
  · have h1 := toNat_ofNat_of_lt (show v / 64 % 32 + 192 < 256 by omega)
    refine ⟨index + 2, ?_⟩
    rw [List.cons_append, List.singleton_append, decodeFrom_two (by omega) (isTail _), h1, tail,
      show (v / 64 % 32 + 192) % 32 * 64 + (v % 64 + 128) % 64 = v by omega, hc]
  split
  · have h1 := toNat_ofNat_of_lt (show v / 4096 % 16 + 224 < 256 by omega)
    refine ⟨index + 3, ?_⟩
    rw [List.cons_append, List.cons_append, List.singleton_append,
      decodeFrom_three (by omega) (isTail _) (by rw [h1, tail]; omega) (by rw [h1, tail]; omega)
        (isTail _), h1, tail, tail,
      show ((v / 4096 % 16 + 224) % 16 * 64 + (v / 64 % 64 + 128) % 64) * 64
        + (v % 64 + 128) % 64 = v by omega, hc]
  · have h1 := toNat_ofNat_of_lt (show v / 262144 % 8 + 240 < 256 by omega)
    refine ⟨index + 4, ?_⟩
    rw [List.cons_append, List.cons_append, List.cons_append, List.singleton_append,
      decodeFrom_four (by omega) (isTail _) (by rw [h1, tail]; omega) (by rw [h1, tail]; omega)
        (isTail _) (isTail _), h1, tail, tail, tail,
      show (((v / 262144 % 8 + 240) % 8 * 64 + (v / 4096 % 64 + 128) % 64) * 64
        + (v / 64 % 64 + 128) % 64) * 64 + (v % 64 + 128) % 64 = v by omega, hc]

theorem decode_encode (s : String) : decode (encode s) = .ok s := by
  have h : ∀ (cs : List Char) (index : Nat),
      decodeFrom index none (cs.flatMap String.utf8EncodeChar) = .ok cs := fun cs => by
    induction cs with
    | nil => intro _; rfl
    | cons c cs ih =>
      intro index
      obtain ⟨next, hn⟩ := decodeFrom_encodeChar index c (cs.flatMap String.utf8EncodeChar)
      rw [List.flatMap_cons, hn, ih]
      rfl
  rw [decode, encode, h]
  exact congrArg Except.ok (String.ofList_toList)

/-! ## Only what is written is read -/

/-- The bytes `front` begin a character, `q` says how it goes on, and `missing` bytes are to come:
with any bytes that `q` lets pass they are the bytes of the character that is read. -/
def Sequence.Continues (front : Bytes) : Nat → Sequence → Prop
  | 0, q => String.utf8EncodeChar (Char.ofNat q.value) = front
  | missing + 1, q => q.missing = missing + 1 ∧
      ∀ b, q.low.toNat ≤ b.toNat → b.toNat ≤ q.high.toNat →
        Continues (front ++ [b]) missing (q.add b)

/-- The bytes `front` are those of the character that is being read. -/
def Begun (front : Bytes) : Option Sequence → Prop
  | none => front = []
  | some q => ∃ missing, q.Continues front (missing + 1)

theorem map_eq_ok_iff {ε α β : Type} {f : α → β} {x : Except ε α} {b : β} :
    f <$> x = .ok b ↔ ∃ a, x = .ok a ∧ f a = b := by
  cases x with
  | error e => exact iff_of_false nofun nofun
  | ok a =>
    show Except.ok (f a) = .ok b ↔ _
    simp only [Except.ok.injEq, exists_eq_left']

theorem toNat_ofNat_of_valid {n : Nat} (h : n < 0xD800 ∨ 0xDFFF < n ∧ n < 0x110000) :
    (Char.ofNat n).val.toNat = n := by
  have hvalid : n.isValidChar := h
  rw [Char.ofNat, dif_pos hvalid]
  rfl

theorem ofNat_eq_of_toNat {b : UInt8} {n : Nat} (h : n = b.toNat) : UInt8.ofNat n = b := by
  rw [h, UInt8.ofNat_toNat]

theorem encodeChar_one {b : UInt8} (hb : b.toNat < 0x80) :
    String.utf8EncodeChar (Char.ofNat b.toNat) = [b] := by
  unfold String.utf8EncodeChar
  dsimp only
  rw [toNat_ofNat_of_valid (by omega), if_pos (by omega), UInt8.ofNat_toNat]

theorem encodeChar_two {b c : UInt8} (hb : 0xC2 ≤ b.toNat ∧ b.toNat < 0xE0) (hc : IsTail c) :
    String.utf8EncodeChar (Char.ofNat (b.toNat % 32 * 64 + c.toNat % 64)) = [b, c] := by
  unfold IsTail at hc
  unfold String.utf8EncodeChar
  dsimp only
  rw [toNat_ofNat_of_valid (by omega), if_neg (by omega), if_pos (by omega),
    ofNat_eq_of_toNat (b := b) (by omega), ofNat_eq_of_toNat (b := c) (by omega)]

theorem encodeChar_three {b c d : UInt8} (hb : 0xE0 ≤ b.toNat ∧ b.toNat < 0xF0) (hc : IsTail c)
    (hE0 : b.toNat = 0xE0 → 0xA0 ≤ c.toNat) (hED : b.toNat = 0xED → c.toNat ≤ 0x9F)
    (hd : IsTail d) :
    String.utf8EncodeChar
      (Char.ofNat ((b.toNat % 16 * 64 + c.toNat % 64) * 64 + d.toNat % 64)) = [b, c, d] := by
  unfold IsTail at hc hd
  unfold String.utf8EncodeChar
  dsimp only
  rw [toNat_ofNat_of_valid (by omega), if_neg (by omega), if_neg (by omega), if_pos (by omega),
    ofNat_eq_of_toNat (b := b) (by omega), ofNat_eq_of_toNat (b := c) (by omega),
    ofNat_eq_of_toNat (b := d) (by omega)]

theorem encodeChar_four {b c d e : UInt8} (hb : 0xF0 ≤ b.toNat ∧ b.toNat < 0xF5) (hc : IsTail c)
    (hF0 : b.toNat = 0xF0 → 0x90 ≤ c.toNat) (hF4 : b.toNat = 0xF4 → c.toNat ≤ 0x8F)
    (hd : IsTail d) (he : IsTail e) :
    String.utf8EncodeChar (Char.ofNat
      (((b.toNat % 8 * 64 + c.toNat % 64) * 64 + d.toNat % 64) * 64 + e.toNat % 64)) =
        [b, c, d, e] := by
  unfold IsTail at hc hd he
  unfold String.utf8EncodeChar
  dsimp only
  rw [toNat_ofNat_of_valid (by omega), if_neg (by omega), if_neg (by omega), if_neg (by omega),
    ofNat_eq_of_toNat (b := b) (by omega), ofNat_eq_of_toNat (b := c) (by omega),
    ofNat_eq_of_toNat (b := d) (by omega), ofNat_eq_of_toNat (b := e) (by omega)]

theorem begun_none : Begun [] none := rfl

theorem low_le {p : Prop} [Decidable p] {n c : UInt8} (hn : 0x80 ≤ n.toNat)
    (hc : (if p then n else 0x80).toNat ≤ c.toNat) :
    0x80 ≤ c.toNat ∧ (p → n.toNat ≤ c.toNat) := by
  split at hc
  · exact ⟨Nat.le_trans hn hc, fun _ => hc⟩
  · next hp => exact ⟨hc, fun h => absurd h hp⟩

theorem le_high {p : Prop} [Decidable p] {n c : UInt8} (hn : n.toNat ≤ 0xBF)
    (hc : c.toNat ≤ (if p then n else 0xBF).toNat) :
    c.toNat ≤ 0xBF ∧ (p → c.toNat ≤ n.toNat) := by
  split at hc
  · exact ⟨Nat.le_trans hc hn, fun _ => hc⟩
  · next hp => exact ⟨hc, fun h => absurd h hp⟩

theorem begun_ofLead? {index : Nat} {b : UInt8} {q : Sequence}
    (h : Sequence.ofLead? index b = some q) : Begun [b] (some q) := by
  simp only [Sequence.ofLead?, UInt8.lt_iff_toNat_lt, UInt8.reduceToNat] at h
  split at h
  · cases h
  split at h
  · cases h
    exact ⟨0, rfl, fun c hc hc' => encodeChar_two (by omega) ⟨hc, hc'⟩⟩
  split at h
  · cases h
    refine ⟨1, rfl, fun c hc hc' => ⟨rfl, fun d hd hd' => ?_⟩⟩
    obtain ⟨hc, hE0⟩ := low_le (by decide) hc
    obtain ⟨hc', hED⟩ := le_high (by decide) hc'
    exact encodeChar_three (by omega) ⟨hc, hc'⟩ (fun hb => hE0 (UInt8.toNat_inj.1 hb))
      (fun hb => hED (UInt8.toNat_inj.1 hb)) ⟨hd, hd'⟩
  split at h
  · cases h
    refine ⟨2, rfl, fun c hc hc' => ⟨rfl, fun d hd hd' => ⟨rfl, fun e he he' => ?_⟩⟩⟩
    obtain ⟨hc, hF0⟩ := low_le (by decide) hc
    obtain ⟨hc', hF4⟩ := le_high (by decide) hc'
    exact encodeChar_four (by omega) ⟨hc, hc'⟩ (fun hb => hF0 (UInt8.toNat_inj.1 hb))
      (fun hb => hF4 (UInt8.toNat_inj.1 hb)) ⟨hd, hd'⟩ ⟨he, he'⟩
  · cases h

theorem flatMap_of_decodeFrom {index : Nat} {o : Option Sequence} {front bytes : Bytes}
    {cs : List Char} (hfront : Begun front o) (h : decodeFrom index o bytes = .ok cs) :
    cs.flatMap String.utf8EncodeChar = front ++ bytes := by
  induction bytes generalizing index o front cs with
  | nil =>
    cases o with
    | none =>
      cases h
      cases hfront
      rfl
    | some q => cases h
  | cons b bs ih =>
    cases o with
    | none =>
      cases hfront
      rw [decodeFrom] at h
      split at h
      · next hb =>
        obtain ⟨rest, hrest, rfl⟩ := map_eq_ok_iff.1 h
        rw [List.flatMap_cons, encodeChar_one (UInt8.lt_iff_toNat_lt.1 hb), ih begun_none hrest]
        rfl
      · split at h
        · next q hq => exact ih (begun_ofLead? hq) h
        · cases h
    | some q =>
      obtain ⟨missing, hmissing, hnext⟩ := hfront
      rw [decodeFrom] at h
      split at h
      · cases h
      next hin =>
      simp only [UInt8.lt_iff_toNat_lt, Bool.or_eq_true, decide_eq_true_eq, not_or, Nat.not_lt]
        at hin
      have hb := hnext b hin.1 hin.2
      rw [hmissing] at h
      cases missing with
      | zero =>
        rw [if_pos rfl] at h
        obtain ⟨rest, hrest, rfl⟩ := map_eq_ok_iff.1 h
        rw [List.flatMap_cons, show _ = front ++ [b] from hb, ih begun_none hrest,
          List.append_assoc]
        rfl
      | succ missing =>
        rw [if_neg (by omega)] at h
        have hbegun : Begun (front ++ [b]) (some (q.add b)) := ⟨missing, hb⟩
        rw [ih hbegun h, List.append_assoc]
        rfl

/-- The bytes of a text, and no others, are read as that text. -/
theorem decode_eq_ok_iff {bytes : Bytes} {s : String} :
    decode bytes = .ok s ↔ bytes = encode s := by
  constructor
  · intro h
    obtain ⟨cs, hcs, rfl⟩ := map_eq_ok_iff.1 h
    rw [encode, String.toList_ofList, flatMap_of_decodeFrom begun_none hcs]
    rfl
  · intro h
    rw [h, decode_encode]

end Chronicle.Utf8
