import Chronicle.Event.Codec
import Chronicle.Proofs.Appending
import Chronicle.Proofs.Bounds
import Chronicle.Proofs.PrefixFree
import Chronicle.Proofs.Slices

/-!
# Batches as blobs

In the fixed-width layout a batch says how many events it has, and each event how long its kind and
its payload are. So a blob that is cut anywhere is no batch, what follows a batch does not matter,
and it is the same to an archive who encodes a batch: it, or a writer that hands in the blob.

* `Codec.Countable`: the batch has fewer events and bytes than 64 bits count.
* `Action.Renamed`: two operations that only differ in the name that a timeout gives.
* `append_agrees`: appending events and appending their blob.
* `readBatches_of_raw`: what a read by batch answers is what the raw read answers, decoded.
* `batches_survive`: the result.
-/
namespace Chronicle

open Archive (State)

namespace Wire

theorem local_byteList : readByteList.Local := (local_number 8).bind fun _ => local_take _ _

theorem Reader.Local.first_of_cut {α : Type} {r : Reader α} (h : r.Local) {bytes cut : Bytes}
    {a : α} (hreads : Reads r bytes a) (hcut : cut <+: bytes) (hne : cut ≠ bytes) :
    ∃ fault, r.first cut = .error fault := by
  obtain ⟨more, rfl⟩ := hcut
  cases hrun : r.run cut with
  | error fault =>
    refine ⟨fault, ?_⟩
    rw [Reader.first, hrun]
    rfl
  | ok p =>
    obtain ⟨b, rest⟩ := p
    have hwhole := hreads []
    rw [List.append_nil, h _ _ _ hrun more] at hwhole
    cases rest with
    | nil =>
      cases more with
      | nil => exact absurd (List.append_nil cut).symm hne
      | cons => cases hwhole
    | cons => cases hwhole

end Wire

/-! ## The codec -/

theorem Event.reads {e : Event} (hkind : (Utf8.encode e.kind).length < UInt64.size)
    (hpayload : e.payload.length < UInt64.size) : Wire.Reads Event.read e.write e := by
  unfold Event.write
  rw [List.append_assoc, List.append_assoc]
  exact (Wire.reads_int64 _).bind ((Wire.reads_int64 _).bind ((Wire.reads_text hkind).bind
    ((Wire.reads_byteList hpayload).bind_pure rfl)))

theorem Event.local_read : Event.read.Local :=
  Wire.local_int64.bind fun _ => Wire.local_int64.bind fun _ => Wire.local_text.bind fun _ =>
    Wire.local_byteList.bind fun _ => .pure _

namespace Codec

/-- The number of events, and the lengths of their kinds and payloads, fit 64 bits. -/
structure Countable (es : List Event) : Prop where
  events : es.length < UInt64.size
  kinds : ∀ e ∈ es, (Utf8.encode e.kind).length < UInt64.size
  payloads : ∀ e ∈ es, e.payload.length < UInt64.size

variable {es : List Event}

theorem reads_batch (h : Countable es) : Wire.Reads (Wire.readList Event.read) (writeBatch es) es :=
  Wire.reads_list h.events fun e he => Event.reads (h.kinds e he) (h.payloads e he)

theorem length_writeEvent (e : Event) :
    e.write.length = 32 + (Utf8.encode e.kind).length + e.payload.length := by
  simp only [Event.write, Wire.writeInt64, Wire.writeUInt64, Wire.writeText, Wire.writeBlock,
    Wire.writeCount, List.length_append, LittleEndian.length_write]
  omega

/-- A batch whose blob has a length that fits 64 bits is countable. -/
theorem Countable.of_length (h : (writeBatch es).length < UInt64.size) : Countable es := by
  have hevents : es.length ≤ (es.flatMap Event.write).length ∧ ∀ e ∈ es,
      e.write.length ≤ (es.flatMap Event.write).length := by
    clear h
    induction es with
    | nil => exact ⟨Nat.le_refl _, fun _ he => absurd he List.not_mem_nil⟩
    | cons d ds ih =>
      have hd := length_writeEvent d
      rw [List.flatMap_cons, List.length_append, List.length_cons]
      refine ⟨by omega, fun e he => ?_⟩
      rcases List.mem_cons.1 he with rfl | he
      · omega
      · exact Nat.le_trans (ih.2 e he) (Nat.le_add_left ..)
  rw [writeBatch, Wire.writeList, Wire.writeCount, List.length_append,
    LittleEndian.length_write] at h
  refine ⟨by omega, fun e he => ?_, fun e he => ?_⟩
  · have he' := hevents.2 e he
    have hlength := length_writeEvent e
    omega
  · have he' := hevents.2 e he
    have hlength := length_writeEvent e
    omega

theorem decode_fixedWidth (blob : Bytes) : fixedWidth.decode blob =
    (readBatch blob).mapError fun fault => CodecError.decode fault.message := by
  unfold fixedWidth
  dsimp only
  cases readBatch blob <;> rfl

theorem decode_append (h : Countable es) (junk : Bytes) :
    fixedWidth.decode (writeBatch es ++ junk) = .ok es := by
  have hread : readBatch (writeBatch es ++ junk) = .ok es := (reads_batch h).first junk
  rw [decode_fixedWidth, hread]
  rfl

theorem decode_writeBatch (h : Countable es) : fixedWidth.decode (writeBatch es) = .ok es := by
  have hread : readBatch (writeBatch es) = .ok es := by
    have hfirst := (reads_batch h).first []
    rw [List.append_nil] at hfirst
    exact hfirst
  rw [decode_fixedWidth, hread]
  rfl

theorem decode_of_cut (h : Countable es) {cut : Bytes} (hcut : cut <+: writeBatch es)
    (hne : cut ≠ writeBatch es) : ∃ reason, fixedWidth.decode cut = .error (.decode reason) := by
  obtain ⟨fault, hfault⟩ :=
    (Wire.local_list Event.local_read).first_of_cut (reads_batch h) hcut hne
  have hread : readBatch cut = .error fault := hfault
  refine ⟨fault.message, ?_⟩
  rw [decode_fixedWidth, hread]
  rfl

theorem writeBatch_injective {ds : List Event} (hes : Countable es) (hds : Countable ds)
    (h : writeBatch es = writeBatch ds) : es = ds := by
  have hdecode := decode_writeBatch hes
  rw [h, decode_writeBatch hds] at hdecode
  exact (Except.ok.inj hdecode).symm

theorem isEmpty_writeBatch (es : List Event) : (writeBatch es).isEmpty = false := rfl

/-- The version holds the batch, as an append of its events stores it. -/
structure Holds (v : Version) (es : List Event) : Prop where
  countable : Countable es
  blob : v.blob = writeBatch es
  check : ∃ first, Batch.check es = .ok first ∧ first.id = v.node

variable {v : Version} {last : EventId}

/-- What a version is decoded to is the batch that it holds. -/
theorem decode_of_blob (h : Countable es) (hblob : v.blob = writeBatch es) {b : Batch}
    (hb : Batch.decode fixedWidth last v = .ok b) :
    b = ⟨v.node, v.transaction, es, v.blob.length⟩ := by
  have hdecode : fixedWidth.decode v.blob = .ok es := by rw [hblob, decode_writeBatch h]
  unfold Batch.decode at hb
  rw [hdecode] at hb
  dsimp only at hb
  split at hb
  · cases hb
  split at hb
  · cases hb
  split at hb
  · cases hb
  split at hb
  · cases hb
  exact (Except.ok.inj hb).symm

/-- A version that holds a batch is decoded, unless there is a gap before it or no event is next. -/
theorem Holds.decode_cases (h : Holds v es) : (∃ b, Batch.decode fixedWidth last v = .ok b) ∨
    Batch.decode fixedWidth last v = .error (.dataLoss (.gap (last + 1) v.node)) ∨
    Batch.decode fixedWidth last v = .error .overflow ∧ last = Int64.maxValue := by
  obtain ⟨first, hfirst, hnode⟩ := h.check
  have hdecode : fixedWidth.decode v.blob = .ok es := by
    rw [h.blob, decode_writeBatch h.countable]
  unfold Batch.decode
  rw [hdecode]
  dsimp only
  rw [hfirst]
  dsimp only
  rw [if_neg (not_not_intro hnode), hnode]
  split
  · next hlast => exact .inr (.inr ⟨rfl, hlast⟩)
  split
  · exact .inr (.inl rfl)
  · exact .inl ⟨_, rfl⟩

theorem Holds.lastEvent (h : Holds v es) {b : Batch} (hb : Batch.decode fixedWidth last v = .ok b) :
    es.getLast?.map (·.id) = some (b.lastEvent last) := by
  obtain ⟨first, hfirst, -⟩ := h.check
  have hne : es ≠ [] := by
    intro hnil
    rw [hnil] at hfirst
    cases hfirst
  rw [decode_of_blob h.countable h.blob hb, Batch.lastEvent, List.getLast?_eq_some_getLast hne]
  rfl

def Hold (l : List Version) : Prop := ∀ v ∈ l, ∃ es, Holds v es

/-- Another version follows a batch that ends with the largest event. -/
def GoesOn (l : List Version) : Prop :=
  ∃ v ∈ l.dropLast, ∃ es, Holds v es ∧ es.getLast?.map (·.id) = some Int64.maxValue

end Codec

namespace Batch

variable {codec : Codec} {last stop : EventId} {l : List Version} {bs : List Batch}

theorem Decodes.getElem? (h : Decodes codec last l bs stop) {i : Nat} {v : Version}
    (hv : l[i]? = some v) : ∃ last' b, bs[i]? = some b ∧ decode codec last' v = .ok b := by
  induction h generalizing i with
  | nil => cases hv
  | @cons last stop w rest b bs hb _ ih =>
    cases i with
    | zero =>
      cases hv
      exact ⟨last, b, rfl, hb⟩
    | succ i => exact ih hv

/-- Versions that hold batches are decoded, unless there is a gap before one of them, or one follows
the largest event. -/
theorem decodeAll_cases (last : EventId) (h : Codec.Hold l) :
    (∃ r, decodeAll .fixedWidth last l = .ok r) ∨
    (∃ expected found, decodeAll .fixedWidth last l = .error (.dataLoss (.gap expected found))) ∨
    decodeAll .fixedWidth last l = .error .overflow ∧
      (last = Int64.maxValue ∨ Codec.GoesOn l) := by
  induction l generalizing last with
  | nil => exact .inl ⟨_, rfl⟩
  | cons v rest ih =>
    obtain ⟨es, hes⟩ := h v (List.mem_cons_self ..)
    rcases hes.decode_cases with ⟨b, hb⟩ | hgap | ⟨hover, hlast⟩
    · unfold decodeAll
      rw [hb]
      rcases ih (b.lastEvent last) (fun w hw => h w (List.mem_cons_of_mem _ hw)) with
        ⟨r, hr⟩ | ⟨e, f, hr⟩ | ⟨hr, hends⟩
      · refine .inl ⟨(b :: r.1, r.2), ?_⟩
        simp only [bind, Except.bind, hr]
        rfl
      · refine .inr (.inl ⟨e, f, ?_⟩)
        simp only [bind, Except.bind, hr]
      · have hrest : rest ≠ [] := by
          intro hnil
          rw [hnil] at hr
          cases hr
        refine .inr (.inr ⟨by simp only [bind, Except.bind, hr], .inr ?_⟩)
        rw [Codec.GoesOn, List.dropLast_cons_of_ne_nil hrest]
        rcases hends with hlast | ⟨w, hw, hends⟩
        · exact ⟨v, List.mem_cons_self .., es, hes, (hes.lastEvent hb).trans (congrArg some hlast)⟩
        · exact ⟨w, List.mem_cons_of_mem _ hw, hends⟩
    · exact .inr (.inl ⟨_, _, decodeAll_of_error hgap⟩)
    · exact .inr (.inr ⟨decodeAll_of_error hover, .inl hlast⟩)

end Batch

/-! ## Names of operations -/

namespace Action

variable {σ α β : Type} {d d' : Deadline}

/-- The two operations do the same from whatever state, but if their time is over each says which
one it is. -/
def Renamed (d d' : Deadline) (x y : Action σ α) : Prop :=
  ∀ s, x s = y s ∨
    ∃ t, x s = .error (.timeout d.operation) t ∧ y s = .error (.timeout d'.operation) t

namespace Renamed

theorem refl (x : Action σ α) : Renamed d d' x x := fun _ => .inl rfl

theorem bind {x y : Action σ β} {f g : β → Action σ α} (hx : Renamed d d' x y)
    (hf : ∀ b, Renamed d d' (f b) (g b)) : Renamed d d' (x >>= f) (y >>= g) := by
  intro s
  rw [bind_apply, bind_apply]
  rcases hx s with heq | ⟨t, hx, hy⟩
  · rw [heq]
    cases y s with
    | ok b t => exact hf b t
    | error e t => exact .inl rfl
  · rw [hx, hy]
    exact .inr ⟨t, rfl, rfl⟩

theorem map {x y : Action σ β} (hx : Renamed d d' x y) (f : β → α) :
    Renamed d d' (f <$> x) (f <$> y) := by
  intro s
  rw [map_apply, map_apply]
  rcases hx s with heq | ⟨t, hx, hy⟩
  · exact .inl (by rw [heq])
  · rw [hx, hy]
    exact .inr ⟨t, rfl, rfl⟩

theorem throw_bind {e : Error} {f g : β → Action σ α} :
    Renamed d d' (throw e >>= f) (throw e >>= g) := fun _ => .inl rfl

theorem of_ok {x y : Action σ α} (h : Renamed d d' x y) {s t : State σ} {a : α}
    (hx : x s = .ok a t) : y s = .ok a t := by
  rcases h s with heq | ⟨u, herror, -⟩
  · exact heq.symm.trans hx
  · cases hx.symm.trans herror

/-- The outcomes, said of the answers and of the states that the operations leave. -/
theorem outcome {x y : Action σ α} (h : Renamed d d' x y) (s : State σ) :
    x.final s = y.final s ∧ (x.answer s = y.answer s ∨
      x.answer s = .error (.timeout d.operation) ∧
        y.answer s = .error (.timeout d'.operation)) := by
  unfold final answer
  rcases h s with heq | ⟨t, hx, hy⟩
  · rw [heq]
    exact ⟨rfl, .inl rfl⟩
  · rw [hx, hy]
    exact ⟨rfl, .inr ⟨rfl, rfl⟩⟩

variable (h : d.limit = d'.limit)
include h

theorem check : Renamed d d' (Action.check d : Action σ Unit) (Action.check d') := by
  obtain ⟨operation, limit⟩ := d
  obtain ⟨operation', limit'⟩ := d'
  cases h
  intro s
  unfold Action.check Deadline.check
  cases hexpired : Deadline.expired ⟨operation, limit⟩ with
  | true =>
    rw [show Deadline.expired ⟨operation', limit⟩ = true from hexpired]
    exact .inr ⟨_, rfl, rfl⟩
  | false =>
    rw [show Deadline.expired ⟨operation', limit⟩ = false from hexpired]
    generalize s.delay = delay
    rcases limit with _ | limit
    · exact .inl rfl
    · rcases delay with _ | _ | n
      · exact .inl rfl
      · exact .inr ⟨_, rfl, rfl⟩
      · exact .inl rfl

theorem ask (call : Call σ α) : Renamed d d' (Action.ask d call) (Action.ask d' call) :=
  bind (check h) fun _ => refl _

end Renamed

end Action

namespace Archive

variable {σ : Type} [Backend σ] {d d' : Deadline} (h : d.limit = d'.limit)
include h

theorem precedingIn_renamed (tree : TreeId) (node : NodeId) (x : TransactionId)
    (spans : List Span) :
    Action.Renamed d d' (precedingIn d tree node x spans : Action σ _)
      (precedingIn d' tree node x spans) := by
  induction spans generalizing x with
  | nil => exact .refl _
  | cons s rest ih =>
    unfold precedingIn
    extract_lets before
    split
    · exact .bind (.ask h _) fun y => ih _
    · exact ih x

theorem store_renamed (a : Archive) (req : WriteRequest) (q : Token) (v : Version) :
    Action.Renamed d d' (a.store d req q v : Action σ _) (a.store d' req q v) := by
  refine .bind (.refl _) fun _ => .bind (.refl _) fun _ => .bind (.ask h _) fun row => ?_
  extract_lets tree branch insert rest insert' rest'
  have hrest : ∀ token, Action.Renamed d d' (rest token) (rest' token) := by
    intro token
    dsimp only [rest, rest', insert, insert']
    split
    · exact .throw_bind
    refine .bind (.ask h _) fun existing => ?_
    split
    · exact .refl _
    refine .bind (precedingIn_renamed h _ _ _ _) fun expected => ?_
    split
    · exact .bind (.refl _) fun _ => .throw_bind
    split
    · exact .bind (.bind (.refl _) fun s => .ask h _) fun _ => .bind (.ask h _) fun _ => .refl _
    · exact .bind (.ask h _) fun _ => .refl _
  split
  · exact .bind (.refl _) hrest
  split
  · exact .bind (.refl _) hrest
  · exact .throw_bind

end Archive

namespace Archive

variable {a : Archive} {req : WriteRequest}

/-- Payloads of which the same version is made up are appended alike, from whatever state and
whatever calls fail. An append whose time is over says which one it is. -/
theorem append_agrees {σ : Type} [Backend σ] {payload other : Payload}
    (h : payload.prepare a.codec req = other.prepare a.codec req) (s : State σ) :
    let x : Action σ Answer := (Operation.append req payload).perform a
    let y : Action σ Answer := (Operation.append req other).perform a
    x.final s = y.final s ∧ (x.answer s = y.answer s ∨
      x.answer s = .error (.timeout payload.operation) ∧
        y.answer s = .error (.timeout other.operation)) := by
  dsimp only
  rw [perform_append, perform_append, ← h]
  have hlimit : (a.deadline payload.operation).limit = (a.deadline other.operation).limit := rfl
  have hstore := fun target : Token × Version =>
    (store_renamed (σ := σ) hlimit a req target.1 target.2).map Answer.receipt
  exact Action.Renamed.outcome (.bind (.refl _) fun _ => .bind (.refl _) hstore) s

/-- Of a batch and of its blob the same version is made up. -/
theorem prepare_eq_raw {es : List Event} {first : Event} (hcheck : Batch.check es = .ok first)
    (req : WriteRequest) : (Payload.events es).prepare .fixedWidth req =
      (Payload.raw first.id (Codec.writeBatch es)).prepare .fixedWidth req := by
  have hpositive : ¬ first.id < firstEvent :=
    Int64.not_lt.2 (Batch.check_eq_ok_iff.1 hcheck).positive
  have hencode : Codec.fixedWidth.encode es = .ok (Codec.writeBatch es) := rfl
  simp only [Payload.prepare, hcheck, hencode, Codec.isEmpty_writeBatch, hpositive,
    Bool.false_eq_true, if_false]
  cases decodeToken req.token <;> rfl

/-! ## Reading -/

section Deadline

variable {σ : Type} [Backend σ] {d d' : Deadline} (h : d.limit = d'.limit)
include h

theorem sweep_renamed (plan : Plan) (s : Span) (start : NodeId) (pageSize : UInt64) (fuel : Nat)
    (after : Option Position) (taken : List Version) (cursor : Cursor) :
    Action.Renamed d d'
      (Selection.sweep d plan s start pageSize fuel after taken cursor : Action σ _)
      (Selection.sweep d' plan s start pageSize fuel after taken cursor) := by
  induction fuel generalizing after taken cursor with
  | zero => exact .refl _
  | succ fuel ih =>
    refine .bind (.ask h _) fun rows => .bind (.refl _) fun progress => ?_
    split
    · exact .refl _
    · exact ih _ _ _

theorem walk_renamed (plan : Plan) (pageSize : UInt64) (spans : List Span) (taken : List Version)
    (cursor : Cursor) :
    Action.Renamed d d' (Selection.walk d plan pageSize spans taken cursor : Action σ _)
      (Selection.walk d' plan pageSize spans taken cursor) := by
  induction spans generalizing taken cursor with
  | nil => exact .refl _
  | cons s rest ih =>
    refine .bind (sweep_renamed h _ _ _ _ _ _ _ _) fun progress => ?_
    split
    · exact .refl _
    · exact ih _ _

theorem selectPage_renamed (a : Archive) (req : ReadRequest) :
    Action.Renamed d d' (a.selectPage d req : Action σ _) (a.selectPage d' req) := by
  refine .bind ?_ fun plan => .bind (.refl _) fun cursor => .bind ?_ fun selection => .refl _
  · unfold plan
    split
    · exact .throw_bind
    · exact .bind (.refl _) fun t => .bind (.bind (.ask h _) fun row => .refl _) fun row => .refl _
  · unfold Selection.page
    split
    · exact .throw_bind
    · exact walk_renamed h _ _ _ _ _

end Deadline

section Events

variable {d : Deadline} {p : Plan}

theorem sift_event {owner : BranchId} {k : Nat} {taken rows : List Version} {c : Cursor}
    {out : Selection.Progress} (h : Selection.sift owner k taken c rows = .ok out) :
    out.cursor.event = c.event := by
  induction rows generalizing taken c with
  | nil =>
    cases h
    rfl
  | cons v rest ih =>
    unfold Selection.sift at h
    dsimp only at h
    split at h
    · exact ih h
    split at h
    · cases h
    split at h
    · cases h
      rfl
    · exact ih (c := c.take v) h

theorem sweep_event (s : Span) (start : NodeId) (k : UInt64) (fuel : Nat)
    (after : Option Position) (taken : List Version) (c : Cursor) :
    Action.Keeps (fun _ => True) (Selection.sweep d p s start k fuel after taken c)
      fun out => out.cursor.event = c.event := by
  induction fuel generalizing after taken c with
  | zero => exact .pure rfl
  | succ fuel ih =>
    refine .bind (.question (R := fun _ => True) fun _ _ => trivial) fun rows _ =>
      .bind (.lift fun out hout => sift_event hout) fun out hout => ?_
    split
    · exact .pure hout
    · exact hout ▸ ih _ out.taken out.cursor

theorem walk_event (k : UInt64) (spans : List Span) (taken : List Version) (c : Cursor) :
    Action.Keeps (fun _ => True) (Selection.walk d p k spans taken c)
      fun sel => sel.cursor.event = c.event := by
  induction spans generalizing taken c with
  | nil => exact .pure rfl
  | cons s rest ih =>
    refine .bind (sweep_event s _ k _ none taken c) fun out hout => ?_
    split
    · exact .pure hout
    · exact hout ▸ ih out.taken out.cursor.nextSpan

theorem plan_min (req : ReadRequest) :
    Action.Keeps (fun _ => True) (plan d req) fun _ => firstEvent ≤ req.min := by
  unfold plan
  split
  · exact .throw_bind
  next hwindow =>
  have hmin := Int64.not_lt.1 fun hlt => hwindow (.inl hlt)
  have hrow : ∀ t, Action.Keeps (fun _ => True) (requireRow d t) fun _ => True := by
    intro t
    refine .bind (.question (R := fun _ => True) fun _ _ => trivial) fun row _ => ?_
    cases row with
    | none => exact .throw
    | some row => exact .pure trivial
  exact .bind (.lift fun _ _ => trivial) fun t _ => .bind (hrow t) fun row _ => .pure hmin

/-- The event that a selected page continues is the largest one only if its token says so. -/
theorem selectPage_event (req : ReadRequest) :
    Action.Keeps (fun _ => True) (selectPage a d req) fun sel =>
      sel.cursor.event = Int64.maxValue →
        ∃ c, Cursor.read.first req.page = .ok c ∧ c.event = Int64.maxValue := by
  refine .bind (plan_min req) fun plan hmin => .bind (.lift fun c hc => hc) fun c hc =>
    .bind (R := fun sel => sel.cursor.event = c.event) ?_ fun sel hsel => ?_
  · unfold Selection.page
    split
    · exact .throw_bind
    · exact walk_event _ _ _ c
  · split
    · exact .throw_bind
    · refine .pure fun hlast => ?_
      rw [hsel] at hlast
      exact ⟨c, (Checked.event_of_resume hmin hc hlast).2, hlast⟩

end Events

section Pages

variable {s t : State MemoryStore} {operation : String}

theorem pages_of_selectPage {req : ReadRequest} {sel : Selection}
    (h : selectPage a (a.deadline operation) req s = .ok sel t) :
    (∃ next size, (a.readRaw req).answer s = .ok ⟨sel.versions, next, size⟩) ∧
      (a.readBatches req).answer s =
        (Batch.decodeAll a.codec sel.cursor.event sel.versions).map fun decoded =>
          ⟨decoded.1, nextPage sel.exhausted { sel.cursor with event := decoded.2 },
            Batch.totalSize decoded.1⟩ := by
  have hselect : ∀ other, selectPage a (a.deadline other) req s = .ok sel t :=
    fun other => by
      have hlimit : (a.deadline operation).limit = (a.deadline other).limit := rfl
      exact (selectPage_renamed hlimit a req).of_ok h
  constructor
  · exact ⟨_, _, Action.answer_bind_of_ok (hselect "read_raw_history_branch")⟩
  · refine (Action.answer_bind_of_ok (hselect "read_history_branch_by_batch")).trans ?_
    cases hdecode : Batch.decodeAll a.codec sel.cursor.event sel.versions with
    | error e => rfl
    | ok decoded => rfl

end Pages

variable {s : State MemoryStore}

/-- A page of batches that is answered has those that the versions of the raw page hold. -/
theorem readBatches_of_raw {req : ReadRequest} {page : Page Batch} (hcodec : a.codec = .fixedWidth)
    (h : (a.readBatches req).answer s = .ok page) :
    ∃ raw : Page Version, (a.readRaw req).answer s = .ok raw ∧
      page.items.length = raw.items.length ∧
      ∀ (i : Nat) (v : Version) (es : List Event), raw.items[i]? = some v →
        Codec.Countable es → v.blob = Codec.writeBatch es →
        page.items[i]? = some ⟨v.node, v.transaction, es, v.blob.length⟩ := by
  obtain ⟨t, hrun⟩ := Action.ok_of_answer h
  obtain ⟨sel, u, hsel, -⟩ := Action.ok_of_bind hrun
  obtain ⟨⟨next, size, hraw⟩, hbatches⟩ := pages_of_selectPage hsel
  rw [h] at hbatches
  cases hdecode : Batch.decodeAll a.codec sel.cursor.event sel.versions with
  | error e =>
    rw [hdecode] at hbatches
    cases hbatches
  | ok decoded =>
    rw [hdecode] at hbatches
    cases hbatches
    rw [hcodec] at hdecode
    have hdecodes := Batch.decodeAll_eq_ok_iff.1 hdecode
    refine ⟨_, hraw, hdecodes.length_eq, fun i v es hv hes hblob => ?_⟩
    obtain ⟨last, b, hb, hdecode⟩ := hdecodes.getElem? hv
    rw [← Codec.decode_of_blob hes hblob hdecode]
    exact hb

/-- A page of versions that hold batches is answered by batch, unless there is a gap, or a version
follows the largest event. -/
theorem readBatches_cases {req : ReadRequest} {raw : Page Version} (hcodec : a.codec = .fixedWidth)
    (h : (a.readRaw req).answer s = .ok raw) (hraw : Codec.Hold raw.items) :
    (∃ page, (a.readBatches req).answer s = .ok page) ∨
    (∃ expected found, (a.readBatches req).answer s = .error (.dataLoss (.gap expected found))) ∨
    (a.readBatches req).answer s = .error .overflow ∧
      ((∃ c, Cursor.read.first req.page = .ok c ∧ c.event = Int64.maxValue) ∨
        Codec.GoesOn raw.items) := by
  obtain ⟨t, hrun⟩ := Action.ok_of_answer h
  obtain ⟨sel, u, hsel, -⟩ := Action.ok_of_bind hrun
  obtain ⟨⟨next, size, hanswer⟩, hbatches⟩ := pages_of_selectPage hsel
  have hevent : sel.cursor.event = Int64.maxValue →
      ∃ c, Cursor.read.first req.page = .ok c ∧ c.event = Int64.maxValue := by
    have hmeets := selectPage_event (a := a) (d := a.deadline "read_raw_history_branch") req s
      trivial
    unfold Action.Meets at hmeets
    rw [hsel] at hmeets
    exact hmeets.2.2
  cases h.symm.trans hanswer
  rw [hbatches, hcodec]
  rcases Batch.decodeAll_cases sel.cursor.event hraw with
    ⟨decoded, hok⟩ | ⟨e, f, hgap⟩ | ⟨hover, hlast⟩
  · exact .inl ⟨_, congrArg (Except.map _) hok⟩
  · exact .inr (.inl ⟨e, f, congrArg (Except.map _) hgap⟩)
  · exact .inr (.inr ⟨congrArg (Except.map _) hover, hlast.imp_left hevent⟩)

/-- **Batches.** In the fixed-width layout a batch is decoded from its blob, whatever follows it; a
blob that is cut off anywhere is refused; and different batches have different blobs. So an archive
with this codec does the same for a batch and for its blob, from whatever state and whatever calls
fail, except that an append whose time is over says which one it is. And a page that a read by batch
answers has at the place of each version the batch that the version holds; versions that hold
batches are only refused for a gap before one of them, or because one follows the largest event. -/
theorem batches_survive :
    (∀ es, Codec.Countable es →
      Codec.fixedWidth.encode es = .ok (Codec.writeBatch es) ∧
      (∀ junk, Codec.fixedWidth.decode (Codec.writeBatch es ++ junk) = .ok es) ∧
      (∀ cut, cut <+: Codec.writeBatch es → cut ≠ Codec.writeBatch es →
        ∃ reason, Codec.fixedWidth.decode cut = .error (.decode reason)) ∧
      ∀ ds, Codec.Countable ds → Codec.writeBatch es = Codec.writeBatch ds → es = ds) ∧
    ∀ a : Archive, a.codec = .fixedWidth →
      (∀ (σ : Type) [Backend σ] (s : State σ) (req : WriteRequest) (es : List Event)
          (first : Event), Batch.check es = .ok first →
        let x : Action σ Answer := (Operation.append req (.events es)).perform a
        let y : Action σ Answer :=
          (Operation.append req (.raw first.id (Codec.writeBatch es))).perform a
        x.final s = y.final s ∧ (x.answer s = y.answer s ∨
          x.answer s = .error (.timeout "append_history_nodes") ∧
            y.answer s = .error (.timeout "append_raw_history_nodes"))) ∧
      ∀ (s : State MemoryStore) (req : ReadRequest),
        (∀ page, (a.readBatches req).answer s = .ok page →
          ∃ raw : Page Version, (a.readRaw req).answer s = .ok raw ∧
            page.items.length = raw.items.length ∧
            ∀ (i : Nat) (v : Version) (es : List Event), raw.items[i]? = some v →
              Codec.Countable es → v.blob = Codec.writeBatch es →
              page.items[i]? = some ⟨v.node, v.transaction, es, v.blob.length⟩) ∧
        ∀ raw, (a.readRaw req).answer s = .ok raw → Codec.Hold raw.items →
          (∃ page, (a.readBatches req).answer s = .ok page) ∨
          (∃ expected found,
            (a.readBatches req).answer s = .error (.dataLoss (.gap expected found))) ∨
          (a.readBatches req).answer s = .error .overflow ∧
            ((∃ c, Cursor.read.first req.page = .ok c ∧ c.event = Int64.maxValue) ∨
              Codec.GoesOn raw.items) := by
  refine ⟨fun es hes => ⟨rfl, Codec.decode_append hes, fun cut => Codec.decode_of_cut hes,
    fun ds => Codec.writeBatch_injective hes⟩, fun a hcodec => ⟨?_, fun s req => ⟨?_, ?_⟩⟩⟩
  · intro σ _ s req es first hcheck
    exact append_agrees (hcodec ▸ prepare_eq_raw hcheck req) s
  · exact fun page => readBatches_of_raw hcodec
  · exact fun raw => readBatches_cases hcodec

/-- Two events are decoded from their blob with a byte behind it, and not from a part of it; and the
batch that is stored second is read as it was appended. -/
theorem batches_survive_batched :
    Codec.fixedWidth.decode (Codec.writeBatch [Sample.event 1, Sample.event 2] ++ [7]) =
      .ok [Sample.event 1, Sample.event 2] ∧
    (∃ reason, Codec.fixedWidth.decode
      ((Codec.writeBatch [Sample.event 1, Sample.event 2]).take 41) = .error (.decode reason)) ∧
    ∃ page, (Sample.readFrom 1 5 []).answer Sample.batched = .ok page ∧
      page.items[1]? = some ⟨3, 6, [Sample.event 3], 40⟩ := by
  have hes : Codec.Countable [Sample.event 1, Sample.event 2] := .of_length (by decide +kernel)
  have hnext : Codec.Countable [Sample.event 3] := .of_length (by decide +kernel)
  obtain ⟨hcodec, harchive⟩ := batches_survive
  obtain ⟨-, hdecode, hcut, -⟩ := hcodec _ hes
  refine ⟨hdecode [7], hcut _ (List.take_prefix ..) (by decide +kernel), ?_⟩
  let req : ReadRequest := ⟨Forked.bytes Sample.root, 1, nodeLimit, 5, []⟩
  obtain ⟨hpage, hgap⟩ := (harchive Sample.archive rfl).2 Sample.batched req
  have hversions : (Sample.archive.readRaw req).answer Sample.batched = .ok
      ⟨[⟨1, 5, 0, Codec.writeBatch [Sample.event 1, Sample.event 2]⟩,
        ⟨3, 6, 5, Codec.writeBatch [Sample.event 3]⟩], [], 112⟩ := by decide +kernel
  have hheld : ∀ v ∈ [(⟨1, 5, 0, Codec.writeBatch [Sample.event 1, Sample.event 2]⟩ : Version),
      ⟨3, 6, 5, Codec.writeBatch [Sample.event 3]⟩], ∃ es, Codec.Holds v es := by
    intro v hv
    rcases List.mem_cons.1 hv with rfl | hv
    · exact ⟨_, hes, rfl, Sample.event 1, by decide +kernel, rfl⟩
    · rw [List.mem_singleton.1 hv]
      exact ⟨_, hnext, rfl, Sample.event 3, by decide +kernel, rfl⟩
  have hsome : ((Sample.archive.readBatches req).answer Sample.batched).toOption.isSome = true := by
    decide +kernel
  rcases hgap _ hversions hheld with ⟨page, hanswer⟩ | ⟨expected, found, herror⟩ | ⟨hover, -⟩
  · obtain ⟨raw, hraw, -, hitems⟩ := hpage page hanswer
    cases hraw.symm.trans hversions
    exact ⟨page, hanswer, hitems 1 _ _ rfl hnext rfl⟩
  · rw [herror] at hsome
    cases hsome
  · rw [hover] at hsome
    cases hsome

/-- Out of time, an append of events and an append of their blob are refused in different words. And
a batch that is stored behind a gap is selected by a read by batch, but not answered. -/
theorem batches_told_apart :
    let s : State MemoryStore := { State.fresh .empty with leases := Sample.leases }
    let req : WriteRequest := ⟨1, 1, Forked.bytes Sample.root, 5, 0, true, ""⟩
    let events : Payload := .events [Sample.event 2]
    let blob : Payload := .raw 2 (Codec.writeBatch [Sample.event 2])
    let late := ((Operation.append req events).perform Sample.archive).final s
    let read : ReadRequest := ⟨Forked.bytes Sample.root, 1, nodeLimit, 5, []⟩
    ((Operation.append req events).perform (timed (some 0)) : Action MemoryStore Answer).answer s =
        .error (.timeout "append_history_nodes") ∧
      ((Operation.append req blob).perform (timed (some 0)) : Action MemoryStore Answer).answer s =
        .error (.timeout "append_raw_history_nodes") ∧
      ((Operation.append req events).perform Sample.archive).answer s = .ok (.receipt ⟨40, 2⟩) ∧
      (Sample.archive.readRaw read).answer late =
        .ok ⟨[⟨2, 5, 0, Codec.writeBatch [Sample.event 2]⟩], [], 40⟩ ∧
      (Sample.archive.readBatches read).answer late = .error (.dataLoss (.gap 1 2)) := by
  decide +kernel

end Archive

end Chronicle
