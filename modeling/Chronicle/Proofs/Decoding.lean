import Chronicle.Proofs.FullRead

/-!
# Reading batches

A read by batch decodes what it selects, and each batch has to start where the one before it ended,
also across pages.

* `Batch.Decodes`: versions decode to batches one after the other.
* `Paged.decodes` and `paged_of_decodes`: following the page tokens of a read by batch comes to an
  end exactly if all that the window shows decodes, whatever the sizes of the pages.
-/
namespace Chronicle

open Archive (State)

/-! ## Batches one after the other -/

namespace Batch

variable {codec : Codec} {last last' : EventId} {v : Version} {b : Batch}

/-- A version that decodes starts behind the last event with the event of its node. Behind another
event there is a gap. -/
theorem decode_of_ok (h : decode codec last v = .ok b) :
    b.node = v.node ∧ v.node = last + 1 ∧
      (∃ first, first.id = b.node ∧ check b.events = .ok first) ∧
      ∀ last' : EventId, last' ≠ Int64.maxValue → v.node ≠ last' + 1 →
        decode codec last' v = .error (.dataLoss (.gap (last' + 1) v.node)) := by
  unfold decode at h ⊢
  cases hdecode : codec.decode v.blob with
  | error e =>
    rw [hdecode] at h
    cases h
  | ok events =>
    rw [hdecode] at h
    dsimp only at h ⊢
    cases hcheck : check events with
    | error fault =>
      rw [hcheck] at h
      cases h
    | ok first =>
      rw [hcheck] at h
      dsimp only at h ⊢
      split at h
      · cases h
      next hplace =>
      split at h
      · cases h
      split at h
      · cases h
      next hnext =>
      cases h
      have hnode := Decidable.not_not.1 hplace
      refine ⟨rfl, hnode ▸ Decidable.not_not.1 hnext, ⟨first, hnode, hcheck⟩, ?_⟩
      intro last' hlast hgap
      rw [if_neg hplace, if_neg hlast, if_pos (hnode ▸ hgap), hnode]

/-- There is no event after the largest one that a batch could start with. -/
theorem decode_eq_overflow_iff : decode codec last v = .error .overflow ↔
    last = Int64.maxValue ∧ ∃ events first, codec.decode v.blob = .ok events ∧
      check events = .ok first ∧ first.id = v.node := by
  unfold decode
  cases hdecode : codec.decode v.blob with
  | error e => exact iff_of_false nofun fun ⟨_, _, _, h, _⟩ => nomatch h
  | ok events =>
    dsimp only
    cases hcheck : check events with
    | error fault =>
      refine iff_of_false nofun fun ⟨_, events', first, h, hfirst, _⟩ => ?_
      cases h
      cases hcheck.symm.trans hfirst
    | ok first =>
      dsimp only
      split
      · next hplace =>
        refine iff_of_false nofun fun ⟨_, events', first', h, hfirst, hnode⟩ => ?_
        cases h
        cases hcheck.symm.trans hfirst
        exact hplace hnode
      next hplace =>
      split
      · next hlast =>
        exact iff_of_true rfl ⟨hlast, events, first, rfl, hcheck, Decidable.not_not.1 hplace⟩
      next hlast =>
      split
      · exact iff_of_false nofun fun h => hlast h.1
      · exact iff_of_false nofun fun h => hlast h.1

/-- The versions decode one after the other, behind event `last`, and the last batch ends with event
`stop`. -/
inductive Decodes (codec : Codec) : EventId → List Version → List Batch → EventId → Prop
  | nil {last : EventId} : Decodes codec last [] [] last
  | cons {last stop : EventId} {v : Version} {rest : List Version} {b : Batch} {bs : List Batch}
      (h : decode codec last v = .ok b) (hrest : Decodes codec (b.lastEvent last) rest bs stop) :
      Decodes codec last (v :: rest) (b :: bs) stop

theorem decodeAll_eq_ok_iff {l : List Version} {bs : List Batch} {stop : EventId} :
    decodeAll codec last l = .ok (bs, stop) ↔ Decodes codec last l bs stop := by
  induction l generalizing last bs with
  | nil =>
    constructor
    · intro h
      cases h
      exact .nil
    · intro h
      cases h
      rfl
  | cons v rest ih =>
    constructor
    · intro h
      cases hb : decode codec last v with
      | error e =>
        rw [decodeAll, hb] at h
        cases h
      | ok b =>
        cases hbs : decodeAll codec (b.lastEvent last) rest with
        | error e =>
          rw [decodeAll, hb] at h
          simp only [bind, Except.bind, hbs] at h
          cases h
        | ok decoded =>
          rw [decodeAll, hb] at h
          simp only [bind, Except.bind, hbs] at h
          cases h
          exact .cons hb (ih.1 hbs)
    · intro h
      cases h with
      | cons hb hrest =>
        rw [decodeAll, hb]
        simp only [bind, Except.bind, ih.2 hrest]
        rfl

/-- The first version that does not continue is what a decoder complains about. -/
theorem decodeAll_of_error {rest : List Version} {e : Error} (h : decode codec last v = .error e) :
    decodeAll codec last (v :: rest) = .error e := by
  rw [decodeAll, h]
  rfl

/-- What does not decode does not decode with more behind it. -/
theorem decodeAll_append_of_error {l : List Version} {e : Error}
    (h : decodeAll codec last l = .error e) (m : List Version) :
    decodeAll codec last (l ++ m) = .error e := by
  induction l generalizing last with
  | nil => cases h
  | cons v rest ih =>
    rw [List.cons_append, decodeAll]
    rw [decodeAll] at h
    cases hb : decode codec last v with
    | error e' =>
      rw [hb] at h
      exact h
    | ok b =>
      rw [hb] at h
      cases hrest : decodeAll codec (b.lastEvent last) rest with
      | error e' =>
        simp only [bind, Except.bind, hrest] at h
        cases h
        simp only [bind, Except.bind, ih hrest]
      | ok decoded =>
        simp only [bind, Except.bind, hrest] at h
        cases h

namespace Decodes

variable {l m : List Version} {bs : List Batch} {stop : EventId}

theorem append {mid : EventId} {cs : List Batch} (h : Decodes codec last l bs mid)
    (h' : Decodes codec mid m cs stop) : Decodes codec last (l ++ m) (bs ++ cs) stop := by
  induction h with
  | nil => exact h'
  | cons hb _ ih => exact .cons hb (ih h')

/-- What does not decode does not decode behind something that does. -/
theorem append_error {e : Error} (h : Decodes codec last l bs stop)
    (herror : decodeAll codec stop m = .error e) : decodeAll codec last (l ++ m) = .error e := by
  induction h with
  | nil => exact herror
  | cons hb _ ih =>
    rw [List.cons_append, decodeAll, hb]
    simp only [bind, Except.bind, ih herror]

theorem split (h : Decodes codec last (l ++ m) bs stop) :
    ∃ mid front back, bs = front ++ back ∧ Decodes codec last l front mid ∧
      Decodes codec mid m back stop := by
  induction l generalizing last bs with
  | nil => exact ⟨last, [], bs, rfl, .nil, h⟩
  | cons v rest ih =>
    cases h with
    | cons hb hrest =>
      obtain ⟨mid, front, back, rfl, hfront, hback⟩ := ih hrest
      exact ⟨mid, _ :: front, back, rfl, .cons hb hfront, hback⟩

theorem map_node (h : Decodes codec last l bs stop) : bs.map (·.node) = l.map (·.node) := by
  induction h with
  | nil => rfl
  | cons hb _ ih => rw [List.map_cons, List.map_cons, ih, (decode_of_ok hb).1]

theorem length_eq (h : Decodes codec last l bs stop) : bs.length = l.length := by
  rw [← List.length_map (f := (·.node)), h.map_node, List.length_map]

theorem mem_node (h : Decodes codec last l bs stop) :
    ∀ b ∈ bs, ∃ v ∈ l, b.node = v.node := by
  intro b hb
  have hnodes : b.node ∈ bs.map (·.node) := List.mem_map_of_mem hb
  rw [h.map_node] at hnodes
  obtain ⟨v, hv, hnode⟩ := List.mem_map.1 hnodes
  exact ⟨v, hv, hnode.symm⟩

theorem ascending (h : Decodes codec last l bs stop) (hl : l.Pairwise fun v w => v.node < w.node) :
    bs.Pairwise fun b c => b.node < c.node := by
  have hnodes : (bs.map (·.node)).Pairwise (· < ·) := by
    rw [h.map_node]
    exact List.pairwise_map.2 hl
  exact List.pairwise_map.1 hnodes

theorem unique {bs' : List Batch} {stop' : EventId} (h : Decodes codec last l bs stop)
    (h' : Decodes codec last l bs' stop') : bs = bs' ∧ stop = stop' := by
  have heq := (decodeAll_eq_ok_iff.2 h).symm.trans (decodeAll_eq_ok_iff.2 h')
  exact Prod.mk.inj (Except.ok.inj heq)

theorem eq_nil_iff (h : Decodes codec last l bs stop) : bs = [] ↔ l = [] := by
  cases h with
  | nil => exact iff_of_true rfl rfl
  | cons => exact iff_of_false nofun nofun

end Decodes

end Batch

namespace Archive

variable {a : Archive} {s : State MemoryStore}

/-! ## A page of batches -/

theorem plan_of_expired {d : Deadline} (hd : d.expired = true) (req : ReadRequest) :
    Action.Keeps (fun _ => True) (plan d req : Action MemoryStore _) fun _ => False := by
  unfold plan
  dsimp only
  split
  · exact .throw_bind
  · refine .bind (.lift fun _ _ => trivial) fun q _ => ?_
    exact .bind_of_false (.bind_of_false (.of_expired hd))

theorem inTime_of_readBatches {req : ReadRequest} {page : Page Batch} {t : State MemoryStore}
    (h : a.readBatches req s = .ok page t) : a.InTime := by
  refine Classical.byContradiction fun htime => ?_
  have hkeeps : Action.Keeps (fun _ => True) (a.readBatches req : Action MemoryStore _)
      fun _ => False :=
    .bind_of_false (.bind_of_false (plan_of_expired (expired_iff.2 htime) req))
  rcases Action.outcome_of_meets (hkeeps s trivial) with ⟨_, -, -, -, hfalse⟩ | ⟨e, he, -⟩
  · exact hfalse
  · rw [Action.answer, h] at he
    cases he

section Page

variable {operation : String} (hs : s.Unarmed) {bytes token : Bytes} {min max : EventId}
  {size : UInt64} {p : Plan} {c : Cursor} {k : UInt64}
  (hsize : a.config.effectivePageSize size = k) (hk : k.toNat + 1 < UInt64.size)
  (hp : Lineage.Ordered p.spans) (hfits : c.Fits s.tables p)
  (hresume : Cursor.resume token min p.spans.length = .ok c)

include hs hsize hk hp hfits hresume in
theorem readBatchesAs_eq (htime : a.InTime)
    (hplan : plan (a.deadline operation) ⟨bytes, min, max, size, token⟩ s = .ok p s) :
    ∃ c' : Cursor, a.readBatchesAs operation ⟨bytes, min, max, size, token⟩ s =
        (if token = [] ∧ s.tables.remaining p c = [] then
          .error (.notFound (.events min max p.branch)) s
        else match Batch.decodeAll a.codec c.event ((s.tables.remaining p c).take k.toNat) with
          | .error e => .error e s
          | .ok (bs, last) => .ok ⟨bs, if (s.tables.remaining p c).length < k.toNat then []
              else ({ c' with event := last } : Cursor).write, Batch.totalSize bs⟩
            { s with counters := s.counters.countRead bs.length }) ∧
      (k.toNat ≤ (s.tables.remaining p c).length → c'.Fits s.tables p ∧
        s.tables.remaining p c' = (s.tables.remaining p c).drop k.toNat) := by
  obtain ⟨c', hevent, hselect, hnext⟩ :=
    selectPage_eq (htime.not_expired _) hs hsize hk hp hfits hresume hplan
  refine ⟨c', ?_, hnext⟩
  unfold readBatchesAs
  split at hselect
  · next h =>
    rw [if_pos h]
    exact Action.bind_of_error hselect
  · next h =>
    rw [if_neg h]
    refine (Action.bind_of_ok hselect).trans ?_
    dsimp only
    rw [hevent]
    cases hdecode : Batch.decodeAll a.codec c.event ((s.tables.remaining p c).take k.toNat) with
    | error e => rfl
    | ok decoded =>
      obtain ⟨bs, last⟩ := decoded
      refine (Action.bind_of_ok rfl).trans ?_
      simp only [nextPage, decide_eq_true_eq]
      rfl

section Answer

variable (htime : a.InTime)
  (hplan : plan (a.deadline operation) ⟨bytes, min, max, size, token⟩ s = .ok p s)

include hs hsize hk hp hfits hresume htime hplan

/-- A page that was read has the first versions of what is left, decoded. It is the last one, or its
token resumes at a cursor that leaves the others and remembers where the last batch ended. -/
theorem readBatchesAs_of_ok {page : Page Batch} {t : State MemoryStore}
    (h : a.readBatchesAs operation ⟨bytes, min, max, size, token⟩ s = .ok page t) :
    ¬ (token = [] ∧ s.tables.remaining p c = []) ∧ t.tables = s.tables ∧ t.Unarmed ∧
      ∃ last,
        Batch.Decodes a.codec c.event ((s.tables.remaining p c).take k.toNat) page.items last ∧
        (page.next = [] ∧ (s.tables.remaining p c).length < k.toNat ∨
          k.toNat ≤ (s.tables.remaining p c).length ∧ ∃ c' : Cursor, c'.event = last ∧
            page.next = c'.write ∧ c'.Fits s.tables p ∧
            s.tables.remaining p c' = (s.tables.remaining p c).drop k.toNat) := by
  obtain ⟨c', hread, hnext⟩ := readBatchesAs_eq hs hsize hk hp hfits hresume htime hplan
  rw [h] at hread
  split at hread
  · cases hread
  next hsome =>
  split at hread
  · cases hread
  next bs last hdecode =>
  cases hread
  refine ⟨hsome, rfl, hs, last, Batch.decodeAll_eq_ok_iff.1 hdecode, ?_⟩
  dsimp only
  split
  · next hlast => exact .inl ⟨rfl, hlast⟩
  · next hmore =>
    obtain ⟨hfits', hremaining⟩ := hnext (Nat.not_lt.1 hmore)
    exact .inr ⟨Nat.not_lt.1 hmore, _, rfl, rfl, ⟨hfits'.span_le, hfits'.passed⟩, hremaining⟩

theorem readBatchesAs_of_decodes (hsome : ¬ (token = [] ∧ s.tables.remaining p c = []))
    {bs : List Batch} {last : EventId}
    (h : Batch.Decodes a.codec c.event ((s.tables.remaining p c).take k.toNat) bs last) :
    ∃ page t, a.readBatchesAs operation ⟨bytes, min, max, size, token⟩ s = .ok page t ∧
      page.items = bs ∧ t.tables = s.tables ∧ t.Unarmed ∧
      (page.next = [] ∧ (s.tables.remaining p c).length < k.toNat ∨
        k.toNat ≤ (s.tables.remaining p c).length ∧ ∃ c' : Cursor, c'.event = last ∧
          page.next = c'.write ∧ c'.Fits s.tables p ∧
          s.tables.remaining p c' = (s.tables.remaining p c).drop k.toNat) := by
  obtain ⟨c', hread, -⟩ := readBatchesAs_eq hs hsize hk hp hfits hresume htime hplan
  rw [if_neg hsome, Batch.decodeAll_eq_ok_iff.2 h] at hread
  obtain ⟨-, htables, ht, last', hdecodes, hnext⟩ :=
    readBatchesAs_of_ok hs hsize hk hp hfits hresume htime hplan hread
  obtain ⟨-, rfl⟩ := hdecodes.unique h
  exact ⟨_, _, hread, rfl, htables, ht, hnext⟩

theorem readBatchesAs_of_nil (hpage : token = []) (hnil : s.tables.remaining p c = []) :
    (a.readBatchesAs operation ⟨bytes, min, max, size, token⟩).answer s =
      .error (.notFound (.events min max p.branch)) := by
  obtain ⟨c', hread, -⟩ := readBatchesAs_eq hs hsize hk hp hfits hresume htime hplan
  rw [if_pos ⟨hpage, hnil⟩] at hread
  rw [Action.answer, hread]

/-- A version on the page that does not decode behind those in front of it fails the page. -/
theorem readBatchesAs_of_error {front back : List Version} {v : Version}
    (hsplit : s.tables.remaining p c = front ++ v :: back) (hshort : front.length < k.toNat)
    {bs : List Batch} {mid : EventId} (h : Batch.Decodes a.codec c.event front bs mid) {e : Error}
    (herror : Batch.decode a.codec mid v = .error e) :
    (a.readBatchesAs operation ⟨bytes, min, max, size, token⟩).answer s = .error e := by
  obtain ⟨c', hread, -⟩ := readBatchesAs_eq hs hsize hk hp hfits hresume htime hplan
  obtain ⟨m, hm⟩ : ∃ m, k.toNat = front.length + (m + 1) :=
    ⟨k.toNat - front.length - 1, by omega⟩
  have hsome : front ++ v :: back ≠ [] :=
    List.append_ne_nil_of_right_ne_nil _ (List.cons_ne_nil _ _)
  rw [hsplit, if_neg fun hnil => hsome hnil.2, hm, List.take_length_add_append,
    List.take_succ_cons, h.append_error (Batch.decodeAll_of_error herror)] at hread
  rw [Action.answer, hread]

/-- A page is not read if it is a first one with nothing to show, or if a version on it does not
decode. -/
theorem error_of_readBatchesAs {e : Error}
    (h : (a.readBatchesAs operation ⟨bytes, min, max, size, token⟩).answer s = .error e) :
    (token = [] ∧ s.tables.remaining p c = []) ∧ e = .notFound (.events min max p.branch) ∨
      Batch.decodeAll a.codec c.event ((s.tables.remaining p c).take k.toNat) = .error e := by
  obtain ⟨c', hread, -⟩ := readBatchesAs_eq hs hsize hk hp hfits hresume htime hplan
  rw [Action.answer, hread] at h
  by_cases hnone : token = [] ∧ s.tables.remaining p c = []
  · rw [if_pos hnone] at h
    cases h
    exact .inl ⟨hnone, rfl⟩
  · rw [if_neg hnone] at h
    cases hdecode : Batch.decodeAll a.codec c.event ((s.tables.remaining p c).take k.toNat) with
    | error e' =>
      rw [hdecode] at h
      cases h
      exact .inr rfl
    | ok decoded =>
      rw [hdecode] at h
      cases h

end Answer

end Page

/-! ## Page after page -/

section Paging

variable {operation : String} {bytes : Bytes} {row : BranchRow} {min max : EventId}
  {sizes : Nat → UInt64}
  (htime : a.InTime) (hmin : firstEvent ≤ min) (hmax : min < max) (hsizes : a.Countable sizes)
  (hlineage : Lineage.Follows firstEvent row.token.lineage) {p : Plan}
  (hp : Plan.window row.token min max = p)

include htime hmin hmax hsizes hlineage hp

theorem Paged.decodes {i : Nat} {token : Bytes} {s t : State MemoryStore}
    {pages : List (Page Batch)}
    (h : Paged (fun size page => a.readBatchesAs operation ⟨bytes, min, max, size, page⟩) sizes i
      token s pages t)
    (hs : s.Unarmed) (hrow : s.tables.Names bytes row) {c : Cursor} (hfits : c.Fits s.tables p)
    (hresume : Cursor.resume token min p.spans.length = .ok c) :
    ¬ (token = [] ∧ s.tables.remaining p c = []) ∧ ∃ stop,
      Batch.Decodes a.codec c.event (s.tables.remaining p c) (pages.flatMap (·.items)) stop := by
  have hordered : Lineage.Ordered p.spans := hp ▸ Plan.window_ordered hlineage min max
  induction h generalizing c with
  | @last i token s t page hread hnext =>
    have hplan := plan_window (htime.not_expired operation) hs hp hrow hmin hmax (sizes i) token
    generalize hk : a.config.effectivePageSize (sizes i) = k
    obtain ⟨hsome, -, -, last, hdecodes, hpage⟩ := readBatchesAs_of_ok hs hk (hk ▸ hsizes i)
      hordered hfits hresume htime hplan hread
    refine ⟨hsome, last, ?_⟩
    rcases hpage with ⟨-, hlast⟩ | ⟨-, c', -, hwrite, -⟩
    · rw [List.take_of_length_le (Nat.le_of_lt hlast)] at hdecodes
      rw [List.flatMap_singleton]
      exact hdecodes
    · exact absurd (hwrite.symm.trans hnext) c'.write_ne_nil
  | @more i token s t u page pages hread hnext _ ih =>
    have hplan := plan_window (htime.not_expired operation) hs hp hrow hmin hmax (sizes i) token
    generalize hk : a.config.effectivePageSize (sizes i) = k
    obtain ⟨hsome, htables, ht, last, hdecodes, hpage⟩ := readBatchesAs_of_ok hs hk (hk ▸ hsizes i)
      hordered hfits hresume htime hplan hread
    refine ⟨hsome, ?_⟩
    rcases hpage with ⟨hnil, -⟩ | ⟨-, c', rfl, hwrite, hfits', hremaining⟩
    · exact absurd hnil hnext
    · rw [← htables] at hrow hfits' hremaining
      obtain ⟨-, stop, hrest⟩ := ih ht hrow hfits' (hwrite ▸ hfits'.resume_write min)
      rw [hremaining] at hrest
      refine ⟨stop, ?_⟩
      rw [List.flatMap_cons]
      have hall := hdecodes.append hrest
      rwa [htables, List.take_append_drop] at hall

theorem paged_of_decodes {s : State MemoryStore} (hs : s.Unarmed)
    (hrow : s.tables.Names bytes row) {token : Bytes} {c : Cursor} (hfits : c.Fits s.tables p)
    (hresume : Cursor.resume token min p.spans.length = .ok c)
    (hsome : ¬ (token = [] ∧ s.tables.remaining p c = [])) {bs : List Batch} {stop : EventId}
    (h : Batch.Decodes a.codec c.event (s.tables.remaining p c) bs stop) (i : Nat) :
    ∃ pages t,
      Paged (fun size page => a.readBatchesAs operation ⟨bytes, min, max, size, page⟩) sizes i
        token s pages t ∧
        pages.flatMap (·.items) = bs := by
  induction hn : (s.tables.remaining p c).length using Nat.strongRecOn
    generalizing s token c bs i with
  | _ n ih =>
  have hordered : Lineage.Ordered p.spans := hp ▸ Plan.window_ordered hlineage min max
  have hplan := plan_window (htime.not_expired operation) hs hp hrow hmin hmax (sizes i) token
  generalize hk : a.config.effectivePageSize (sizes i) = k
  have hpos := pageSize_pos hk
  rw [← List.take_append_drop k.toNat (s.tables.remaining p c)] at h
  obtain ⟨mid, front, back, rfl, hfront, hback⟩ := h.split
  obtain ⟨page, t, hread, rfl, htables, ht, hpage⟩ := readBatchesAs_of_decodes hs hk
    (hk ▸ hsizes i) hordered hfits hresume htime hplan hsome hfront
  rcases hpage with ⟨hnil, hlast⟩ | ⟨hmore, c', rfl, hwrite, hfits', hremaining⟩
  · rw [List.drop_of_length_le (Nat.le_of_lt hlast)] at hback
    refine ⟨[page], t, .last hread hnil, ?_⟩
    rw [List.flatMap_singleton, hback.eq_nil_iff.2 rfl, List.append_nil]
  · rw [← htables] at hrow hfits' hremaining
    rw [← htables, ← hremaining] at hback
    obtain ⟨pages, u, hpages, hitems⟩ := ih _ (by
      rw [hremaining, List.length_drop, htables]; omega) ht hrow hfits' (hfits'.resume_write min)
      (fun hnil => c'.write_ne_nil hnil.1) hback (i + 1) rfl
    refine ⟨page :: pages, u, .more hread (hwrite ▸ c'.write_ne_nil) (hwrite ▸ hpages), ?_⟩
    rw [List.flatMap_cons, hitems]

end Paging

end Archive

end Chronicle
