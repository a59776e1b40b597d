import Chronicle.Proofs.Backward
import Chronicle.Proofs.Bounds

/-!
# Gapless histories

A decoded read gives the events of a window one after the other, or refuses the window. Which of the
two is decided by the versions that the window shows, and not by where pages are cut.

* `Batch.Gapless`: versions hold batches of events that count up from a number, said without the
  code; `Batch.gapless_iff` says that these are the versions that decode.
* `Batch.BreaksAt`: the first version at which that fails, and `Batch.Refuses`, what is then said,
  unless the largest event is in front of it.
* `FailsBehind`: following page tokens gives some pages, and the one behind them fails.
* `readEvents_gapless`: a read of events.
-/
namespace Chronicle

open Archive (State)

namespace Batch

variable {codec : Codec} {last : EventId} {v : Version} {b : Batch}

/-! ## One version -/

/-- A version decodes behind event `last` exactly if it holds a batch that starts with the event of
its node, and this is the event after `last`. -/
theorem decode_eq_ok_iff : decode codec last v = .ok b ↔
    ∃ events first, codec.decode v.blob = .ok events ∧ IsBatch first events ∧ first.id = v.node ∧
      v.node.toInt = last.toInt + 1 ∧ b = ⟨v.node, v.transaction, events, v.blob.length⟩ := by
  unfold decode
  cases hdecode : codec.decode v.blob with
  | error e => exact iff_of_false nofun nofun
  | ok events =>
    simp only [Except.ok.injEq, exists_and_left, exists_eq_left', ← check_eq_ok_iff]
    cases hcheck : check events with
    | error fault => exact iff_of_false nofun nofun
    | ok first =>
      simp only [Except.ok.injEq, exists_eq_left']
      split
      · next hplace => exact iff_of_false nofun fun h => hplace h.1
      next hplace =>
      rw [Decidable.not_not] at hplace
      split
      · next hlast =>
        have hlargest : v.node.toInt ≤ Int64.maxValue.toInt := Int64.toInt_le v.node
        refine iff_of_false nofun fun h => ?_
        rw [hlast] at h
        omega
      next hlast =>
      simp only [hplace, true_and, ← toInt_add_one hlast, Int64.toInt_inj]
      split
      · next hnext => exact iff_of_false nofun fun h => hnext h.1
      · next hnext =>
        rw [Decidable.not_not] at hnext
        simp only [hnext, true_and, Except.ok.injEq]
        exact eq_comm

/-- The version holds a batch that starts with the event of its node, and it would have to start
with number `next`, which is no event. -/
def Exceeds (codec : Codec) (next : Int) (v : Version) : Prop :=
  next = Int64.maxValue.toInt + 1 ∧
    ∃ events first, codec.decode v.blob = .ok events ∧ IsBatch first events ∧ first.id = v.node

/-- What is said about a version that is refused where number `next` has to come: that it does not
decode, or that it decodes to something that has no place in the history. Nothing is said about a
batch behind the largest event; there the read overflows. -/
def Refuses (codec : Codec) (next : Int) (v : Version) (e : Error) : Prop :=
  match codec.decode v.blob with
  | .error reason => e = .deserialization (.batch reason)
  | .ok _ => (¬ Exceeds codec next v ∧ ∃ damage, e = .dataLoss damage) ∨
      Exceeds codec next v ∧ e = .overflow

theorem exceeds_iff : Exceeds codec (last.toInt + 1) v ↔
    decode codec last v = .error .overflow := by
  rw [decode_eq_overflow_iff, Exceeds, Int.add_left_inj, Int64.toInt_inj]
  simp only [check_eq_ok_iff]

theorem refuses_of_decode {e : Error} (h : decode codec last v = .error e) :
    Refuses codec (last.toInt + 1) v e := by
  unfold Refuses
  rw [exceeds_iff, h]
  unfold decode at h
  cases hdecode : codec.decode v.blob with
  | error reason =>
    rw [hdecode] at h
    cases h
    rfl
  | ok events =>
    rw [hdecode] at h
    dsimp only at h ⊢
    split at h
    · cases h
      exact .inl ⟨nofun, _, rfl⟩
    split at h
    · cases h
      exact .inl ⟨nofun, _, rfl⟩
    split at h
    · cases h
      exact .inr ⟨rfl, rfl⟩
    split at h
    · cases h
      exact .inl ⟨nofun, _, rfl⟩
    · cases h

/-! ## Versions one after the other -/

/-- The versions hold the batches `bs`, whose events count up from number `next`: each decodes to a
batch that starts with the event of its node, and that is the next one. -/
inductive Gapless (codec : Codec) : Int → List Version → List Batch → Prop
  | nil {next : Int} : Gapless codec next [] []
  | cons {next : Int} {v : Version} {events : List Event} {first : Event} {rest : List Version}
      {bs : List Batch} (hdecode : codec.decode v.blob = .ok events)
      (hbatch : IsBatch first events) (hplace : first.id = v.node) (hnext : v.node.toInt = next)
      (hrest : Gapless codec (next + events.length) rest bs) :
      Gapless codec next (v :: rest) (⟨v.node, v.transaction, events, v.blob.length⟩ :: bs)

/-- What decodes one after the other behind an event is what is gapless from the next one on. -/
theorem gapless_iff {l : List Version} {bs : List Batch} :
    Gapless codec (last.toInt + 1) l bs ↔ ∃ stop, Decodes codec last l bs stop := by
  induction l generalizing last bs with
  | nil =>
    constructor
    · intro h
      cases h
      exact ⟨last, .nil⟩
    · intro h
      obtain ⟨stop, h⟩ := h
      cases h
      exact .nil
  | cons v rest ih =>
    constructor
    · intro h
      cases h with
      | @cons _ _ events first _ bs hdecode hbatch hplace hnext hrest =>
        have hb := decode_eq_ok_iff.2 ⟨events, first, hdecode, hbatch, hplace, hnext, rfl⟩
        rw [← hnext, ← hplace, ← IsBatch.lastEvent (b := ⟨_, _, events, _⟩) hbatch last] at hrest
        obtain ⟨stop, hstop⟩ := ih.1 hrest
        exact ⟨stop, .cons hb hstop⟩
    · intro h
      obtain ⟨stop, h⟩ := h
      cases h with
      | cons hb hrest =>
        obtain ⟨events, first, hdecode, hbatch, hplace, hnext, rfl⟩ := decode_eq_ok_iff.1 hb
        have hgapless := ih.2 ⟨stop, hrest⟩
        rw [IsBatch.lastEvent hbatch last, hplace, hnext] at hgapless
        exact .cons hdecode hbatch hplace hnext hgapless

theorem Gapless.ids {next : Int} {l : List Version} {bs : List Batch} (h : Gapless codec next l bs)
    (i : Nat) (e : Event) (he : (bs.flatMap (·.events))[i]? = some e) : e.id.toInt = next + i := by
  induction h generalizing i with
  | nil => cases he
  | @cons next v events first rest bs hdecode hbatch hplace hnext hrest ih =>
    rw [List.flatMap_cons, List.getElem?_append] at he
    split at he
    · rw [hbatch.ids i e he, hplace, hnext]
    · next hbehind =>
      have hlength : events.length ≤ i := Nat.not_lt.1 hbehind
      rw [ih _ he]
      show next + events.length + ((i - events.length : Nat) : Int) = next + i
      omega

/-- What decodes ends with as many events as there are in the batches. -/
theorem Decodes.stop_eq {l : List Version} {bs : List Batch} {stop : EventId}
    (h : Decodes codec last l bs stop) :
    stop.toInt = last.toInt + (bs.flatMap (·.events)).length := by
  induction h with
  | nil => rw [List.flatMap_nil, List.length_nil, Int.natCast_zero, Int.add_zero]
  | @cons last stop v rest b bs hb _ ih =>
    obtain ⟨events, first, -, hbatch, hplace, hnext, rfl⟩ := decode_eq_ok_iff.1 hb
    have hends :=
      IsBatch.lastEvent (b := ⟨v.node, v.transaction, events, v.blob.length⟩) hbatch last
    rw [hplace, hnext] at hends
    rw [ih, List.flatMap_cons, List.length_append]
    omega

/-- `v` is the first version of `l` at which the events do not count up from number `next`: what is
in front of it is gapless, and with it that is not so. -/
structure BreaksAt (codec : Codec) (next : Int) (l front : List Version) (v : Version) : Prop where
  split : ∃ back, l = front ++ v :: back
  gapless : ∃ bs, Gapless codec next front bs
  broken : ¬ ∃ bs, Gapless codec next (front ++ [v]) bs

/-- Versions decode one after the other, or there is a first one that does not. -/
theorem decodes_or (codec : Codec) (last : EventId) (l : List Version) :
    (∃ bs stop, Decodes codec last l bs stop) ∨
      ∃ front v back bs mid e, l = front ++ v :: back ∧ Decodes codec last front bs mid ∧
        decode codec mid v = .error e := by
  induction l generalizing last with
  | nil => exact .inl ⟨[], last, .nil⟩
  | cons v rest ih =>
    cases hb : decode codec last v with
    | error e => exact .inr ⟨[], v, rest, [], last, e, rfl, .nil, hb⟩
    | ok b =>
      rcases ih (b.lastEvent last) with ⟨bs, stop, h⟩ | ⟨front, w, back, bs, mid, e, rfl, h, he⟩
      · exact .inl ⟨b :: bs, stop, .cons hb h⟩
      · exact .inr ⟨v :: front, w, back, b :: bs, mid, e, rfl, .cons hb h, he⟩

theorem breaksAt_of_decode {front back : List Version} {bs : List Batch} {mid : EventId} {e : Error}
    (h : Decodes codec last front bs mid) (herror : decode codec mid v = .error e) :
    BreaksAt codec (last.toInt + 1) (front ++ v :: back) front v where
  split := ⟨back, rfl⟩
  gapless := ⟨bs, gapless_iff.2 ⟨mid, h⟩⟩
  broken hgapless := by
    obtain ⟨cs, hcs⟩ := hgapless
    obtain ⟨stop, hstop⟩ := gapless_iff.1 hcs
    have hlast : decodeAll codec mid [v] = .error e := decodeAll_of_error herror
    have hall := h.append_error hlast
    rw [decodeAll_eq_ok_iff.2 hstop] at hall
    cases hall

end Batch

namespace Archive

/-! ## Failing behind pages -/

/-- Following page tokens from `token` on, with `sizes i` as the size of the next page, gives
`pages`, and then a page fails with `e`. -/
inductive FailsBehind {σ α : Type} (read : UInt64 → Bytes → Action σ (Page α))
    (sizes : Nat → UInt64) : Nat → Bytes → State σ → List (Page α) → Error → Prop
  | now {i : Nat} {token : Bytes} {s : State σ} {e : Error}
      (h : (read (sizes i) token).answer s = .error e) : FailsBehind read sizes i token s [] e
  | later {i : Nat} {token : Bytes} {s t : State σ} {page : Page α} {pages : List (Page α)}
      {e : Error} (h : read (sizes i) token s = .ok page t) (hnext : page.next ≠ [])
      (hrest : FailsBehind read sizes (i + 1) page.next t pages e) :
      FailsBehind read sizes i token s (page :: pages) e

theorem FailsBehind.flatMap {σ α β : Type} {f : α → List β}
    {read : UInt64 → Bytes → Action σ (Page α)} {sizes : Nat → UInt64} {i : Nat} {token : Bytes}
    {s : State σ} {pages : List (Page α)} {e : Error}
    (h : FailsBehind read sizes i token s pages e) :
    FailsBehind (fun size page => Page.flatMap f <$> read size page) sizes i token s
      (pages.map (·.flatMap f)) e := by
  induction h with
  | now hread => exact .now (by rw [Action.answer_map, hread]; rfl)
  | later hread hnext _ ih => exact .later (by rw [Action.map_apply, hread]) hnext ih

/-- How many batches `count` full pages have together, from page `i` on. -/
def room (a : Archive) (sizes : Nat → UInt64) (i : Nat) : (count : Nat) → Nat
  | 0 => 0
  | count + 1 => (a.config.effectivePageSize (sizes i)).toNat + a.room sizes (i + 1) count

variable {a : Archive}

section Failing

variable (operation : String) {bytes : Bytes} {row : BranchRow} {min max : EventId}
  {sizes : Nat → UInt64} (htime : a.InTime) (hmin : firstEvent ≤ min) (hmax : min < max)
  (hsizes : a.Countable sizes) (hlineage : Lineage.Follows firstEvent row.token.lineage) {p : Plan}
  (hp : Plan.window row.token min max = p)

include htime hmin hmax hsizes hlineage hp

/-- A read by batch fails on the page that has the first version that does not decode. -/
theorem failsBehind_of_decode {s : State MemoryStore} (hs : s.Unarmed)
    (hrow : s.tables.Names bytes row) {token : Bytes} {c : Cursor} (hfits : c.Fits s.tables p)
    (hresume : Cursor.resume token min p.spans.length = .ok c) {front back : List Version}
    {v : Version} (hsplit : s.tables.remaining p c = front ++ v :: back) {bs : List Batch}
    {mid : EventId} (h : Batch.Decodes a.codec c.event front bs mid) {e : Error}
    (herror : Batch.decode a.codec mid v = .error e) (i : Nat) :
    ∃ pages,
      FailsBehind (fun size page => a.readBatchesAs operation ⟨bytes, min, max, size, page⟩) sizes i
        token s pages e ∧
      a.room sizes i pages.length ≤ front.length ∧
      front.length < a.room sizes i (pages.length + 1) := by
  induction hn : front.length using Nat.strongRecOn generalizing s token c front bs i with
  | _ n ih =>
  subst hn
  have hordered : Lineage.Ordered p.spans := hp ▸ Plan.window_ordered hlineage min max
  have hplan := plan_window (htime.not_expired operation) hs hp hrow hmin hmax (sizes i) token
  generalize hk : a.config.effectivePageSize (sizes i) = k
  have hpos := pageSize_pos hk
  by_cases hlast : front.length < k.toNat
  · -- the version is on this page
    refine ⟨[], .now (readBatchesAs_of_error hs hk (hk ▸ hsizes i) hordered hfits hresume htime
      hplan hsplit hlast h herror), Nat.zero_le _, ?_⟩
    show front.length < (a.config.effectivePageSize (sizes i)).toNat + 0
    rw [hk]
    exact hlast
  · -- the page is full, and the version is behind it
    rw [Nat.not_lt] at hlast
    have htake : (s.tables.remaining p c).take k.toNat = front.take k.toNat := by
      rw [hsplit, List.take_append_of_le_length hlast]
    have hdrop : (s.tables.remaining p c).drop k.toNat = front.drop k.toNat ++ v :: back := by
      rw [hsplit, List.drop_append_of_le_length hlast]
    have hsome : ¬ (token = [] ∧ s.tables.remaining p c = []) := by
      rw [hsplit]
      exact fun hnil => List.append_ne_nil_of_right_ne_nil _ (List.cons_ne_nil _ _) hnil.2
    rw [← List.take_append_drop k.toNat front] at h
    obtain ⟨last, shown, others, rfl, hshown, hothers⟩ := h.split
    obtain ⟨page, t, hread, -, htables, ht, hpage⟩ := readBatchesAs_of_decodes hs hk
      (hk ▸ hsizes i) hordered hfits hresume htime hplan hsome (htake ▸ hshown)
    rcases hpage with ⟨-, hfew⟩ | ⟨-, c', rfl, hwrite, hfits', hremaining⟩
    · rw [hsplit, List.length_append] at hfew
      omega
    rw [← htables] at hrow hfits' hremaining
    rw [htables, hdrop] at hremaining
    obtain ⟨pages, hfails, hle, hlt⟩ := ih _ (by rw [List.length_drop]; omega) ht hrow
      hfits' (hfits'.resume_write min) (htables ▸ hremaining) hothers (i + 1) rfl
    have hroom : ∀ count, a.room sizes i (count + 1) = k.toNat + a.room sizes (i + 1) count :=
      fun count => hk ▸ rfl
    rw [List.length_drop] at hle hlt
    refine ⟨page :: pages, .later hread (hwrite ▸ c'.write_ne_nil) (hwrite ▸ hfails), ?_, ?_⟩
    · rw [List.length_cons, hroom]
      omega
    · rw [List.length_cons, hroom]
      omega

end Failing

/-! ## A read of events -/

theorem start_event {min : EventId} (hmin : firstEvent ≤ min) :
    (min - 1).toInt + 1 = min.toInt := by
  have hnext := toInt_add_one (Cursor.start_event_ne hmin)
  rw [show (Cursor.start min).event + 1 = min from Int64.sub_add_cancel ..] at hnext
  exact hnext.symm

section Events

variable {bytes : Bytes} {row : BranchRow} {min max : EventId} {sizes : Nat → UInt64}
  (htime : a.InTime) (hmin : firstEvent ≤ min) (hmax : min < max) (hsizes : a.Countable sizes)
  (hlineage : Lineage.Follows firstEvent row.token.lineage) {s : State MemoryStore}
  (hs : s.Unarmed) (hrow : s.tables.Names bytes row)

include htime hmin hmax hsizes hlineage hs hrow

/-- A read of events that comes to its end gives the events of the batches that the window holds. -/
theorem gapless_of_readEvents {pages : List (Page Event)} {t : State MemoryStore}
    (h : Paged (fun size page => a.readEvents ⟨bytes, min, max, size, page⟩) sizes 0 [] s pages t) :
    s.tables.history (.window row.token min max) ≠ [] ∧ ∃ bs,
      Batch.Gapless a.codec min.toInt (s.tables.history (.window row.token min max)) bs ∧
      pages.flatMap (·.items) = bs.flatMap (·.events) := by
  obtain ⟨hsome, bs, stop, hdecodes, hevents, -⟩ :=
    Paged.events htime hmin hmax hsizes hlineage rfl hs hrow h
  rw [Tables.remaining_start hmin] at hsome hdecodes
  exact ⟨hsome, bs, start_event hmin ▸ Batch.gapless_iff.2 ⟨stop, hdecodes⟩, hevents⟩

theorem readEvents_of_gapless {bs : List Batch}
    (h : Batch.Gapless a.codec min.toInt (s.tables.history (.window row.token min max)) bs)
    (hsome : s.tables.history (.window row.token min max) ≠ []) :
    ∃ pages t,
      Paged (fun size page => a.readEvents ⟨bytes, min, max, size, page⟩) sizes 0 [] s pages t := by
  rw [← start_event hmin] at h
  obtain ⟨stop, hdecodes⟩ := Batch.gapless_iff.1 h
  rw [← Tables.remaining_start hmin] at hdecodes hsome
  obtain ⟨pages, t, hpages, -⟩ := paged_of_decodes htime hmin hmax hsizes hlineage rfl hs hrow
    (Cursor.fits_start ..) (Cursor.resume_start ..) (fun hnil => hsome hnil.2) hdecodes 0
  exact ⟨_, t, hpages.flatMap⟩

/-- A read of events of a window that shows nothing says so. -/
theorem readEvents_of_nil (hnil : s.tables.history (.window row.token min max) = []) :
    (a.readEvents ⟨bytes, min, max, sizes 0, []⟩).answer s =
      .error (.notFound (.events min max row.branch)) := by
  have hordered := Plan.window_ordered hlineage min max
  have hplan := plan_window (htime.not_expired "read_history_branch") hs rfl hrow hmin hmax
    (sizes 0) []
  rw [readEvents_eq, Action.answer_map, readBatchesAs_of_nil hs rfl (hsizes 0) hordered
    (Cursor.fits_start ..) (Cursor.resume_start ..) htime hplan rfl
    ((Tables.remaining_start hmin).trans hnil)]
  rfl

/-- What is not gapless fails on the page that has the first version at which it is not. -/
theorem failsBehind_of_not_gapless
    (h : ¬ ∃ bs, Batch.Gapless a.codec min.toInt
      (s.tables.history (.window row.token min max)) bs) :
    ∃ front bs v e pages,
      Batch.BreaksAt a.codec min.toInt (s.tables.history (.window row.token min max)) front v ∧
      Batch.Gapless a.codec min.toInt front bs ∧
      Batch.Refuses a.codec (min.toInt + (bs.flatMap (·.events)).length) v e ∧
      FailsBehind (fun size page => a.readEvents ⟨bytes, min, max, size, page⟩) sizes 0 [] s pages
        e ∧
      a.room sizes 0 pages.length ≤ front.length ∧
      front.length < a.room sizes 0 (pages.length + 1) := by
  rw [← start_event hmin] at h ⊢
  rcases Batch.decodes_or a.codec (min - 1) (s.tables.history (.window row.token min max)) with
    ⟨bs, stop, hdecodes⟩ | ⟨front, v, back, bs, mid, e, hsplit, hdecodes, herror⟩
  · exact absurd ⟨bs, Batch.gapless_iff.2 ⟨stop, hdecodes⟩⟩ h
  · obtain ⟨pages, hfails, hle, hlt⟩ := failsBehind_of_decode
      "read_history_branch" htime hmin hmax hsizes hlineage rfl hs hrow (Cursor.fits_start ..)
      (Cursor.resume_start ..) ((Tables.remaining_start hmin).trans hsplit) hdecodes herror 0
    have hrefuses := Batch.refuses_of_decode herror
    rw [hdecodes.stop_eq, Int.add_right_comm] at hrefuses
    refine ⟨front, bs, v, e, _, hsplit ▸ Batch.breaksAt_of_decode hdecodes herror,
      Batch.gapless_iff.2 ⟨mid, hdecodes⟩, hrefuses, hfails.flatMap, ?_, ?_⟩
    · rw [List.length_map]
      exact hle
    · rw [List.length_map]
      exact hlt

end Events

/-- Following a read of events to its end succeeds exactly if the versions that a raw read of the
window gives hold batches that count up from its start, and gives the events in this order. If the
raw read gives none the answer is that there are none, and otherwise the page fails that has the
first version at which the events do not count up: the version is refused, or the read overflows as
the version holds a batch and the largest event is in front of it. -/
theorem readEvents_gapless (htime : a.InTime) {s : State MemoryStore} (hs : s.Unarmed)
    {bytes : Bytes} {row : BranchRow} (hrow : s.tables.Names bytes row)
    (hlineage : Lineage.check row.token.lineage = .ok ()) (min max : EventId)
    {sizes : Nat → UInt64} (hsizes : a.Countable sizes) :
    let read := fun size page => a.readEvents ⟨bytes, min, max, size, page⟩
    (min < firstEvent ∨ max ≤ min →
      (read (sizes 0) []).answer s = .error (.invalidArgument (.window min max))) ∧
    (firstEvent ≤ min → min < max → ∃ selected, a.ReadsWindow s bytes row.branch min max selected ∧
      ((∃ pages t, Paged read sizes 0 [] s pages t) ↔
        selected ≠ [] ∧ ∃ bs, Batch.Gapless a.codec min.toInt selected bs) ∧
      (∀ pages t, Paged read sizes 0 [] s pages t →
        (∃ bs, Batch.Gapless a.codec min.toInt selected bs ∧
          pages.flatMap (·.items) = bs.flatMap (·.events)) ∧
        ∀ (i : Nat) e, (pages.flatMap (·.items))[i]? = some e → e.id.toInt = min.toInt + i) ∧
      (selected = [] →
        (read (sizes 0) []).answer s = .error (.notFound (.events min max row.branch))) ∧
      ((¬ ∃ bs, Batch.Gapless a.codec min.toInt selected bs) → ∃ front bs v e pages,
        Batch.BreaksAt a.codec min.toInt selected front v ∧
        Batch.Gapless a.codec min.toInt front bs ∧
        Batch.Refuses a.codec (min.toInt + (bs.flatMap (·.events)).length) v e ∧
        FailsBehind read sizes 0 [] s pages e ∧
        a.room sizes 0 pages.length ≤ front.length ∧
        front.length < a.room sizes 0 (pages.length + 1))) := by
  rw [Lineage.check_eq_ok_iff] at hlineage
  intro read
  constructor
  · intro hwindow
    rw [Action.answer, show read (sizes 0) [] s = _ from readEvents_of_window hwindow _ [] s]
  · intro hmin hmax
    refine ⟨_, readsWindow_history htime hs hrow hlineage hmin hmax, ?_, ?_, ?_, ?_⟩
    · constructor
      · intro h
        obtain ⟨pages, t, hpages⟩ := h
        obtain ⟨hsome, bs, hgapless, -⟩ :=
          gapless_of_readEvents htime hmin hmax hsizes hlineage hs hrow hpages
        exact ⟨hsome, bs, hgapless⟩
      · intro h
        obtain ⟨hsome, bs, hgapless⟩ := h
        exact readEvents_of_gapless htime hmin hmax hsizes hlineage hs hrow hgapless hsome
    · intro pages t hpages
      obtain ⟨-, bs, hgapless, hevents⟩ :=
        gapless_of_readEvents htime hmin hmax hsizes hlineage hs hrow hpages
      exact ⟨⟨bs, hgapless, hevents⟩, hevents ▸ hgapless.ids⟩
    · exact readEvents_of_nil htime hmin hmax hsizes hlineage hs hrow
    · exact failsBehind_of_not_gapless htime hmin hmax hsizes hlineage hs hrow

/-- Two batches hold the events 1 to 3, and are read one a page. A read that starts with the second
event fails on its first page. -/
theorem readEvents_gapless_batched :
    let read := fun min size page =>
      Sample.archive.readEvents ⟨Forked.bytes Sample.root, min, nodeLimit, size, page⟩
    (∃ pages t, Paged (read 1) (fun _ => 1) 0 [] Sample.batched pages t ∧
      ∀ (i : Nat) e, (pages.flatMap (·.items))[i]? = some e → e.id.toInt = 1 + i) ∧
    ∃ selected front v, Sample.archive.ReadsWindow Sample.batched (Forked.bytes Sample.root)
        Sample.root.branch 2 nodeLimit selected ∧
      Batch.BreaksAt Sample.archive.codec 2 selected front v ∧
      FailsBehind (read 2) (fun _ => 1) 0 [] Sample.batched [] (.dataLoss (.gap 2 3)) := by
  intro read
  have hgapless := fun min => readEvents_gapless (a := Sample.archive) (by decide)
    Sample.batched_reaches.unarmed Sample.batched_names rfl min nodeLimit
    Sample.archive.countable_one
  refine ⟨?_, ?_⟩
  · obtain ⟨pages, t, hpages, -⟩ := Sample.batched_paged "read_history_branch"
    obtain ⟨selected, -, -, hids, -⟩ := (hgapless 1).2 (by decide) (by decide)
    exact ⟨_, t, hpages.flatMap, (hids _ t hpages.flatMap).2⟩
  · have hgap : (read 2 1 []).answer Sample.batched = .error (.dataLoss (.gap 2 3)) := by
      decide +kernel
    obtain ⟨selected, hselected, hpaged, -, hnone, hfails⟩ := (hgapless 2).2 (by decide) (by decide)
    have hsome : selected ≠ [] := by
      intro hnil
      cases hgap.symm.trans (hnone hnil)
    obtain ⟨front, -, v, -, -, hbreaks, -⟩ := hfails fun h => by
      obtain ⟨pages, t, hpages⟩ := hpaged.2 ⟨hsome, h⟩
      obtain ⟨page, hpage⟩ := hpages.answer_ok
      cases hgap.symm.trans hpage
    exact ⟨selected, front, v, hselected, hbreaks, .now hgap⟩

/-- The first of two batches ends with the largest event. The second one decodes, but it is not
refused: the read overflows. -/
theorem readEvents_overflows :
    let s := Sample.overlapping.state
    let req := Sample.lastNodes
    Sample.archive.InTime ∧ s.Unarmed ∧ s.tables.Names req.token (Forked.row Sample.root) ∧
      ∃ selected front v,
        Sample.archive.ReadsWindow s req.token Sample.root.branch req.min req.max selected ∧
        Batch.BreaksAt Sample.archive.codec req.min.toInt selected front v ∧
        (∃ events, Sample.archive.codec.decode v.blob = .ok events) ∧
        (Sample.archive.readEvents req).answer s = .error .overflow := by
  intro s req
  have htime : Sample.archive.InTime := by decide
  have hs : s.Unarmed := Sample.overlapping.reaches.unarmed
  have hrow : s.tables.Names req.token (Forked.row Sample.root) :=
    ⟨Sample.root, rfl, by decide +kernel⟩
  have hlineage : Lineage.Follows firstEvent (Forked.row Sample.root).token.lineage :=
    Lineage.check_eq_ok_iff.1 rfl
  let v : Version := ⟨9223372036854775805, 5, 0, Codec.writeBatch [Sample.bare 9223372036854775805,
    Sample.bare 9223372036854775806, Sample.bare 9223372036854775807]⟩
  let w : Version := ⟨9223372036854775806, 6, 5, Codec.writeBatch [Sample.bare 9223372036854775806]⟩
  have hhistory : s.tables.history (.window Sample.root req.min req.max) = [v] ++ [w] := by
    decide +kernel
  have hfirst : Batch.decodeAll Sample.archive.codec (req.min - 1) [v] =
      .ok ([⟨v.node, v.transaction, [Sample.bare 9223372036854775805,
        Sample.bare 9223372036854775806, Sample.bare 9223372036854775807], 104⟩],
        Int64.maxValue) := by decide +kernel
  have hsecond : Batch.decode Sample.archive.codec Int64.maxValue w = .error .overflow := by
    decide +kernel
  have hdecodes : Sample.archive.codec.decode w.blob = .ok [Sample.bare 9223372036854775806] := by
    decide +kernel
  have hbreaks : Batch.BreaksAt Sample.archive.codec ((req.min - 1).toInt + 1) ([v] ++ [w]) [v] w :=
    Batch.breaksAt_of_decode (Batch.decodeAll_eq_ok_iff.1 hfirst) hsecond
  rw [start_event (by decide), ← hhistory] at hbreaks
  exact ⟨htime, hs, hrow, _, [v], w,
    readsWindow_history htime hs hrow hlineage (by decide) (by decide), hbreaks,
    ⟨_, hdecodes⟩, by decide +kernel⟩

end Archive

end Chronicle
