import Chronicle.Proofs.Slices

/-!
# Reading backwards

A forward read carries a cursor from page to page and decodes what it selects for a page. A backward
read selects and decodes all of the window for every page, and goes through the batches from the
last one down to the node that its page token names.

* `Breaks`: following page tokens ends in an error.
* `readWindow_eq`: all of the window, in fetches of the largest pages, is what a forward read shows.
* `Batch.below`: what a backward read has left to show below a node, and how a page cuts it.
* `readBackward_mirrors`: the events of a backward read are those of a forward one in reverse, and
  where the forward read ends in an error the backward one fails with it.
-/
namespace Chronicle

open Archive (State)

/-! ## Lists of batches -/

namespace Batch

theorem totalSize_append (bs cs : List Batch) :
    totalSize (bs ++ cs) = totalSize bs + totalSize cs := by
  induction bs with
  | nil => exact (Nat.zero_add _).symm
  | cons b rest ih =>
    show b.size + totalSize (rest ++ cs) = b.size + totalSize rest + totalSize cs
    rw [ih, Nat.add_assoc]

theorem totalSize_reverse (bs : List Batch) : totalSize bs.reverse = totalSize bs := by
  induction bs with
  | nil => rfl
  | cons b rest ih =>
    rw [List.reverse_cons, totalSize_append, ih]
    show totalSize rest + b.size = b.size + totalSize rest
    exact Nat.add_comm _ _

/-- The batches that start below a node, from the last one down. -/
def below (bs : List Batch) (n : NodeId) : List Batch := bs.reverse.filter (·.node < n)

/-- Below a node behind the last batch there are all batches. -/
theorem below_eq_reverse {bs : List Batch} {n : NodeId} (h : ∀ b ∈ bs, b.node < n) :
    below bs n = bs.reverse :=
  List.filter_eq_self.2 fun b hb => decide_eq_true (h b (List.mem_reverse.1 hb))

/-- Below the last batch of a page there are the batches behind the page. -/
theorem below_last {bs : List Batch} (h : bs.Pairwise fun b c => b.node < c.node) {n : NodeId}
    {k : Nat} {b : Batch} (hb : ((below bs n).take k).getLast? = some b) :
    below bs b.node = (below bs n).drop k := by
  have hdesc : (below bs n).Pairwise fun b c => c.node < b.node :=
    (List.pairwise_reverse.2 h).filter _
  rw [← List.take_append_drop k (below bs n), List.pairwise_append] at hdesc
  obtain ⟨hpage, -, hbehind⟩ := hdesc
  obtain ⟨front, hfront⟩ := List.getLast?_eq_some_iff.1 hb
  have hmem : b ∈ (below bs n).take k := List.mem_of_getLast? hb
  have hlt : b.node < n :=
    of_decide_eq_true (List.mem_filter.1 (List.mem_of_mem_take hmem)).2
  -- what is below `b` is below `n`
  have hfilter : below bs b.node = (below bs n).filter (·.node < b.node) := by
    unfold below
    rw [List.filter_filter]
    refine List.filter_congr fun c _ => ?_
    by_cases hc : c.node < b.node
    · simp [hc, Int64.lt_trans hc hlt]
    · simp [hc]
  have hnone : ((below bs n).take k).filter (·.node < b.node) = [] := by
    refine List.filter_eq_nil_iff.2 fun c hc hlt => ?_
    rw [hfront] at hc hpage
    rcases List.mem_append.1 hc with hc | hc
    · have hgt := (List.pairwise_append.1 hpage).2.2 c hc b (List.mem_singleton_self b)
      exact Int64.lt_asymm hgt (of_decide_eq_true hlt)
    · rw [List.mem_singleton.1 hc] at hlt
      exact Int64.lt_irrefl (of_decide_eq_true hlt)
  have hall : ((below bs n).drop k).filter (·.node < b.node) = (below bs n).drop k :=
    List.filter_eq_self.2 fun c hc => decide_eq_true (hbehind b hmem c hc)
  rw [hfilter]
  conv => lhs; rw [← List.take_append_drop k (below bs n)]
  rw [List.filter_append, hnone, hall, List.nil_append]

end Batch

/-! ## Lengths -/

/-- Nodes in ascending order behind a node: there are only so many. -/
theorem Version.length_ascending {l : List Version} (h : l.Pairwise fun v w => v.node < w.node)
    {n : NodeId} (hn : ∀ v ∈ l, n < v.node) : n.toInt + l.length ≤ nodeLimit.toInt := by
  induction l generalizing n with
  | nil =>
    have hle := Int64.le_iff_toInt_le.1 (Token.le_nodeLimit n)
    simpa using hle
  | cons v rest ih =>
    obtain ⟨hv, hrest⟩ := List.pairwise_cons.1 h
    have hlt := Int64.lt_iff_toInt_lt.1 (hn v (List.mem_cons_self ..))
    have hbound := ih hrest hv
    rw [List.length_cons]
    omega

namespace Tables

theorem remaining_ascending {ts : Tables} {p : Plan} (hp : Lineage.Ordered p.spans) (c : Cursor) :
    (ts.remaining p c).Pairwise fun v w => v.node < w.node :=
  Selection.current_ascending (behind_readOrder _ _ hp _)

theorem length_remaining_lt (ts : Tables) {p : Plan} (hp : Lineage.Ordered p.spans) (c : Cursor) :
    (ts.remaining p c).length < Selection.pages := by
  have hbehind : ∀ v ∈ ts.remaining p c, c.node < v.node := fun v hv =>
    (mem_behind_iff.1 (Selection.mem_of_mem_current hv).1).2
  have hbound := Version.length_ascending (remaining_ascending hp c) hbehind
  have hnode := c.node.le_toInt
  have hlimit : nodeLimit.toInt = 9223372036854775807 := by decide
  have hpages : Selection.pages = 18446744073709551616 := rfl
  omega

end Tables

/-! ## Pages made out of pages -/

def Page.flatMap {α β : Type} (f : α → List β) (p : Page α) : Page β :=
  ⟨p.items.flatMap f, p.next, p.size⟩

def Page.totalSize {α : Type} (pages : List (Page α)) : Nat := pages.foldr (·.size + ·) 0

theorem Page.totalSize_flatMap {α β : Type} (f : α → List β) (pages : List (Page α)) :
    totalSize (pages.map (·.flatMap f)) = totalSize pages := by
  unfold totalSize
  rw [List.foldr_map]
  rfl

theorem Page.flatMap_items {α β : Type} (f : α → List β) (pages : List (Page α)) :
    (pages.map (·.flatMap f)).flatMap (·.items) = (pages.flatMap (·.items)).flatMap f := by
  rw [List.flatMap_map, List.flatMap_assoc]
  rfl

namespace Archive

/-- Following page tokens from `token` on, with `sizes i` as the size of the next page, ends in an
error. -/
inductive Breaks {σ α : Type} (read : UInt64 → Bytes → Action σ (Page α)) (sizes : Nat → UInt64) :
    Nat → Bytes → State σ → Error → Prop
  | now {i : Nat} {token : Bytes} {s : State σ} {e : Error}
      (h : (read (sizes i) token).answer s = .error e) : Breaks read sizes i token s e
  | later {i : Nat} {token : Bytes} {s t : State σ} {page : Page α} {e : Error}
      (h : read (sizes i) token s = .ok page t) (hnext : page.next ≠ [])
      (hrest : Breaks read sizes (i + 1) page.next t e) : Breaks read sizes i token s e

section FlatMap

variable {σ α β : Type} {f : α → List β} {read : UInt64 → Bytes → Action σ (Page α)}
  {sizes : Nat → UInt64} {i : Nat} {token : Bytes} {s t : State σ}

/-- Page tokens are followed the same way whatever the items stand for. -/
theorem Paged.of_flatMap {pages : List (Page β)}
    (h : Paged (fun size page => Page.flatMap f <$> read size page) sizes i token s pages t) :
    ∃ pages', Paged read sizes i token s pages' t ∧ pages = pages'.map (·.flatMap f) := by
  induction h with
  | last hread hnext =>
    obtain ⟨page, hpage, rfl⟩ := Action.ok_of_map hread
    exact ⟨[page], .last hpage hnext, rfl⟩
  | more hread hnext _ ih =>
    obtain ⟨page, hpage, rfl⟩ := Action.ok_of_map hread
    obtain ⟨pages', hpages, rfl⟩ := ih
    exact ⟨page :: pages', .more hpage hnext hpages, rfl⟩

theorem Paged.flatMap {pages : List (Page α)} (h : Paged read sizes i token s pages t) :
    Paged (fun size page => Page.flatMap f <$> read size page) sizes i token s
      (pages.map (·.flatMap f)) t := by
  induction h with
  | last hread hnext => exact .last (by rw [Action.map_apply, hread]) hnext
  | more hread hnext _ ih => exact .more (by rw [Action.map_apply, hread]) hnext ih

theorem Breaks.of_flatMap {e : Error}
    (h : Breaks (fun size page => Page.flatMap f <$> read size page) sizes i token s e) :
    Breaks read sizes i token s e := by
  induction h with
  | now hread =>
    refine .now ?_
    rw [Action.answer_map] at hread
    cases hx : (read _ _).answer _ with
    | error e' =>
      rw [hx] at hread
      cases hread
      rfl
    | ok page =>
      rw [hx] at hread
      cases hread
  | later hread hnext _ ih =>
    obtain ⟨page, hpage, rfl⟩ := Action.ok_of_map hread
    exact .later hpage hnext ih

end FlatMap

/-! ## What a forward read ends in -/

variable {a : Archive}

theorem size_of_readBatchesAs {operation : String} {req : ReadRequest} {s t : State MemoryStore}
    {page : Page Batch} (h : a.readBatchesAs operation req s = .ok page t) :
    page.size = Batch.totalSize page.items := by
  obtain ⟨selection, s', -, h⟩ := Action.ok_of_bind h
  obtain ⟨decoded, u, -, h⟩ := Action.ok_of_bind h
  cases h
  rfl

theorem Paged.totalSize {operation : String} {bytes : Bytes} {min max : EventId}
    {sizes : Nat → UInt64} {i : Nat} {token : Bytes} {s t : State MemoryStore}
    {pages : List (Page Batch)}
    (h : Paged (fun size page => a.readBatchesAs operation ⟨bytes, min, max, size, page⟩) sizes i
      token s pages t) :
    Page.totalSize pages = Batch.totalSize (pages.flatMap (·.items)) := by
  induction h with
  | last hread _ =>
    rw [List.flatMap_singleton, ← size_of_readBatchesAs hread]
    exact Nat.add_zero _
  | @more _ _ _ _ _ page pages hread _ _ ih =>
    rw [List.flatMap_cons, Batch.totalSize_append, ← ih, ← size_of_readBatchesAs hread]
    rfl

theorem readEvents_eq (req : ReadRequest) :
    (a.readEvents req : Action MemoryStore _) =
      Page.flatMap (·.events) <$> a.readBatchesAs "read_history_branch" req := rfl

section Refused

variable {bytes : Bytes} {min max : EventId} (h : min < firstEvent ∨ max ≤ min) (size : UInt64)
  (page : Bytes) (s : State MemoryStore)

include h

theorem readEvents_of_window :
    a.readEvents ⟨bytes, min, max, size, page⟩ s =
      .error (.invalidArgument (.window min max)) s := by
  have hread : a.readBatchesAs "read_history_branch" ⟨bytes, min, max, size, page⟩ s = _ :=
    Action.bind_of_error (Action.bind_of_error (plan_of_window h size page s))
  rw [readEvents_eq, Action.map_apply, hread]

theorem readBackward_of_window :
    a.readBackward ⟨bytes, min, max, size, page⟩ s =
      .error (.invalidArgument (.window min max)) s :=
  Action.bind_of_error (plan_of_window h size page s)

end Refused

section Forward

variable {operation : String} {bytes : Bytes} {row : BranchRow} {min max : EventId}
  {sizes : Nat → UInt64} (htime : a.InTime) (hmin : firstEvent ≤ min) (hmax : min < max)
  (hsizes : a.Countable sizes) (hlineage : Lineage.Follows firstEvent row.token.lineage) {p : Plan}
  (hp : Plan.window row.token min max = p)

include htime hmin hmax hsizes hlineage hp

/-- A read by batch ends in an error if there is nothing to show, or because of a version that does
not decode. -/
theorem Breaks.decodeAll {i : Nat} {token : Bytes} {s : State MemoryStore} {e : Error}
    (h : Breaks (fun size page => a.readBatchesAs operation ⟨bytes, min, max, size, page⟩) sizes i
      token s e)
    (hs : s.Unarmed) (hrow : s.tables.Names bytes row) {c : Cursor} (hfits : c.Fits s.tables p)
    (hresume : Cursor.resume token min p.spans.length = .ok c) :
    (token = [] ∧ s.tables.remaining p c = [] ∧ e = .notFound (.events min max p.branch)) ∨
      Batch.decodeAll a.codec c.event (s.tables.remaining p c) = .error e := by
  have hordered : Lineage.Ordered p.spans := hp ▸ Plan.window_ordered hlineage min max
  induction h generalizing c with
  | @now i token s e hread =>
    have hplan := plan_window (htime.not_expired operation) hs hp hrow hmin hmax (sizes i) token
    generalize hk : a.config.effectivePageSize (sizes i) = k
    rcases error_of_readBatchesAs hs hk (hk ▸ hsizes i) hordered hfits hresume htime
      hplan hread with ⟨⟨htoken, hnone⟩, rfl⟩ | herror
    · exact .inl ⟨htoken, hnone, rfl⟩
    · have hwhole := Batch.decodeAll_append_of_error herror ((s.tables.remaining p c).drop k.toNat)
      rw [List.take_append_drop] at hwhole
      exact .inr hwhole
  | @later i token s t page e hread hnext _ ih =>
    have hplan := plan_window (htime.not_expired operation) hs hp hrow hmin hmax (sizes i) token
    generalize hk : a.config.effectivePageSize (sizes i) = k
    obtain ⟨-, htables, ht, last, hdecodes, hpage⟩ := readBatchesAs_of_ok hs hk (hk ▸ hsizes i)
      hordered hfits hresume htime hplan hread
    rcases hpage with ⟨hnil, -⟩ | ⟨-, c', rfl, hwrite, hfits', hremaining⟩
    · exact absurd hnil hnext
    · rw [← htables] at hrow hfits' hremaining
      rcases ih ht hrow hfits' (hwrite ▸ hfits'.resume_write min) with ⟨hnil, -⟩ | herror
      · exact absurd hnil hnext
      · right
        rw [hremaining, htables] at herror
        have hwhole := hdecodes.append_error herror
        rwa [List.take_append_drop] at hwhole

section Events

variable {s : State MemoryStore} (hs : s.Unarmed) (hrow : s.tables.Names bytes row)

include hs hrow

/-- A read of events that comes to its end gives the events of the batches that the window decodes
to. -/
theorem Paged.events {pages : List (Page Event)} {t : State MemoryStore}
    (h : Paged (fun size page => a.readEvents ⟨bytes, min, max, size, page⟩) sizes 0 [] s pages t) :
    s.tables.remaining p (.start min) ≠ [] ∧ ∃ bs stop,
      Batch.Decodes a.codec (min - 1) (s.tables.remaining p (.start min)) bs stop ∧
      pages.flatMap (·.items) = bs.flatMap (·.events) ∧
      Page.totalSize pages = Batch.totalSize bs := by
  obtain ⟨batches, hbatches, rfl⟩ := Paged.of_flatMap h
  obtain ⟨hsome, stop, hdecodes⟩ := Paged.decodes htime hmin hmax hsizes hlineage hp hbatches hs
    hrow (Cursor.fits_start ..) (Cursor.resume_start ..)
  refine ⟨fun hnil => hsome ⟨rfl, hnil⟩, _, stop, hdecodes, Page.flatMap_items .., ?_⟩
  rw [Page.totalSize_flatMap, hbatches.totalSize]

/-- A read of events that ends in an error had nothing to show, or the window does not decode. -/
theorem Breaks.events {e : Error}
    (h : Breaks (fun size page => a.readEvents ⟨bytes, min, max, size, page⟩) sizes 0 [] s e) :
    s.tables.remaining p (.start min) = [] ∧ e = .notFound (.events min max p.branch) ∨
      Batch.decodeAll a.codec (min - 1) (s.tables.remaining p (.start min)) = .error e := by
  have hbatches := Breaks.of_flatMap h
  exact (hbatches.decodeAll htime hmin hmax hsizes hlineage hp hs hrow (Cursor.fits_start ..)
    (Cursor.resume_start ..)).imp_left And.right

end Events

end Forward

/-! ## Backwards -/

section Window

variable {d : Deadline} (hd : d.expired = false) {s : State MemoryStore} (hs : s.Unarmed)
  (hk : a.config.maxPageSize.toNat + 1 < UInt64.size) {p : Plan} (hp : Lineage.Ordered p.spans)

include hd hs hk hp

/-- All of the window, fetched in the largest pages, is all that is left to show, decoded. -/
theorem readWindow_eq {fuel : Nat} {c : Cursor} (hfits : c.Fits s.tables p)
    (hfuel : (s.tables.remaining p c).length < fuel) :
    a.readWindow d p fuel c s =
      match Batch.decodeAll a.codec c.event (s.tables.remaining p c) with
      | .error e => .error e s
      | .ok (bs, _) => .ok bs s := by
  induction fuel generalizing c with
  | zero => exact absurd hfuel (Nat.not_lt_zero _)
  | succ fuel ih =>
    have hpos := maxPageSize_pos a
    obtain ⟨c', hevent, -, hpage, hnext⟩ := Selection.page_eq hd hs hk hpos hp hfits
    unfold readWindow
    refine (Action.bind_of_ok hpage).trans ?_
    dsimp only
    rw [hevent]
    generalize a.config.maxPageSize.toNat = k at hpos hnext
    have hsplit := List.take_append_drop k (s.tables.remaining p c)
    cases hpart : Batch.decodeAll a.codec c.event ((s.tables.remaining p c).take k) with
    | error e =>
      rw [← hsplit, Batch.decodeAll_append_of_error hpart]
      exact Action.bind_of_error rfl
    | ok decoded =>
      obtain ⟨bs, mid⟩ := decoded
      refine (Action.bind_of_ok rfl).trans ?_
      dsimp only
      by_cases hlast : (s.tables.remaining p c).length < k
      · rw [if_pos (decide_eq_true hlast)]
        rw [List.take_of_length_le (Nat.le_of_lt hlast)] at hpart
        rw [hpart]
        rfl
      · rw [if_neg (by simpa using hlast)]
        obtain ⟨hfits', hremaining⟩ := hnext (Nat.not_lt.1 hlast)
        have hrest : a.readWindow d p fuel { c' with event := mid } s =
            match Batch.decodeAll a.codec mid (s.tables.remaining p c') with
            | .error e => .error e s
            | .ok (cs, _) => .ok cs s := by
          refine ih ⟨hfits'.span_le, hfits'.passed⟩ ?_
          show (s.tables.remaining p c').length < fuel
          rw [hremaining, List.length_drop]
          omega
        rw [hremaining] at hrest
        have hpart := Batch.decodeAll_eq_ok_iff.1 hpart
        cases hbehind : Batch.decodeAll a.codec mid ((s.tables.remaining p c).drop k) with
        | error e =>
          rw [hbehind] at hrest
          rw [← hsplit, hpart.append_error hbehind]
          exact Action.bind_of_error hrest
        | ok behind =>
          rw [hbehind] at hrest
          have hwhole := hpart.append (Batch.decodeAll_eq_ok_iff.1 hbehind)
          rw [← hsplit, Batch.decodeAll_eq_ok_iff.2 hwhole]
          exact Action.bind_of_ok hrest

theorem readWindow_start (min : EventId) :
    a.readWindow d p Selection.pages (.start min) s =
      match Batch.decodeAll a.codec (min - 1) (s.tables.remaining p (.start min)) with
      | .error e => .error e s
      | .ok (bs, _) => .ok bs s :=
  readWindow_eq hd hs hk hp (Cursor.fits_start s.tables p min)
    (s.tables.length_remaining_lt hp _)

end Window

theorem writeInt64_ne_nil (n : Int64) : Wire.writeInt64 n ≠ [] := by
  intro h
  have := congrArg List.length h
  simp [Wire.writeInt64, Wire.writeUInt64] at this

theorem resumeBelow_start : resumeBelow [] = .ok nodeLimit := rfl

theorem resumeBelow_write (n : NodeId) : resumeBelow (Wire.writeInt64 n) = .ok n := by
  have hfirst := (Wire.reads_int64 n).first []
  rw [List.append_nil] at hfirst
  unfold resumeBelow
  rw [if_neg (by simpa using writeInt64_ne_nil n), hfirst]

section Page

variable (htime : a.InTime) (hmaxPage : a.config.maxPageSize.toNat + 1 < UInt64.size)
  {s : State MemoryStore} (hs : s.Unarmed) {bytes token : Bytes} {min max : EventId}
  {size : UInt64} {p : Plan} (hp : Lineage.Ordered p.spans)
  (hplan : plan (a.deadline "read_history_branch_reverse") ⟨bytes, min, max, size, token⟩ s =
    .ok p s)
  {n : NodeId} (hresume : resumeBelow token = .ok n)

include htime hmaxPage hs hp hplan hresume

/-- Where the window does not decode there is no backward page of it. -/
theorem readBackward_of_error {e : Error}
    (h : Batch.decodeAll a.codec (min - 1) (s.tables.remaining p (.start min)) = .error e) :
    a.readBackward ⟨bytes, min, max, size, token⟩ s = .error e s := by
  have hd := htime.not_expired "read_history_branch_reverse"
  have hwindow := readWindow_start hd hs hmaxPage hp min
  rw [h] at hwindow
  have hlift := Action.lift_of_ok hresume s
  exact (Action.bind_of_ok hplan).trans ((Action.bind_of_ok hlift).trans
    (Action.bind_of_error hwindow))

theorem readBackward_eq {bs : List Batch} {stop : EventId}
    (h : Batch.Decodes a.codec (min - 1) (s.tables.remaining p (.start min)) bs stop) {k : Nat}
    (hk : (a.config.effectivePageSize size).toNat = k) :
    ∃ t : State MemoryStore, t.tables = s.tables ∧ t.Unarmed ∧
      a.readBackward ⟨bytes, min, max, size, token⟩ s =
        if token = [] ∧ Batch.below bs n = [] then .error (.notFound (.events min max p.branch)) s
        else .ok (Page.flatMap (·.events.reverse) ⟨(Batch.below bs n).take k,
          if (Batch.below bs n).drop k = [] then []
            else Wire.writeInt64 ((((Batch.below bs n).take k).getLast?.map (·.node)).getD n),
          Batch.totalSize ((Batch.below bs n).take k)⟩) t := by
  refine ⟨{ s with counters := s.counters.countRead ((Batch.below bs n).take k).length }, rfl, hs,
    ?_⟩
  have hd := htime.not_expired "read_history_branch_reverse"
  have hwindow := readWindow_start hd hs hmaxPage hp min
  rw [Batch.decodeAll_eq_ok_iff.2 h] at hwindow
  have hlift := Action.lift_of_ok hresume s
  have hpos : k ≠ 0 := hk ▸ Nat.ne_of_gt (pageSize_pos rfl)
  have hempty : (token.isEmpty && ((Batch.below bs n).take k).isEmpty) = true ↔
      token = [] ∧ Batch.below bs n = [] := by
    rw [Bool.and_eq_true, List.isEmpty_iff, List.isEmpty_iff, List.take_eq_nil_iff]
    simp only [hpos, false_or]
  refine (Action.bind_of_ok hplan).trans ((Action.bind_of_ok hlift).trans
    ((Action.bind_of_ok hwindow).trans ?_))
  generalize hleft : Batch.below bs n = left at hempty
  have hfilter : bs.reverse.filter (·.node < n) = left := hleft
  simp only [hk, hfilter, hempty, List.isEmpty_iff]
  split <;> rfl

end Page

section Paging

variable {bytes : Bytes} {row : BranchRow} {min max : EventId} (htime : a.InTime)
  (hmaxPage : a.config.maxPageSize.toNat + 1 < UInt64.size) (hmin : firstEvent ≤ min)
  (hmax : min < max) (hlineage : Lineage.Follows firstEvent row.token.lineage) {p : Plan}
  (hp : Plan.window row.token min max = p)

include htime hmaxPage hmin hmax hlineage hp

/-- Page after page a backward read gives the batches below the node that it resumes at. -/
theorem readBackward_paged {s : State MemoryStore} (hs : s.Unarmed)
    (hrow : s.tables.Names bytes row) {bs : List Batch} {stop : EventId}
    (h : Batch.Decodes a.codec (min - 1) (s.tables.remaining p (.start min)) bs stop)
    {token : Bytes} {n : NodeId} (hresume : resumeBelow token = .ok n)
    (hsome : ¬ (token = [] ∧ Batch.below bs n = [])) (sizes : Nat → UInt64) (i : Nat) :
    ∃ (pages : List (Page Batch)) (t : State MemoryStore),
      Paged (fun size page => a.readBackward ⟨bytes, min, max, size, page⟩) sizes i token s
        (pages.map (·.flatMap (·.events.reverse))) t ∧
      pages.flatMap (·.items) = Batch.below bs n ∧
      Page.totalSize pages = Batch.totalSize (Batch.below bs n) ∧
      FullPages (fun j => (a.config.effectivePageSize (sizes (i + j))).toNat) pages := by
  induction hlength : (Batch.below bs n).length using Nat.strongRecOn generalizing s token n i with
  | _ length ih =>
  have hordered : Lineage.Ordered p.spans := hp ▸ Plan.window_ordered hlineage min max
  have hd := htime.not_expired "read_history_branch_reverse"
  have hplan := plan_window hd hs hp hrow hmin hmax (sizes i) token
  generalize hk : (a.config.effectivePageSize (sizes i)).toNat = k
  have hpos : 0 < k := hk ▸ pageSize_pos rfl
  obtain ⟨t, htables, ht, hread⟩ :=
    readBackward_eq htime hmaxPage hs hordered hplan hresume h hk
  rw [if_neg hsome] at hread
  by_cases hlast : (Batch.below bs n).length ≤ k
  · rw [List.take_of_length_le hlast, if_pos (List.drop_eq_nil_iff.2 hlast)] at hread
    exact ⟨[_], t, .last hread rfl, List.flatMap_singleton .., Nat.add_zero _,
      fullPages_singleton _ _⟩
  · have hfull : ((Batch.below bs n).take k).length = k := by
      rw [List.length_take]
      omega
    cases hb : ((Batch.below bs n).take k).getLast? with
    | none =>
      rw [List.getLast?_eq_none_iff.1 hb, List.length_nil] at hfull
      omega
    | some b =>
    have hrest := Batch.below_last (h.ascending (Tables.remaining_ascending hordered _)) hb
    rw [if_neg (mt List.drop_eq_nil_iff.1 hlast), hb] at hread
    rw [← htables] at hrow h
    obtain ⟨pages, u, hpages, hitems, hsize, hfulls⟩ := ih _ (by
      rw [hrest, List.length_drop]; omega) ht hrow h (resumeBelow_write b.node)
      (fun hnil => writeInt64_ne_nil _ hnil.1) (i + 1) rfl
    refine ⟨_ :: pages, u, .more hread (writeInt64_ne_nil _) hpages, ?_, ?_, ?_⟩
    · rw [List.flatMap_cons, hitems, hrest, List.take_append_drop]
    · show Batch.totalSize _ + Page.totalSize pages = _
      rw [hsize, hrest, ← Batch.totalSize_append, List.take_append_drop]
    · refine fullPages_cons (hfull.trans hk.symm) ?_
      simp only [Nat.add_right_comm i 1, Nat.add_assoc] at hfulls ⊢
      exact hfulls

/-- From its first page on a backward read gives all batches of the window. -/
theorem readBackward_reverse {s : State MemoryStore} (hs : s.Unarmed)
    (hrow : s.tables.Names bytes row) {bs : List Batch} {stop : EventId}
    (h : Batch.Decodes a.codec (min - 1) (s.tables.remaining p (.start min)) bs stop)
    (hsome : s.tables.remaining p (.start min) ≠ []) (sizes : Nat → UInt64) :
    ∃ (pages : List (Page Batch)) (t : State MemoryStore),
      Paged (fun size page => a.readBackward ⟨bytes, min, max, size, page⟩) sizes 0 [] s
        (pages.map (·.flatMap (·.events.reverse))) t ∧
      pages.flatMap (·.items) = bs.reverse ∧ Page.totalSize pages = Batch.totalSize bs ∧
      FullPages (fun i => (a.config.effectivePageSize (sizes i)).toNat) pages := by
  have hall : Batch.below bs nodeLimit = bs.reverse := by
    apply Batch.below_eq_reverse
    intro b hb
    obtain ⟨v, hv, hnode⟩ := h.mem_node b hb
    obtain ⟨hv, -⟩ := Tables.mem_behind_iff.1 (Selection.mem_of_mem_current hv).1
    subst hp
    have hlt := (Tables.covers_window_iff.1 (Tables.mem_along_iff.1 hv)).2.2
    exact hnode ▸ Int64.lt_of_lt_of_le hlt (Token.le_nodeLimit max)
  have hbelow : Batch.below bs nodeLimit ≠ [] := by
    rw [hall]
    exact mt List.reverse_eq_nil_iff.1 (mt h.eq_nil_iff.1 hsome)
  have hpaged := readBackward_paged htime hmaxPage hmin hmax hlineage hp hs hrow h resumeBelow_start
    (fun hnil => hbelow hnil.2) sizes 0
  simpa only [hall, Batch.totalSize_reverse, Nat.zero_add] using hpaged

/-- A backward read of a window with nothing to show says so, and one of a window that does not
decode complains of the same version as a forward one. -/
theorem readBackward_of_broken {s : State MemoryStore} (hs : s.Unarmed)
    (hrow : s.tables.Names bytes row) {e : Error}
    (h : s.tables.remaining p (.start min) = [] ∧ e = .notFound (.events min max p.branch) ∨
      Batch.decodeAll a.codec (min - 1) (s.tables.remaining p (.start min)) = .error e)
    (size : UInt64) : (a.readBackward ⟨bytes, min, max, size, []⟩).answer s = .error e := by
  have hordered : Lineage.Ordered p.spans := hp ▸ Plan.window_ordered hlineage min max
  have hd := htime.not_expired "read_history_branch_reverse"
  have hplan := plan_window hd hs hp hrow hmin hmax size []
  rcases h with ⟨hnil, rfl⟩ | herror
  · have hdecodes : Batch.Decodes a.codec (min - 1) (s.tables.remaining p (.start min)) []
        (min - 1) := hnil ▸ .nil
    obtain ⟨t, -, -, hread⟩ :=
      readBackward_eq htime hmaxPage hs hordered hplan resumeBelow_start hdecodes rfl
    rw [if_pos ⟨rfl, rfl⟩] at hread
    rw [Action.answer, hread]
  · rw [Action.answer,
      readBackward_of_error htime hmaxPage hs hordered hplan resumeBelow_start herror]

end Paging

/-- **Backward reads mirror forward reads.** Whatever is stored under a branch with a proper
lineage, for every window and with pages of any sizes on either side: if following the page tokens
of a forward read comes to an end, then so does following those of a backward read, and it gives the
same events in reverse, with as many bytes. They are the events of the batches that the window
decodes to, and every page of a backward read but the last has as many of these batches as its size
says. If following the page tokens of a forward read ends in an error, then every first page of a
backward read fails with that error. -/
theorem readBackward_mirrors (htime : a.InTime)
    (hmaxPage : a.config.maxPageSize.toNat + 1 < UInt64.size) {s : State MemoryStore}
    (hs : s.Unarmed) {bytes : Bytes} {row : BranchRow} (hrow : s.tables.Names bytes row)
    (hlineage : Lineage.check row.token.lineage = .ok ()) (min max : EventId)
    (sizes : Nat → UInt64) :
    let forward := fun size page => a.readEvents ⟨bytes, min, max, size, page⟩
    let backward := fun size page => a.readBackward ⟨bytes, min, max, size, page⟩
    (∀ pages t, Paged forward sizes 0 [] s pages t →
      ∃ bs stop, Batch.Decodes a.codec (min - 1) (s.tables.history (.window row.token min max)) bs
          stop ∧
        pages.flatMap (·.items) = bs.flatMap (·.events) ∧
        ∀ sizes' : Nat → UInt64, ∃ back u, Paged backward sizes' 0 [] s back u ∧
          back.flatMap (·.items) = (pages.flatMap (·.items)).reverse ∧
          Page.totalSize back = Page.totalSize pages ∧
          ∃ cuts : List (Page Batch), back = cuts.map (·.flatMap (·.events.reverse)) ∧
            cuts.flatMap (·.items) = bs.reverse ∧
            FullPages (fun i => (a.config.effectivePageSize (sizes' i)).toNat) cuts) ∧
    ∀ e, Breaks forward sizes 0 [] s e → ∀ size, (backward size []).answer s = .error e := by
  rw [Lineage.check_eq_ok_iff] at hlineage
  intro forward backward
  have hsizes : a.Countable sizes := by
    intro i
    have hle := (Config.effectivePageSize_bounds a.accepted (sizes i)).2
    exact Nat.lt_of_le_of_lt (Nat.succ_le_succ (UInt64.le_iff_toNat_le.1 hle)) hmaxPage
  by_cases hwindow : min < firstEvent ∨ max ≤ min
  · -- both reads refuse the window
    have hforward : ∀ size, forward size [] s = .error (.invalidArgument (.window min max)) s :=
      fun size => readEvents_of_window hwindow size [] s
    have hbackward : ∀ size, backward size [] s = .error (.invalidArgument (.window min max)) s :=
      fun size => readBackward_of_window hwindow size [] s
    constructor
    · intro pages t hpages
      obtain ⟨page, hpage⟩ := hpages.answer_ok
      rw [Action.answer, hforward] at hpage
      cases hpage
    · intro e hbreaks size
      cases hbreaks with
      | now hread =>
        rw [Action.answer, hforward] at hread
        rw [Action.answer, hbackward]
        exact hread
      | later hread =>
        rw [hforward] at hread
        cases hread
  · rw [not_or, Int64.not_lt, Int64.not_le] at hwindow
    obtain ⟨hmin, hmax⟩ := hwindow
    constructor
    · intro pages t hpages
      obtain ⟨hsome, bs, stop, hdecodes, hevents, hsize⟩ :=
        Paged.events htime hmin hmax hsizes hlineage rfl hs hrow hpages
      refine ⟨bs, stop, Tables.remaining_start hmin ▸ hdecodes, hevents, fun sizes' => ?_⟩
      obtain ⟨cuts, u, hback, hitems, hsize', hfull⟩ := readBackward_reverse htime hmaxPage hmin
        hmax hlineage rfl hs hrow hdecodes hsome sizes'
      refine ⟨_, u, hback, ?_, ?_, cuts, rfl, hitems, hfull⟩
      · rw [Page.flatMap_items, hitems, hevents]
        exact (List.reverse_flatMap ..).symm
      · rw [Page.totalSize_flatMap, hsize', hsize]
    · intro e hbreaks size
      have hbroken := Breaks.events htime hmin hmax hsizes hlineage rfl hs hrow hbreaks
      exact readBackward_of_broken htime hmaxPage hmin hmax hlineage rfl hs hrow hbroken size

/-- Two batches are read backwards, one a page. A window that starts inside the first one is not
read. -/
theorem readBackward_mirrors_batched :
    let backward := fun min size page =>
      Sample.archive.readBackward ⟨Forked.bytes Sample.root, min, nodeLimit, size, page⟩
    (∃ back u, Paged (backward 1) (fun _ => 1) 0 [] Sample.batched back u ∧
      back.flatMap (·.items) = [Sample.event 3, Sample.event 2, Sample.event 1] ∧
      Page.totalSize back = 112) ∧
    ∀ size, (backward 2 size []).answer Sample.batched = .error (.dataLoss (.gap 2 3)) := by
  intro backward
  have hmirrors := fun min => readBackward_mirrors (a := Sample.archive) (by decide) (by decide)
    Sample.batched_reaches.unarmed Sample.batched_names rfl min nodeLimit fun _ => 1
  constructor
  · obtain ⟨pages, t, hpages, hitems⟩ := Sample.batched_paged "read_history_branch"
    obtain ⟨_, _, -, -, hback⟩ := (hmirrors 1).1 _ t hpages.flatMap
    obtain ⟨back, u, hback, hevents, hsize, -⟩ := hback fun _ => 1
    rw [Page.flatMap_items, hitems] at hevents
    rw [Page.totalSize_flatMap, hpages.totalSize, hitems] at hsize
    exact ⟨back, u, hback, hevents, hsize⟩
  · exact (hmirrors 2).2 _ (.now (by decide +kernel))

end Archive

end Chronicle
