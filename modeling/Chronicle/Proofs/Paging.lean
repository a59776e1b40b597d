import Chronicle.Archive.Reading
import Chronicle.Proofs.Walk
import Chronicle.Wire.RoundTrip

/-!
# Reading page by page

What a read has left to show from a cursor on is `Tables.remaining`. A page is the first versions of
it, and the cursor of the page leaves the others.

* `page_eq`: one page. `Cursor.Fits` is what every cursor on the way satisfies.
* `Paged`: following page tokens until there is none, with a page size for every page.
* `readRaw_paged`: page after page, whatever their sizes, a raw read gives the history of the
  window.
-/
namespace Chronicle

open Version (ReadOrder)
open Archive (State)

namespace Tables

/-- What a read of the plan has left to show from a cursor on. -/
def remaining (ts : Tables) (p : Plan) (c : Cursor) : List Version :=
  Selection.current c.transaction (ts.behind p.tree p.spans c.node)

theorem remaining_start {ts : Tables} {t : Token} {min max : NodeId} (hmin : firstEvent ≤ min) :
    ts.remaining (.window t min max) (.start min) = ts.history (.window t min max) := by
  apply congrArg (Selection.current noTransaction)
  apply List.filter_eq_self.2
  intro v hv
  obtain ⟨-, hv, -⟩ := covers_window_iff.1 (mem_along_iff.1 hv)
  have hpos : (0 : NodeId) < firstEvent := by decide
  exact decide_eq_true (Int64.lt_of_lt_of_le hpos (Int64.le_trans hmin hv))

end Tables

namespace Cursor

/-- The cursor points into the spans or behind the last, and what is stored along the spans it
counts as done with does not lie behind it. -/
structure Fits (c : Cursor) (ts : Tables) (p : Plan) : Prop where
  span_le : c.span.toNat ≤ p.spans.length
  passed : ∀ v ∈ ts.along p.tree (p.spans.take c.span.toNat), v.node ≤ c.node

theorem fits_start (ts : Tables) (p : Plan) (min : EventId) : (start min).Fits ts p :=
  ⟨Nat.zero_le _, fun _ hv => absurd hv List.not_mem_nil⟩

theorem resume_start (min : EventId) (spans : Nat) : resume [] min spans = .ok (start min) := rfl

theorem start_event_ne {min : EventId} (hmin : firstEvent ≤ min) :
    (start min).event ≠ Int64.maxValue := by
  intro heq
  have hleast : min = Int64.minValue := by
    rw [← Int64.sub_add_cancel min 1, show min - 1 = Int64.maxValue from heq]
    decide
  exact absurd (hleast ▸ hmin) (by decide)

theorem Fits.behind_drop {c : Cursor} {ts : Tables} {p : Plan} (h : c.Fits ts p) :
    ts.behind p.tree (p.spans.drop c.span.toNat) c.node = ts.behind p.tree p.spans c.node := by
  have hnone : ts.behind p.tree (p.spans.take c.span.toNat) c.node = [] := by
    apply List.filter_eq_nil_iff.2
    intro v hv
    rw [decide_eq_true_eq, Int64.not_lt]
    exact h.passed v hv
  have hsplit := List.take_append_drop c.span.toNat p.spans
  conv => rhs; rw [← hsplit]
  unfold Tables.behind at hnone ⊢
  rw [Tables.along_append, List.filter_append, hnone, List.nil_append]

theorem reads_cursor (c : Cursor) : Wire.Reads read c.write c := by
  unfold write
  rw [List.append_assoc, List.append_assoc]
  exact (Wire.reads_uint32 _).bind ((Wire.reads_int64 _).bind ((Wire.reads_int64 _).bind
    ((Wire.reads_int64 _).bind_pure rfl)))

theorem write_ne_nil (c : Cursor) : c.write ≠ [] := by
  intro h
  have := congrArg List.length h
  simp [write, Wire.writeUInt32, Wire.writeInt64, Wire.writeUInt64] at this

theorem Fits.resume_write {c : Cursor} {ts : Tables} {p : Plan} (h : c.Fits ts p) (min : EventId) :
    resume c.write min p.spans.length = .ok c := by
  have hfirst := c.reads_cursor.first []
  rw [List.append_nil] at hfirst
  unfold resume
  rw [if_neg (by simpa using c.write_ne_nil), hfirst]
  exact if_neg (Nat.not_lt.2 h.span_le)

end Cursor

namespace Selection

section Next

variable {ts : Tables} {p : Plan} {c : Cursor} {k : Nat} (hpos : 0 < k)
  (hfull : (fill k [] c (ts.behind p.tree p.spans c.node)).full = true)

include hpos hfull

/-- Behind a full page the versions are left that are not on it. -/
theorem remaining_close (hp : Lineage.Ordered p.spans) (j : Nat) :
    ts.remaining p ((fill k [] c (ts.behind p.tree p.spans c.node)).close c j).cursor =
      (ts.remaining p c).drop k := by
  obtain ⟨v, hv, hlast, hposition⟩ := exists_of_full hpos hfull
  obtain ⟨-, hbehind⟩ := Tables.mem_behind_iff.1 hv
  obtain ⟨hnode, htransaction⟩ := Position.mk.inj hposition
  show current (fill k [] c (ts.behind p.tree p.spans c.node)).cursor.transaction
    (ts.behind p.tree p.spans (fill k [] c (ts.behind p.tree p.spans c.node)).cursor.node) = _
  rw [hnode, htransaction, ← Tables.behind_behind _ _ _ hbehind]
  exact current_drop (Tables.behind_readOrder _ _ hp _) hlast

/-- The cursor behind a full page fits, if the spans that were passed lie before its last version.
-/
theorem fits_close (hc : c.Fits ts p) {j : Nat} (hj : j ≤ p.spans.length - c.span.toNat)
    (hpassed : ∀ v ∈ ts.along p.tree ((p.spans.drop c.span.toNat).take j),
      v.node ≤ (fill k [] c (ts.behind p.tree p.spans c.node)).cursor.node) :
    ((fill k [] c (ts.behind p.tree p.spans c.node)).close c j).cursor.Fits ts p := by
  generalize hq : fill k [] c (ts.behind p.tree p.spans c.node) = q at hfull hpassed
  have hspan : (q.close c j).cursor.span.toNat ≤ c.span.toNat + j := by
    simp only [Progress.close, UInt32.toNat_add, UInt32.toNat_ofNat']
    have := Nat.mod_le (c.span.toNat + j % 2 ^ 32) (2 ^ 32)
    have := Nat.mod_le j (2 ^ 32)
    omega
  have hbound := hc.span_le
  refine ⟨by omega, ?_⟩
  intro w hw
  obtain ⟨u, hu, hstored⟩ := Tables.mem_along_iff.1 hw
  have hu := List.take_subset_take_left _ hspan hu
  rw [List.take_add, List.mem_append] at hu
  rcases hu with hu | hu
  · -- what was passed before lies before the old cursor, and that before the new one
    obtain ⟨v, hv, -, hposition⟩ := exists_of_full hpos (hq ▸ hfull)
    rw [hq] at hposition
    have hbehind := (Tables.mem_behind_iff.1 hv).2
    have hold := hc.passed w (Tables.mem_along_iff.2 ⟨u, hu, hstored⟩)
    exact Int64.le_of_lt ((Position.mk.inj hposition).1 ▸ Int64.lt_of_le_of_lt hold hbehind)
  · exact hpassed w (Tables.mem_along_iff.2 ⟨u, hu, hstored⟩)

end Next

section Page

variable {d : Deadline} {s : State MemoryStore} (hd : d.expired = false) (hs : s.Unarmed)
  {k : UInt64} (hk : k.toNat + 1 < UInt64.size) (hpos : 0 < k.toNat)

include hd hs hk hpos in
/-- **A page.** It has the first versions of what is left, and is the last page exactly if that is
less than its size. Its cursor is at the last version that was taken, and leaves the others if the
page is full. The last event is not looked at. -/
theorem page_eq {p : Plan} (hp : Lineage.Ordered p.spans) {c : Cursor} (hc : c.Fits s.tables p) :
    ∃ c' : Cursor, c'.event = c.event ∧
      c'.node = (c.takeAll ((s.tables.remaining p c).take k.toNat)).node ∧
      page d p c k s = .ok ⟨(s.tables.remaining p c).take k.toNat, c',
        decide ((s.tables.remaining p c).length < k.toNat)⟩ s ∧
      (k.toNat ≤ (s.tables.remaining p c).length → c'.Fits s.tables p ∧
        s.tables.remaining p c' = (s.tables.remaining p c).drop k.toNat) := by
  have htaken : ([] : List Version).length < k.toNat := hpos
  obtain ⟨j, hj, heq, hpassed⟩ :=
    walk_eq hd hs hk p (hp.sublist (List.drop_sublist c.span.toNat _)) htaken c
  rw [hc.behind_drop] at heq hpassed
  rw [List.length_drop] at hj
  refine ⟨((fill k.toNat [] c (s.tables.behind p.tree p.spans c.node)).close c j).cursor,
    Cursor.takeAll_event .., rfl, ?_, ?_⟩
  · rw [page_of_lt hk, heq]
    simp only [Progress.close, fill, Tables.remaining, List.nil_append, List.length_nil,
      Nat.sub_zero, Nat.zero_add, ← Nat.not_le, decide_not]
  · intro hlength
    have hfull : (fill k.toNat [] c (s.tables.behind p.tree p.spans c.node)).full = true := by
      rw [fill_full_iff, List.length_nil, Nat.zero_add]
      exact hlength
    exact ⟨fits_close hpos hfull hc hj (hpassed hfull), remaining_close hpos hfull hp j⟩

end Page

end Selection

namespace Tables

/-- The bytes are a token of the branch that has the row. -/
def Names (ts : Tables) (bytes : Bytes) (row : BranchRow) : Prop :=
  ∃ t, Token.decode bytes = .ok t ∧ ts.row? t.tree t.branch = some row

end Tables

namespace Archive

theorem pageSize_pos {a : Archive} {size k : UInt64} (h : a.config.effectivePageSize size = k) :
    0 < k.toNat := by
  have hbound := (Config.effectivePageSize_bounds a.accepted size).1
  rwa [h, UInt64.lt_iff_toNat_lt, UInt64.toNat_zero] at hbound

theorem maxPageSize_pos (a : Archive) : 0 < a.config.maxPageSize.toNat := by
  obtain ⟨hsize, hle⟩ := Config.effectivePageSize_bounds a.accepted 0
  exact UInt64.lt_iff_toNat_lt.1 (UInt64.lt_of_lt_of_le hsize hle)

section Refused

variable {a : Archive} {bytes : Bytes} {min max : EventId} (h : min < firstEvent ∨ max ≤ min)
  (size : UInt64) (page : Bytes) (s : State MemoryStore)

include h

theorem plan_of_window {d : Deadline} :
    plan d ⟨bytes, min, max, size, page⟩ s = .error (.invalidArgument (.window min max)) s := by
  unfold plan
  simp only [if_pos h]
  rfl

theorem readRaw_of_window :
    a.readRaw ⟨bytes, min, max, size, page⟩ s = .error (.invalidArgument (.window min max)) s :=
  Action.bind_of_error (Action.bind_of_error (plan_of_window h size page s))

end Refused

section Read

variable {d : Deadline} {s : State MemoryStore} (hd : d.expired = false) (hs : s.Unarmed)

include hd hs in
theorem requireRow_eq {t : Token} {row : BranchRow} (h : s.tables.row? t.tree t.branch = some row) :
    requireRow d t s = .ok row s := by
  have hask := Action.ask_question hd hs fun ts => ts.row? t.tree t.branch
  rw [h] at hask
  exact Action.bind_of_ok hask

/-- A request with a window and a token goes on to the row of the branch. -/
theorem plan_of_decode {req : ReadRequest} {t : Token} (ht : Token.decode req.token = .ok t)
    (hmin : firstEvent ≤ req.min) (hmax : req.min < req.max) :
    (plan d req : Action MemoryStore _) s =
      (requireRow d t >>= fun row => pure (.window row.token req.min req.max)) s := by
  have hwindow : ¬ (req.min < firstEvent ∨ req.max ≤ req.min) := by
    rw [not_or, Int64.not_lt, Int64.not_le]
    exact ⟨hmin, hmax⟩
  unfold plan
  simp only [if_neg hwindow]
  exact Action.bind_of_ok (Action.lift_of_ok (decodeToken_eq_ok_iff.2 ht) s)

include hd hs in
theorem plan_eq {req : ReadRequest} {row : BranchRow} (hrow : s.tables.Names req.token row)
    (hmin : firstEvent ≤ req.min) (hmax : req.min < req.max) :
    plan d req s = .ok (.window row.token req.min req.max) s := by
  obtain ⟨t, ht, hrow⟩ := hrow
  exact (plan_of_decode ht hmin hmax).trans (Action.bind_of_ok (requireRow_eq hd hs hrow))

include hd hs in
theorem plan_window {bytes : Bytes} {row : BranchRow} {min max : EventId} {p : Plan}
    (hp : Plan.window row.token min max = p) (hrow : s.tables.Names bytes row)
    (hmin : firstEvent ≤ min) (hmax : min < max) (size : UInt64) (token : Bytes) :
    plan d ⟨bytes, min, max, size, token⟩ s = .ok p s :=
  hp ▸ plan_eq hd hs hrow hmin hmax

/-- What is selected for a request is what is on the page of its cursor, if that is anything. -/
theorem selectPage_of_page {a : Archive} {req : ReadRequest} {p : Plan} {c : Cursor}
    {sel : Selection} (hplan : plan d req s = .ok p s)
    (hresume : Cursor.resume req.page req.min p.spans.length = .ok c)
    (hpage : Selection.page d p c (a.config.effectivePageSize req.pageSize) s = .ok sel s) :
    selectPage a d req s =
      if req.page = [] ∧ sel.versions = [] then
        .error (.notFound (.events req.min req.max p.branch)) s
      else .ok sel s := by
  have hlift := Action.lift_of_ok hresume s
  unfold selectPage
  refine (Action.bind_of_ok hplan).trans ((Action.bind_of_ok hlift).trans ?_)
  refine (Action.bind_of_ok hpage).trans ?_
  simp only [Bool.and_eq_true, List.isEmpty_iff]
  split <;> rfl

section Page

variable {a : Archive} {bytes token : Bytes} {min max : EventId} {size : UInt64} {p : Plan}
  {c : Cursor} {k : UInt64}
  (hsize : a.config.effectivePageSize size = k) (hk : k.toNat + 1 < UInt64.size)
  (hp : Lineage.Ordered p.spans) (hfits : c.Fits s.tables p)
  (hresume : Cursor.resume token min p.spans.length = .ok c)

include hd hs hsize hk hp hfits hresume in
theorem selectPage_eq (hplan : plan d ⟨bytes, min, max, size, token⟩ s = .ok p s) :
    ∃ c' : Cursor, c'.event = c.event ∧
      selectPage a d ⟨bytes, min, max, size, token⟩ s =
        (if token = [] ∧ s.tables.remaining p c = [] then
          .error (.notFound (.events min max p.branch)) s
        else .ok ⟨(s.tables.remaining p c).take k.toNat, c',
          decide ((s.tables.remaining p c).length < k.toNat)⟩ s) ∧
      (k.toNat ≤ (s.tables.remaining p c).length → c'.Fits s.tables p ∧
        s.tables.remaining p c' = (s.tables.remaining p c).drop k.toNat) := by
  have hpos := pageSize_pos hsize
  obtain ⟨c', hevent, -, hpage, hnext⟩ := Selection.page_eq hd hs hk hpos hp hfits
  refine ⟨c', hevent, ?_, hnext⟩
  subst hsize
  refine (selectPage_of_page hplan hresume hpage).trans ?_
  simp only [List.take_eq_nil_iff, Nat.ne_of_gt hpos, false_or]

include hs hsize hk hp hfits hresume in
theorem readRaw_eq (htime : a.InTime)
    (hplan : plan (a.deadline "read_raw_history_branch") ⟨bytes, min, max, size, token⟩ s =
      .ok p s) :
    ∃ (c' : Cursor) (t : State MemoryStore), t.tables = s.tables ∧ t.Unarmed ∧
      readRaw a ⟨bytes, min, max, size, token⟩ s =
        (if token = [] ∧ s.tables.remaining p c = [] then
          .error (.notFound (.events min max p.branch)) s
        else .ok ⟨(s.tables.remaining p c).take k.toNat,
          if (s.tables.remaining p c).length < k.toNat then [] else c'.write,
          ((s.tables.remaining p c).take k.toNat).foldr (·.blob.length + ·) 0⟩ t) ∧
      (k.toNat ≤ (s.tables.remaining p c).length → c'.Fits s.tables p ∧
        s.tables.remaining p c' = (s.tables.remaining p c).drop k.toNat) := by
  obtain ⟨c', -, hselect, hnext⟩ :=
    selectPage_eq (htime.not_expired _) hs hsize hk hp hfits hresume hplan
  refine ⟨c', { s with counters :=
    s.counters.countRead ((s.tables.remaining p c).take k.toNat).length }, rfl, hs, ?_, hnext⟩
  unfold readRaw
  split at hselect
  · next h =>
    rw [if_pos h]
    exact Action.bind_of_error hselect
  · next h =>
    rw [if_neg h]
    refine (Action.bind_of_ok hselect).trans ?_
    simp only [nextPage, decide_eq_true_eq]
    rfl

end Page

end Read

/-! ## Page after page -/

/-- Following page tokens from `token` on, with `sizes i` as the size of the next page, until a page
has no token. -/
inductive Paged {σ α : Type} (read : UInt64 → Bytes → Action σ (Page α)) (sizes : Nat → UInt64) :
    Nat → Bytes → State σ → List (Page α) → State σ → Prop
  | last {i : Nat} {token : Bytes} {s t : State σ} {page : Page α}
      (h : read (sizes i) token s = .ok page t) (hnext : page.next = []) :
      Paged read sizes i token s [page] t
  | more {i : Nat} {token : Bytes} {s t u : State σ} {page : Page α} {pages : List (Page α)}
      (h : read (sizes i) token s = .ok page t) (hnext : page.next ≠ [])
      (hrest : Paged read sizes (i + 1) page.next t pages u) :
      Paged read sizes i token s (page :: pages) u

/-- Every page but the last has as many items as its size says. -/
def FullPages {α : Type} (size : Nat → Nat) (pages : List (Page α)) : Prop :=
  ∀ i page, pages.dropLast[i]? = some page → page.items.length = size i

theorem fullPages_singleton {α : Type} (size : Nat → Nat) (page : Page α) :
    FullPages size [page] := by
  intro i p h
  simp at h

theorem fullPages_cons {α : Type} {size : Nat → Nat} {page : Page α} {pages : List (Page α)}
    (h : page.items.length = size 0) (hrest : FullPages (fun i => size (i + 1)) pages) :
    FullPages size (page :: pages) := by
  intro i p hp
  cases pages with
  | nil => simp at hp
  | cons q qs =>
    cases i with
    | zero =>
      simp at hp
      exact hp ▸ h
    | succ i => exact hrest i p (by simpa using hp)

section Raw

variable {a : Archive} (htime : a.InTime) {bytes : Bytes} {row : BranchRow} {min max : EventId}
  (hmin : firstEvent ≤ min) (hmax : min < max) {sizes : Nat → UInt64}
  (hsizes : ∀ i, (a.config.effectivePageSize (sizes i)).toNat + 1 < UInt64.size)
  (hlineage : Lineage.Follows firstEvent row.token.lineage)

include htime hmin hmax hsizes hlineage in
/-- From a cursor on, page after page a raw read gives what is left. -/
theorem readRaw_paged_from {p : Plan} (hp : Plan.window row.token min max = p)
    {s : State MemoryStore} (hs : s.Unarmed) (hrow : s.tables.Names bytes row) {page : Bytes}
    {c : Cursor} (hfits : c.Fits s.tables p)
    (hresume : Cursor.resume page min p.spans.length = .ok c)
    (hsome : ¬ (page = [] ∧ s.tables.remaining p c = [])) (i : Nat) :
    ∃ pages t,
      Paged (fun size page => a.readRaw ⟨bytes, min, max, size, page⟩) sizes i page s pages t ∧
        pages.flatMap (·.items) = s.tables.remaining p c ∧
        FullPages (fun j => (a.config.effectivePageSize (sizes (i + j))).toNat) pages := by
  induction hn : (s.tables.remaining p c).length using Nat.strongRecOn
    generalizing s page c i with
  | _ n ih =>
  have hordered : Lineage.Ordered p.spans := hp ▸ Plan.window_ordered hlineage min max
  have hd := htime.not_expired "read_raw_history_branch"
  have hplan := plan_window hd hs hp hrow hmin hmax (sizes i) page
  generalize hk : a.config.effectivePageSize (sizes i) = k
  have hpos := pageSize_pos hk
  obtain ⟨c', t, htables, ht, hread, hnext⟩ :=
    readRaw_eq hs hk (hk ▸ hsizes i) hordered hfits hresume htime hplan
  rw [if_neg hsome] at hread
  by_cases hlast : (s.tables.remaining p c).length < k.toNat
  · rw [if_pos hlast] at hread
    refine ⟨_, t, .last hread rfl, ?_, fullPages_singleton _ _⟩
    rw [List.flatMap_singleton, List.take_of_length_le (Nat.le_of_lt hlast)]
  · rw [if_neg hlast] at hread
    obtain ⟨hfits', hremaining⟩ := hnext (Nat.not_lt.1 hlast)
    rw [← htables] at hfits' hrow hremaining
    obtain ⟨pages, u, hpages, hitems, hfull⟩ := ih _ (by
      rw [hremaining, List.length_drop, htables]; omega) ht hrow hfits' (hfits'.resume_write min)
      (fun h => c'.write_ne_nil h.1) (i + 1) rfl
    refine ⟨_, u, .more hread c'.write_ne_nil hpages, ?_, fullPages_cons ?_ ?_⟩
    · rw [List.flatMap_cons, hitems, hremaining, htables, List.take_append_drop]
    · rw [List.length_take, Nat.min_eq_left (Nat.not_lt.1 hlast)]
      exact congrArg UInt64.toNat hk.symm
    · simp only [Nat.add_right_comm i 1, Nat.add_assoc] at hfull ⊢
      exact hfull

include htime hmin hmax hsizes hlineage in
/-- Page after page a raw read gives the history of the window. -/
theorem readRaw_paged {s : State MemoryStore} (hs : s.Unarmed) (hrow : s.tables.Names bytes row)
    (hsome : s.tables.history (.window row.token min max) ≠ []) :
    ∃ pages t,
      Paged (fun size page => a.readRaw ⟨bytes, min, max, size, page⟩) sizes 0 [] s pages t ∧
        pages.flatMap (·.items) = s.tables.history (.window row.token min max) ∧
        FullPages (fun j => (a.config.effectivePageSize (sizes j)).toNat) pages := by
  have h := readRaw_paged_from htime hmin hmax hsizes hlineage rfl hs hrow
    (Cursor.fits_start _ _ min) (Cursor.resume_start ..)
    (fun h => hsome (Tables.remaining_start hmin ▸ h.2)) 0
  simpa only [Tables.remaining_start hmin, Nat.zero_add] using h

include htime hmin hmax hlineage in
/-- There are no events exactly if the history of the window is empty. -/
theorem readRaw_notFound_iff {size : UInt64}
    (hsize : (a.config.effectivePageSize size).toNat + 1 < UInt64.size) {s : State MemoryStore}
    (hs : s.Unarmed) (hrow : s.tables.Names bytes row) :
    (a.readRaw ⟨bytes, min, max, size, []⟩).answer s =
        .error (.notFound (.events min max row.branch)) ↔
      s.tables.history (.window row.token min max) = [] := by
  have hd := htime.not_expired "read_raw_history_branch"
  have hplan := plan_window hd hs rfl hrow hmin hmax size []
  have hfits := Cursor.fits_start s.tables (.window row.token min max) min
  generalize hk : a.config.effectivePageSize size = k at hsize
  obtain ⟨c', t, -, -, hread, -⟩ := readRaw_eq hs hk hsize (Plan.window_ordered hlineage min max)
    hfits (Cursor.resume_start ..) htime hplan
  rw [Tables.remaining_start hmin] at hread
  unfold Action.answer
  rw [hread]
  by_cases h : s.tables.history (.window row.token min max) = []
  · rw [if_pos ⟨rfl, h⟩]
    exact iff_of_true rfl h
  · rw [if_neg fun h' => h h'.2]
    exact iff_of_false nofun h

end Raw

/-- **Paged reading is selection by transaction.** Whatever is stored under a branch with a proper
lineage, following the page tokens of a raw read comes to an end, fills every page but the last, and
gives in ascending order of nodes exactly the versions that no version at their node or before
exceeds in the window. There are no events exactly if there is no such version. -/
theorem readRaw_shows {a : Archive} (htime : a.InTime) {s : State MemoryStore} (hs : s.Unarmed)
    {bytes : Bytes} {row : BranchRow} (hrow : s.tables.Names bytes row)
    (hlineage : Lineage.check row.token.lineage = .ok ()) {min max : EventId}
    (hmin : firstEvent ≤ min) (hmax : min < max) {sizes : Nat → UInt64}
    (hsizes : ∀ i, (a.config.effectivePageSize (sizes i)).toNat + 1 < UInt64.size) :
    ((a.readRaw ⟨bytes, min, max, sizes 0, []⟩).answer s =
        .error (.notFound (.events min max row.branch)) ↔
      ∀ v, ¬ s.tables.Shows row.token min max v) ∧
    ((∃ v, s.tables.Shows row.token min max v) → ∃ pages t,
      Paged (fun size page => a.readRaw ⟨bytes, min, max, size, page⟩) sizes 0 [] s pages t ∧
        FullPages (fun i => (a.config.effectivePageSize (sizes i)).toNat) pages ∧
        (pages.flatMap (·.items)).Pairwise (fun v w => v.node < w.node) ∧
        ∀ v, v ∈ pages.flatMap (·.items) ↔ s.tables.Shows row.token min max v) := by
  rw [Lineage.check_eq_ok_iff] at hlineage
  have hmem : ∀ v, v ∈ s.tables.history (.window row.token min max) ↔
      s.tables.Shows row.token min max v := fun _ => Tables.mem_history_iff hlineage
  constructor
  · rw [readRaw_notFound_iff htime hmin hmax hlineage (hsizes 0) hs hrow,
      List.eq_nil_iff_forall_not_mem]
    simp only [hmem]
  · intro hsome
    obtain ⟨v, hv⟩ := hsome
    obtain ⟨pages, t, hpages, hitems, hfull⟩ := readRaw_paged htime hmin hmax hsizes hlineage hs
      hrow (List.ne_nil_of_mem ((hmem v).2 hv))
    refine ⟨pages, t, hpages, hfull, ?_, ?_⟩
    · rw [hitems]
      exact Tables.history_ascending hlineage min max
    · rw [hitems]
      exact hmem

theorem readRaw_shows_fork :
    let s : State MemoryStore := .fresh ⟨Forked.tables, none⟩
    let read := fun size page => (timed none).readRaw ⟨Forked.bytes Forked.fork, 1, 5, size, page⟩
    ∃ pages t, Paged read (fun _ => 1) 0 [] s pages t ∧ FullPages (fun _ => 1) pages ∧
      (pages.flatMap (·.items)).Pairwise (fun v w => v.node < w.node) ∧
      ∀ v, v ∈ pages.flatMap (·.items) ↔ Forked.tables.Shows Forked.fork 1 5 v := by
  have hnames : Forked.tables.Names (Forked.bytes Forked.fork) (Forked.row Forked.fork) :=
    ⟨Forked.fork, rfl, by decide +kernel⟩
  have hsize : ((timed none).config.effectivePageSize 1).toNat + 1 < UInt64.size := by decide
  have hsizes : ∀ i, ((timed none).config.effectivePageSize ((fun _ : Nat => 1) i)).toNat + 1 <
      UInt64.size := fun _ => hsize
  have hshown : Forked.tables.Shows Forked.fork 1 5 ⟨2, 9, 5, [4]⟩ :=
    (Tables.mem_history_iff (Lineage.check_eq_ok_iff.1 Forked.fork_lineage)).1 (by decide +kernel)
  have htime : (timed none).InTime := by decide
  have hs : (State.fresh ⟨Forked.tables, none⟩).Unarmed := ⟨rfl, rfl⟩
  exact (readRaw_shows htime hs hnames Forked.fork_lineage (by decide) (by decide) hsizes).2
    ⟨_, hshown⟩

/-- A time limit of zero is accepted, and then nothing is read. -/
theorem no_pages_without_time :
    let s : State MemoryStore := .fresh ⟨Forked.tables, none⟩
    let read := fun size page =>
      (timed (some 0)).readRaw ⟨Forked.bytes Forked.fork, 1, 5, size, page⟩
    Forked.tables.Names (Forked.bytes Forked.fork) (Forked.row Forked.fork) ∧
      Lineage.check Forked.fork.lineage = .ok () ∧
      Forked.tables.Shows Forked.fork 1 5 ⟨2, 9, 5, [4]⟩ ∧
      (read 1 []).answer s = .error (.timeout "read_raw_history_branch") ∧
      ¬ ∃ pages t, Paged read (fun _ => 1) 0 [] s pages t := by
  intro s read
  have hread : read 1 [] s = .error (.timeout "read_raw_history_branch") s := rfl
  refine ⟨⟨Forked.fork, rfl, by decide +kernel⟩, Forked.fork_lineage, ?_, ?_, ?_⟩
  · exact (Tables.mem_history_iff (Lineage.check_eq_ok_iff.1 Forked.fork_lineage)).1
      (by decide +kernel)
  · unfold Action.answer
    rw [hread]
  · intro hpaged
    obtain ⟨pages, t, hpages⟩ := hpaged
    cases hpages with
    | last h =>
      rw [hread] at h
      cases h
    | more h =>
      rw [hread] at h
      cases h

end Archive

end Chronicle
