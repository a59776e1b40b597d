import Chronicle.Archive.Listing
import Chronicle.Proofs.Appending
import Chronicle.Proofs.Lengths
import Chronicle.Proofs.Visits

/-!
# Listings succeed

A listing writes the token of every row that it shows. One token that cannot be written makes the
whole listing fail, for the other branches too. Tokens that the archive made were written before
they were stored; those that callers bring with a new branch only had to be read, and a token of any
length is read.

* `branches_answer`, `scan_answer`: a listing answers the rows, unless one of them cannot be
  written.
* `VisitsBy`: the states that certain operations lead to; `Operation.Modest`: a token that may
  become a row is not longer than what is written.
* `branches_listable`: the result, and `branch_blocks_listings`: a longer token blocks listings.
-/
namespace Chronicle

open Archive (State)

/-- The body of the token keeps within the limit of what is written. -/
def Token.Writable (t : Token) : Prop := t.writeBody.length ≤ Token.bodyLimit

instance (t : Token) : Decidable t.Writable :=
  inferInstanceAs (Decidable (t.writeBody.length ≤ Token.bodyLimit))

/-- An append that may create its branch names it by no token of more bytes than are written. -/
def Operation.Modest : Operation → Prop
  | append req _ => req.isNewBranch = true → ∀ q, Token.decode req.token = .ok q →
      req.token.length ≤ Token.bodyLimit + 1
  | newBranch .. => True
  | fork _ => True
  | remove _ => True

/-- Such an operation stores only tokens that can be written. -/
theorem Operation.Modest.stores {op : Operation} (h : op.Modest) : op.Stores Token.Writable := by
  cases op with
  | newBranch => trivial
  | append req payload =>
    intro hnew q hq
    have hlength := Token.length_of_decode hq
    have hmodest := h hnew q hq
    unfold Token.Writable
    omega
  | fork req =>
    intro source branch bytes _ token hbytes
    rw [Token.encode_eq] at hbytes
    split at hbytes
    · next hle => exact hle
    · cases hbytes
  | remove => trivial

/-! ## Answers -/

theorem mapM_eq_ite {ε α β : Type} {p : α → Prop} [DecidablePred p] {f : α → Except ε β} {g : α → β}
    {e : ε} (hf : ∀ a, f a = if p a then .ok (g a) else .error e) (as : List α) :
    as.mapM f = if ∀ a ∈ as, p a then .ok (as.map g) else .error e := by
  induction as with
  | nil => rfl
  | cons a as ih =>
    rw [List.mapM_cons, hf, ih]
    by_cases ha : p a
    · by_cases has : ∀ b ∈ as, p b
      · rw [if_pos ha, if_pos has, if_pos (List.forall_mem_cons.2 ⟨ha, has⟩)]
        rfl
      · rw [if_pos ha, if_neg has, if_neg fun h => has (List.forall_mem_cons.1 h).2]
        rfl
    · rw [if_neg ha, if_neg fun h => ha (List.forall_mem_cons.1 h).1]
      rfl

namespace Archive

variable {a : Archive} {s : State MemoryStore}

theorem encodeToken_eq (t : Token) : encodeToken t =
    if t.Writable then .ok (Token.formatVersion :: t.writeBody)
    else .error (.ofToken .oversized) := by
  rw [encodeToken, Token.encode_eq]
  by_cases h : t.writeBody.length ≤ Token.bodyLimit
  · rw [if_pos h, if_pos (show t.Writable from h)]
    rfl
  · rw [if_neg h, if_neg (show ¬ t.Writable from h)]
    rfl

theorem entry_eq (row : BranchRow) : entry row =
    if row.token.Writable then
      .ok ⟨row.tree, row.branch, Token.formatVersion :: row.token.writeBody, row.info, row.created⟩
    else .error (.ofToken .oversized) := by
  rw [entry, encodeToken_eq]
  split <;> rfl

theorem branches_answer (hs : s.Unarmed) (htime : a.InTime) (tree : TreeId) :
    (a.branches tree).answer s =
      if ∀ row ∈ s.tables.rowsOf tree, row.token.Writable then
        .ok ((s.tables.rowsOf tree).map fun row => Token.formatVersion :: row.token.writeBody)
      else .error (.ofToken .oversized) := by
  have hask := Action.ask_question (htime.not_expired "get_history_tree") hs
    fun ts => ts.rowsOf tree
  refine (Action.answer_bind_of_ok hask).trans ?_
  rw [Action.answer_lift]
  exact mapM_eq_ite (p := fun row : BranchRow => row.token.Writable)
    (g := fun row => Token.formatVersion :: row.token.writeBody)
    (fun row => encodeToken_eq row.token) _

theorem scan_answer (hs : s.Unarmed) (htime : a.InTime) (pageSize : UInt64) {page : Bytes}
    {after : Option (TreeId × BranchId)} (hpage : Listing.resume page = .ok after) :
    let size := a.config.effectivePageSize pageSize
    let rows := s.tables.scan after size
    (a.scan pageSize page).answer s =
      if ∀ row ∈ rows, row.token.Writable then
        .ok ⟨rows.map fun row =>
          ⟨row.tree, row.branch, Token.formatVersion :: row.token.writeBody, row.info, row.created⟩,
          Listing.nextPage rows size⟩
      else .error (.ofToken .oversized) := by
  intro size rows
  have hlift := Action.lift_of_ok hpage s
  have hask := Action.ask_question (htime.not_expired "get_all_history_tree_branches") hs
    fun ts => ts.scan after size
  refine (Action.answer_bind_of_ok hlift).trans ?_
  refine (Action.answer_bind_of_ok hask).trans ?_
  show (do
      let entries ← Action.lift (rows.mapM entry)
      return (⟨entries, Listing.nextPage rows size⟩ : Listing)).answer s = _
  rw [bind_pure_comp, Action.answer_map, Action.answer_lift, mapM_eq_ite entry_eq]
  split <;> rfl

/-- One token that cannot be written blocks the listing of its tree. -/
theorem branches_of_not_writable (hs : s.Unarmed) (htime : a.InTime) {tree : TreeId}
    {row : BranchRow} (hrow : row ∈ s.tables.rowsOf tree) (hwide : ¬ row.token.Writable) :
    (a.branches tree).answer s = .error (.ofToken .oversized) :=
  (branches_answer hs htime tree).trans (if_neg fun h => hwide (h row hrow))

/-- One token that cannot be written blocks every page that comes to its row. -/
theorem scan_of_not_writable (hs : s.Unarmed) (htime : a.InTime) {pageSize : UInt64} {page : Bytes}
    {after : Option (TreeId × BranchId)} (hpage : Listing.resume page = .ok after) {row : BranchRow}
    (hrow : row ∈ s.tables.scan after (a.config.effectivePageSize pageSize))
    (hwide : ¬ row.token.Writable) :
    (a.scan pageSize page).answer s = .error (.ofToken .oversized) :=
  (scan_answer hs htime pageSize hpage).trans (if_neg fun h => hwide (h row hrow))

theorem resume_writeKey (key : TreeId × BranchId) :
    Listing.resume (Listing.writeKey key) = .ok (some key) := by
  have hkey : Wire.Reads Listing.readKey (Listing.writeKey key) key :=
    (Wire.reads_id _).bind ((Wire.reads_id _).bind_pure rfl)
  have hfirst := hkey.first []
  have hkept : (Listing.writeKey key).isEmpty = false := rfl
  rw [List.append_nil] at hfirst
  rw [Listing.resume, hfirst, hkept]
  rfl

/-- The token of the next page is accepted, and if there is a next page, it starts after the last
row. -/
theorem resume_nextPage (rows : List BranchRow) (size : UInt64) :
    ∃ after, Listing.resume (Listing.nextPage rows size) = .ok after ∧
      ∀ key, after = some key →
        ∃ last, rows.getLast? = some last ∧ key = (last.tree, last.branch) := by
  unfold Listing.nextPage
  cases rows.getLast? with
  | none => exact ⟨none, rfl, fun key hkey => nomatch hkey⟩
  | some last =>
    dsimp only
    split
    · refine ⟨_, resume_writeKey _, fun key hkey => ?_⟩
      cases hkey
      exact ⟨last, rfl, rfl⟩
    · exact ⟨none, rfl, fun key hkey => nomatch hkey⟩

/-! ## States -/

/-- The states that calls of operations with the property `p` lead to, wherever a fault ends a call.
-/
inductive VisitsBy (a : Archive) (p : Operation → Prop) : State MemoryStore → Prop
  | start {s : State MemoryStore} (h : s.tables = .empty) : VisitsBy a p s
  /-- Whatever changes no table: reads, leases, an armed fault. -/
  | aside {s t : State MemoryStore} (h : VisitsBy a p s) (htables : t.tables = s.tables) :
      VisitsBy a p t
  | call {s : State MemoryStore} (h : VisitsBy a p s) (op : Operation) (hop : p op) :
      VisitsBy a p ((op.perform a).final s)

theorem VisitsBy.visits {p : Operation → Prop} (h : VisitsBy a p s) : Visits a s := by
  induction h with
  | start htables => exact .start htables
  | aside _ htables ih => exact .aside ih htables
  | call _ op _ ih => exact .call ih op

/-- Modest operations store only tokens that can be written. -/
theorem VisitsBy.writable (h : VisitsBy a Operation.Modest s) :
    s.tables.Carries Token.Writable := by
  induction h with
  | start htables => exact htables ▸ Tables.carries_empty
  | aside _ htables ih => exact htables ▸ ih
  | call _ op hop ih => exact (perform_carries a hop.stores).final ih

/-- Tokens that the archive answers are not longer than what is written. -/
theorem issued_length {ts us : Tables} {k j : Nat} {op : Operation} {ans : Answer}
    (h : Effect a ts k op ans us j) :
    ∀ bytes ∈ Answer.issued (.ok ans), bytes.length ≤ Token.bodyLimit + 1 := by
  have hencode : ∀ {t : Token} {bytes : Bytes}, t.encode = .ok bytes →
      ∀ other ∈ Answer.issued (.ok (.token bytes)), other.length ≤ Token.bodyLimit + 1 := by
    intro t bytes hbytes other hother
    rw [List.mem_singleton.1 hother]
    rw [Token.encode_eq] at hbytes
    split at hbytes
    · next hle =>
      cases hbytes
      exact Nat.succ_le_succ hle
    · cases hbytes
  cases h with
  | newBranch hbytes => exact hencode hbytes
  | forked _ _ _ hbytes => exact hencode hbytes
  | repeated => exact fun _ h => absurd h List.not_mem_nil
  | written => exact fun _ h => absurd h List.not_mem_nil
  | trimmed => exact fun _ h => absurd h List.not_mem_nil
  | deleted => exact fun _ h => absurd h List.not_mem_nil

/-- An operation that names its branch by an issued token is modest. -/
theorem modest_of_genuine {issued : List Bytes} {op : Operation} (h : op.Genuine issued)
    (hissued : ∀ bytes ∈ issued, bytes.length ≤ Token.bodyLimit + 1) : op.Modest := by
  cases op with
  | newBranch => trivial
  | append req payload =>
    intro _ q hq
    obtain ⟨bytes, hbytes, hdecode⟩ := h q (Operation.target?_of_decode rfl hq)
    rw [Token.length_of_decode hq, ← Token.length_of_decode hdecode]
    exact hissued bytes hbytes
  | fork => trivial
  | remove => trivial

/-- Runs keep to modest operations, and so do listings succeed in all their states. -/
theorem Reaches.visitsBy {issued : List Bytes} (h : Reaches a s issued) :
    VisitsBy a Operation.Modest s ∧ ∀ bytes ∈ issued, bytes.length ≤ Token.bodyLimit + 1 := by
  induction h with
  | start => exact ⟨.start rfl, fun _ h => absurd h List.not_mem_nil⟩
  | aside _ hstore _ _ ih => exact ⟨.aside ih.1 (congrArg MemoryStore.tables hstore), ih.2⟩
  | call h op hop ih =>
    refine ⟨.call ih.1 op (modest_of_genuine hop ih.2), fun bytes hbytes => ?_⟩
    rcases List.mem_append.1 hbytes with hold | hnew
    · exact ih.2 bytes hold
    · rcases (perform_outcome op h.unarmed).2 with ⟨ans, hans, heffect⟩ | ⟨e, he, -⟩
      · rw [hans] at hnew
        exact issued_length heffect bytes hnew
      · rw [he] at hnew
        cases hnew

/-- The rows of such a state are listed in tokens that are read back as theirs. -/
theorem VisitsBy.decode (h : VisitsBy a Operation.Modest s) {t : TreeId} {b : BranchId}
    {row : BranchRow} (hrow : s.tables.row? t b = some row) :
    Token.decode (Token.formatVersion :: row.token.writeBody) = .ok row.token :=
  Token.decode_written (Nat.lt_of_le_of_lt (h.writable t b row hrow) (by decide))
    (h.visits.proper t b row hrow)

/-- **Listings.** As long as no append that may create its branch names it by a token of more bytes
than are ever written, the branches of every tree and every page of all branches are listed. What is
listed are the rows of the store, each with a token that is read as the token of the row; and the
token of the next page is accepted and goes on after the last entry. -/
theorem branches_listable (h : VisitsBy a Operation.Modest s) (hs : s.Unarmed) (htime : a.InTime) :
    (∀ tree, ∃ tokens, (a.branches tree).answer s = .ok tokens ∧
      tokens.map Token.decode = (s.tables.rowsOf tree).map fun row => .ok row.token) ∧
    ∀ pageSize page after, Listing.resume page = .ok after →
      ∃ l : Listing, (a.scan pageSize page).answer s = .ok l ∧
        (l.entries.map fun e => (e.tree, e.branch, Token.decode e.token, e.info, e.created)) =
          (s.tables.scan after (a.config.effectivePageSize pageSize)).map
            (fun row => (row.tree, row.branch, .ok row.token, row.info, row.created)) ∧
        ∃ next, Listing.resume l.next = .ok next ∧ ∀ key, next = some key →
          ∃ e, l.entries.getLast? = some e ∧ key = (e.tree, e.branch) := by
  constructor
  · intro tree
    have hrow : ∀ row ∈ s.tables.rowsOf tree, ∃ b, s.tables.row? tree b = some row := fun _ =>
      Tables.mem_rowsOf_iff.1
    refine ⟨_, (branches_answer hs htime tree).trans (if_pos fun row hmem => ?_), ?_⟩
    · obtain ⟨b, hb⟩ := hrow row hmem
      exact h.writable tree b row hb
    · rw [List.map_map]
      refine List.map_congr_left fun row hmem => ?_
      obtain ⟨b, hb⟩ := hrow row hmem
      have hdecode := h.decode hb
      simp only [Function.comp_apply, hdecode]
  · intro pageSize page after hpage
    obtain ⟨next, hnext, hlast⟩ :=
      resume_nextPage (s.tables.scan after (a.config.effectivePageSize pageSize))
        (a.config.effectivePageSize pageSize)
    refine ⟨_, (scan_answer hs htime pageSize hpage).trans (if_pos fun row hmem => ?_), ?_,
      next, hnext, fun key hkey => ?_⟩
    · exact h.writable _ _ row (Tables.mem_scan hmem)
    · rw [List.map_map]
      refine List.map_congr_left fun row hmem => ?_
      have hdecode := h.decode (Tables.mem_scan hmem)
      simp only [Function.comp_apply, hdecode]
    · obtain ⟨last, hrow, hkey⟩ := hlast key hkey
      refine ⟨⟨last.tree, last.branch, Token.formatVersion :: last.token.writeBody, last.info,
        last.created⟩, ?_, hkey⟩
      rw [List.getLast?_map, hrow]
      rfl

/-- After a run the branch and its fork are listed together, and the fork on the page after the
branch. -/
theorem branches_listable_run :
    (∃ tokens, (Sample.archive.branches Sample.root.tree).answer Sample.state = .ok tokens ∧
      tokens.map Token.decode = [.ok Sample.root, .ok Sample.fork]) ∧
    ∃ l : Listing, (Sample.archive.scan 1
        (Listing.writeKey (Sample.root.tree, Sample.root.branch))).answer Sample.state = .ok l ∧
      (l.entries.map fun e => (e.tree, e.branch, Token.decode e.token, e.info, e.created)) =
        [(Sample.fork.tree, Sample.fork.branch, .ok Sample.fork, "", 0)] := by
  have hrows : Sample.state.tables.rowsOf Sample.root.tree =
      [Forked.row Sample.root, Forked.row Sample.fork] := by decide +kernel
  have hscan : Sample.state.tables.scan (some (Sample.root.tree, Sample.root.branch))
      (Sample.archive.config.effectivePageSize 1) = [Forked.row Sample.fork] := by decide +kernel
  obtain ⟨htree, hpages⟩ :=
    branches_listable Sample.reaches.visitsBy.1 Sample.reaches.unarmed (by decide)
  obtain ⟨tokens, htokens, hdecode⟩ := htree Sample.root.tree
  obtain ⟨l, hl, hentries, -⟩ := hpages 1 _ _ (resume_writeKey _)
  rw [hrows] at hdecode
  rw [hscan] at hentries
  exact ⟨⟨tokens, htokens, hdecode⟩, l, hl, hentries⟩

end Archive

namespace Sample

/-- A token with a namespace of as many bytes as the body of a token may have. -/
def wide : Token :=
  ⟨String.ofList (List.replicate Token.bodyLimit 'a'), "", "", ⟨1⟩, ⟨2⟩, [], .unset⟩

theorem length_wide : wide.writeBody.length = Token.bodyLimit + 83 := by
  have hchar : (String.utf8EncodeChar 'a').length = 1 := rfl
  have hnamespace : (Utf8.encode wide.namespaceId).length = Token.bodyLimit := by
    rw [wide, Utf8.encode, String.toList_ofList, List.length_flatMap, List.map_replicate, hchar,
      List.sum_replicate_nat, Nat.mul_one]
  simp only [Token.writeBody, List.length_append, Token.length_writeText, hnamespace]
  rfl

theorem decode_wide : Token.decode (Forked.bytes wide) = .ok wide :=
  Token.decode_written (by rw [length_wide]; decide) trivial

def vacant : State MemoryStore := { State.fresh .empty with leases }

def rowOfWide : BranchRow := ⟨wide, "", 0⟩

theorem rows_wide : (Tables.empty.written rowOfWide ⟨1, 5, 0, [0]⟩).rows = [rowOfWide] := rfl

theorem rowsOf_wide :
    (Tables.empty.written rowOfWide ⟨1, 5, 0, [0]⟩).rowsOf wide.tree = [rowOfWide] := rfl

end Sample

namespace Archive

/-- A branch with a longer token is accepted, and from then on the branches of its tree are not
listed, and neither is a page that comes to it. -/
theorem branch_blocks_listings :
    let op : Action MemoryStore Answer :=
      (Sample.write Sample.wide 1 5 0 [0]).perform Sample.archive
    let s := op.final Sample.vacant
    op.answer Sample.vacant = .ok (.receipt ⟨1, 1⟩) ∧ Visits Sample.archive s ∧ s.Unarmed ∧
      Sample.archive.InTime ∧
      (Sample.archive.branches Sample.wide.tree).answer s = .error (.ofToken .oversized) ∧
      (Sample.archive.scan 10 []).answer s = .error (.ofToken .oversized) := by
  intro op s
  have htime : Sample.archive.InTime := by decide
  have hlease : Sample.vacant.leases.current 1 = some 1 := by decide
  have hprepare : (Payload.raw 1 [0]).prepare Sample.archive.codec
      ⟨1, 1, Forked.bytes Sample.wide, 5, 0, true, ""⟩ = .ok (Sample.wide, ⟨1, 5, 0, [0]⟩) := by
    rw [Payload.prepare, decodeToken_eq_ok_iff.2 Sample.decode_wide]
    rfl
  have hprecedes : Tables.empty.Precedes Sample.wide 1 0 := by
    refine ⟨.inl rfl, Int64.le_refl _, fun v hv => ?_⟩
    obtain ⟨⟨span, -, -, hversion⟩, -⟩ := hv
    cases hversion
  have hwriter : Tables.empty.writer? Sample.wide true = some Sample.wide := rfl
  have hchecked : checkVersion Sample.archive.config.transactionSizeLimit ⟨1, 5, 0, [0]⟩ = .ok () :=
    rfl
  have haccepts : Sample.archive.Accepts (Sample.archive.deadline "append_raw_history_nodes") true
      .empty Sample.wide ⟨1, 5, 0, [0]⟩ :=
    ⟨hchecked, htime.not_expired _, Sample.wide, hwriter, by decide, hprecedes⟩
  have hwide : ¬ Sample.wide.Writable := by
    unfold Token.Writable
    rw [Sample.length_wide]
    decide
  have hstart : Sample.vacant.Unarmed := by decide
  have happend : op.answer Sample.vacant = .ok (.receipt ⟨1, 1⟩) ∧ s.Unarmed ∧
      s.tables = Tables.empty.written Sample.rowOfWide ⟨1, 5, 0, [0]⟩ := by
    refine append_of_accepts hstart ?_ hprepare haccepts
    exact hlease
  obtain ⟨hanswer, hs, htables⟩ := happend
  have hrow : Sample.rowOfWide ∈ s.tables.rowsOf Sample.wide.tree := by
    rw [htables, Sample.rowsOf_wide]
    exact List.mem_singleton_self _
  have hscan : Sample.rowOfWide ∈
      s.tables.scan none (Sample.archive.config.effectivePageSize 10) := by
    have hsize : Sample.archive.config.effectivePageSize 10 = 10 := by decide
    rw [hsize, htables, Tables.scan, Sample.rows_wide]
    exact List.mem_singleton_self _
  exact ⟨hanswer, .call (.start rfl) _, hs, htime, branches_of_not_writable hs htime hrow hwide,
    scan_of_not_writable hs htime rfl hscan hwide⟩

end Archive

end Chronicle
