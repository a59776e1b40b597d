import Chronicle.Proofs.Listings
import Chronicle.Proofs.Paging
import Chronicle.Storage.Flat
import Mathlib.Data.List.Nodup

/-!
# Scans while branches come and go

A scan asks for one page after the other, each with the token that the page before it brought. What
happens to the store in between is up to others: branches are created, forked and deleted, on either
side of the last listed key, and the row of that key itself may be gone.

* `Tables.mem_scan_or`: of the rows behind the cursor a page shows the first ones.
* `Listing.Shows`: what an answered page shows, and what it leaves to the page after it.
* `Archive.Scans`: pages asked for one after the other, in any states; `Scans.Left`: the keys that
  are still to come.
* `Scans.stable`: the result.
-/
namespace Chronicle

open Archive (State)

/-! ## Entries -/

/-- The entry of a row whose token can be written. -/
def BranchRow.listed (row : BranchRow) : BranchEntry :=
  ⟨row.tree, row.branch, Token.formatVersion :: row.token.writeBody, row.info, row.created⟩

def BranchEntry.key (e : BranchEntry) : RowKey := ⟨e.tree, e.branch⟩

/-! ## One page -/

namespace Listing

/-- The key is behind the start of a page that is asked for with the token. -/
def Behind (token : Bytes) (key : RowKey) : Prop :=
  ∀ c, resume token = .ok (some c) → (⟨c.1, c.2⟩ : RowKey) < key

theorem Behind.trans {token : Bytes} {k l : RowKey} (h : Behind token k) (hlt : k < l) :
    Behind token l := fun c hc => Std.lt_trans (h c hc) hlt

/-- What is behind the start of a page comes after what is not. -/
theorem Behind.after {token : Bytes} {k l : RowKey} (h : Behind token l) (hk : ¬ Behind token k) :
    k < l := by
  obtain ⟨c, hc⟩ := Classical.not_forall.1 hk
  obtain ⟨hresume, hbefore⟩ := Classical.not_imp.1 hc
  exact Std.lt_of_le_of_lt (Std.not_lt.1 hbefore) (h c hresume)

theorem writeKey_ne_nil (key : TreeId × BranchId) : writeKey key ≠ [] := by
  intro h
  have hkept : (writeKey key).isEmpty = false := rfl
  rw [h] at hkept
  cases hkept

theorem behind_writeKey_iff {key : TreeId × BranchId} {other : RowKey} :
    Behind (writeKey key) other ↔ (⟨key.1, key.2⟩ : RowKey) < other := by
  unfold Behind
  rw [Archive.resume_writeKey]
  simp

/-- A page that is not full brings no token, and a full one the key of its last row. -/
theorem nextPage_cases (rows : List BranchRow) (size : UInt64) (hsize : 0 < size.toNat) :
    rows.length ≠ size.toNat ∧ nextPage rows size = [] ∨
      ∃ last, rows.length = size.toNat ∧ rows.getLast? = some last ∧
        nextPage rows size = writeKey (last.tree, last.branch) := by
  unfold nextPage
  cases hlast : rows.getLast? with
  | none =>
    rw [List.getLast?_eq_none_iff] at hlast
    subst hlast
    exact .inl ⟨Nat.ne_of_lt hsize, rfl⟩
  | some last =>
    by_cases hfull : rows.length = size.toNat
    · exact .inr ⟨last, hfull, rfl, if_pos hfull⟩
    · exact .inl ⟨hfull, if_neg hfull⟩

theorem not_before_of_getLast? {rows : List BranchRow}
    (h : rows.Pairwise fun row other => row.key < other.key) {last row : BranchRow}
    (hlast : rows.getLast? = some last) (hrow : row ∈ rows) : ¬ last.key < row.key := by
  obtain ⟨before, rfl⟩ := List.getLast?_eq_some_iff.1 hlast
  rcases List.mem_append.1 hrow with hbefore | hlast
  · exact Std.not_gt_of_lt <|
      (List.pairwise_append.1 h).2.2 row hbefore last (List.mem_singleton_self _)
  · rw [List.mem_singleton.1 hlast]
    exact Std.lt_irrefl

end Listing

namespace Tables

variable {ts : Tables} {after : Option (TreeId × BranchId)} {limit : UInt64} {row : BranchRow}

def HasKey (ts : Tables) (key : RowKey) : Prop := ∃ row, ts.row? key.fst key.snd = some row

theorem hasKey_iff {key : RowKey} : ts.HasKey key ↔ ∃ row ∈ ts.rows, row.key = key := by
  constructor
  · rintro ⟨row, hrow⟩
    obtain ⟨htree, hbranch⟩ := row?_own hrow
    exact ⟨row, mem_rows_iff.2 (by rwa [htree, hbranch]), by rw [BranchRow.key, htree, hbranch]⟩
  · rintro ⟨row, hrow, rfl⟩
    exact ⟨row, mem_rows_iff.1 hrow⟩

theorem eq_of_key {other : BranchRow} (h : row ∈ ts.rows) (h' : other ∈ ts.rows)
    (hkey : row.key = other.key) : row = other := by
  have hrow := mem_rows_iff.1 h
  have hother := mem_rows_iff.1 h'
  obtain ⟨htree, hbranch⟩ := KeyPair.mk.inj hkey
  rw [htree, hbranch, hother] at hrow
  exact (Option.some.inj hrow).symm

/-- Whether the row is behind the cursor. -/
def isBehind (after : Option (TreeId × BranchId)) (row : BranchRow) : Bool :=
  after.all fun key => key.1 < row.tree || (row.tree = key.1 && key.2 < row.branch)

theorem scan_eq (ts : Tables) (after : Option (TreeId × BranchId)) (limit : UInt64) :
    ts.scan after limit = (ts.rows.filter (isBehind after)).take limit.toNat := rfl

theorem isBehind_iff :
    isBehind after row = true ↔ ∀ c, after = some c → (⟨c.1, c.2⟩ : RowKey) < row.key := by
  cases after with
  | none => exact iff_of_true rfl nofun
  | some key =>
    simp only [isBehind, Option.all_some, Bool.or_eq_true, Bool.and_eq_true, decide_eq_true_eq,
      Option.some.injEq, forall_eq', KeyPair.lt_def, BranchRow.key, eq_comm (a := row.tree)]

theorem scan_ascending (ts : Tables) (after : Option (TreeId × BranchId)) (limit : UInt64) :
    (ts.scan after limit).Pairwise fun row other => row.key < other.key :=
  ((rows_ascending ts).filter _).take

theorem after_of_mem_scan (h : row ∈ ts.scan after limit) {c : TreeId × BranchId}
    (hc : after = some c) : (⟨c.1, c.2⟩ : RowKey) < row.key :=
  isBehind_iff.1 (List.mem_filter.1 (List.mem_of_mem_take h)).2 c hc

/-- Of the rows behind the cursor a page shows the first ones, and all of them if it is not full. -/
theorem mem_scan_or (hrow : row ∈ ts.rows)
    (hafter : ∀ c, after = some c → (⟨c.1, c.2⟩ : RowKey) < row.key) :
    row ∈ ts.scan after limit ∨ (ts.scan after limit).length = limit.toNat ∧
      ∀ shown ∈ ts.scan after limit, shown.key < row.key := by
  have hascending := (rows_ascending ts).filter (isBehind after)
  have hmem := List.mem_filter.2 ⟨hrow, isBehind_iff.2 hafter⟩
  rw [scan_eq]
  generalize ts.rows.filter (isBehind after) = wanted at hascending hmem
  rw [← List.take_append_drop limit.toNat wanted] at hascending hmem
  rcases List.mem_append.1 hmem with hshown | hleft
  · exact .inl hshown
  · have hfull : limit.toNat < wanted.length := by
      have := List.length_pos_of_mem hleft
      rw [List.length_drop] at this
      omega
    refine .inr ⟨List.length_take_of_le (Nat.le_of_lt hfull), fun shown hshown => ?_⟩
    exact (List.pairwise_append.1 hascending).2.2 shown hshown row hleft

end Tables

/-- A page of the rows `rows`, asked for with the token: what it shows, and what is left for the
page after it. -/
structure Listing.Shows (ts : Tables) (token : Bytes) (rows : List BranchRow) (l : Listing) :
    Prop where
  entries : l.entries = rows.map (·.listed)
  ascending : rows.Pairwise fun row other => row.key < other.key
  stored : ∀ row ∈ rows, row ∈ ts.rows
  writable : ∀ row ∈ rows, row.token.Writable
  behind : ∀ row ∈ rows, Behind token row.key
  /-- If there is a page after this one, it starts behind the rows. -/
  passed : l.next ≠ [] → ∀ row ∈ rows, ¬ Behind l.next row.key
  /-- A row that is not shown yet is left to the page after this one. -/
  covers : ∀ row ∈ ts.rows, Behind token row.key →
    row ∈ rows ∨ l.next ≠ [] ∧ Behind l.next row.key
  progress : l.next ≠ [] → rows ≠ []
  resumes : ∃ after, resume l.next = .ok after

namespace Archive

variable {a : Archive} {s : State MemoryStore} {size : UInt64} {token : Bytes} {l : Listing}

theorem resume_of_scan (hl : (a.scan size token).answer s = .ok l) :
    ∃ after, Listing.resume token = .ok after := by
  obtain ⟨t, hrun⟩ := Action.ok_of_answer hl
  obtain ⟨after, u, hlift, -⟩ := Action.ok_of_bind hrun
  cases hresume : Listing.resume token with
  | ok after => exact ⟨after, rfl⟩
  | error e =>
    rw [hresume] at hlift
    cases hlift

theorem inTime_of_scan (hl : (a.scan size token).answer s = .ok l) : a.InTime := by
  obtain ⟨t, hrun⟩ := Action.ok_of_answer hl
  obtain ⟨after, u, -, hrest⟩ := Action.ok_of_bind hrun
  obtain ⟨rows, v, hask, -⟩ := Action.ok_of_bind hrest
  have hd : (a.deadline "get_all_history_tree_branches").expired = false := by
    rw [← Bool.not_eq_true]
    intro hexpired
    rw [Action.ask_of_expired hexpired] at hask
    cases hask
  exact .of_not_expired hd

/-- **A page.** -/
theorem scan_shows (hs : s.Unarmed) (hl : (a.scan size token).answer s = .ok l) :
    ∃ rows, l.Shows s.tables token rows := by
  obtain ⟨after, hafter⟩ := resume_of_scan hl
  have hbehind : ∀ key, Listing.Behind token key ↔
      ∀ c, after = some c → (⟨c.1, c.2⟩ : RowKey) < key := by
    intro key
    simp only [Listing.Behind, hafter, Except.ok.injEq]
  have hanswer := scan_answer hs (inTime_of_scan hl) size hafter
  have hpos : 0 < (a.config.effectivePageSize size).toNat := pageSize_pos rfl
  dsimp only at hanswer
  generalize a.config.effectivePageSize size = limit at hanswer hpos
  rw [hl] at hanswer
  split at hanswer
  next hwritable =>
    cases hanswer
    have hcases := Listing.nextPage_cases (s.tables.scan after limit) limit hpos
    refine ⟨s.tables.scan after limit, rfl, Tables.scan_ascending .., fun row hrow => ?_, hwritable,
      fun row hrow => ?_, fun hnext row hrow => ?_, fun row hrow hkey => ?_, fun hnext => ?_, ?_⟩
    · exact Tables.mem_rows_iff.2 (Tables.mem_scan hrow)
    · exact (hbehind _).2 fun c hc => Tables.after_of_mem_scan hrow hc
    · obtain ⟨-, hnone⟩ | ⟨last, -, hlast, htoken⟩ := hcases
      · exact absurd hnone hnext
      · dsimp only
        rw [htoken, Listing.behind_writeKey_iff]
        exact Listing.not_before_of_getLast? (Tables.scan_ascending ..) hlast hrow
    · have hshows : row ∈ s.tables.scan after limit ∨ _ :=
        Tables.mem_scan_or hrow ((hbehind _).1 hkey)
      rcases hshows with hshown | ⟨hfull, hlater⟩
      · exact .inl hshown
      · obtain ⟨hnotFull, -⟩ | ⟨last, -, hlast, htoken⟩ := hcases
        · exact absurd hfull hnotFull
        · dsimp only
          rw [htoken, Listing.behind_writeKey_iff]
          exact .inr ⟨Listing.writeKey_ne_nil _, hlater last (List.mem_of_getLast? hlast)⟩
    · intro hempty
      rw [hempty] at hnext
      exact hnext rfl
    · obtain ⟨next, hnext, -⟩ := resume_nextPage (s.tables.scan after limit) limit
      exact ⟨next, hnext⟩
  next => cases hanswer

end Archive

/-! ## Page after page -/

/-- A page, and the tables that it was asked of. -/
structure Scanned where
  tables : Tables
  page : Listing

namespace Archive

/-- Pages that are asked for one after the other, each with the token that the one before it
brought, and the token of the last one. The states in which they are asked for are any, only without
an armed fault. -/
inductive Scans (a : Archive) : List Scanned → Bytes → Prop
  | start : Scans a [] []
  | page {pages : List Scanned} {token : Bytes} (h : Scans a pages token)
      (hmore : pages = [] ∨ token ≠ []) {s : State MemoryStore} (hs : s.Unarmed) {size : UInt64}
      {l : Listing} (hl : (a.scan size token).answer s = .ok l) :
      Scans a (pages ++ [⟨s.tables, l⟩]) l.next

namespace Scans

def entries (pages : List Scanned) : List BranchEntry := pages.flatMap (·.page.entries)

def keys (pages : List Scanned) : List RowKey := (entries pages).map (·.key)

/-- A row under the key would be on a page that is still to come. -/
def Left (pages : List Scanned) (token : Bytes) (key : RowKey) : Prop :=
  (pages = [] ∨ token ≠ []) ∧ Listing.Behind token key

theorem entries_concat (pages : List Scanned) (p : Scanned) :
    entries (pages ++ [p]) = entries pages ++ p.page.entries := by
  simp [entries]

theorem keys_concat {pages : List Scanned} {ts : Tables} {l : Listing} {token : Bytes}
    {rows : List BranchRow} (h : l.Shows ts token rows) :
    keys (pages ++ [⟨ts, l⟩]) = keys pages ++ rows.map (·.key) := by
  rw [keys, entries_concat, List.map_append, h.entries, List.map_map]
  rfl

variable {a : Archive} {pages : List Scanned} {token : Bytes}

/-- What is true of a scan after every page. -/
structure Sound (pages : List Scanned) (token : Bytes) : Prop where
  ascending : (keys pages).Pairwise (· < ·)
  passed : ∀ key ∈ keys pages, ¬ Left pages token key
  covers : ∀ key, (∀ p ∈ pages, p.tables.HasKey key) → key ∈ keys pages ∨ Left pages token key
  stored : ∀ p ∈ pages, ∀ e ∈ p.page.entries,
    ∃ row ∈ p.tables.rows, row.token.Writable ∧ e = row.listed
  length : pages.length ≤ (keys pages).length + 1
  /-- Only the last page may be empty. -/
  progress : token ≠ [] → pages.length ≤ (keys pages).length
  resumes : ∃ after, Listing.resume token = .ok after

theorem Sound.start : Sound [] [] where
  ascending := .nil
  passed _ hkey := nomatch hkey
  covers _ _ := .inr ⟨.inl rfl, fun _ hc => nomatch hc⟩
  stored _ hp := nomatch hp
  length := Nat.zero_le _
  progress htoken := absurd rfl htoken
  resumes := ⟨none, rfl⟩

/-- **One more page.** -/
theorem Sound.page (h : Sound pages token) (hmore : pages = [] ∨ token ≠ []) {ts : Tables}
    {rows : List BranchRow} {l : Listing} (hl : l.Shows ts token rows) :
    Sound (pages ++ [⟨ts, l⟩]) l.next := by
  have hkeys : keys (pages ++ [⟨ts, l⟩]) = keys pages ++ rows.map (·.key) := keys_concat hl
  have hleft : ∀ key, Left (pages ++ [⟨ts, l⟩]) l.next key ↔
      l.next ≠ [] ∧ Listing.Behind l.next key := by
    intro key
    simp [Left]
  have hlater : ∀ key ∈ keys pages, ∀ row ∈ rows, key < row.key := by
    intro key hkey row hrow
    exact (hl.behind row hrow).after fun hbehind => h.passed key hkey ⟨hmore, hbehind⟩
  have hcount : pages.length ≤ (keys pages).length := by
    rcases hmore with rfl | htoken
    · exact Nat.zero_le _
    · exact h.progress htoken
  refine ⟨?_, ?_, ?_, ?_, ?_, ?_, hl.resumes⟩
  · rw [hkeys, List.pairwise_append, List.pairwise_map]
    refine ⟨h.ascending, hl.ascending, fun key hkey other hother => ?_⟩
    obtain ⟨row, hrow, rfl⟩ := List.mem_map.1 hother
    exact hlater key hkey row hrow
  · intro key hkey hkeyLeft
    obtain ⟨hnext, hbehind⟩ := (hleft key).1 hkeyLeft
    rw [hkeys, List.mem_append] at hkey
    rcases hkey with hold | hnew
    · obtain ⟨row, hrow⟩ := List.exists_mem_of_ne_nil rows (hl.progress hnext)
      exact hl.passed hnext row hrow (hbehind.trans (hlater key hold row hrow))
    · obtain ⟨row, hrow, rfl⟩ := List.mem_map.1 hnew
      exact hl.passed hnext row hrow hbehind
  · intro key hstored
    rw [hkeys, List.mem_append, hleft]
    rcases h.covers key fun p hp => hstored p (List.mem_append_left _ hp) with hold | ⟨-, hbehind⟩
    · exact .inl (.inl hold)
    · have hts : ts.HasKey key :=
        hstored ⟨ts, l⟩ (List.mem_append_right _ (List.mem_singleton_self _))
      obtain ⟨row, hrow, rfl⟩ := Tables.hasKey_iff.1 hts
      rcases hl.covers row hrow hbehind with hshown | hnext
      · exact .inl (.inr (List.mem_map_of_mem hshown))
      · exact .inr hnext
  · intro p hp e he
    rcases List.mem_append.1 hp with hold | hnew
    · exact h.stored p hold e he
    · rw [List.mem_singleton.1 hnew, hl.entries] at he
      obtain ⟨row, hrow, rfl⟩ := List.mem_map.1 he
      rw [List.mem_singleton.1 hnew]
      exact ⟨row, hl.stored row hrow, hl.writable row hrow, rfl⟩
  · simp only [hkeys, List.length_append, List.length_map, List.length_singleton]
    omega
  · intro hnext
    have hrows := List.length_pos_iff.2 (hl.progress hnext)
    simp only [hkeys, List.length_append, List.length_map, List.length_singleton]
    omega

open Classical in
/-- Of tables that stay the same the pages so far have listed every row that is not left. -/
theorem Sound.entries_eq (h : Sound pages token) {ts : Tables} (hts : ∀ p ∈ pages, p.tables = ts) :
    entries pages = (ts.rows.filter fun row => ¬ Left pages token row.key).map (·.listed) := by
  refine eq_of_sorted (r := fun e e' => e.key < e'.key) (fun _ _ => Std.not_gt_of_lt)
    (List.pairwise_map.1 h.ascending) ?_ fun e => ?_
  · rw [List.pairwise_map]
    exact (Tables.rows_ascending ts).filter _
  have hstored : ∀ e ∈ entries pages, ∃ row ∈ ts.rows, e = row.listed := by
    intro e he
    obtain ⟨p, hp, he⟩ := List.mem_flatMap.1 he
    obtain ⟨row, hrow, -, rfl⟩ := h.stored p hp e he
    exact ⟨row, hts p hp ▸ hrow, rfl⟩
  simp only [List.mem_map, List.mem_filter, decide_eq_true_eq]
  constructor
  · intro he
    obtain ⟨row, hrow, rfl⟩ := hstored e he
    exact ⟨row, ⟨hrow, h.passed _ (List.mem_map_of_mem he)⟩, rfl⟩
  · rintro ⟨row, ⟨hrow, hleft⟩, rfl⟩
    have hkey : row.key ∈ keys pages := by
      refine (h.covers row.key fun p hp => ?_).resolve_right hleft
      rw [hts p hp, Tables.hasKey_iff]
      exact ⟨row, hrow, rfl⟩
    obtain ⟨e, he, hkey⟩ := List.mem_map.1 hkey
    obtain ⟨other, hother, rfl⟩ := hstored e he
    -- a key has one row
    rwa [← Tables.eq_of_key hother hrow hkey]

/-- Pages of tables that stay the same are not many more than there are rows. -/
theorem Sound.length_le (h : Sound pages token) {ts : Tables} (hts : ∀ p ∈ pages, p.tables = ts) :
    pages.length ≤ ts.rows.length + 1 := by
  classical
  have hlength := h.length
  have hfilter := List.length_filter_le (fun row => decide (¬ Left pages token row.key)) ts.rows
  rw [keys, List.length_map, h.entries_eq hts, List.length_map] at hlength
  omega

/-- When the scan of such tables ends, all rows were listed. -/
theorem Sound.listed (h : Sound pages []) (hpages : pages ≠ []) {ts : Tables}
    (hts : ∀ p ∈ pages, p.tables = ts) : ts.rows.mapM entry = .ok (entries pages) := by
  classical
  have hended : ∀ key, ¬ Left pages [] key := by
    rintro key ⟨hstart | hnext, -⟩
    · exact hpages hstart
    · exact hnext rfl
  have hentries : entries pages = ts.rows.map (·.listed) := by
    rw [h.entries_eq hts, List.filter_eq_self.2 fun row _ => decide_eq_true (hended row.key)]
  have hwritable : ∀ row ∈ ts.rows, row.token.Writable := by
    intro row hrow
    have he : row.listed ∈ entries pages := hentries ▸ List.mem_map_of_mem hrow
    obtain ⟨p, hp, he⟩ := List.mem_flatMap.1 he
    obtain ⟨other, hother, hwritable, hlisted⟩ := h.stored p hp _ he
    rwa [Tables.eq_of_key hrow (hts p hp ▸ hother) (congrArg BranchEntry.key hlisted)]
  rw [mapM_eq_ite entry_eq, if_pos hwritable, hentries]
  rfl

theorem sound (h : Scans a pages token) : Sound pages token := by
  induction h with
  | start => exact .start
  | page _ hmore hs hl ih =>
    obtain ⟨rows, hshows⟩ := scan_shows hs hl
    exact ih.page hmore hshows

/-- A scan goes on: the next page is answered, whatever was done since, as long as all stored tokens
can be written. -/
theorem goes_on (h : Scans a pages token) (htime : a.InTime) {s : State MemoryStore}
    (hs : s.Unarmed) (hwritable : s.tables.Carries Token.Writable) (size : UInt64) :
    ∃ l, (a.scan size token).answer s = .ok l := by
  obtain ⟨after, hafter⟩ := h.sound.resumes
  exact ⟨_, (scan_answer hs htime size hafter).trans
    (if_pos fun row hrow => hwritable _ _ row (Tables.mem_scan hrow))⟩

/-- **Scans are stable.** Whatever is done to the store between the pages of a scan, and however
large the pages are asked for:

* the keys of the entries ascend strictly over all pages;
* if the scan has ended, every key under which a row was stored whenever a page was asked for is
  listed exactly once;
* an entry is that of a row that was stored when its page was asked for;
* a scan that has not ended goes on, in every state whose tokens can all be written;
* if nothing changes, there are at most one more pages than rows, and a scan that has ended has
  listed exactly the rows. -/
theorem stable (h : Scans a pages token) :
    (keys pages).Pairwise (· < ·) ∧
    (pages ≠ [] → token = [] → ∀ key, (∀ p ∈ pages, p.tables.HasKey key) →
      (keys pages).count key = 1) ∧
    (∀ p ∈ pages, ∀ e ∈ p.page.entries, ∃ row, p.tables.row? e.tree e.branch = some row ∧
      row.token.encode = .ok e.token ∧ e.info = row.info) ∧
    (a.InTime → ∀ s : State MemoryStore, s.Unarmed → s.tables.Carries Token.Writable → ∀ size,
      ∃ l, (a.scan size token).answer s = .ok l) ∧
    ∀ ts, (∀ p ∈ pages, p.tables = ts) → pages.length ≤ ts.rows.length + 1 ∧
      (pages ≠ [] → token = [] → ts.rows.mapM entry = .ok (entries pages)) := by
  have hsound := h.sound
  refine ⟨hsound.ascending, fun hpages htoken key hstored => ?_, fun p hp e he => ?_,
    fun htime s hs hwritable size => h.goes_on htime hs hwritable size, fun ts hts => ?_⟩
  · have hkey : key ∈ keys pages := by
      refine (hsound.covers key hstored).resolve_right ?_
      rintro ⟨hstart | hnext, -⟩
      · exact hpages hstart
      · exact hnext htoken
    have hnodup : (keys pages).Nodup := by
      refine List.Pairwise.imp ?_ hsound.ascending
      rintro k _ hlt rfl
      exact Std.lt_irrefl hlt
    exact List.count_eq_one_of_mem hnodup hkey
  · obtain ⟨row, hrow, hwritable, rfl⟩ := hsound.stored p hp e he
    refine ⟨row, Tables.mem_rows_iff.1 hrow, ?_, rfl⟩
    rw [Token.encode_eq]
    exact if_pos hwritable
  · refine ⟨hsound.length_le hts, fun hpages htoken => ?_⟩
    subst htoken
    exact hsound.listed hpages hts

end Scans

end Archive

namespace Sample

/-- The branch is deleted, its fork stays. -/
def pruned : State MemoryStore :=
  ((Operation.remove (.delete ⟨1, 1, Forked.bytes root⟩)).perform archive).final state

def rootRow : BranchRow := ⟨root, "", 0⟩
def forkRow : BranchRow := ⟨fork, "", 0⟩

def afterRoot : Bytes := Listing.writeKey (root.tree, root.branch)
def afterFork : Bytes := Listing.writeKey (fork.tree, fork.branch)

/-- Pages of one entry. After the first one its branch is deleted. -/
def scanned : List Scanned :=
  [⟨state.tables, ⟨[rootRow.listed], afterRoot⟩⟩, ⟨pruned.tables, ⟨[forkRow.listed], afterFork⟩⟩,
    ⟨pruned.tables, ⟨[], []⟩⟩]

theorem scans : archive.Scans scanned [] := by
  have hfirst : (archive.scan 1 []).answer state =
      .ok ⟨[rootRow.listed], afterRoot⟩ := by decide +kernel
  have hsecond : (archive.scan 1 afterRoot).answer pruned =
      .ok ⟨[forkRow.listed], afterFork⟩ := by decide +kernel
  have hthird : (archive.scan 1 afterFork).answer pruned = .ok ⟨[], []⟩ := by decide +kernel
  have hpruned : pruned.Unarmed := (Archive.perform_outcome _ reaches.unarmed).1
  exact .page (.page (.page .start (.inl rfl) reaches.unarmed hfirst)
    (.inr (Listing.writeKey_ne_nil _)) hpruned hsecond)
    (.inr (Listing.writeKey_ne_nil _)) hpruned hthird

end Sample

/-- The scan goes on after a branch that is gone, and lists its fork once. -/
theorem Archive.Scans.stable_pruned :
    Sample.archive.Scans Sample.scanned [] ∧
      Sample.pruned.tables.row? Sample.root.tree Sample.root.branch = none ∧
      (Scans.keys Sample.scanned).count Sample.forkRow.key = 1 := by
  refine ⟨Sample.scans, by decide +kernel, ?_⟩
  obtain ⟨-, hlisted, -⟩ := Scans.stable Sample.scans
  refine hlisted (List.cons_ne_nil _ _) rfl _ fun p hp => ⟨Sample.forkRow, ?_⟩
  have hrows : ∀ q ∈ Sample.scanned,
      q.tables.row? Sample.fork.tree Sample.fork.branch = some Sample.forkRow := by decide +kernel
  exact hrows p hp

end Chronicle
