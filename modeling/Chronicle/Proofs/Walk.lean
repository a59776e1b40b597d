import Chronicle.Proofs.Action
import Chronicle.Proofs.Current

/-!
# Filling a page

A forward read fetches a few versions at a time, goes from span to span and stops in the middle of
it all when a page is full. What comes out is `Selection.fill`: one pass over what is stored along
the spans behind the cursor, cut off when the page is full.

* `sift_eq`, `sweeps_fill` and `walk_eq`: one fetch, one span, all spans.
* `Sweeps` and `Walks`: the fetches that are made on the way, with no bound on their number.
-/
namespace Chronicle

open Version (ReadOrder)

/-! ## Cursors -/

namespace Cursor

def takeAll (c : Cursor) (vs : List Version) : Cursor := vs.foldl take c

@[simp] theorem takeAll_nil (c : Cursor) : c.takeAll [] = c := rfl

@[simp] theorem takeAll_cons (c : Cursor) (v : Version) (vs : List Version) :
    c.takeAll (v :: vs) = (c.take v).takeAll vs := rfl

theorem takeAll_append (c : Cursor) (vs ws : List Version) :
    c.takeAll (vs ++ ws) = (c.takeAll vs).takeAll ws :=
  List.foldl_append

@[simp] theorem takeAll_span (c : Cursor) (vs : List Version) : (c.takeAll vs).span = c.span := by
  induction vs generalizing c with
  | nil => rfl
  | cons v vs ih => exact ih (c.take v)

@[simp] theorem takeAll_event (c : Cursor) (vs : List Version) :
    (c.takeAll vs).event = c.event := by
  induction vs generalizing c with
  | nil => rfl
  | cons v rest ih => exact ih (c.take v)

theorem takeAll_node (c : Cursor) (vs : List Version) :
    (c.takeAll vs).node = (vs.getLast?.map (·.node)).getD c.node := by
  induction vs generalizing c with
  | nil => rfl
  | cons v vs ih =>
    rw [takeAll_cons, ih, List.getLast?_cons]
    cases vs.getLast? <;> rfl

theorem takeAll_transaction (c : Cursor) (vs : List Version) :
    (c.takeAll vs).transaction = (vs.getLast?.map (·.transaction)).getD c.transaction := by
  induction vs generalizing c with
  | nil => rfl
  | cons v vs ih =>
    rw [takeAll_cons, ih, List.getLast?_cons]
    cases vs.getLast? <;> rfl

theorem takeAll_withSpan (c : Cursor) (n : UInt32) (vs : List Version) :
    ({ c with span := n } : Cursor).takeAll vs = { c.takeAll vs with span := n } := by
  induction vs generalizing c with
  | nil => rfl
  | cons v vs ih => exact ih (c.take v)

@[simp] theorem nextSpan_node (c : Cursor) : c.nextSpan.node = c.node := rfl

def position (c : Cursor) : Position := ⟨c.node, c.transaction⟩

end Cursor

namespace Selection

/-! ## One fetch -/

/-- A page of `k` versions on which `taken` are, filled up from a listing. -/
def fill (k : Nat) (taken : List Version) (c : Cursor) (l : List Version) : Progress :=
  let more := (current c.transaction l).take (k - taken.length)
  ⟨taken ++ more, c.takeAll more, k ≤ taken.length + (current c.transaction l).length⟩

theorem sift_eq {owner : BranchId} {k : Nat} {taken : List Version} {c : Cursor}
    {l : List Version} (hl : ReadOrder l) (hc : ∀ v ∈ l, v.position.isAfter c.position = true)
    (hk : taken.length < k) : sift owner k taken c l = .ok (fill k taken c l) := by
  induction l generalizing taken c with
  | nil =>
    have : ¬ k ≤ taken.length := by omega
    simp [sift, fill, current, this]
  | cons v rest ih =>
    obtain ⟨hv, hrest⟩ := List.pairwise_cons.1 hl
    by_cases hlt : v.transaction < c.transaction
    · rw [sift, if_pos hlt, ih hrest (fun w hw => hc w (List.mem_cons_of_mem _ hw)) hk]
      simp only [fill, current, if_pos hlt]
    · have hnode : ¬ v.node ≤ c.node := by
        rcases Position.isAfter_iff.1 (hc v (List.mem_cons_self ..)) with h | ⟨-, h⟩
        · exact Int64.not_le.2 h
        · exact absurd h hlt
      rw [sift, if_neg hlt, if_neg hnode]
      have hcur : current c.transaction (v :: rest) = v :: current v.transaction rest := by
        rw [current, if_neg hlt]
      simp only [List.length_append, List.length_singleton]
      split
      · next hfull =>
        have hone : k - taken.length = 1 := by omega
        have hle : k ≤ taken.length + ((current v.transaction rest).length + 1) := by omega
        simp [fill, hcur, hone, hle]
      · next hfull =>
        have hi : sift owner k (taken ++ [v]) (c.take v) rest =
            .ok (fill k (taken ++ [v]) (c.take v) rest) :=
          ih hrest hv (by rw [List.length_append, List.length_singleton]; omega)
        rw [hi]
        have hsub : k - taken.length = (k - (taken.length + 1)) + 1 := by omega
        simp only [fill, hcur, hsub, List.take_succ_cons, List.length_append, List.length_cons,
          List.length_nil, Cursor.takeAll_cons, List.append_assoc, List.singleton_append]
        simp only [Cursor.take, Nat.zero_add, Nat.add_assoc, Nat.add_comm 1]

theorem fill_full_iff {k : Nat} {taken : List Version} {c : Cursor} {l : List Version} :
    (fill k taken c l).full = true ↔ k ≤ taken.length + (current c.transaction l).length := by
  simp [fill]

theorem fill_append_of_full {k : Nat} {taken : List Version} {c : Cursor} {l : List Version}
    (h : (fill k taken c l).full = true) (m : List Version) :
    fill k taken c (l ++ m) = fill k taken c l := by
  rw [fill_full_iff] at h
  have hle : k - taken.length ≤ (current c.transaction l).length := by omega
  have hle' : k ≤ taken.length +
      (current c.transaction l ++ current (lastTaken c.transaction l) m).length := by
    rw [List.length_append]
    omega
  simp only [fill, current_append, List.take_append_of_le_length hle, h, hle']

/-- A page that does not get full takes all that a pass takes. -/
theorem fill_of_not_full {k : Nat} {taken : List Version} {c : Cursor} {l : List Version}
    (h : (fill k taken c l).full = false) :
    fill k taken c l =
      ⟨taken ++ current c.transaction l, c.takeAll (current c.transaction l), false⟩ := by
  have hlt : ¬ k ≤ taken.length + (current c.transaction l).length := by
    rw [← fill_full_iff, h]
    exact Bool.false_ne_true
  have hle : (current c.transaction l).length ≤ k - taken.length := by omega
  simp only [fill, List.take_of_length_le hle, hlt, decide_false]

theorem length_taken_lt {k : Nat} {taken : List Version} {c : Cursor} {l : List Version}
    (h : (fill k taken c l).full = false) : (fill k taken c l).taken.length < k := by
  have hroom : ¬ k ≤ taken.length + (current c.transaction l).length := by
    rw [← fill_full_iff, h]
    exact Bool.false_ne_true
  rw [fill_of_not_full h, List.length_append]
  exact Nat.not_le.1 hroom

theorem fill_append_of_not_full {k : Nat} {taken : List Version} {c : Cursor} {l : List Version}
    (h : (fill k taken c l).full = false) (m : List Version) :
    fill k taken c (l ++ m) =
      fill k (fill k taken c l).taken (fill k taken c l).cursor m := by
  have hlt : ¬ k ≤ taken.length + (current c.transaction l).length := by
    rw [← fill_full_iff, h]
    exact Bool.false_ne_true
  have hlast : (c.takeAll (current c.transaction l)).transaction = lastTaken c.transaction l :=
    Cursor.takeAll_transaction ..
  have htake : (current c.transaction l).take (k - taken.length) = current c.transaction l :=
    List.take_of_length_le (by omega)
  rw [fill_of_not_full h]
  simp only [fill, hlast, current_append, List.length_append, List.take_append, htake,
    Cursor.takeAll_append, List.append_assoc, Nat.sub_sub, Nat.add_assoc]

/-- A page that gets full ends at a version of the listing. -/
theorem exists_of_full {k : Nat} {taken : List Version} {c : Cursor} {l : List Version}
    (hk : taken.length < k) (h : (fill k taken c l).full = true) :
    ∃ v ∈ l, ((current c.transaction l).take (k - taken.length)).getLast? = some v ∧
      (fill k taken c l).cursor.position = v.position := by
  rw [fill_full_iff] at h
  cases hlast : ((current c.transaction l).take (k - taken.length)).getLast? with
  | none =>
    have := congrArg List.length (List.getLast?_eq_none_iff.1 hlast)
    rw [List.length_take, List.length_nil] at this
    omega
  | some v =>
    have hv := List.mem_of_mem_take (List.mem_of_getLast? hlast)
    refine ⟨v, (mem_of_mem_current hv).1, rfl, ?_⟩
    simp only [fill, Cursor.position, Cursor.takeAll_node, Cursor.takeAll_transaction, hlast,
      Option.map_some, Option.getD_some, Version.position]

/-- The cursor of a page stays where it was or moves to a version of the listing. -/
theorem fill_cursor_position (k : Nat) (taken : List Version) (c : Cursor) (l : List Version) :
    (fill k taken c l).cursor.position = c.position ∨
      ∃ v ∈ l, (fill k taken c l).cursor.position = v.position := by
  simp only [fill, Cursor.position, Cursor.takeAll_node, Cursor.takeAll_transaction]
  cases hlast : ((current c.transaction l).take (k - taken.length)).getLast? with
  | none => exact .inl rfl
  | some v =>
    have hv := List.mem_of_mem_take (List.mem_of_getLast? hlast)
    exact .inr ⟨v, (mem_of_mem_current hv).1, rfl⟩

/-- What stands behind a listing comes after the cursor of a page that was filled from it. -/
theorem isAfter_fill_cursor {k : Nat} {taken : List Version} {c : Cursor} {l m : List Version}
    (hread : ReadOrder (l ++ m)) (hc : ∀ v ∈ m, v.position.isAfter c.position = true) :
    ∀ v ∈ m, v.position.isAfter (fill k taken c l).cursor.position = true := by
  intro v hv
  rcases fill_cursor_position k taken c l with h | ⟨u, hu, h⟩
  · rw [h]
    exact hc v hv
  · rw [h]
    exact (List.pairwise_append.1 hread).2.2 u hu v hv

/-! ## One span -/

/-- If a page is full after a fetch, or the fetch brought less than it asked for, then the rest of
the span changes nothing. -/
theorem fill_take_of_stop {k : Nat} {taken : List Version} {c : Cursor} {rest : List Version}
    (h : (fill k taken c (rest.take (k + 1))).full = true ∨ rest.take (k + 1) = [] ∨
      (rest.take (k + 1)).length < k + 1) :
    fill k taken c (rest.take (k + 1)) = fill k taken c rest := by
  by_cases hfull : (fill k taken c (rest.take (k + 1))).full = true
  · conv => rhs; rw [← List.take_append_drop (k + 1) rest]
    rw [fill_append_of_full hfull]
  · have hshort : rest.length ≤ k + 1 := by
      rcases h with h | h | h
      · exact absurd h hfull
      · have hlength := congrArg List.length h
        rw [List.length_take, List.length_nil] at hlength
        omega
      · rw [List.length_take] at h
        omega
    rw [List.take_of_length_le hshort]

theorem filter_isAfter {l m : List Version} {v : Version} (h : ReadOrder (l ++ v :: m)) :
    (l ++ v :: m).filter (fun w => w.position.isAfter v.position) = m := by
  obtain ⟨-, hm, hcross⟩ := List.pairwise_append.1 h
  have hself : v.position.isAfter v.position = false := by
    cases hv : v.position.isAfter v.position with
    | false => rfl
    | true => exact absurd hv (ReadOrder.asymm hv)
  have hl : l.filter (fun w => w.position.isAfter v.position) = [] := by
    apply List.filter_eq_nil_iff.2
    intro w hw
    exact ReadOrder.asymm (hcross w hw v (List.mem_cons_self ..))
  rw [List.filter_append, hl, List.nil_append, List.filter_cons, hself, if_neg Bool.false_ne_true]
  exact List.filter_eq_self.2 (List.pairwise_cons.1 hm).1

/-- What comes after the last version of a fetch from a span. -/
theorem filter_isAfter_take {done rest : List Version} {n : Nat} (h : ReadOrder (done ++ rest))
    (hne : rest.take n ≠ []) (after : Option Position) :
    (done ++ rest).filter (fun v => (((rest.take n).getLast?.map (·.position)).or after).all
      fun p => v.position.isAfter p) = rest.drop n := by
  obtain ⟨front, last, hfront⟩ := (List.eq_nil_or_concat _).resolve_left hne
  rw [List.concat_eq_append] at hfront
  have hsplit : done ++ rest = (done ++ front) ++ last :: rest.drop n := by
    conv => lhs; rw [← List.take_append_drop n rest, hfront]
    simp only [List.append_assoc, List.singleton_append]
  rw [hsplit] at h ⊢
  rw [hfront, List.getLast?_concat]
  exact filter_isAfter h

/-- The place of a version among all places, as a number. -/
def rank (v : Version) : Nat :=
  (v.node.toInt - Int64.minValue.toInt).toNat * UInt64.size +
    (Int64.maxValue.toInt - v.transaction.toInt).toNat

theorem least : Int64.minValue.toInt = -9223372036854775808 := by decide

theorem greatest : Int64.maxValue.toInt = 9223372036854775807 := by decide

theorem rank_lt_rank {v w : Version} (h : w.After v) : rank v < rank w := by
  have h1 := Int64.le_toInt v.node
  have h2 := Int64.le_toInt w.transaction
  have h3 := Int64.toInt_lt w.transaction
  have h4 := Int64.le_toInt v.transaction
  have h5 := Int64.toInt_lt v.transaction
  unfold rank
  rw [least, greatest, UInt64.size]
  rcases Version.after_iff.1 h with h | ⟨h, h'⟩
  · rw [Int64.lt_iff_toInt_lt] at h
    omega
  · rw [Int64.lt_iff_toInt_lt] at h'
    rw [h]
    omega

theorem rank_lt (v : Version) : rank v < positions := by
  have h1 := Int64.le_toInt v.node
  have h2 := Int64.toInt_lt v.node
  have h3 := Int64.le_toInt v.transaction
  have h4 := Int64.toInt_lt v.transaction
  unfold rank positions
  rw [least, greatest, UInt64.size]
  omega

theorem length_le_of_ranks {l : List Version} {low : Nat} (hl : ReadOrder l)
    (hlow : ∀ v ∈ l, low ≤ rank v) (hle : low ≤ positions) : l.length ≤ positions - low := by
  induction l generalizing low with
  | nil => exact Nat.zero_le _
  | cons v l ih =>
    obtain ⟨hv, hl⟩ := List.pairwise_cons.1 hl
    have h1 := hlow v (List.mem_cons_self ..)
    have h2 := rank_lt v
    have h3 := ih hl (fun w hw => Nat.succ_le_of_lt (rank_lt_rank (hv w hw))) h2
    rw [List.length_cons]
    omega

/-- There are no more stored versions of a branch than places. -/
theorem length_le_positions {l : List Version} (hl : ReadOrder l) : l.length ≤ positions :=
  length_le_of_ranks hl (fun _ _ => Nat.zero_le _) (Nat.zero_le _)

section Walk

variable {d : Deadline} {s : Archive.State MemoryStore} (hd : d.expired = false) (hs : s.Unarmed)
  {k : UInt64} (hk : k.toNat + 1 < UInt64.size)

include hk in
theorem fetchLimit_toNat : (fetchLimit k).toNat = k.toNat + 1 := by
  rw [fetchLimit, UInt64.toNat_add, UInt64.toNat_one, Nat.mod_eq_of_lt hk]

/-- Fetching one answer after the other from a span, with no bound on their number: it goes on until
the page is full or an answer is shorter than it may be. -/
inductive Sweeps (ts : Tables) (t : TreeId) (k : UInt64) (sp : Span) (start : NodeId) :
    Option Position → List Version → Cursor → List (List Version) → Progress → Prop
  | last {after : Option Position} {taken rows : List Version} {c : Cursor} {p : Progress}
      (hrows : ts.read t sp.owner ⟨start, sp.stop, after, fetchLimit k⟩ = rows)
      (hsift : sift sp.owner k.toNat taken c rows = .ok p)
      (hstop : (p.full || rows.isEmpty || rows.length < (fetchLimit k).toNat) = true) :
      Sweeps ts t k sp start after taken c [rows] p
  | more {after : Option Position} {taken rows : List Version} {c : Cursor} {p q : Progress}
      {fetches : List (List Version)}
      (hrows : ts.read t sp.owner ⟨start, sp.stop, after, fetchLimit k⟩ = rows)
      (hsift : sift sp.owner k.toNat taken c rows = .ok p)
      (hmore : (p.full || rows.isEmpty || rows.length < (fetchLimit k).toNat) = false)
      (hrest : Sweeps ts t k sp start ((rows.getLast?.map (·.position)).or after) p.taken p.cursor
        fetches q) :
      Sweeps ts t k sp start after taken c (rows :: fetches) q

include hk in
/-- Going through a span: `rest` is what is left of it behind the place where the last fetch ended.
What is fetched is the beginning of it, and every fetch but the last brings two versions at least.
-/
theorem sweeps_fill {ts : Tables} {t : TreeId} {sp : Span} {start : NodeId}
    {after : Option Position} {taken : List Version} {c : Cursor} {done rest : List Version}
    (hlist : ts.listing t sp.owner start sp.stop = done ++ rest)
    (hafter : (done ++ rest).filter (fun v => after.all fun p => v.position.isAfter p) = rest)
    (hc : ∀ v ∈ rest, v.position.isAfter c.position = true) (htaken : taken.length < k.toNat) :
    ∃ fetches, Sweeps ts t k sp start after taken c fetches (fill k.toNat taken c rest) ∧
      fetches.flatten <+: rest ∧ 2 * fetches.length ≤ rest.length + 2 := by
  have horder : ReadOrder (done ++ rest) := hlist ▸ Tables.listing_readOrder ..
  induction hn : rest.length using Nat.strongRecOn generalizing after taken c done rest with
  | _ n ih =>
  have hrest : ReadOrder rest := (List.pairwise_append.1 horder).2.1
  have hlimit := fetchLimit_toNat hk
  have hsplit := List.take_append_drop (k.toNat + 1) rest
  have hrows : ts.read t sp.owner ⟨start, sp.stop, after, fetchLimit k⟩ =
      rest.take (k.toNat + 1) := by
    rw [← hafter, ← hlist, ← hlimit]
    rfl
  have hsift : sift sp.owner k.toNat taken c (rest.take (k.toNat + 1)) =
      .ok (fill k.toNat taken c (rest.take (k.toNat + 1))) :=
    sift_eq (hrest.sublist (List.take_sublist ..)) (fun v hv => hc v (List.mem_of_mem_take hv))
      htaken
  by_cases hstop : ((fill k.toNat taken c (rest.take (k.toNat + 1))).full ||
      (rest.take (k.toNat + 1)).isEmpty ||
      decide ((rest.take (k.toNat + 1)).length < (fetchLimit k).toNat)) = true
  · have hlast := Sweeps.last hrows hsift hstop
    simp only [Bool.or_eq_true, List.isEmpty_iff, decide_eq_true_eq, hlimit, or_assoc] at hstop
    rw [fill_take_of_stop hstop] at hlast
    refine ⟨_, hlast, ?_, by rw [List.length_singleton]; omega⟩
    rw [List.flatten_singleton]
    exact List.take_prefix ..
  · have hmore := Bool.eq_false_iff.2 hstop
    simp only [Bool.or_eq_true, List.isEmpty_iff, decide_eq_true_eq, hlimit, not_or,
      Bool.not_eq_true] at hstop
    obtain ⟨⟨hfull, hne⟩, hlong⟩ := hstop
    rw [List.length_take] at hlong
    have hdone : done ++ rest = (done ++ rest.take (k.toNat + 1)) ++ rest.drop (k.toNat + 1) := by
      rw [List.append_assoc, hsplit]
    have hshort : (rest.drop (k.toNat + 1)).length < n := by
      rw [List.length_drop]
      omega
    have hnext : ∀ v ∈ rest.drop (k.toNat + 1), v.position.isAfter
        (fill k.toNat taken c (rest.take (k.toNat + 1))).cursor.position = true := by
      apply isAfter_fill_cursor (by rw [hsplit]; exact hrest)
      intro v hv
      exact hc v (List.mem_of_mem_drop hv)
    have hbehind := filter_isAfter_take horder hne after
    rw [hdone] at hbehind
    obtain ⟨fetches, hsweeps, hfetches, hcount⟩ := ih _ hshort (hlist.trans hdone) hbehind hnext
      (length_taken_lt hfull) (hdone ▸ horder) rfl
    rw [← fill_append_of_not_full hfull, hsplit] at hsweeps
    refine ⟨_, .more hrows hsift hmore hsweeps, ?_, ?_⟩
    · rw [List.flatten_cons]
      conv => rhs; rw [← hsplit]
      exact (List.prefix_append_right_inj _).2 hfetches
    · rw [List.length_cons]
      rw [List.length_drop] at hcount
      omega

include hd hs in
theorem sweep_succ {plan : Plan} {sp : Span} {start : NodeId} {after : Option Position}
    {taken rows : List Version} {c : Cursor} {p : Progress}
    (hrows : s.tables.read plan.tree sp.owner ⟨start, sp.stop, after, fetchLimit k⟩ = rows)
    (hsift : sift sp.owner k.toNat taken c rows = .ok p) (fuel : Nat) :
    sweep d plan sp start k (fuel + 1) after taken c s =
      if p.full || rows.isEmpty || rows.length < (fetchLimit k).toNat then .ok p s
      else sweep d plan sp start k fuel ((rows.getLast?.map (·.position)).or after) p.taken
        p.cursor s := by
  have hask : Action.ask d (Backend.readVersions plan.tree sp.owner
      ⟨start, sp.stop, after, fetchLimit k⟩) s = .ok rows s :=
    hrows ▸ Action.ask_question hd hs fun ts => ts.read plan.tree sp.owner _
  refine (Action.bind_of_ok hask).trans ((Action.bind_of_ok (Action.lift_of_ok hsift s)).trans ?_)
  split <;> rfl

include hd hs in
theorem Sweeps.run {plan : Plan} {sp : Span} {start : NodeId} {after : Option Position}
    {taken : List Version} {c : Cursor} {fetches : List (List Version)} {p : Progress}
    (h : Sweeps s.tables plan.tree k sp start after taken c fetches p) {fuel : Nat}
    (hfuel : fetches.length ≤ fuel) : sweep d plan sp start k fuel after taken c s = .ok p s := by
  induction h generalizing fuel with
  | last hrows hsift hstop =>
    obtain ⟨fuel, rfl⟩ := Nat.exists_eq_succ_of_ne_zero (Nat.ne_of_gt hfuel)
    rw [sweep_succ hd hs hrows hsift, if_pos hstop]
  | more hrows hsift hmore _ ih =>
    obtain ⟨fuel, rfl⟩ := Nat.exists_eq_succ_of_ne_zero (Nat.ne_zero_of_lt hfuel)
    rw [sweep_succ hd hs hrows hsift, if_neg (Bool.not_eq_true _ ▸ hmore)]
    exact ih (Nat.le_of_succ_le_succ hfuel)

end Walk

end Selection

/-! ## All spans -/

namespace Tables

/-- What is stored along spans on the nodes behind `n`. -/
def behind (ts : Tables) (t : TreeId) (spans : List Span) (n : NodeId) : List Version :=
  (ts.along t spans).filter fun v => n < v.node

theorem mem_behind_iff {ts : Tables} {t : TreeId} {spans : List Span} {n : NodeId} {v : Version} :
    v ∈ ts.behind t spans n ↔ v ∈ ts.along t spans ∧ n < v.node := by
  rw [behind, List.mem_filter, decide_eq_true_eq]

theorem behind_readOrder (ts : Tables) (t : TreeId) {spans : List Span}
    (h : Lineage.Ordered spans) (n : NodeId) : ReadOrder (ts.behind t spans n) :=
  (ts.along_readOrder t h).filter _

theorem listing_behind (ts : Tables) (t : TreeId) (s : Span) (n : NodeId) :
    (ts.listing t s.owner s.start s.stop).filter (fun v => n < v.node) =
      ts.listing t s.owner (if s.start < n.next then n.next else s.start) s.stop := by
  simp only [listing, Nodes.toList_restrict, List.filter_filter]
  apply List.filter_congr
  intro v _
  rw [← Bool.decide_and, Bool.decide_and, Bool.eq_iff_iff]
  simp only [Bool.and_eq_true, decide_eq_true_eq]
  by_cases hn : n = nodeLimit
  · -- nothing is stored behind the last node
    subst hn
    have hmax : Int64.toInt nodeLimit = 2 ^ 63 - 1 := by decide
    have h1 := Int64.toInt_lt v.node
    have h2 := Int64.toInt_lt s.stop
    have hnext : NodeId.next nodeLimit = nodeLimit := rfl
    rw [hnext]
    split <;> simp only [Int64.lt_iff_toInt_lt, Int64.le_iff_toInt_le, hmax] at * <;> omega
  · have hnext := NodeId.next_le_iff (m := v.node) hn
    have hstart := NodeId.next_le_iff (m := s.start) hn
    split
    · next h =>
      rw [hnext]
      rw [← Int64.not_le, hstart, Int64.not_lt] at h
      constructor
      · intro hv
        exact ⟨hv.1, hv.2.2⟩
      · intro hv
        exact ⟨hv.1, Int64.le_trans h (Int64.le_of_lt hv.1), hv.2⟩
    · next h =>
      rw [Int64.not_lt, hstart] at h
      constructor
      · intro hv
        exact hv.2
      · intro hv
        exact ⟨Int64.lt_of_lt_of_le h hv.1, hv⟩

theorem behind_cons (ts : Tables) (t : TreeId) (s : Span) (rest : List Span) (n : NodeId) :
    ts.behind t (s :: rest) n =
      (ts.listing t s.owner s.start s.stop).filter (fun v => n < v.node) ++ ts.behind t rest n := by
  rw [behind, along_cons, List.filter_append]
  rfl

theorem behind_behind (ts : Tables) (t : TreeId) (spans : List Span) {n m : NodeId} (h : n < m) :
    (ts.behind t spans n).filter (fun v => m < v.node) = ts.behind t spans m := by
  unfold behind
  rw [List.filter_filter]
  apply List.filter_congr
  intro v _
  by_cases hm : m < v.node
  · simp only [hm, Int64.lt_trans h hm, decide_true, Bool.and_self]
  · simp only [hm, decide_false, Bool.false_and]

end Tables

namespace Selection

/-- The page in the making, taken as it is after passing so many spans from `c` on. -/
def Progress.close (p : Progress) (c : Cursor) (passed : Nat) : Selection :=
  ⟨p.taken, { p.cursor with span := c.span + UInt32.ofNat passed }, !p.full⟩

theorem fill_nextSpan (k : Nat) (taken : List Version) (c : Cursor) (l : List Version) :
    fill k taken c.nextSpan l =
      ⟨(fill k taken c l).taken, (fill k taken c l).cursor.nextSpan, (fill k taken c l).full⟩ := by
  unfold fill Cursor.nextSpan
  simp only [Cursor.takeAll_withSpan, Cursor.takeAll_span]

/-- The other spans lie behind what one span stores, wherever the cursor of the page is in it. -/
theorem behind_fill_cursor (ts : Tables) (t : TreeId) {sp : Span} {rest : List Span}
    (hsp : ∀ u ∈ rest, sp.stop ≤ u.start) (k : Nat) (taken : List Version) {c : Cursor}
    {l : List Version} (hl : ∀ v ∈ l, c.node < v.node ∧ v.node < sp.stop) :
    ts.behind t rest (fill k taken c l).cursor.node = ts.behind t rest c.node := by
  apply List.filter_congr
  intro v hv
  rcases fill_cursor_position k taken c l with h | ⟨u, hu, h⟩
  · rw [(Position.mk.inj h).1]
  · have hlt := Tables.node_lt_of_along hsp (hl u hu).2 hv
    rw [(Position.mk.inj h).1]
    simp only [hlt, Int64.lt_trans (hl u hu).1 hlt]

theorem close_nextSpan (k : Nat) (taken : List Version) (c : Cursor) (l : List Version) (j : Nat) :
    (fill k taken c.nextSpan l).close c.nextSpan j = (fill k taken c l).close c (j + 1) := by
  have hspan : c.span + 1 + UInt32.ofNat j = c.span + UInt32.ofNat (j + 1) := by
    rw [UInt32.add_assoc, Nat.add_comm j, UInt32.ofNat_add]
    rfl
  rw [fill_nextSpan, Progress.close, Progress.close]
  simp only [Cursor.nextSpan, hspan]

section Walk

variable {d : Deadline} {s : Archive.State MemoryStore} (hd : d.expired = false) (hs : s.Unarmed)
  {k : UInt64} (hk : k.toNat + 1 < UInt64.size)

include hk in
/-- One span is gone through from the node behind the cursor on. -/
theorem sweeps_span (ts : Tables) (t : TreeId) (sp : Span) {taken : List Version}
    (htaken : taken.length < k.toNat) (c : Cursor) :
    let l := (ts.listing t sp.owner sp.start sp.stop).filter fun v => c.node < v.node
    ∃ fetches, Sweeps ts t k sp (if sp.start < c.node.next then c.node.next else sp.start) none
      taken c fetches (fill k.toNat taken c l) ∧
      fetches.flatten <+: l ∧ fetches.length ≤ positions := by
  intro l
  have hbehind : ∀ v ∈ l, v.position.isAfter c.position = true := by
    intro v hv
    rw [List.mem_filter, decide_eq_true_eq] at hv
    exact Position.isAfter_iff.2 (.inl hv.2)
  have hall : ([] ++ l).filter (fun v => (none : Option Position).all fun p =>
      v.position.isAfter p) = l := List.filter_eq_self.2 fun _ _ => rfl
  obtain ⟨fetches, hsweeps, hfetches, hcount⟩ :=
    sweeps_fill hk (Tables.listing_behind ts t sp c.node).symm hall hbehind htaken
  have hread := (Tables.listing_readOrder ts t sp.owner sp.start sp.stop).filter fun v =>
    c.node < v.node
  have hlength : l.length ≤ positions := length_le_positions hread
  have hmany : 2 ≤ positions := by decide
  exact ⟨fetches, hsweeps, hfetches, by omega⟩

include hd hs hk in
theorem walk_cons (plan : Plan) (sp : Span) (rest : List Span) {taken : List Version}
    (htaken : taken.length < k.toNat) (c : Cursor) :
    let p := fill k.toNat taken c
      ((s.tables.listing plan.tree sp.owner sp.start sp.stop).filter fun v => c.node < v.node)
    walk d plan k (sp :: rest) taken c s =
      if p.full then .ok ⟨p.taken, p.cursor, false⟩ s
      else walk d plan k rest p.taken p.cursor.nextSpan s := by
  intro p
  obtain ⟨fetches, hsweeps, -, hcount⟩ := sweeps_span hk s.tables plan.tree sp htaken c
  have hsweep : sweep d plan sp (if sp.start < c.node.next then c.node.next else sp.start) k
      positions none taken c s = .ok p s := hsweeps.run hd hs hcount
  rw [walk]
  refine (Action.bind_of_ok hsweep).trans ?_
  cases p.full <;> rfl

/-- Going through spans one after the other until the page is full, with all the fetches that are
made on the way. -/
inductive Walks (ts : Tables) (t : TreeId) (k : UInt64) :
    List Span → List Version → Cursor → List (List Version) → Selection → Prop
  | done {taken : List Version} {c : Cursor} : Walks ts t k [] taken c [] ⟨taken, c, true⟩
  | full {sp : Span} {rest : List Span} {taken : List Version} {c : Cursor}
      {fetches : List (List Version)} {p : Progress}
      (hspan : Sweeps ts t k sp (if sp.start < c.node.next then c.node.next else sp.start) none
        taken c fetches p)
      (hfull : p.full = true) :
      Walks ts t k (sp :: rest) taken c fetches ⟨p.taken, p.cursor, false⟩
  | next {sp : Span} {rest : List Span} {taken : List Version} {c : Cursor}
      {fetches more : List (List Version)} {p : Progress} {sel : Selection}
      (hspan : Sweeps ts t k sp (if sp.start < c.node.next then c.node.next else sp.start) none
        taken c fetches p)
      (hfull : p.full = false) (hrest : Walks ts t k rest p.taken p.cursor.nextSpan more sel) :
      Walks ts t k (sp :: rest) taken c (fetches ++ more) sel

include hd hs hk in
/-- Going through spans is filling a page from what is stored along them behind the cursor. What was
passed when the page got full lies before its last version. -/
theorem walk_eq (plan : Plan) {spans : List Span} (hspans : Lineage.Ordered spans)
    {taken : List Version} (htaken : taken.length < k.toNat) (c : Cursor) :
    ∃ j ≤ spans.length,
      walk d plan k spans taken c s =
        .ok ((fill k.toNat taken c (s.tables.behind plan.tree spans c.node)).close c j) s ∧
      ((fill k.toNat taken c (s.tables.behind plan.tree spans c.node)).full = true →
        ∀ v ∈ s.tables.along plan.tree (spans.take j), v.node ≤
          (fill k.toNat taken c (s.tables.behind plan.tree spans c.node)).cursor.node) := by
  induction spans generalizing taken c with
  | nil =>
    refine ⟨0, Nat.le_refl _, ?_, fun _ v hv => absurd hv List.not_mem_nil⟩
    have hshort : ¬ k.toNat ≤ taken.length := by omega
    have hzero : c.span + UInt32.ofNat 0 = c.span := UInt32.add_zero _
    simp only [Tables.behind, Tables.along, List.flatMap_nil, List.filter_nil, fill, current,
      List.take_nil, List.append_nil, List.length_nil, Nat.add_zero, hshort, Progress.close,
      Cursor.takeAll_nil, hzero, decide_false, Bool.not_false]
    rfl
  | cons sp rest ih =>
    obtain ⟨hsp, hrest⟩ := List.pairwise_cons.1 hspans
    rw [walk_cons hd hs hk plan sp rest htaken c, Tables.behind_cons]
    generalize hl : (s.tables.listing plan.tree sp.owner sp.start sp.stop).filter
      (fun v => c.node < v.node) = l
    have hnode : ∀ v ∈ l, c.node < v.node ∧ v.node < sp.stop := by
      intro v hv
      rw [← hl, List.mem_filter, decide_eq_true_eq, Tables.mem_listing_iff] at hv
      exact ⟨hv.2, hv.1.1.2⟩
    cases hfull : (fill k.toNat taken c l).full with
    | true =>
      rw [if_pos rfl, fill_append_of_full hfull]
      refine ⟨0, Nat.zero_le _, ?_, fun _ v hv => absurd hv List.not_mem_nil⟩
      have hzero : c.span + UInt32.ofNat 0 = (fill k.toNat taken c l).cursor.span := by
        rw [fill, Cursor.takeAll_span]
        exact UInt32.add_zero _
      rw [Progress.close, hzero, hfull]
      rfl
    | false =>
      rw [if_neg Bool.false_ne_true, fill_append_of_not_full hfull]
      have hshort := length_taken_lt hfull
      have hbehind := behind_fill_cursor s.tables plan.tree hsp k.toNat taken hnode
      obtain ⟨j, hj, heq, hpassed⟩ := ih hrest hshort (fill k.toNat taken c l).cursor.nextSpan
      simp only [Cursor.nextSpan_node, hbehind] at heq hpassed
      have hspan : (fill k.toNat taken c l).cursor.span = c.span := Cursor.takeAll_span ..
      refine ⟨j + 1, Nat.succ_le_succ hj, ?_, ?_⟩
      · rw [heq, close_nextSpan, Progress.close, Progress.close, hspan]
      · intro h v hv
        rw [fill_nextSpan] at hpassed
        rw [List.take_succ_cons, Tables.along_cons, List.mem_append] at hv
        rcases hv with hv | hv
        · obtain ⟨u, hu, -, hcursor⟩ := exists_of_full hshort h
          rw [(Position.mk.inj hcursor).1]
          exact Int64.le_of_lt (Tables.node_lt_of_along hsp (Tables.mem_listing_iff.1 hv).1.2
            (Tables.mem_behind_iff.1 hu).1)
        · exact hpassed h v hv

end Walk

end Selection

end Chronicle
