import Chronicle.Archive.Removal
import Chronicle.Proofs.Current
import Chronicle.Proofs.Interruption

/-!
# What removals do

A removal removes its versions in several calls, and a fault may end it between any two of them. It
is said here once from which contents a removal is accepted, which versions it is to remove, what it
leaves at its end and what wherever it is cut short. What else there is to know of removals follows.

* `Tables.Loses`: some of the versions that are to be removed are gone; `Tables.LosesAll`: all are.
* `Beyond` and `Collected`: what a trim and what a deletion is to remove.
* `trim_settles` and `delete_settles`: the operations.
-/
namespace Chronicle

open Chronicle.Action (Settles)

/-! ## Removing versions -/

namespace Tables

/-- `us` is `ts` without some of the versions of tree `t` that `p` marks. -/
structure Loses (ts : Tables) (t : TreeId) (p : BranchId → NodeId → TransactionId → Prop)
    (us : Tables) : Prop where
  rows : ∀ u c, us.row? u c = ts.row? u c
  known : ∀ u, us.hasTree u = ts.hasTree u
  versions : ∀ u c n x, us.version? u c n x = ts.version? u c n x ∨
    us.version? u c n x = none ∧ u = t ∧ p c n x

/-- `us` is `ts` without the versions of tree `t` that `p` marks. -/
structure LosesAll (ts : Tables) (t : TreeId) (p : BranchId → NodeId → TransactionId → Prop)
    (us : Tables) : Prop extends Loses ts t p us where
  gone : ∀ c n x, p c n x → us.version? t c n x = none

variable {ts us vs : Tables} {t : TreeId} {b : BranchId}
  {p q : BranchId → NodeId → TransactionId → Prop}

theorem Loses.refl (ts : Tables) (t : TreeId) (p : BranchId → NodeId → TransactionId → Prop) :
    ts.Loses t p ts :=
  ⟨fun _ _ => rfl, fun _ => rfl, fun _ _ _ _ => .inl rfl⟩

theorem Loses.trans (h : ts.Loses t p us) (h' : us.Loses t p vs) : ts.Loses t p vs where
  rows u c := (h'.rows u c).trans (h.rows u c)
  known u := (h'.known u).trans (h.known u)
  versions u c n x := by
    rcases h'.versions u c n x with heq | hnone
    · rw [heq]
      exact h.versions u c n x
    · exact .inr hnone

theorem Loses.mono (h : ts.Loses t p us) (hpq : ∀ c n x, p c n x → q c n x) : ts.Loses t q us where
  rows := h.rows
  known := h.known
  versions u c n x := (h.versions u c n x).imp_right fun h => ⟨h.1, h.2.1, hpq c n x h.2.2⟩

theorem Loses.version?_eq_none (h : ts.Loses t p us) {u : TreeId} {c : BranchId} {n : NodeId}
    {x : TransactionId} (hnone : ts.version? u c n x = none) : us.version? u c n x = none := by
  rcases h.versions u c n x with heq | hgone
  · rw [heq, hnone]
  · exact hgone.1

theorem Loses.version?_eq (h : ts.Loses t p us) {c : BranchId} {n : NodeId} {x : TransactionId}
    (hp : ¬ p c n x) : us.version? t c n x = ts.version? t c n x :=
  (h.versions t c n x).resolve_right fun hgone => hp hgone.2.2

theorem Loses.rowsOf (h : ts.Loses t p us) (u : TreeId) : us.rowsOf u = ts.rowsOf u :=
  congrArg SortedMap.values (SortedMap.ext_get? (h.rows u))

theorem Loses.length_le (h : ts.Loses t p us) (u : TreeId) (c : BranchId) :
    (us.nodesOf u c).toList.length ≤ (ts.nodesOf u c).toList.length := by
  have hfilter : (us.nodesOf u c).toList = (ts.nodesOf u c).toList.filter
      fun v => us.version? u c v.node v.transaction = some v := by
    refine eq_of_sorted (fun v w hvw hwv => Position.not_isAfter_of_isAfter hvw hwv)
      (Nodes.toList_ascending _) ((Nodes.toList_ascending _).filter _) fun v => ?_
    rw [Nodes.mem_toList_iff, List.mem_filter, Nodes.mem_toList_iff, decide_eq_true_eq]
    refine (and_iff_right_of_imp fun hv => ?_).symm
    rcases h.versions u c v.node v.transaction with heq | hgone
    · exact heq.symm.trans hv
    · cases hgone.1.symm.trans hv
  rw [hfilter]
  exact List.length_filter_le ..

theorem loses_eraseFrom (ts : Tables) (t : TreeId) {start : NodeId}
    (h : ∀ n x, start ≤ n → p b n x) : ts.Loses t p (ts.eraseFrom t b start) where
  rows u c := row?_eraseFrom ..
  known u := hasTree_eraseFrom ..
  versions u c n x := by
    rw [version?_eraseFrom]
    split
    · next hn =>
      obtain ⟨hu, rfl, hn⟩ := hn
      exact .inr ⟨rfl, hu, h n x hn⟩
    · exact .inl rfl

theorem losesAll_eraseFrom (ts : Tables) (t : TreeId) {start : NodeId}
    (h : ∀ c n x, p c n x ↔ c = b ∧ start ≤ n) : ts.LosesAll t p (ts.eraseFrom t b start) where
  toLoses := loses_eraseFrom ts t fun n x hn => (h b n x).2 ⟨rfl, hn⟩
  gone c n x hp := by
    obtain ⟨rfl, hn⟩ := (h c n x).1 hp
    rw [version?_eraseFrom, if_pos ⟨rfl, rfl, hn⟩]

theorem loses_eraseVersion (ts : Tables) (t : TreeId) {n : NodeId} {x : TransactionId}
    (h : p b n x) : ts.Loses t p (ts.eraseVersion t b n x) where
  rows u c := row?_eraseVersion ..
  known u := hasTree_eraseVersion ..
  versions u c m y := by
    rw [version?_eraseVersion]
    split
    · next hm =>
      obtain ⟨hu, rfl, rfl, rfl⟩ := hm
      exact .inr ⟨rfl, hu, h⟩
    · exact .inl rfl

theorem Loses.all (h : ts.Loses t p us) (h' : us.LosesAll t p vs) : ts.LosesAll t p vs :=
  ⟨h.trans h'.toLoses, h'.gone⟩

theorem LosesAll.unique (h : ts.LosesAll t p us) (h' : ts.LosesAll t p vs) : us = vs := by
  have hversion : ∀ {us vs : Tables}, ts.LosesAll t p us → ts.LosesAll t p vs →
      ∀ {u c n x}, us.version? u c n x = none → vs.version? u c n x = none := by
    intro us vs h h' u c n x hnone
    rcases h.versions u c n x with heq | ⟨-, rfl, hp⟩
    · exact h'.version?_eq_none (heq.symm.trans hnone)
    · exact h'.gone c n x hp
  apply ext_views
  · intro u
    rw [h.known, h'.known]
  · intro u c
    rw [h.rows, h'.rows]
  · intro u c n x
    rcases h.versions u c n x with heq | hgone
    · rcases h'.versions u c n x with heq' | hgone'
      · rw [heq, heq']
      · rw [hgone'.1, hversion h' h hgone'.1]
    · rw [hgone.1, hversion h h' hgone.1]

end Tables

/-! ## Trimming -/

/-- A version of branch `b` from `node` on, but not that of transaction `x`. -/
def Beyond (b : BranchId) (node : NodeId) (x : TransactionId) (c : BranchId) (n : NodeId)
    (y : TransactionId) : Prop :=
  c = b ∧ node ≤ n ∧ ¬ (n = node ∧ y = x)

/-- Each version of a node in read order carries a smaller transaction than the one before it. -/
theorem Version.transaction_add_lt {l : List Version} (hl : ReadOrder l) {node : NodeId}
    (hnode : ∀ w ∈ l, w.node = node) {m : Int} (hm : ∀ w ∈ l, w.transaction.toInt < m) {k : Nat}
    {v : Version} (hv : v ∈ l.drop k) : v.transaction.toInt + k < m := by
  induction k generalizing l m with
  | zero => exact (Int.add_zero _).symm ▸ hm v hv
  | succ k ih =>
    cases l with
    | nil => cases hv
    | cons w rest =>
      obtain ⟨hw, hrest⟩ := List.pairwise_cons.1 hl
      have hbelow : ∀ u ∈ rest, u.transaction.toInt < w.transaction.toInt := by
        intro u hu
        have hsame : w.node = u.node :=
          (hnode w (List.mem_cons_self ..)).trans (hnode u (List.mem_cons_of_mem _ hu)).symm
        rcases after_iff.1 (hw u hu) with hlt | ⟨-, hlt⟩
        · exact absurd (hsame ▸ hlt) (Int64.lt_irrefl)
        · exact Int64.lt_iff_toInt_lt.1 hlt
      have hlast := ih hrest (fun u hu => hnode u (List.mem_cons_of_mem _ hu)) hbelow hv
      have hfirst := hm w (List.mem_cons_self ..)
      omega

namespace Tables

theorem mem_read {ts : Tables} {t : TreeId} {b : BranchId} {q : RangeQuery} {v : Version}
    (h : v ∈ ts.read t b q) : q.min ≤ v.node ∧ v.node < q.max ∧
      ts.version? t b v.node v.transaction = some v := by
  have h := (List.mem_filter.1 (List.mem_of_mem_take h)).1
  have hlisting : v ∈ ts.listing t b q.min q.max := h
  obtain ⟨⟨hmin, hmax⟩, hv⟩ := mem_listing_iff.1 hlisting
  exact ⟨hmin, hmax, hv⟩

/-- A question without an end gives all versions of its nodes. -/
theorem mem_read_of_lt {ts : Tables} {t : TreeId} {b : BranchId} {min max : NodeId} {v : Version}
    (hsize : (ts.nodesOf t b).toList.length < UInt64.size)
    (hv : ts.version? t b v.node v.transaction = some v) (hmin : min ≤ v.node)
    (hmax : v.node < max) :
    v ∈ ts.read t b ⟨min, max, none, UInt64.ofNat (UInt64.size - 1)⟩ := by
  have hlisting : v ∈ ts.listing t b min max := mem_listing_iff.2 ⟨⟨hmin, hmax⟩, hv⟩
  have hlength : (ts.listing t b min max).length ≤ UInt64.size - 1 := by
    rw [listing, Nodes.toList_restrict]
    exact Nat.le_trans (List.length_filter_le ..) (Nat.le_sub_one_of_lt hsize)
  have hread : ts.read t b ⟨min, max, none, UInt64.ofNat (UInt64.size - 1)⟩ =
      (ts.listing t b min max).take (UInt64.size - 1) :=
    congrArg (List.take (UInt64.size - 1)) (List.filter_eq_self.2 fun _ _ => rfl)
  rw [hread, List.take_of_length_le hlength]
  exact hlisting

variable {ts us vs : Tables} {t : TreeId} {b : BranchId} {node : NodeId} {x : TransactionId}

/-- A question without an end for a node leaves out no version but one of the least transaction. -/
theorem mem_read_or (hlimit : node < nodeLimit) {v : Version}
    (hv : ts.version? t b node v.transaction = some v) :
    v ∈ ts.read t b ⟨node, node + 1, none, UInt64.ofNat (UInt64.size - 1)⟩ ∨
      ∀ y : TransactionId, v.transaction ≤ y := by
  obtain ⟨hnode, -⟩ := version?_own hv
  have hnext : node < node + 1 :=
    Int64.not_le.1 fun hle => Int64.lt_irrefl ((NodeId.add_one_le_iff hlimit).1 hle)
  have hlisting : v ∈ ts.listing t b node (node + 1) :=
    mem_listing_iff.2 ⟨⟨hnode ▸ Int64.le_refl _, hnode ▸ hnext⟩, hnode ▸ hv⟩
  have hread : ts.read t b ⟨node, node + 1, none, UInt64.ofNat (UInt64.size - 1)⟩ =
      (ts.listing t b node (node + 1)).take (UInt64.size - 1) :=
    congrArg (List.take (UInt64.size - 1)) (List.filter_eq_self.2 fun _ _ => rfl)
  rw [hread]
  rw [← List.take_append_drop (UInt64.size - 1) (ts.listing t b node (node + 1)),
    List.mem_append] at hlisting
  refine hlisting.imp_right fun hdrop y => ?_
  -- there are no more transactions than the question asks for, and one
  have hnodes : ∀ w ∈ ts.listing t b node (node + 1), w.node = node := by
    intro w hw
    obtain ⟨⟨hmin, hmax⟩, -⟩ := mem_listing_iff.1 hw
    refine Int64.le_antisymm (Int64.not_lt.1 fun hlt => ?_) hmin
    exact Int64.lt_irrefl (Int64.lt_of_lt_of_le hmax ((NodeId.add_one_le_iff hlimit).2 hlt))
  have hlast := Version.transaction_add_lt (listing_readOrder ..) hnodes
    (fun w _ => Int64.toInt_lt w.transaction) hdrop
  have hleast := Int64.le_toInt y
  rw [Int64.le_iff_toInt_le]
  rw [UInt64.size] at hlast
  omega

theorem loses_later (h : node < nodeLimit) :
    ts.Loses t (Beyond b node x) (ts.eraseFrom t b (node + 1)) := by
  apply loses_eraseFrom
  intro n y hn
  have hlt := (NodeId.add_one_le_iff h).1 hn
  exact ⟨rfl, Int64.le_of_lt hlt, fun heq => Int64.ne_of_lt hlt heq.1.symm⟩

/-- `us` is `ts` with branch `b` trimmed to a version of `node`: later nodes are gone, and so are
the versions of the node with a larger transaction, and all others of the node if there are not more
of them than can be asked for. -/
structure Trimmed (ts : Tables) (t : TreeId) (b : BranchId) (node : NodeId) (x : TransactionId)
    (us : Tables) : Prop where
  loses : ts.Loses t (Beyond b node x) us
  later : ∀ n y, node < n → us.version? t b n y = none
  latest : ∀ y v, us.version? t b node y = some v → y ≤ x
  all : (ts.nodesOf t b).toList.length < UInt64.size → ts.LosesAll t (Beyond b node x) us

theorem Loses.trimmed (h : ts.Loses t (Beyond b node x) us) (h' : us.Trimmed t b node x vs) :
    ts.Trimmed t b node x vs where
  loses := h.trans h'.loses
  later := h'.later
  latest := h'.latest
  all hsize := h.all (h'.all (Nat.lt_of_le_of_lt (h.length_le t b) hsize))

/-- Later nodes and then the other versions of the node are removed. -/
theorem trimmed (h : node < nodeLimit)
    (hus : (ts.eraseFrom t b (node + 1)).Loses t (Beyond b node x) us)
    (hgone : ∀ v ∈ ((ts.eraseFrom t b (node + 1)).read t b
        ⟨node, node + 1, none, UInt64.ofNat (UInt64.size - 1)⟩).filter (·.transaction ≠ x),
      us.version? t b v.node v.transaction = none) : ts.Trimmed t b node x us := by
  have hlater : ∀ n y, node < n → us.version? t b n y = none := by
    intro n y hn
    apply hus.version?_eq_none
    rw [version?_eraseFrom, if_pos ⟨rfl, rfl, (NodeId.add_one_le_iff h).2 hn⟩]
  have hlatest : ∀ y v, us.version? t b node y = some v → y ≤ x := by
    intro y v hv
    by_cases hx : v.transaction = x
    · exact (version?_own hv).2 ▸ hx ▸ Int64.le_refl _
    obtain ⟨hnode, rfl⟩ := version?_own hv
    have hold : (ts.eraseFrom t b (node + 1)).version? t b node v.transaction = some v := by
      rcases hus.versions t b node v.transaction with heq | hnone
      · exact heq.symm.trans hv
      · cases hnone.1.symm.trans hv
    rcases mem_read_or h hold with hread | hleast
    · have hnone := hgone v (List.mem_filter.2 ⟨hread, decide_eq_true hx⟩)
      rw [hnode, hv] at hnone
      cases hnone
    · exact hleast x
  refine ⟨(loses_later h).trans hus, hlater, hlatest,
    fun hsize => ⟨(loses_later h).trans hus, ?_⟩⟩
  intro c n y hbeyond
  obtain ⟨rfl, hn, hother⟩ := hbeyond
  by_cases hlt : node < n
  · exact hlater n y hlt
  obtain rfl : node = n := Int64.le_antisymm hn (Int64.not_lt.1 hlt)
  cases hv : (ts.eraseFrom t c (node + 1)).version? t c node y with
  | none => exact hus.version?_eq_none hv
  | some v =>
    -- what is left of the node is among the versions asked for
    obtain ⟨rfl, rfl⟩ := version?_own hv
    have hfits : ((ts.eraseFrom t c (v.node + 1)).nodesOf t c).toList.length < UInt64.size :=
      Nat.lt_of_le_of_lt ((loses_later (x := x) h).length_le t c) hsize
    have hnext : v.node < v.node + 1 :=
      Int64.not_le.1 fun hle => Int64.lt_irrefl ((NodeId.add_one_le_iff h).1 hle)
    apply hgone v
    rw [List.mem_filter, decide_eq_true_eq]
    exact ⟨mem_read_of_lt hfits hv hn hnext, fun hx => hother ⟨rfl, hx⟩⟩

end Tables

/-- A trim is accepted: with the current lease and in time, for the branch of a token, of which the
watermark is stored and no branch inherits a later node. -/
structure Archive.AcceptsTrim (a : Archive) (leases : LeaseTable) (req : TrimRequest) (ts : Tables)
    (q : Token) : Prop where
  lease : leases.current req.shard = some req.lease
  token : Token.decode req.token = .ok q
  time : a.InTime
  row : ∃ row, ts.row? q.tree q.branch = some row ∧ row.token.ownStart ≤ req.node
  limit : req.node < nodeLimit
  watermark : (ts.version? q.tree q.branch req.node req.transaction).isSome
  heirs : (ts.rowsOf q.tree).find? (·.inheritsBeyond q.branch req.node) = none

namespace Archive

variable {env : Setting}

theorem removeVersions_settles {d : Deadline} (hd : d.expired = false) {t : TreeId} {b : BranchId}
    {p : BranchId → NodeId → TransactionId → Prop} {err : Tables → Prop} {vs : List Version}
    (hvs : ∀ v ∈ vs, p b v.node v.transaction) (ts : Tables) :
    Settles env (removeVersions d t b vs) ts
      (fun _ us => ts.Loses t p us ∧ ∀ v ∈ vs, us.version? t b v.node v.transaction = none) err
      (ts.Loses t p) := by
  induction vs generalizing ts with
  | nil => exact .pure ⟨.refl .., nofun⟩
  | cons v rest ih =>
    have hfirst : ts.Loses t p (ts.eraseVersion t b v.node v.transaction) :=
      Tables.loses_eraseVersion ts t (hvs v (List.mem_cons_self ..))
    have hrest := ih (fun w hw => hvs w (List.mem_cons_of_mem _ hw))
      (ts.eraseVersion t b v.node v.transaction)
    refine .bind (.ask_inTime hd ?_ (.refl ..))
    refine .bind (hrest.imp (fun others us h => ?_) (fun _ h => h) fun us h => hfirst.trans h)
    obtain ⟨hus, hgone⟩ := h
    refine .pure ⟨hfirst.trans hus, ?_⟩
    intro w hw
    rcases List.mem_cons.1 hw with rfl | hw
    · apply hus.version?_eq_none
      rw [Tables.version?_eraseVersion, if_pos ⟨rfl, rfl, rfl, rfl⟩]
    · exact hgone w hw

/-- **Trims.** -/
theorem trim_settles (a : Archive) (req : TrimRequest) (ts : Tables) :
    Settles env (a.trim req) ts
      (fun _ us => ∃ q, a.AcceptsTrim env.leases req ts q ∧
        ts.Trimmed q.tree q.branch req.node req.transaction us)
      (fun us => us = ts ∧ ∀ q, ¬ a.AcceptsTrim env.leases req ts q)
      fun us => us = ts ∨ ∃ q, a.AcceptsTrim env.leases req ts q ∧
        ts.Loses q.tree (Beyond q.branch req.node req.transaction) us := by
  refine .bind (.checkLease (fun hlease => ?_) fun hlease => ⟨rfl, fun q h => hlease h.lease⟩)
  refine .bind (.lift (fun q hq => ?_) fun e he => ⟨rfl, fun q h => ?_⟩)
  · rw [decodeToken_eq_ok_iff] at hq
    have hrefused : ¬ a.AcceptsTrim env.leases req ts q →
        ∀ p, ¬ a.AcceptsTrim env.leases req ts p := by
      intro hnot p h
      cases hq.symm.trans h.token
      exact hnot h
    refine .bind (.bind (.ask (fun hd => ?_) (fun hd => ?_) (.inl rfl)))
    · dsimp only
      split
      · next row hrow =>
        have htree : row.token.tree = q.tree := (Tables.row?_own hrow).1
        have hbranch : row.token.branch = q.branch := (Tables.row?_own hrow).2
        refine .pure ?_
        rw [htree, hbranch]
        split
        · next hnode =>
          refine .throw_bind ⟨rfl, hrefused fun h => ?_⟩
          obtain ⟨row', hrow', hown⟩ := h.row
          cases hrow.symm.trans hrow'
          exact hnode.elim (Int64.not_lt.2 hown) (Int64.not_le.2 h.limit)
        next hnode =>
        rw [not_or, Int64.not_lt, Int64.not_le] at hnode
        obtain ⟨hown, hlimit⟩ := hnode
        refine .bind (.lock (.bind (.ask_inTime hd ?_ (.inl rfl))))
        split
        · next hnone =>
          refine .throw_bind ⟨rfl, hrefused fun h => ?_⟩
          exact Option.not_isSome_iff_eq_none.2 (Option.isNone_iff_eq_none.1 hnone) h.watermark
        next hwatermark =>
        refine .bind (.ask_inTime hd ?_ (.inl rfl))
        split
        · next heir hheir =>
          refine .throw_bind ⟨rfl, hrefused fun h => ?_⟩
          cases hheir.symm.trans h.heirs
        next hheirs =>
        have haccepts : a.AcceptsTrim env.leases req ts q :=
          ⟨hlease, hq, .of_not_expired hd, ⟨row, hrow, hown⟩, hlimit,
            Option.isSome_iff_ne_none.2 fun hnone =>
              hwatermark (Option.isNone_iff_eq_none.2 hnone),
            Option.eq_none_iff_forall_ne_some.2 hheirs⟩
        have hlater : ts.Loses q.tree (Beyond q.branch req.node req.transaction)
            (ts.eraseFrom q.tree q.branch (req.node + 1)) := Tables.loses_later hlimit
        refine .bind (.ask_inTime hd ?_ (.inl rfl))
        refine .bind (.ask_inTime hd ?_ (.inr ⟨q, haccepts, hlater⟩))
        refine .bind ((removeVersions_settles hd ?_ _).imp (fun others us h => ?_) (fun _ h => h)
          fun us h => .inr ⟨q, haccepts, hlater.trans h⟩)
        · intro v hv
          rw [List.mem_filter, decide_eq_true_eq] at hv
          exact ⟨rfl, (Tables.mem_read hv.1).1, fun heq => hv.2 heq.2⟩
        · exact .bind (.count (.pure ⟨q, haccepts, Tables.trimmed hlimit h.1 h.2⟩))
      · next hrow =>
        refine .throw ⟨rfl, hrefused fun h => ?_⟩
        obtain ⟨row, hsome, -⟩ := h.row
        cases hrow.symm.trans hsome
    · exact ⟨rfl, hrefused fun h => expired_iff.1 hd h.time⟩
  · cases he.symm.trans (decodeToken_eq_ok_iff.2 h.token)

end Archive

/-! ## Deleting -/

/-- What collecting the spans removes from a tree with these rows. -/
def Collected (rows : List BranchRow) : List Span → BranchId → NodeId → TransactionId → Prop
  | [], _, _, _ => False
  | s :: rest, c, n, x =>
    match reachedUpTo rows s.owner with
    | some stop => stop < nodeLimit ∧ c = s.owner ∧ s.start ≤ n ∧ stop ≤ n
    | none => (c = s.owner ∧ s.start ≤ n) ∨ Collected rows rest c n x

section Collected

variable {rows : List BranchRow} {s : Span} {rest : List Span} {c : BranchId} {n : NodeId}
  {x : TransactionId}

theorem collected_of_some {stop : NodeId} (h : reachedUpTo rows s.owner = some stop) :
    Collected rows (s :: rest) c n x ↔ stop < nodeLimit ∧ c = s.owner ∧ s.start ≤ n ∧ stop ≤ n := by
  rw [Collected, h]

theorem collected_of_none (h : reachedUpTo rows s.owner = none) :
    Collected rows (s :: rest) c n x ↔ (c = s.owner ∧ s.start ≤ n) ∨ Collected rows rest c n x := by
  rw [Collected, h]

end Collected

/-- The spans of the branch that `q` names: those of its row, or of `q` if there is none. -/
def Tables.spansOf (ts : Tables) (q : Token) : List Span :=
  (((ts.row? q.tree q.branch).map (·.token)).getD q).spans

/-- What a deletion is to remove once the row of the branch is gone. -/
def Tables.Orphaned (ts : Tables) (q : Token) : BranchId → NodeId → TransactionId → Prop :=
  Collected ((ts.eraseRow q.tree q.branch).rowsOf q.tree) (ts.spansOf q).reverse

/-- A deletion is accepted: with the current lease and in time, for a token. -/
structure Archive.AcceptsDelete (a : Archive) (leases : LeaseTable) (req : DeleteRequest)
    (q : Token) : Prop where
  lease : leases.current req.shard = some req.lease
  token : Token.decode req.token = .ok q
  time : a.InTime

namespace Archive

variable {env : Setting}

theorem collect_settles {d : Deadline} (hd : d.expired = false) (t : TreeId)
    (rows : List BranchRow) {err : Tables → Prop} (spans : List Span) (ts : Tables) :
    Settles env (collect d t rows spans) ts (fun _ us => ts.LosesAll t (Collected rows spans) us)
      err (ts.Loses t (Collected rows spans)) := by
  induction spans generalizing ts with
  | nil => exact .pure ⟨.refl .., fun _ _ _ => False.elim⟩
  | cons s rest ih =>
    unfold collect
    split
    · next stop hreached =>
      split
      · next hstop =>
        refine .ask_inTime hd (Tables.losesAll_eraseFrom ts t fun c n x => ?_) (.refl ..)
        rw [collected_of_some hreached, and_iff_right hstop]
        split
        · next hlt =>
          have hle := Int64.le_of_lt hlt
          exact and_congr_right fun _ => and_iff_left_of_imp (Int64.le_trans hle)
        · next hge =>
          have hle := Int64.not_lt.1 hge
          exact and_congr_right fun _ => and_iff_right_of_imp (Int64.le_trans hle)
      · next hstop =>
        refine .bind (.check_inTime hd (.pure ⟨.refl .., fun c n x hp => ?_⟩) (.refl ..))
        exact absurd ((collected_of_some hreached).1 hp).1 hstop
    · next hreached =>
      have hfirst : ts.Loses t (Collected rows (s :: rest)) (ts.eraseFrom t s.owner s.start) :=
        Tables.loses_eraseFrom ts t fun n x hn => (collected_of_none hreached).2 (.inl ⟨rfl, hn⟩)
      have hrest : ∀ us, (ts.eraseFrom t s.owner s.start).Loses t (Collected rows rest) us →
          ts.Loses t (Collected rows (s :: rest)) us := by
        intro us h
        exact hfirst.trans (h.mono fun c n x hp => (collected_of_none hreached).2 (.inr hp))
      refine .bind (.ask_inTime hd ?_ (.refl ..))
      refine .bind ((ih _).imp (fun others us h => ?_) (fun _ h => h) hrest)
      refine .pure ⟨hrest us h.toLoses, fun c n x hp => ?_⟩
      rcases (collected_of_none hreached).1 hp with ⟨rfl, hn⟩ | hp
      · apply h.toLoses.version?_eq_none
        rw [Tables.version?_eraseFrom, if_pos ⟨rfl, rfl, hn⟩]
      · exact h.gone c n x hp

/-- **Deletions.** -/
theorem delete_settles (a : Archive) (req : DeleteRequest) (ts : Tables) :
    Settles env (a.delete req) ts
      (fun _ us => ∃ q, a.AcceptsDelete env.leases req q ∧ ∃ vs,
        (ts.eraseRow q.tree q.branch).LosesAll q.tree (ts.Orphaned q) vs ∧
        us = if vs.isEmptyTree q.tree then vs.eraseTree q.tree else vs)
      (fun us => us = ts ∧ ∀ q, ¬ a.AcceptsDelete env.leases req q)
      fun us => us = ts ∨ ∃ q, a.AcceptsDelete env.leases req q ∧
        (ts.eraseRow q.tree q.branch).Loses q.tree (ts.Orphaned q) us := by
  refine .bind (.checkLease (fun hlease => ?_) fun hlease => ⟨rfl, fun q h => hlease h.lease⟩)
  refine .bind (.lift (fun q hq => ?_) fun e he => ⟨rfl, fun q h => ?_⟩)
  · rw [decodeToken_eq_ok_iff] at hq
    refine .bind (.lock (.bind (.ask (fun hd => ?_) (fun hd => ?_) (.inl rfl))))
    · have haccepts : a.AcceptsDelete env.leases req q := ⟨hlease, hq, .of_not_expired hd⟩
      refine .bind (.discard (.ask_inTime hd ?_ (.inl rfl)))
      refine .bind (.ask_inTime hd ?_ (.inr ⟨q, haccepts, .refl ..⟩))
      refine .bind ((collect_settles hd q.tree _ (ts.spansOf q).reverse _).imp
        (fun removed us h => ?_) (fun _ h => h) fun us h => .inr ⟨q, haccepts, h⟩)
      refine .bind (.discard (.ask_inTime hd ?_ (.inr ⟨q, haccepts, h.toLoses⟩)))
      refine .bind (.unlock (.bind (.count (.pure ⟨q, haccepts, us, h, ?_⟩))))
      split <;> rfl
    · exact ⟨rfl, fun p h => expired_iff.1 hd h.time⟩
  · cases he.symm.trans (decodeToken_eq_ok_iff.2 h.token)

end Archive

end Chronicle
