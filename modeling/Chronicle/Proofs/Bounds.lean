import Chronicle.Proofs.Checked
import Chronicle.Proofs.Decoding
import Chronicle.Proofs.Pedigree
import Chronicle.Storage.Tables.Contents
import Mathlib.Data.List.Perm.Subperm

/-!
# Which sums fit

A checked read does what the read does. Two of its sums may overflow: one more than the page size,
where the largest page size is as large as numbers get, and the event after the last one, where a
batch ends with the largest event and another batch is read behind it.

* `Selection.Takes`: what a pass has taken so far, in every state of the backend.
* `Action.Fits`: an operation that does not overflow.
* `Checked.Matches`: a checked operation beside the plain one.
* `Archive.reads_fit`: the result.
-/
namespace Chronicle

open Archive (State)
open Chronicle.Action (Keeps Meets)
open Chronicle.Checked (form formAll plain totals)

/-! ## What a pass takes -/

namespace Selection

/-- From cursor `c` on, `taken` was taken along the plan, and led to cursor `c'`. -/
structure Takes (ts : Tables) (plan : Plan) (c : Cursor) (taken : List Version) (c' : Cursor) :
    Prop where
  ascending : taken.Pairwise fun v w => v.node < w.node
  behind : ∀ v ∈ taken, c.node < v.node ∧ v.node ≤ c'.node
  le : c.node ≤ c'.node
  covered : ∀ v ∈ taken, ts.Covers plan.tree plan.spans v
  event : c'.event = c.event

namespace Takes

variable {ts : Tables} {plan : Plan} {c c' : Cursor} {taken : List Version}

theorem none (ts : Tables) (plan : Plan) (c : Cursor) : Takes ts plan c [] c where
  ascending := .nil
  behind := nofun
  le := Int64.le_refl _
  covered := nofun
  event := rfl

theorem nextSpan (h : Takes ts plan c taken c') : Takes ts plan c taken c'.nextSpan :=
  ⟨h.ascending, h.behind, h.le, h.covered, h.event⟩

theorem take (h : Takes ts plan c taken c') {v : Version} (hv : c'.node < v.node)
    (hcovers : ts.Covers plan.tree plan.spans v) :
    Takes ts plan c (taken ++ [v]) (c'.take v) where
  ascending := by
    refine List.pairwise_append.2 ⟨h.ascending, List.pairwise_singleton .., ?_⟩
    intro u hu w hw
    rw [List.mem_singleton.1 hw]
    exact Int64.lt_of_le_of_lt (h.behind u hu).2 hv
  behind u hu := by
    rcases List.mem_append.1 hu with hu | hu
    · exact ⟨(h.behind u hu).1, Int64.le_trans (h.behind u hu).2 (Int64.le_of_lt hv)⟩
    · rw [List.mem_singleton.1 hu]
      exact ⟨Int64.lt_of_le_of_lt h.le hv, Int64.le_refl _⟩
  le := Int64.le_trans h.le (Int64.le_of_lt hv)
  covered u hu := by
    rcases List.mem_append.1 hu with hu | hu
    · exact h.covered u hu
    · exact List.mem_singleton.1 hu ▸ hcovers
  event := h.event

end Takes

variable {ts : Tables} {plan : Plan} {c c' : Cursor} {taken : List Version}

theorem sift_takes {owner : BranchId} {k : Nat} {rows : List Version} {p : Progress}
    (h : Takes ts plan c taken c') (hrows : ∀ v ∈ rows, ts.Covers plan.tree plan.spans v)
    (hp : sift owner k taken c' rows = .ok p) :
    Takes ts plan c p.taken p.cursor ∧ p.cursor.span = c'.span := by
  induction rows generalizing taken c' with
  | nil =>
    cases hp
    exact ⟨h, rfl⟩
  | cons v rest ih =>
    have hrest : ∀ w ∈ rest, ts.Covers plan.tree plan.spans w :=
      fun w hw => hrows w (List.mem_cons_of_mem _ hw)
    unfold sift at hp
    split at hp
    · exact ih h hrest hp
    · split at hp
      · cases hp
      · next hnode =>
        have htake := h.take (Int64.not_le.1 hnode) (hrows v (List.mem_cons_self ..))
        dsimp only at hp
        split at hp
        · cases hp
          exact ⟨htake, rfl⟩
        · have hmore := ih htake hrest hp
          exact hmore

theorem sweep_takes {d : Deadline} {s : Span} {start : NodeId} {k : UInt64} (hs : s ∈ plan.spans)
    (hstart : s.start ≤ start) (fuel : Nat) (after : Option Position)
    (h : Takes ts plan c taken c') :
    Keeps (· = ts) (sweep d plan s start k fuel after taken c') fun p =>
      Takes ts plan c p.taken p.cursor ∧ p.cursor.span = c'.span := by
  induction fuel generalizing after taken c' with
  | zero => exact .pure ⟨h, rfl⟩
  | succ fuel ih =>
    refine .bind (.question (R := fun rows => ∀ v ∈ rows, ts.Covers plan.tree plan.spans v) ?_) ?_
    · intro us hus v hv
      obtain ⟨hmin, hmax, hversion⟩ := Tables.mem_read (hus ▸ hv)
      exact ⟨s, hs, ⟨Int64.le_trans hstart hmin, hmax⟩, hversion⟩
    · intro rows hrows
      refine .bind (.lift fun p hp => sift_takes h hrows hp) fun p hp => ?_
      split
      · exact .pure hp
      · have hagain := ih ((rows.getLast?.map (·.position)).or after) hp.1
        rwa [hp.2] at hagain

end Selection

/-! ## Sums -/

theorem foldr_le_of_sublist {α : Type} {f : α → Nat} {l m : List α} (h : l.Sublist m) :
    l.foldr (f · + ·) 0 ≤ m.foldr (f · + ·) 0 := by
  induction h with
  | slnil => exact Nat.le_refl _
  | cons a _ ih =>
    rw [List.foldr_cons]
    omega
  | cons_cons a _ ih =>
    rw [List.foldr_cons, List.foldr_cons]
    omega

theorem foldr_eq_of_perm {α : Type} {f : α → Nat} {l m : List α} (h : l.Perm m) :
    l.foldr (f · + ·) 0 = m.foldr (f · + ·) 0 :=
  h.foldr_eq' (fun a _ b _ z => Nat.add_left_comm (f b) (f a) z) 0

theorem foldr_ones {α : Type} (l : List α) : (l.map fun _ => 1).foldr (· + ·) 0 = l.length := by
  induction l with
  | nil => rfl
  | cons a rest ih => rw [List.map_cons, List.foldr_cons, ih, List.length_cons, Nat.add_comm]

namespace Tables

def bytes (ts : Tables) : Nat := ts.contents.foldr (·.version.blob.length + ·) 0

/-- Versions of different nodes have no more bytes together than what is stored. -/
theorem foldr_le_bytes {ts : Tables} {t : TreeId} {spans : List Span} {vs : List Version}
    (hascending : vs.Pairwise fun v w => v.node < w.node) (hvs : ∀ v ∈ vs, ts.Covers t spans v) :
    vs.foldr (·.blob.length + ·) 0 ≤ ts.bytes := by
  have hrecords : ∃ rs : List Record, rs.map (·.version) = vs ∧ ∀ r ∈ rs, r ∈ ts.contents := by
    clear hascending
    induction vs with
    | nil => exact ⟨[], rfl, nofun⟩
    | cons v rest ih =>
      obtain ⟨rs, hrs, hstored⟩ := ih fun w hw => hvs w (List.mem_cons_of_mem _ hw)
      obtain ⟨s, -, -, hv⟩ := hvs v (List.mem_cons_self ..)
      refine ⟨⟨t, s.owner, v⟩ :: rs, by rw [List.map_cons, hrs], ?_⟩
      exact List.forall_mem_cons.2 ⟨mem_contents_iff.2 hv, hstored⟩
  obtain ⟨rs, rfl, hstored⟩ := hrecords
  have hnodup : rs.Nodup := by
    rw [List.pairwise_map] at hascending
    refine hascending.imp fun {r r'} hlt heq => ?_
    rw [heq] at hlt
    exact Int64.lt_irrefl hlt
  obtain ⟨l, hl, hsub⟩ := hnodup.subperm hstored
  rw [List.foldr_map, foldr_eq_of_perm hl.symm]
  exact foldr_le_of_sublist hsub

end Tables

/-! ## Last events -/

/-- The batch of the version ends with event `e`. -/
def Version.EndsAt (codec : Codec) (v : Version) (e : EventId) : Prop :=
  ∃ last b, Batch.decode codec last v = .ok b ∧ b.lastEvent last = e

/-- In the window of the request one batch ends with the largest event, and another one is stored
behind the node of the first. -/
def Archive.EndsEarly (a : Archive) (ts : Tables) (req : ReadRequest) : Prop :=
  ∃ row, ts.Names req.token row ∧ ∃ v w, ts.Holds row.token req.min req.max v ∧
    ts.Holds row.token req.min req.max w ∧ v.node < w.node ∧ v.EndsAt a.codec Int64.maxValue

namespace Batch

variable {codec : Codec} {last stop : EventId} {l : List Version} {bs : List Batch}

/-- Decoding ends where it started, or where one of the batches ends. -/
theorem Decodes.stop_cases (h : Decodes codec last l bs stop) :
    l = [] ∧ stop = last ∨ ∃ v ∈ l, v.EndsAt codec stop := by
  induction h with
  | nil => exact .inl ⟨rfl, rfl⟩
  | @cons last stop v rest b bs hb _ ih =>
    refine .inr ?_
    rcases ih with ⟨-, rfl⟩ | ⟨w, hw, hends⟩
    · exact ⟨v, List.mem_cons_self .., last, b, hb, rfl⟩
    · exact ⟨w, List.mem_cons_of_mem _ hw, hends⟩

theorem size_of_decode {v : Version} {b : Batch} (h : decode codec last v = .ok b) :
    b.size = v.blob.length := by
  unfold decode at h
  split at h
  · cases h
  split at h
  · cases h
  split at h
  · cases h
  split at h
  · cases h
  split at h
  · cases h
  cases h
  rfl

theorem Decodes.sizes (h : Decodes codec last l bs stop) :
    bs.map (·.size) = l.map (·.blob.length) := by
  induction h with
  | nil => rfl
  | cons hb _ ih => rw [List.map_cons, List.map_cons, ih, size_of_decode hb]

theorem fits_lastPlace {v : Version} {b : Batch} (h : decode codec last v = .ok b) :
    Quantity.lastPlace.Fits (b.events.length - 1) := by
  obtain ⟨-, -, ⟨first, -, hcheck⟩, -⟩ := decode_of_ok h
  have hbatch := check_eq_ok_iff.1 hcheck
  have hpos : 0 < b.events.length :=
    List.length_pos_of_mem (List.mem_of_mem_head? hbatch.head)
  have hplace : b.events.length - 1 < b.events.length := by omega
  have hid := hbatch.ids _ b.events[b.events.length - 1] (List.getElem?_eq_getElem hplace)
  have hfirst := hbatch.positive
  have hlast := b.events[b.events.length - 1].id.toInt_lt
  have hone : firstEvent.toInt = 1 := by decide
  have hwidth : UInt64.size = 2 ^ 64 := rfl
  rw [Int64.le_iff_toInt_le, hone] at hfirst
  simp only [Quantity.Fits, Quantity.low, Quantity.bound]
  omega

end Batch

/-! ## Operations without overflows -/

namespace Action

variable {α β : Type}

def Fits (act : Action MemoryStore α) : Prop := ∀ s t, act s ≠ .error .overflow t

namespace Fits

theorem pure {a : α} : Fits (Pure.pure a) := fun _ _ => nofun

theorem throw {e : Error} (he : e ≠ .overflow) :
    Fits (MonadExcept.throw e : Action MemoryStore α) := by
  intro s t h
  cases h
  exact he rfl

theorem bind {x : Action MemoryStore β} {f : β → Action MemoryStore α} (hx : Fits x)
    (hf : ∀ b, Fits (f b)) : Fits (x >>= f) := by
  intro s t h
  rw [bind_apply] at h
  cases hr : x s with
  | ok b u =>
    rw [hr] at h
    exact hf b u t h
  | error e u =>
    rw [hr] at h
    cases h
    exact hx s t hr

theorem lift {r : Except Error α} (hr : r ≠ .error .overflow) : Fits (Action.lift r) := by
  cases r with
  | ok a => exact pure
  | error e => exact throw fun he => hr (he ▸ rfl)

theorem check (d : Deadline) : Fits (Action.check d) := by
  intro s t h
  unfold Action.check at h
  rcases d.check_cases s.delay with ⟨-, hd⟩ | ⟨-, later, hd, -⟩ | ⟨-, -, hd⟩
  · rw [hd] at h
    cases h
  · rw [hd] at h
    cases h
  · rw [hd] at h
    cases h

theorem onBackend (call : Call MemoryStore α) : Fits (Action.onBackend call) := by
  intro s t h
  unfold Action.onBackend at h
  split at h
  · cases h
  · next e _ _ => cases e <;> cases h

theorem ask (d : Deadline) (call : Call MemoryStore α) : Fits (Action.ask d call) :=
  bind (check d) fun _ => onBackend call

theorem count (f : Counters → Counters) : Fits (Action.count f) := fun _ _ => nofun

end Fits

end Action

theorem Selection.sift_ne_overflow {owner : BranchId} {k : Nat} {taken rows : List Version}
    {c : Cursor} : sift owner k taken c rows ≠ .error .overflow := by
  induction rows generalizing taken c with
  | nil =>
    intro h
    cases h
  | cons v rest ih =>
    unfold sift
    split
    · exact ih
    split
    · intro h
      cases h
    dsimp only
    split
    · intro h
      cases h
    · exact ih

theorem Selection.sweep_fits (d : Deadline) (plan : Plan) (s : Span) (start : NodeId) (k : UInt64)
    (fuel : Nat) (after : Option Position) (taken : List Version) (c : Cursor) :
    Action.Fits (sweep d plan s start k fuel after taken c) := by
  induction fuel generalizing after taken c with
  | zero => exact .pure
  | succ fuel ih =>
    refine .bind (.ask d _) fun rows => .bind (.lift sift_ne_overflow) fun progress => ?_
    split
    · exact .pure
    · exact ih _ _ _

theorem Archive.requireRow_fits (d : Deadline) (q : Token) : Action.Fits (requireRow d q) := by
  refine .bind (.ask d _) fun row => ?_
  split
  · exact .pure
  · exact .throw nofun

theorem Archive.decodeToken_ne_overflow (bytes : Bytes) : decodeToken bytes ≠ .error .overflow := by
  unfold decodeToken
  cases Token.decode bytes <;> exact nofun

theorem Cursor.resume_ne_overflow (page : Bytes) (min : EventId) (n : Nat) :
    resume page min n ≠ .error .overflow := by
  unfold resume
  split
  · exact nofun
  · split
    · exact nofun
    · split <;> exact nofun

theorem Archive.resumeBelow_ne_overflow (page : Bytes) : resumeBelow page ≠ .error .overflow := by
  unfold resumeBelow
  split
  · exact nofun
  · split <;> exact nofun

/-! ## Side by side -/

namespace Checked

variable {α β : Type} {ts : Tables} {F W : Prop}

/-- The ends of a checked operation and of the plain one. Both end in one value, which satisfies
`R`, or in one error; or both end in an overflow: of the number of versions to fetch, for the reason
`F`, or of the next event, for the reason `W`. -/
inductive Matched (ts : Tables) (F W : Prop) (R : α → Prop) :
    EStateM.Result Error (State MemoryStore) (Except Overflow α) →
      EStateM.Result Error (State MemoryStore) α → Prop
  | value {a : α} {t : State MemoryStore} (ht : t.tables = ts) (ha : R a) :
    Matched ts F W R (.ok (.ok a) t) (.ok a t)
  | error {e : Error} {t : State MemoryStore} (he : e ≠ .overflow) :
    Matched ts F W R (.error e t) (.error e t)
  | fetchLimit {t : State MemoryStore} (h : F) :
    Matched ts F W R (.ok (.error ⟨.fetchLimit, UInt64.size⟩) t) (.error .overflow t)
  | nextEvent {t : State MemoryStore} (h : W) :
    Matched ts F W R (.ok (.error ⟨.nextEvent, Int64.maxValue.toInt + 1⟩) t) (.error .overflow t)

/-- On the tables `ts` the checked operation matches the plain one. -/
def Matches (ts : Tables) (F W : Prop) (x : Checked MemoryStore α) (y : Action MemoryStore α)
    (R : α → Prop) : Prop :=
  ∀ s : State MemoryStore, s.tables = ts → Matched ts F W R (x.run s) (y s)

theorem run_bind_apply (x : Checked MemoryStore α) (f : α → Checked MemoryStore β)
    (s : State MemoryStore) : (x >>= f).run s = match x.run s with
      | .ok (.ok a) t => (f a).run t
      | .ok (.error o) t => .ok (.error o) t
      | .error e t => .error e t := by
  rw [ExceptT.run_bind, Action.bind_apply]
  cases x.run s with
  | ok r t => cases r <;> rfl
  | error e t => rfl

theorem run_form_bind {q : Quantity} {value : Int} (hq : ¬ q.Fits value)
    (f : Unit → Checked MemoryStore α) (s : State MemoryStore) :
    (form q value >>= f).run s = .ok (.error ⟨q, value⟩) s := by
  rw [run_bind_apply, form, if_neg hq]
  rfl

namespace Matches

variable {R : α → Prop} {Q : β → Prop}

theorem pure {a : α} (ha : R a) : Matches ts F W (Pure.pure a) (Pure.pure a) R :=
  fun _ hs => .value hs ha

theorem imp {x : Checked MemoryStore α} {y : Action MemoryStore α} {R' : α → Prop}
    (h : Matches ts F W x y R) (hR : ∀ a, R a → R' a) : Matches ts F W x y R' := by
  intro s hs
  have h := h s hs
  generalize x.run s = r at h ⊢
  generalize y s = r' at h ⊢
  cases h with
  | value ht ha => exact .value ht (hR _ ha)
  | error he => exact .error he
  | fetchLimit h => exact .fetchLimit h
  | nextEvent h => exact .nextEvent h

theorem bind {x : Checked MemoryStore α} {y : Action MemoryStore α}
    {f : α → Checked MemoryStore β} {g : α → Action MemoryStore β} (hx : Matches ts F W x y R)
    (hf : ∀ a, R a → Matches ts F W (f a) (g a) Q) : Matches ts F W (x >>= f) (y >>= g) Q := by
  intro s hs
  have h := hx s hs
  rw [run_bind_apply, Action.bind_apply]
  generalize x.run s = r at h ⊢
  generalize y s = r' at h ⊢
  cases h with
  | value ht ha => exact hf _ ha _ ht
  | error he => exact .error he
  | fetchLimit h => exact .fetchLimit h
  | nextEvent h => exact .nextEvent h

theorem map {x : Checked MemoryStore α} {y : Action MemoryStore α} {f : α → β}
    (hx : Matches ts F W x y R) (hf : ∀ a, R a → Q (f a)) :
    Matches ts F W (f <$> x) (f <$> y) Q := by
  rw [map_eq_pure_bind, map_eq_pure_bind]
  exact hx.bind fun a ha => .pure (hf a ha)

theorem plain {act : Action MemoryStore α} (hfits : act.Fits) (h : Keeps (· = ts) act R) :
    Matches ts F W (plain act) act R := by
  intro s hs
  have hact := h s hs
  have hrun : (Checked.plain act).run = act >>= fun a => Pure.pure (.ok a) := rfl
  unfold Meets at hact
  rw [hrun, Action.bind_apply]
  cases hr : act s with
  | ok a t =>
    rw [hr] at hact
    exact .value hact.1 hact.2.2
  | error e t => exact .error fun he => hfits s t (he ▸ hr)

theorem throw_bind {e : Error} (he : e ≠ .overflow) {f : α → Checked MemoryStore β}
    {g : α → Action MemoryStore β} :
    Matches ts F W (Checked.plain (throw e) >>= f) (throw e >>= g) Q :=
  bind (R := fun _ => False) (plain (.throw he) .throw) fun _ h => h.elim

theorem lift {r : Except Error α} (hr : r ≠ .error .overflow) :
    Matches ts F W (Checked.plain (Action.lift r)) (Action.lift r) fun a => r = .ok a :=
  plain (.lift hr) (.lift fun _ ha => ha)

theorem count {f : Counters → Counters} :
    Matches ts F W (Checked.plain (Action.count f)) (Action.count f) fun _ => True :=
  plain (.count f) .count

theorem form {q : Quantity} {value : Int} (hq : q.Fits value) {x : Checked MemoryStore α}
    {y : Action MemoryStore α} (h : Matches ts F W x y R) :
    Matches ts F W (form q value >>= fun _ => x) y R := by
  rw [Checked.form, if_pos hq]
  exact h

theorem formAll {q : Quantity} {values : List Int} (hq : ∀ value ∈ values, q.Fits value)
    {x : Checked MemoryStore α} {y : Action MemoryStore α} (h : Matches ts F W x y R) :
    Matches ts F W (formAll q values >>= fun _ => x) y R := by
  induction values with
  | nil => exact h
  | cons value rest ih =>
    rw [Checked.formAll, bind_assoc]
    exact .form (hq value (List.mem_cons_self ..))
      (ih fun v hv => hq v (List.mem_cons_of_mem _ hv))

end Matches

theorem totals_fits {q : Quantity} {start : Nat} {ns : List Nat} (hlow : q.low = 0)
    (hbound : (start + ns.foldr (· + ·) 0 : Nat) < q.bound) :
    ∀ value ∈ totals start ns, q.Fits value := by
  induction ns generalizing start with
  | nil => exact nofun
  | cons n rest ih =>
    rw [List.foldr_cons, ← Nat.add_assoc] at hbound
    rw [totals, List.forall_mem_cons]
    refine ⟨⟨by rw [hlow]; omega, by omega⟩, ih hbound⟩

/-! ## Selecting -/

variable {d : Deadline}

theorem walk_matches {plan : Plan} {k : UInt64} {spans : List Span} {c c' : Cursor}
    {taken : List Version} {n : Nat} (hspans : ∀ s ∈ spans, s ∈ plan.spans)
    (hcount : c'.span.toNat + spans.length = n) (hn : n < UInt32.size)
    (h : Selection.Takes ts plan c taken c') :
    Matches ts F W (walk d plan k spans taken c') (Selection.walk d plan k spans taken c')
      fun sel => Selection.Takes ts plan c sel.versions sel.cursor ∧ sel.cursor.span.toNat ≤ n := by
  induction spans generalizing taken c' with
  | nil => exact .pure ⟨h, Nat.le_of_eq hcount⟩
  | cons s rest ih =>
    rw [List.length_cons] at hcount
    have hstart : s.start ≤ if s.start < c'.node.next then c'.node.next else s.start := by
      split
      · next hlt => exact Int64.le_of_lt hlt
      · exact Int64.le_refl _
    have hsweep := Selection.sweep_takes (d := d) (k := k) (hspans s (List.mem_cons_self ..)) hstart
      Selection.positions none h
    have hsize : UInt32.size = 2 ^ 32 := rfl
    refine .bind (.plain (Selection.sweep_fits _ _ _ _ _ _ _ _ _) hsweep) fun p hp => ?_
    obtain ⟨htakes, hspan⟩ := hp
    have hspan : p.cursor.span.toNat = c'.span.toNat := congrArg UInt32.toNat hspan
    split
    · exact .pure ⟨htakes, show p.cursor.span.toNat ≤ n by omega⟩
    · have hfits : Quantity.nextSpan.Fits (p.cursor.span.toNat + 1) := by
        simp only [Quantity.Fits, Quantity.low, Quantity.bound]
        omega
      have hnext : p.cursor.nextSpan.span.toNat = c'.span.toNat + 1 := by
        rw [Cursor.nextSpan, UInt32.toNat_add, UInt32.toNat_one, hspan, Nat.mod_eq_of_lt (by omega)]
      exact .form hfits (ih (fun u hu => hspans u (List.mem_cons_of_mem _ hu)) (by omega)
        htakes.nextSpan)

/-- A page is selected, unless there is no number for how much has to be fetched. -/
theorem page_matches {plan : Plan} {c : Cursor} {k : UInt64}
    (hc : c.span.toNat ≤ plan.spans.length) (hplan : plan.spans.length < UInt32.size) :
    Matches ts (k.toNat + 1 = UInt64.size) W (page d plan c k) (Selection.page d plan c k)
      fun sel => k.toNat + 1 < UInt64.size ∧ Selection.Takes ts plan c sel.versions sel.cursor ∧
        sel.cursor.span.toNat ≤ plan.spans.length := by
  have hlt := k.toNat_lt_size
  by_cases hk : k.toNat + 1 < UInt64.size
  · have hfits : Quantity.fetchLimit.Fits (k.toNat + 1) := by
      simp only [Quantity.Fits, Quantity.low, Quantity.bound]
      omega
    rw [Selection.page_of_lt hk]
    refine .form hfits ((walk_matches (fun s hs => List.mem_of_mem_drop hs) ?_ hplan
      (.none ts plan c)).imp fun sel hsel => ⟨hk, hsel⟩)
    rw [List.length_drop]
    omega
  · have hlargest : k.toNat + 1 = UInt64.size := by omega
    have hover : ¬ Quantity.fetchLimit.Fits (k.toNat + 1) := by
      simp only [Quantity.Fits, Quantity.low, Quantity.bound]
      omega
    intro s _
    rw [page, run_form_bind hover, show ((k.toNat : Int) + 1) = UInt64.size by omega,
      Selection.page_of_le (Nat.not_lt.1 hk)]
    exact .fetchLimit hlargest

theorem requireRow_matches {q : Token} :
    Matches ts F W (plain (Archive.requireRow d q)) (Archive.requireRow d q)
      fun row => ts.row? q.tree q.branch = some row :=
  .plain (Archive.requireRow_fits d q) (Archive.requireRow_keeps d q)

theorem plan_matches {req : ReadRequest}
    (hspans : ts.Carries fun t => t.spans.length < UInt32.size) :
    Matches ts F W (plan d req) (Archive.plan d req) fun plan =>
      firstEvent ≤ req.min ∧ req.min < req.max ∧ ∃ row, ts.Names req.token row ∧
        plan = .window row.token req.min req.max ∧ plan.spans.length < UInt32.size := by
  unfold plan Archive.plan
  split
  · refine .throw_bind ?_
    exact nofun
  · next hwindow =>
    simp only [not_or, Int64.not_lt, Int64.not_le] at hwindow
    refine .bind (.lift (Archive.decodeToken_ne_overflow _)) fun q hq => ?_
    rw [Archive.decodeToken_eq_ok_iff] at hq
    refine .bind requireRow_matches fun row hrow => ?_
    have hlength : row.token.lineage.length + 1 < UInt32.size := by
      have h : row.token.spans.length < UInt32.size := hspans _ _ _ hrow
      rwa [Token.spans, List.length_append, List.length_singleton] at h
    have hsize : UInt32.size < UInt64.size := by decide
    have hfits : Quantity.spanCount.Fits (row.token.lineage.length + 1) := by
      simp only [Quantity.Fits, Quantity.low, Quantity.bound]
      omega
    refine .form hfits (.pure ⟨hwindow.1, hwindow.2, row, ⟨q, hq, hrow⟩, rfl, ?_⟩)
    exact Nat.lt_of_le_of_lt (List.length_filterMap_le ..) (hspans _ _ _ hrow)

theorem fits_beforeWindow {min : EventId} (hmin : firstEvent ≤ min) :
    Quantity.beforeWindow.Fits (min.toInt - 1) := by
  have hfirst : firstEvent.toInt = 1 := by decide
  have hlast := min.toInt_lt
  rw [Int64.le_iff_toInt_le, hfirst] at hmin
  simp only [Quantity.Fits, Quantity.low, Quantity.bound, Selection.least, Selection.greatest]
  omega

theorem resume_matches {page : Bytes} {min : EventId} {n : Nat} (hmin : firstEvent ≤ min) :
    Matches ts F W (resume page min n) (Action.lift (Cursor.resume page min n))
      fun c => Cursor.resume page min n = .ok c := by
  have hlift : Matches ts F W (plain (Action.lift (Cursor.resume page min n)))
      (Action.lift (Cursor.resume page min n)) fun c => Cursor.resume page min n = .ok c :=
    .lift (Cursor.resume_ne_overflow page min n)
  unfold resume
  split
  · exact .form (fits_beforeWindow hmin) hlift
  · exact hlift

theorem span_le_of_resume {page : Bytes} {min : EventId} {n : Nat} {c : Cursor}
    (h : Cursor.resume page min n = .ok c) : c.span.toNat ≤ n := by
  unfold Cursor.resume at h
  split at h
  · cases h
    exact Nat.zero_le n
  · split at h
    · cases h
    · split at h
      · cases h
      · next hle =>
        cases h
        exact Nat.not_lt.1 hle

/-- What is selected for a page was taken from where the page resumes. -/
theorem selectPage_matches {a : Archive} {req : ReadRequest}
    (hspans : ts.Carries fun t => t.spans.length < UInt32.size) :
    Matches ts ((a.config.effectivePageSize req.pageSize).toNat + 1 = UInt64.size) W
      (selectPage a d req) (Archive.selectPage a d req) fun sel =>
        (a.config.effectivePageSize req.pageSize).toNat + 1 < UInt64.size ∧
        ∃ row c n, firstEvent ≤ req.min ∧ req.min < req.max ∧ ts.Names req.token row ∧
          Cursor.resume req.page req.min n = .ok c ∧
          Selection.Takes ts (.window row.token req.min req.max) c sel.versions sel.cursor := by
  refine .bind (plan_matches hspans) fun plan hplan => ?_
  obtain ⟨hmin, hmax, row, hrow, rfl, hlength⟩ := hplan
  refine .bind (resume_matches hmin) fun c hc => ?_
  refine .bind (page_matches (span_le_of_resume hc) hlength) fun sel hsel => ?_
  split
  · refine .throw_bind ?_
    exact nofun
  · exact .pure ⟨hsel.1, row, c, _, hmin, hmax, hrow, hc, hsel.2.1⟩

/-! ## Decoding -/

theorem decode_matches {codec : Codec} {last : EventId} {v : Version}
    (hW : last = Int64.maxValue → W) :
    Matches ts F W (decode codec last v) (Action.lift (Batch.decode codec last v))
      fun b => Batch.decode codec last v = .ok b := by
  have hlift : Batch.decode codec last v ≠ .error .overflow →
      Matches ts F W (plain (Action.lift (Batch.decode codec last v)))
        (Action.lift (Batch.decode codec last v)) fun b => Batch.decode codec last v = .ok b :=
    .lift
  unfold decode
  cases hevents : codec.decode v.blob with
  | error e =>
    refine hlift fun hover => ?_
    obtain ⟨-, events, first, h, -⟩ := Batch.decode_eq_overflow_iff.1 hover
    cases hevents.symm.trans h
  | ok events =>
    dsimp only
    cases hfirst : Batch.check events with
    | error fault =>
      refine hlift fun hover => ?_
      obtain ⟨-, events', first, h, hcheck, -⟩ := Batch.decode_eq_overflow_iff.1 hover
      cases hevents.symm.trans h
      cases hfirst.symm.trans hcheck
    | ok first =>
      dsimp only
      split
      · next hnode =>
        by_cases hlast : last = Int64.maxValue
        · have hover : ¬ Quantity.nextEvent.Fits (last.toInt + 1) := by
            rw [hlast]
            decide
          intro s _
          rw [run_form_bind hover,
            Batch.decode_eq_overflow_iff.2 ⟨hlast, events, first, hevents, hfirst, hnode⟩, hlast]
          exact .nextEvent (hW hlast)
        · have hnext := toInt_add_one hlast
          have hfits : Quantity.nextEvent.Fits (last.toInt + 1) := by
            have hlow := (last + 1).le_toInt
            have hhigh := (last + 1).toInt_lt
            simp only [Quantity.Fits, Quantity.low, Quantity.bound, Selection.least,
              Selection.greatest]
            omega
          exact .form hfits (hlift fun hover => hlast (Batch.decode_eq_overflow_iff.1 hover).1)
      · next hnode =>
        refine hlift fun hover => ?_
        obtain ⟨-, events', first', h, hcheck, hplace⟩ := Batch.decode_eq_overflow_iff.1 hover
        cases hevents.symm.trans h
        cases hfirst.symm.trans hcheck
        exact hnode hplace

theorem lift_bind {r : Except Error α} {f : α → Except Error β} :
    (Action.lift (r >>= f) : Action MemoryStore β) =
      Action.lift r >>= fun a => Action.lift (f a) := by
  cases r <;> rfl

/-- Versions of larger and larger nodes are decoded, unless one ends with the largest event and
another one follows. -/
theorem decodeAll_matches {codec : Codec} {last : EventId} {l : List Version}
    (hl : l.Pairwise fun v w => v.node < w.node) (hhead : last = Int64.maxValue → l ≠ [] → W)
    (hrest : ∀ v ∈ l, ∀ w ∈ l, v.node < w.node → v.EndsAt codec Int64.maxValue → W) :
    Matches ts F W (decodeAll codec last l) (Action.lift (Batch.decodeAll codec last l))
      fun r => Batch.Decodes codec last l r.1 r.2 := by
  induction l generalizing last with
  | nil => exact .pure .nil
  | cons v rest ih =>
    obtain ⟨hv, hascending⟩ := List.pairwise_cons.1 hl
    rw [Batch.decodeAll, lift_bind]
    refine .bind (decode_matches fun hlast => hhead hlast (List.cons_ne_nil v rest)) fun b hb => ?_
    rw [lift_bind]
    refine .form (Batch.fits_lastPlace hb) (.bind (ih hascending ?_ ?_) fun r hr => ?_)
    · intro hlast hne
      obtain ⟨w, hw⟩ := List.exists_mem_of_ne_nil _ hne
      exact hrest v (List.mem_cons_self ..) w (List.mem_cons_of_mem _ hw) (hv w hw)
        ⟨last, b, hb, hlast⟩
    · intro u hu w hw
      exact hrest u (List.mem_cons_of_mem _ hu) w (List.mem_cons_of_mem _ hw)
    · exact .pure (.cons hb hr)

/-! ## Reads -/

/-- Adding up the blobs of versions of larger and larger nodes. -/
theorem fits_sizes {t : TreeId} {spans : List Span} {vs : List Version}
    (hbytes : ts.bytes < UInt64.size) (hascending : vs.Pairwise fun v w => v.node < w.node)
    (hvs : ∀ v ∈ vs, ts.Covers t spans v) :
    ∀ value ∈ totals 0 (vs.map (·.blob.length)), Quantity.size.Fits value := by
  refine totals_fits rfl ?_
  have hle := Tables.foldr_le_bytes hascending hvs
  rw [List.foldr_map, Nat.zero_add]
  simp only [Quantity.bound]
  omega

theorem event_of_resume {page : Bytes} {min : EventId} {n : Nat} {c : Cursor}
    (hmin : firstEvent ≤ min) (h : Cursor.resume page min n = .ok c)
    (hevent : c.event = Int64.maxValue) : page ≠ [] ∧ Cursor.read.first page = .ok c := by
  unfold Cursor.resume at h
  split at h
  · cases h
    exact absurd hevent (Cursor.start_event_ne hmin)
  · next hpage =>
    refine ⟨fun hnil => hpage (by rw [hnil]; rfl), ?_⟩
    split at h
    · cases h
    · next c' hfirst =>
      split at h
      · cases h
      · cases h
        exact hfirst

section Forms

variable {a : Archive} {req : ReadRequest}
  (hspans : ts.Carries fun t => t.spans.length < UInt32.size) (hbytes : ts.bytes < UInt64.size)

include hspans hbytes

theorem readRaw_matches :
    Matches ts ((a.config.effectivePageSize req.pageSize).toNat + 1 = UInt64.size) W
      (readRaw a req) (Archive.readRaw a req) fun _ =>
        (a.config.effectivePageSize req.pageSize).toNat + 1 < UInt64.size := by
  refine .bind (selectPage_matches hspans) fun sel hsel => ?_
  obtain ⟨hsize, row, c, n, -, -, -, -, htakes⟩ := hsel
  refine .formAll (fits_sizes hbytes htakes.ascending htakes.covered) ?_
  exact .bind .count fun _ _ => .pure hsize

theorem readBatchesAs_matches {operation : String}
    (hclaims : (∃ c, req.page ≠ [] ∧ Cursor.read.first req.page = .ok c ∧
      c.event = Int64.maxValue) → W)
    (hexceeds : a.EndsEarly ts req → W) :
    Matches ts ((a.config.effectivePageSize req.pageSize).toNat + 1 = UInt64.size) W
      (readBatchesAs a operation req) (Archive.readBatchesAs a operation req) fun _ =>
        (a.config.effectivePageSize req.pageSize).toNat + 1 < UInt64.size := by
  refine .bind (selectPage_matches hspans) fun sel hsel => ?_
  obtain ⟨hsize, row, c, n, hmin, -, hrow, hresume, htakes⟩ := hsel
  have hholds : ∀ v ∈ sel.versions, ts.Holds row.token req.min req.max v :=
    fun v hv => Tables.covers_window_iff.1 (htakes.covered v hv)
  refine .bind (decodeAll_matches htakes.ascending ?_ ?_) fun r hr => ?_
  · intro hlast _
    rw [htakes.event] at hlast
    obtain ⟨hpage, hfirst⟩ := event_of_resume hmin hresume hlast
    exact hclaims ⟨c, hpage, hfirst, hlast⟩
  · intro v hv w hw hlt hends
    exact hexceeds ⟨row, hrow, v, w, hholds v hv, hholds w hw, hlt, hends⟩
  · refine .bind .count fun _ _ => ?_
    rw [hr.sizes]
    exact .formAll (fits_sizes hbytes htakes.ascending htakes.covered) (.pure hsize)

theorem readEvents_matches
    (hclaims : (∃ c, req.page ≠ [] ∧ Cursor.read.first req.page = .ok c ∧
      c.event = Int64.maxValue) → W)
    (hexceeds : a.EndsEarly ts req → W) :
    Matches ts ((a.config.effectivePageSize req.pageSize).toNat + 1 = UInt64.size) W
      (readEvents a req) (Archive.readEvents a req) fun _ =>
        (a.config.effectivePageSize req.pageSize).toNat + 1 < UInt64.size :=
  .bind (readBatchesAs_matches hspans hbytes hclaims hexceeds) fun _ hsize => .pure hsize

end Forms

/-- The whole window is decoded. What a backward read decodes are versions of larger and larger
nodes, from page to page. The event that a page starts from is the last one of an earlier page, so
it is the largest one only if a stored batch ends with it. -/
theorem readWindow_matches {a : Archive} {plan : Plan} (hplan : plan.spans.length < UInt32.size)
    (hexceeds : ∀ v w, ts.Covers plan.tree plan.spans v → ts.Covers plan.tree plan.spans w →
      v.node < w.node → v.EndsAt a.codec Int64.maxValue → W) (fuel : Nat) {c : Cursor}
    (hc : c.span.toNat ≤ plan.spans.length)
    (hlast : c.event = Int64.maxValue → ∃ v, ts.Covers plan.tree plan.spans v ∧
      v.node ≤ c.node ∧ v.EndsAt a.codec Int64.maxValue) :
    Matches ts (a.config.maxPageSize.toNat + 1 = UInt64.size) W (readWindow a d plan fuel c)
      (Archive.readWindow a d plan fuel c) fun bs =>
        (fuel ≠ 0 → a.config.maxPageSize.toNat + 1 < UInt64.size) ∧
        ∃ vs : List Version, bs.map (·.size) = vs.map (·.blob.length) ∧
          (vs.Pairwise fun v w => v.node < w.node) ∧
          ∀ v ∈ vs, c.node < v.node ∧ ts.Covers plan.tree plan.spans v := by
  induction fuel generalizing c with
  | zero => exact .pure ⟨fun h => absurd rfl h, [], rfl, .nil, nofun⟩
  | succ fuel ih =>
    refine .bind (page_matches hc hplan) fun sel hsel => ?_
    obtain ⟨hsize, htakes, hspan⟩ := hsel
    refine .bind (decodeAll_matches htakes.ascending ?_ ?_) fun r hr => ?_
    · intro hevent hne
      obtain ⟨w, hw⟩ := List.exists_mem_of_ne_nil _ hne
      rw [htakes.event] at hevent
      obtain ⟨v, hv, hle, hends⟩ := hlast hevent
      exact hexceeds v w hv (htakes.covered w hw)
        (Int64.lt_of_le_of_lt hle (htakes.behind w hw).1) hends
    · intro v hv w hw
      exact hexceeds v w (htakes.covered v hv) (htakes.covered w hw)
    · obtain ⟨bs, last⟩ := r
      have hbs : ∀ v ∈ sel.versions, c.node < v.node ∧ ts.Covers plan.tree plan.spans v :=
        fun v hv => ⟨(htakes.behind v hv).1, htakes.covered v hv⟩
      dsimp only at hr ⊢
      split
      · exact .pure ⟨fun _ => hsize, sel.versions, hr.sizes, htakes.ascending, hbs⟩
      · refine .bind (ih (c := { sel.cursor with event := last }) hspan ?_) fun rest hrest => ?_
        · intro hevent
          rcases hr.stop_cases with ⟨-, hstop⟩ | ⟨v, hv, hends⟩
          · rw [show last = c.event from hstop.trans htakes.event] at hevent
            obtain ⟨v, hv, hle, hends⟩ := hlast hevent
            exact ⟨v, hv, Int64.le_trans hle htakes.le, hends⟩
          · exact ⟨v, htakes.covered v hv, (htakes.behind v hv).2, hevent ▸ hends⟩
        · obtain ⟨-, vs, hvs, hascending, hbehind⟩ := hrest
          refine .pure ⟨fun _ => hsize, sel.versions ++ vs, ?_, ?_, ?_⟩
          · rw [List.map_append, List.map_append, hr.sizes, hvs]
          · refine List.pairwise_append.2 ⟨htakes.ascending, hascending, fun v hv w hw => ?_⟩
            exact Int64.lt_of_le_of_lt (htakes.behind v hv).2 (hbehind w hw).1
          · intro v hv
            rcases List.mem_append.1 hv with hv | hv
            · exact hbs v hv
            · exact ⟨Int64.lt_of_le_of_lt htakes.le (hbehind v hv).1, (hbehind v hv).2⟩

theorem readBackward_matches {a : Archive} {req : ReadRequest}
    (hspans : ts.Carries fun t => t.spans.length < UInt32.size) (hbytes : ts.bytes < UInt64.size)
    (hexceeds : a.EndsEarly ts req → W) :
    Matches ts (a.config.maxPageSize.toNat + 1 = UInt64.size) W (readBackward a req)
      (Archive.readBackward a req) fun _ => a.config.maxPageSize.toNat + 1 < UInt64.size := by
  refine .bind (plan_matches hspans) fun plan hplan => ?_
  obtain ⟨hmin, -, row, hrow, rfl, hlength⟩ := hplan
  have hexceeds : ∀ v w, ts.Covers (Plan.window row.token req.min req.max).tree
      (Plan.window row.token req.min req.max).spans v →
      ts.Covers (Plan.window row.token req.min req.max).tree
        (Plan.window row.token req.min req.max).spans w →
      v.node < w.node → v.EndsAt a.codec Int64.maxValue → W := by
    intro v w hv hw hlt hends
    exact hexceeds ⟨row, hrow, v, w, Tables.covers_window_iff.1 hv, Tables.covers_window_iff.1 hw,
      hlt, hends⟩
  refine .bind (.lift (Archive.resumeBelow_ne_overflow _)) fun below _ => ?_
  refine .form (fits_beforeWindow hmin) ?_
  refine .bind (readWindow_matches hlength hexceeds Selection.pages (Nat.zero_le _)
    fun h => absurd h (Cursor.start_event_ne hmin)) fun window hwindow => ?_
  obtain ⟨hsize, vs, hsizes, hascending, hbehind⟩ := hwindow
  have hsize := hsize (by decide)
  have hbytes : (window.map (·.size)).foldr (· + ·) 0 < UInt64.size := by
    rw [hsizes, List.foldr_map]
    have hle := Tables.foldr_le_bytes hascending fun v hv => (hbehind v hv).2
    omega
  -- of the batches on the page it only counts that they are part of the window, and how many
  have hleft : (window.reverse.filter (·.node < below)).Sublist window.reverse :=
    List.filter_sublist
  generalize window.reverse.filter (·.node < below) = left at hleft ⊢
  generalize a.config.effectivePageSize req.pageSize = k
  dsimp only
  have hbatches := (List.take_sublist k.toNat left).trans hleft
  have hcount := List.length_take_le k.toNat left
  generalize left.take k.toNat = batches at hbatches hcount ⊢
  refine .formAll (totals_fits rfl ?_) (.formAll (totals_fits rfl ?_) ?_)
  · have hle := foldr_le_of_sublist (f := Batch.size) hbatches
    rw [foldr_eq_of_perm window.reverse_perm] at hle
    rw [List.foldr_map] at hbytes ⊢
    simp only [Quantity.bound]
    omega
  · have hlt := k.toNat_lt_size
    rw [foldr_ones]
    simp only [Quantity.bound]
    omega
  · split
    · refine .throw_bind ?_
      exact nofun
    · exact .bind .count fun _ _ => .pure hsize

end Checked

/-! ## The bounds of reads -/

/-- Why a read may come to need an event after the largest one: so the stored batches, or so a page
token. -/
def ReadForm.Exceeds (a : Archive) (ts : Tables) (req : ReadRequest) : ReadForm → Prop
  | raw => False
  | batches | events => a.EndsEarly ts req ∨
      ∃ c, req.page ≠ [] ∧ Cursor.read.first req.page = .ok c ∧ c.event = Int64.maxValue
  | backward => a.EndsEarly ts req

theorem ReadForm.matches {a : Archive} {ts : Tables} {req : ReadRequest}
    (hspans : ts.Carries fun t => t.spans.length < UInt32.size) (hbytes : ts.bytes < UInt64.size)
    (form : ReadForm) :
    Checked.Matches ts ((form.fetchSize a req).toNat + 1 = UInt64.size) (form.Exceeds a ts req)
      (form.checked a req) ((form.request req).perform a)
      fun _ => (form.fetchSize a req).toNat + 1 < UInt64.size := by
  cases form with
  | raw => exact (Checked.readRaw_matches hspans hbytes).map fun _ h => h
  | batches => exact (Checked.readBatchesAs_matches hspans hbytes .inr .inl).map fun _ h => h
  | events => exact (Checked.readEvents_matches hspans hbytes .inr .inl).map fun _ h => h
  | backward => exact (Checked.readBackward_matches hspans hbytes id).map fun _ h => h

/-- **Two sums of a read can leave their range.** As long as the rows have fewer spans than can be
numbered and the stored blobs fit into memory, a checked read ends in the answer or in the error of
the read itself, and overflows exactly where the read does. One more than the page size has no
number if the page size is the largest number, and then no read is answered. The event after the
last one has none if a batch ends with the largest event and another one is stored behind its node,
or if a page token says so. -/
theorem Archive.reads_fit {a : Archive} {s : State MemoryStore}
    (hspans : s.tables.Carries fun t => t.spans.length < UInt32.size)
    (hbytes : s.tables.bytes < UInt64.size) (form : ReadForm) (req : ReadRequest) :
    (∃ reply t, (form.checked a req).run s = .ok (.ok reply) t ∧
        (form.request req).perform a s = .ok reply t ∧
        (form.fetchSize a req).toNat + 1 < UInt64.size) ∨
    (∃ e t, (form.checked a req).run s = .error e t ∧
        (form.request req).perform a s = .error e t ∧ e ≠ .overflow) ∨
    (∃ t, (form.checked a req).run s = .ok (.error ⟨.fetchLimit, UInt64.size⟩) t ∧
        (form.request req).perform a s = .error .overflow t ∧
        (form.fetchSize a req).toNat + 1 = UInt64.size) ∨
    ∃ t, (form.checked a req).run s = .ok (.error ⟨.nextEvent, Int64.maxValue.toInt + 1⟩) t ∧
      (form.request req).perform a s = .error .overflow t ∧ form.Exceeds a s.tables req := by
  have h : Checked.Matched s.tables ((form.fetchSize a req).toNat + 1 = UInt64.size)
      (form.Exceeds a s.tables req) (fun _ => (form.fetchSize a req).toNat + 1 < UInt64.size)
      ((form.checked a req).run s) ((form.request req).perform a s) :=
    form.matches hspans hbytes s rfl
  generalize (form.checked a req).run s = r at h ⊢
  generalize (form.request req).perform a s = r' at h ⊢
  cases h with
  | value ht ha => exact .inl ⟨_, _, rfl, rfl, ha⟩
  | error he => exact .inr (.inl ⟨_, _, rfl, rfl, he⟩)
  | fetchLimit hlargest => exact .inr (.inr (.inl ⟨_, rfl, rfl, hlargest⟩))
  | nextEvent hexceeds => exact .inr (.inr (.inr ⟨_, rfl, rfl, hexceeds⟩))

namespace Sample

def bare (id : EventId) : Event := ⟨id, 0, "", []⟩

/-- A batch ends with the largest event, and another one starts before that. -/
def overlapping : Run :=
  ⟨[.append ⟨1, 1, Forked.bytes root, 6, 5, false, ""⟩ (.events [bare 9223372036854775806]),
      .append ⟨1, 1, Forked.bytes root, 5, 0, true, ""⟩
        (.events [bare 9223372036854775805, bare 9223372036854775806, bare 9223372036854775807]),
      .newBranch "" "" "" .unset],
    [Forked.bytes root], by decide +kernel, by decide +kernel⟩

def lastNodes : ReadRequest :=
  ⟨Forked.bytes root, 9223372036854775805, 9223372036854775807, 0, []⟩

def boundless : Archive :=
  { archive with
    config := { Config.standard with maxPageSize := 18446744073709551615 }
    accepted := rfl }

def boundlessOperations : List Operation := [write root 1 5 0 [1], .newBranch "" "" "" .unset]

theorem overlapping_overflow :
    (ReadForm.batches.checked archive lastNodes).overflow? overlapping.state =
      some ⟨.nextEvent, Int64.maxValue.toInt + 1⟩ := by decide +kernel

end Sample

/-- The history of a batch that ends with the largest event goes on. -/
theorem Archive.reads_fit_overlapping :
    (Sample.overlapping.state.tables.Carries fun t => t.spans.length < UInt32.size) ∧
      Sample.overlapping.state.tables.bytes < UInt64.size ∧
      ∃ t, (ReadForm.batches.checked Sample.archive Sample.lastNodes).run
          Sample.overlapping.state = .ok (.error ⟨.nextEvent, Int64.maxValue.toInt + 1⟩) t ∧
        (ReadForm.batches.request Sample.lastNodes).perform Sample.archive
          Sample.overlapping.state = .error .overflow t ∧
        ReadForm.batches.Exceeds Sample.archive Sample.overlapping.state.tables
          Sample.lastNodes := by
  have hspans : Sample.overlapping.state.tables.Carries fun t => t.spans.length < UInt32.size := by
    have hdistinct := Sample.distinctDraws_four.mono
      (show Sample.overlapping.state.drawn ≤ 4 by decide +kernel)
    intro t b row hrow
    obtain ⟨bytes, hbytes, hdecode⟩ :=
      (Sample.overlapping.reaches.issues.pedigree hdistinct).rows t b row hrow
    rw [List.mem_singleton.1 hbytes, Sample.decode_root] at hdecode
    rw [← Except.ok.inj hdecode]
    decide
  have hbytes : Sample.overlapping.state.tables.bytes < UInt64.size := by decide +kernel
  have hover := Sample.overlapping_overflow
  unfold Checked.overflow? at hover
  refine ⟨hspans, hbytes, ?_⟩
  rcases reads_fit hspans hbytes .batches Sample.lastNodes with
    ⟨_, _, hrun, -⟩ | ⟨_, _, hrun, -⟩ | ⟨_, hrun, -⟩ | hnext
  · rw [hrun] at hover
    cases hover
  · rw [hrun] at hover
    cases hover
  · rw [hrun] at hover
    cases hover
  · exact hnext

/-- Both sums do leave their range in states of runs. -/
theorem Archive.reads_overflow :
    (Reaches Sample.archive Sample.overlapping.state Sample.overlapping.issued ∧
      (ReadForm.batches.checked Sample.archive Sample.lastNodes).overflow?
        Sample.overlapping.state = some ⟨.nextEvent, Int64.maxValue.toInt + 1⟩) ∧
    ∃ s issued, Reaches Sample.boundless s issued ∧
      (ReadForm.backward.checked Sample.boundless ⟨Forked.bytes Sample.root, 1, 2, 0, []⟩).overflow?
        s = some ⟨.fetchLimit, UInt64.size⟩ := by
  have hsound : Sample.boundless.isSound Sample.leases Sample.boundlessOperations = true := by
    decide +kernel
  have hover : (ReadForm.backward.checked Sample.boundless
      ⟨Forked.bytes Sample.root, 1, 2, 0, []⟩).overflow?
        (Sample.boundless.after Sample.leases Sample.boundlessOperations).1 =
      some ⟨.fetchLimit, UInt64.size⟩ := by decide +kernel
  exact ⟨⟨Sample.overlapping.reaches, Sample.overlapping_overflow⟩, _, _, reaches_after hsound,
    hover⟩

end Chronicle
