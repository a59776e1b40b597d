import Chronicle.Archive.Basic
import Chronicle.Storage.MemoryStore

/-!
# Actions on tables in memory

How an operation on an archive whose backend is in memory is reasoned about, one call at a time.

* `Action.Meets`: what an operation does from one state, as a condition on the values and on the
  errors it ends in. `meets_bind` and `meets_ask` take it apart; without a fault or a delay
  (`meets_ask_unarmed`) every call is its table operation, unless the time is up from the start.
* `Action.Keeps`: a property of the tables that survives every end of the operation, at whatever
  call a fault or the deadline interrupts it.
* `Action.Lockstep`: an operation that reads only what two contents have in common answers the same
  on both, and a delay does nothing to it but let its deadline expire.
-/
namespace Chronicle

/-! ## States -/

namespace Archive.State

def tables (s : State MemoryStore) : Tables := s.store.tables

def withTables (s : State MemoryStore) (ts : Tables) : State MemoryStore :=
  { s with store := { s.store with tables := ts } }

/-- No fault is armed, and no operation takes so long that its deadline expires on the way. -/
def Unarmed (s : State MemoryStore) : Prop := s.store.fault = none ∧ s.delay = none

instance (s : State MemoryStore) : Decidable s.Unarmed :=
  inferInstanceAs (Decidable (s.store.fault = none ∧ s.delay = none))

@[simp] theorem withTables_withTables (s : State MemoryStore) (ts us : Tables) :
    (s.withTables ts).withTables us = s.withTables us := rfl

end Archive.State

/-! ## Tokens and time -/

namespace Archive

theorem mapError_eq_ok_iff {ε ε' α : Type} {f : ε → ε'} {r : Except ε α} {a : α} :
    r.mapError f = .ok a ↔ r = .ok a := by
  cases r with
  | ok b =>
    show (Except.ok b : Except ε' α) = .ok a ↔ _
    rw [Except.ok.injEq, Except.ok.injEq]
  | error e => exact iff_of_false nofun nofun

theorem bind_eq_ok_iff {ε α β : Type} {x : Except ε α} {f : α → Except ε β} {b : β} :
    (x >>= f) = .ok b ↔ ∃ a, x = .ok a ∧ f a = .ok b := by
  cases x with
  | error e => exact iff_of_false nofun nofun
  | ok a =>
    show f a = .ok b ↔ _
    simp only [Except.ok.injEq, exists_eq_left']

theorem decodeToken_eq_ok_iff {bytes : Bytes} {t : Token} :
    decodeToken bytes = .ok t ↔ Token.decode bytes = .ok t :=
  mapError_eq_ok_iff

theorem encodeToken_eq_ok_iff {t : Token} {bytes : Bytes} :
    encodeToken t = .ok bytes ↔ t.encode = .ok bytes :=
  mapError_eq_ok_iff

/-- The operations of the archive are not over before they start. -/
def InTime (a : Archive) : Prop := a.config.operationTimeoutMs ≠ some 0

instance (a : Archive) : Decidable a.InTime :=
  inferInstanceAs (Decidable (a.config.operationTimeoutMs ≠ some 0))

/-- The standard configuration with a time limit, and ids drawn in ascending order. -/
def timed (limit : Option UInt64) : Archive :=
  ⟨{ Config.standard with operationTimeoutMs := limit }, .fixedWidth, BitVec.ofNat 128, rfl⟩

theorem isZero_ofMillis {ms : UInt64} : (Duration.ofMillis ms).isZero = true ↔ ms = 0 := by
  have hmod := Nat.mod_lt ms.toNat (show 0 < 1000 by decide)
  have hlt : ms.toNat % 1000 * 1000000 < 2 ^ 32 :=
    Nat.lt_of_lt_of_le (Nat.mul_lt_mul_of_pos_right hmod (by decide)) (by decide)
  have hsum := Nat.div_add_mod ms.toNat 1000
  simp only [Duration.isZero, Duration.ofMillis, Bool.and_eq_true, decide_eq_true_eq,
    ← UInt64.toNat_inj, ← UInt32.toNat_inj, UInt64.toNat_div, UInt32.toNat_ofNat']
  rw [Nat.mod_eq_of_lt hlt]
  show ms.toNat / 1000 = 0 ∧ ms.toNat % 1000 * 1000000 = 0 ↔ ms.toNat = 0
  generalize ms.toNat = n at *
  constructor
  · intro h
    rw [← hsum, h.1, (Nat.mul_eq_zero.1 h.2).resolve_right (by decide)]
  · intro h
    rw [h]
    exact ⟨rfl, rfl⟩

theorem expired_iff {a : Archive} {operation : String} :
    (a.deadline operation).expired = true ↔ ¬ a.InTime := by
  unfold InTime Archive.deadline Deadline.after Deadline.expired Config.operationTimeout
  rw [Decidable.not_not]
  cases a.config.operationTimeoutMs with
  | none => simp
  | some ms => simp [isZero_ofMillis]

theorem InTime.not_expired {a : Archive} (h : a.InTime) (operation : String) :
    (a.deadline operation).expired = false := by
  rw [← Bool.not_eq_true, expired_iff]
  exact not_not_intro h

theorem InTime.of_not_expired {a : Archive} {operation : String}
    (h : (a.deadline operation).expired = false) : a.InTime := by
  apply Decidable.not_not.1
  rw [← expired_iff, h]
  exact Bool.false_ne_true

end Archive

namespace Action

open Archive (State)

variable {σ α β : Type}

/-- The state that an operation leaves, whether it succeeds or fails. -/
def final (act : Action σ α) (s : State σ) : State σ :=
  match act s with
  | .ok _ t => t
  | .error _ t => t

-- answers are compared when they are evaluated
deriving instance DecidableEq for Except

def answer (act : Action σ α) (s : State σ) : Except Error α :=
  match act s with
  | .ok a _ => .ok a
  | .error e _ => .error e

/-! ## One run -/

/-- From `s` the operation ends in a value and a state that satisfy `ok`, or in an error and a state
that satisfy `err`. -/
def Meets (act : Action σ α) (s : State σ) (ok : α → State σ → Prop)
    (err : Error → State σ → Prop) : Prop :=
  match act s with
  | .ok a t => ok a t
  | .error e t => err e t

section Meets

variable {s : State σ} {ok : α → State σ → Prop} {err : Error → State σ → Prop}

theorem Meets.imp {act : Action σ α} {ok' : α → State σ → Prop} {err' : Error → State σ → Prop}
    (h : Meets act s ok err) (hok : ∀ a t, ok a t → ok' a t) (herr : ∀ e t, err e t → err' e t) :
    Meets act s ok' err' := by
  unfold Meets at *
  split at h
  · exact hok _ _ h
  · exact herr _ _ h

theorem Meets.and {act : Action σ α} {ok' : α → State σ → Prop} {err' : Error → State σ → Prop}
    (h : Meets act s ok err) (h' : Meets act s ok' err') :
    Meets act s (fun a t => ok a t ∧ ok' a t) fun e t => err e t ∧ err' e t := by
  unfold Meets at *
  split at h
  · next heq => rw [heq] at h'; exact ⟨h, h'⟩
  · next heq => rw [heq] at h'; exact ⟨h, h'⟩

@[simp] theorem meets_pure {a : α} : Meets (pure a) s ok err ↔ ok a s := Iff.rfl

@[simp] theorem meets_throw {e : Error} : Meets (throw e) s ok err ↔ err e s := Iff.rfl

theorem bind_apply (x : Action σ β) (f : β → Action σ α) (s : State σ) :
    (x >>= f) s = match x s with
      | .ok a t => f a t
      | .error e t => .error e t := by
  show EStateM.bind x f s = _
  unfold EStateM.bind
  cases x s <;> rfl

theorem bind_of_ok {x : Action σ β} {f : β → Action σ α} {a : β} {t : State σ}
    (h : x s = .ok a t) : (x >>= f) s = f a t := by
  rw [bind_apply, h]

theorem bind_of_error {x : Action σ β} {f : β → Action σ α} {e : Error} {t : State σ}
    (h : x s = .error e t) : (x >>= f) s = .error e t := by
  rw [bind_apply, h]

theorem lift_of_ok {r : Except Error α} {a : α} (h : r = .ok a) (s : State σ) :
    lift r s = .ok a s := by
  rw [h]
  rfl

theorem ok_of_bind {x : Action σ β} {f : β → Action σ α} {a : α} {u : State σ}
    (h : (x >>= f) s = .ok a u) : ∃ b t, x s = .ok b t ∧ f b t = .ok a u := by
  rw [bind_apply] at h
  cases hx : x s with
  | ok b t =>
    rw [hx] at h
    exact ⟨b, t, rfl, h⟩
  | error e t =>
    rw [hx] at h
    cases h

theorem Meets.of_ok {x : Action σ α} {a : α} {t : State σ} (h : x s = .ok a t) (hok : ok a t) :
    Meets x s ok err := by
  unfold Meets
  rw [h]
  exact hok

theorem meets_bind {x : Action σ β} {f : β → Action σ α} :
    Meets (x >>= f) s ok err ↔ Meets x s (fun a t => Meets (f a) t ok err) err := by
  unfold Meets
  rw [bind_apply]
  cases x s <;> rfl

theorem meets_get {ok : State σ → State σ → Prop} : Meets get s ok err ↔ ok s s := Iff.rfl

theorem map_apply (f : β → α) (x : Action σ β) (s : State σ) :
    (f <$> x) s = match x s with
      | .ok b t => .ok (f b) t
      | .error e t => .error e t := by
  show EStateM.map f x s = _
  unfold EStateM.map
  cases x s <;> rfl

theorem ok_of_map {f : β → α} {x : Action σ β} {a : α} {t : State σ}
    (h : (f <$> x) s = .ok a t) : ∃ b, x s = .ok b t ∧ a = f b := by
  rw [map_apply] at h
  cases hx : x s with
  | ok b u =>
    rw [hx] at h
    cases h
    exact ⟨b, rfl, rfl⟩
  | error e u =>
    rw [hx] at h
    cases h

theorem answer_map (f : β → α) (x : Action σ β) :
    (f <$> x).answer s = (x.answer s).map f := by
  rw [answer, answer, map_apply]
  cases x s <;> rfl

theorem meets_map {x : Action σ β} {f : β → α} :
    Meets (f <$> x) s ok err ↔ Meets x s (fun a t => ok (f a) t) err := by
  unfold Meets
  rw [map_apply]
  cases x s <;> rfl

@[simp] theorem meets_count {f : Counters → Counters} {ok : Unit → State σ → Prop} :
    Meets (count f) s ok err ↔ ok () { s with counters := f s.counters } := Iff.rfl

@[simp] theorem meets_lock {b : BranchId} {ok : Unit → State σ → Prop} :
    Meets (Archive.lock b) s ok err ↔ ok () { s with locks := s.locks.insert b } := Iff.rfl

@[simp] theorem meets_unlock {b : BranchId} {ok : Unit → State σ → Prop} :
    Meets (Archive.unlock b) s ok err ↔ ok () { s with locks := s.locks.erase b } := Iff.rfl

@[simp] theorem meets_drawId {k : Kind} {a : Archive} {ok : Id k → State σ → Prop} :
    Meets a.drawId s ok err ↔
      ok (.random (a.source (s.drawn + 1))) { s with drawn := s.drawn + 1 } := Iff.rfl

theorem meets_checkLease {shard : ShardId} {lease : LeaseId} {ok : Unit → State σ → Prop} :
    Meets (Archive.checkLease shard lease) s ok err ↔
      (s.leases.current shard = some lease → ok () s) ∧
        (s.leases.current shard ≠ some lease →
          err (.ownershipLost shard lease (s.leases.current shard))
            { s with counters := s.counters.countRejection }) := by
  unfold Archive.checkLease
  rw [meets_bind, meets_get, LeaseTable.check]
  by_cases h : s.leases.current shard = some lease <;> simp [h, meets_bind]

end Meets

/-- What an operation meets is said of its answer and the state that it leaves. -/
theorem outcome_of_meets {act : Action σ α} {s : State σ} {ok : α → State σ → Prop}
    {err : Error → State σ → Prop} (h : Meets act s ok err) :
    (∃ a, act.answer s = .ok a ∧ ok a (act.final s)) ∨
      ∃ e, act.answer s = .error e ∧ err e (act.final s) := by
  unfold Meets at h
  unfold answer final
  cases hr : act s with
  | ok a t => rw [hr] at h; exact .inl ⟨a, rfl, h⟩
  | error e t => rw [hr] at h; exact .inr ⟨e, rfl, h⟩

/-! ## What survives a fault at any call -/

/-- On the way from `s` to `t` no fault was armed and no delay made, no id drawn and no lease
changed, and the calendar stood still. -/
structure Calm (s t : State MemoryStore) : Prop where
  fault : s.store.fault = none → t.store.fault = none
  delay : s.delay = none → t.delay = none
  drawn : t.drawn = s.drawn
  leases : t.leases = s.leases
  now : t.now = s.now

theorem Calm.refl (s : State MemoryStore) : Calm s s := ⟨id, id, rfl, rfl, rfl⟩

theorem Calm.trans {s t u : State MemoryStore} (h : Calm s t) (h' : Calm t u) : Calm s u :=
  ⟨fun hs => h'.fault (h.fault hs), fun hs => h'.delay (h.delay hs), h'.drawn.trans h.drawn,
    h'.leases.trans h.leases, h'.now.trans h.now⟩

theorem Calm.unarmed {s t : State MemoryStore} (h : Calm s t) (hs : s.Unarmed) : t.Unarmed :=
  ⟨h.fault hs.1, h.delay hs.2⟩

/-! ## One call -/

section Ask

variable {d : Deadline} {f : Tables → α × Tables} {s : State MemoryStore}
  {ok : α → State MemoryStore → Prop} {err : Error → State MemoryStore → Prop}

theorem check_of_expired (hd : d.expired = true) (s : State σ) :
    check d s = .error (.timeout d.operation) s := by
  unfold check
  rw [Deadline.check_of_expired hd]

theorem check_of_not_expired (hd : d.expired = false) {s : State σ} (hs : s.delay = none) :
    check d s = .ok () s := by
  unfold check
  rw [hs, Deadline.check_of_not_expired hd, ← hs]

theorem ask_of_expired {call : Call σ α} {s : State σ} (hd : d.expired = true) :
    ask d call s = .error (.timeout d.operation) s :=
  bind_of_error (check_of_expired hd s)

/-- A call in time, without a fault, is the table operation. -/
theorem ask_of_unarmed (hd : d.expired = false) (hs : s.Unarmed) :
    ask d (MemoryStore.answer f) s = .ok (f s.tables).1 (s.withTables (f s.tables).2) := by
  obtain ⟨⟨ts, fault⟩, leases, counters, locks, drawn, delay, now⟩ := s
  cases (show fault = none from hs.1)
  exact bind_of_ok (check_of_not_expired hd hs.2)

/-- A question in time, without a fault, is answered and changes nothing. -/
theorem ask_question (hd : d.expired = false) (hs : s.Unarmed) (g : Tables → α) :
    ask d (MemoryStore.answer fun ts => (g ts, ts)) s = .ok (g s.tables) s :=
  ask_of_unarmed hd hs

theorem meets_check {ok : Unit → State MemoryStore → Prop}
    (hok : ∀ t, Calm s t → t.tables = s.tables → ok () t)
    (herr : ∀ t, Calm s t → t.tables = s.tables → err (.timeout d.operation) t) :
    Meets (check d) s ok err := by
  unfold Meets check
  rcases d.check_cases s.delay with ⟨-, h⟩ | ⟨-, later, h, hlater⟩ | ⟨-, -, h⟩
  · rw [h]
    exact herr _ (.refl s) rfl
  · rw [h]
    exact hok _ ⟨id, hlater.2, rfl, rfl, rfl⟩ rfl
  · rw [h]
    exact herr _ ⟨id, fun _ => rfl, rfl, rfl, rfl⟩ rfl

/-- A call is the table operation, or fails and leaves the tables alone. -/
theorem meets_onBackend (hok : ∀ t, Calm s t → t.tables = (f s.tables).2 → ok (f s.tables).1 t)
    (herr : ∀ e t, Calm s t → t.tables = s.tables → err e t) :
    Meets (onBackend (MemoryStore.answer f)) s ok err := by
  obtain ⟨⟨ts, fault⟩, leases, counters, locks, drawn, delay, now⟩ := s
  unfold Meets
  rcases fault with _ | ⟨_ | n, failure⟩
  · exact hok _ ⟨id, id, rfl, rfl, rfl⟩ rfl
  · exact herr _ _ ⟨fun _ => rfl, id, rfl, rfl, rfl⟩ rfl
  · exact hok _ ⟨nofun, id, rfl, rfl, rfl⟩ rfl

/-- Any call: the table operation, or an error that leaves the tables alone. -/
theorem meets_ask (hok : ∀ t, Calm s t → t.tables = (f s.tables).2 → ok (f s.tables).1 t)
    (herr : ∀ e t, Calm s t → t.tables = s.tables → err e t) :
    Meets (ask d (MemoryStore.answer f)) s ok err := by
  apply meets_bind.2
  apply meets_check
  · intro t ht htables
    apply meets_onBackend
    · intro u hu hus
      rw [htables] at hus ⊢
      exact hok u (ht.trans hu) hus
    · intro e u hu hus
      exact herr e u (ht.trans hu) (hus.trans htables)
  · intro t ht htables
    exact herr _ t ht htables

theorem meets_ask_unarmed (hs : s.Unarmed) :
    Meets (ask d (MemoryStore.answer f)) s ok err ↔
      (d.expired = false → ok (f s.tables).1 (s.withTables (f s.tables).2)) ∧
        (d.expired = true → err (.timeout d.operation) s) := by
  unfold Meets
  cases hd : d.expired with
  | true => rw [ask_of_expired hd]; simp
  | false => rw [ask_of_unarmed hd hs]; simp

theorem meets_check_unarmed {ok : Unit → State MemoryStore → Prop} (hs : s.Unarmed) :
    Meets (check d) s ok err ↔
      (d.expired = false → ok () s) ∧ (d.expired = true → err (.timeout d.operation) s) := by
  unfold Meets
  cases hd : d.expired with
  | true => rw [check_of_expired hd]; simp
  | false => rw [check_of_not_expired hd hs.2]; simp

end Ask

/-- The operation keeps the property `P` of the tables, whatever it ends in, and a value that it
ends in satisfies `R`. -/
def Keeps (P : Tables → Prop) (act : Action MemoryStore α) (R : α → Prop) : Prop :=
  ∀ s, P s.tables →
    Meets act s (fun a t => P t.tables ∧ Calm s t ∧ R a) fun _ t => P t.tables ∧ Calm s t

namespace Keeps

variable {P : Tables → Prop} {R : α → Prop} {Q : β → Prop}

theorem pure {a : α} (h : R a) : Keeps P (Pure.pure a) R := by
  intro s hs
  exact ⟨hs, .refl s, h⟩

theorem throw {e : Error} : Keeps P (MonadExcept.throw e) R := by
  intro s hs
  exact ⟨hs, .refl s⟩

theorem bind {x : Action MemoryStore α} {f : α → Action MemoryStore β} (hx : Keeps P x R)
    (hf : ∀ a, R a → Keeps P (f a) Q) : Keeps P (x >>= f) Q := by
  intro s hs
  rw [meets_bind]
  apply (hx s hs).imp
  · intro a t h
    obtain ⟨ht, hcalm, ha⟩ := h
    apply (hf a ha t ht).imp
    · intro b u h'
      exact ⟨h'.1, hcalm.trans h'.2.1, h'.2.2⟩
    · intro e u h'
      exact ⟨h'.1, hcalm.trans h'.2⟩
  · intro e t h
    exact h

theorem lift {r : Except Error α} (h : ∀ a, r = .ok a → R a) : Keeps P (lift r) R := by
  cases r with
  | ok a => exact pure (h a rfl)
  | error e => exact throw

theorem ask {d : Deadline} {f : Tables → α × Tables}
    (h : ∀ ts, P ts → P (f ts).2 ∧ R (f ts).1) : Keeps P (ask d (MemoryStore.answer f)) R := by
  intro s hs
  apply meets_ask
  · intro t ht htables
    rw [htables]
    exact ⟨(h s.tables hs).1, ht, (h s.tables hs).2⟩
  · intro e t ht htables
    rw [htables]
    exact ⟨hs, ht⟩

theorem check {d : Deadline} : Keeps P (Action.check d) fun _ => True := by
  intro s hs
  apply meets_check
  · intro t ht htables
    rw [htables]
    exact ⟨hs, ht, trivial⟩
  · intro t ht htables
    rw [htables]
    exact ⟨hs, ht⟩

theorem call {d : Deadline} {f : Tables → α × Tables} (h : ∀ ts, P ts → P (f ts).2) :
    Keeps P (Action.ask d (MemoryStore.answer f)) fun _ => True := by
  apply ask
  intro ts hts
  exact ⟨h ts hts, trivial⟩

theorem question {d : Deadline} {g : Tables → α} (h : ∀ ts, P ts → R (g ts)) :
    Keeps P (Action.ask d (MemoryStore.answer fun ts => (g ts, ts))) R := by
  apply ask
  intro ts hts
  exact ⟨hts, h ts hts⟩

/-- What comes after what ends in no value does not matter. -/
theorem bind_of_false {x : Action MemoryStore α} {f : α → Action MemoryStore β}
    (hx : Keeps P x fun _ => False) : Keeps P (x >>= f) Q :=
  bind hx fun _ h => False.elim h

theorem of_expired {d : Deadline} (hd : d.expired = true) {f : Tables → α × Tables} :
    Keeps P (Action.ask d (MemoryStore.answer f)) R := by
  intro s hs
  unfold Meets
  rw [ask_of_expired hd]
  exact ⟨hs, .refl s⟩

theorem throw_bind {e : Error} {f : β → Action MemoryStore α} :
    Keeps P (MonadExcept.throw e >>= f) R :=
  bind (R := fun _ => False) throw fun _ h => h.elim

/-- Storing a row keeps what the table operation keeps, whatever the calendar shows. -/
theorem createRow {d : Deadline} {token : Token} {info : String}
    (h : ∀ now ts, P ts → P (ts.upsertRow ⟨token, info, now⟩)) :
    Keeps P (Archive.createRow d token info) fun _ => True := by
  intro s hs
  exact call (fun ts hts => h s.now ts hts) s hs

theorem count {f : Counters → Counters} : Keeps P (count f) fun _ => True := by
  intro s hs
  exact ⟨hs, ⟨id, id, rfl, rfl, rfl⟩, trivial⟩

theorem lock {b : BranchId} : Keeps P (Archive.lock b) fun _ => True := by
  intro s hs
  exact ⟨hs, ⟨id, id, rfl, rfl, rfl⟩, trivial⟩

theorem checkLease {shard : ShardId} {lease : LeaseId} :
    Keeps P (Archive.checkLease shard lease) fun _ => True := by
  intro s hs
  rw [meets_checkLease]
  refine ⟨?_, ?_⟩
  · intro _
    exact ⟨hs, .refl s, trivial⟩
  · intro _
    exact ⟨hs, id, id, rfl, rfl, rfl⟩

theorem final {act : Action MemoryStore α} (h : Keeps P act R) {s : State MemoryStore}
    (hs : P s.tables) : P (act.final s).tables := by
  rcases outcome_of_meets (h s hs) with ⟨a, -, ha⟩ | ⟨e, -, he⟩
  · exact ha.1
  · exact he.1

end Keeps

/-! ## What an operation does without faults -/

/-- From every state with the tables `ts`, with `k` ids drawn and without a fault or a delay, the
operation ends in a value, tables and a number of drawn ids that satisfy `ok`, or in an error,
tables and a number that satisfy `err`. It arms no fault. -/
def Runs (act : Action MemoryStore α) (ts : Tables) (k : Nat) (ok : α → Tables → Nat → Prop)
    (err : Tables → Nat → Prop) : Prop :=
  ∀ s : State MemoryStore, s.Unarmed → s.tables = ts → s.drawn = k →
    Meets act s (fun a t => t.Unarmed ∧ ok a t.tables t.drawn) fun _ t =>
      t.Unarmed ∧ err t.tables t.drawn

namespace Runs

variable {ts : Tables} {k : Nat} {ok : α → Tables → Nat → Prop} {err : Tables → Nat → Prop}

theorem pure {a : α} (h : ok a ts k) : Runs (Pure.pure a) ts k ok err := by
  intro s hs hts hk
  subst hts hk
  exact ⟨hs, h⟩

theorem throw {e : Error} (h : err ts k) : Runs (MonadExcept.throw e) ts k ok err := by
  intro s hs hts hk
  subst hts hk
  exact ⟨hs, h⟩

theorem bind {x : Action MemoryStore β} {f : β → Action MemoryStore α}
    (h : Runs x ts k (fun b us j => Runs (f b) us j ok err) err) : Runs (x >>= f) ts k ok err := by
  intro s hs hts hk
  rw [meets_bind]
  apply (h s hs hts hk).imp
  · intro b t ht
    exact ht.2 t ht.1 rfl rfl
  · intro e t ht
    exact ht

theorem imp {act : Action MemoryStore α} {ok' : α → Tables → Nat → Prop}
    {err' : Tables → Nat → Prop} (h : Runs act ts k ok err)
    (hok : ∀ a us j, ok a us j → ok' a us j) (herr : ∀ us j, err us j → err' us j) :
    Runs act ts k ok' err' := by
  intro s hs hts hk
  apply (h s hs hts hk).imp
  · intro a t ht
    exact ⟨ht.1, hok _ _ _ ht.2⟩
  · intro e t ht
    exact ⟨ht.1, herr _ _ ht.2⟩

theorem map {act : Action MemoryStore β} {f : β → α}
    (h : Runs act ts k (fun b => ok (f b)) err) : Runs (f <$> act) ts k ok err := by
  intro s hs hts hk
  exact meets_map.2 (h s hs hts hk)

theorem lift {r : Except Error α} (hok : ∀ a, r = .ok a → ok a ts k) (herr : err ts k) :
    Runs (lift r) ts k ok err := by
  cases r with
  | ok a => exact pure (hok a rfl)
  | error e => exact throw herr

theorem ask {d : Deadline} {f : Tables → α × Tables}
    (hok : d.expired = false → ok (f ts).1 (f ts).2 k) (herr : d.expired = true → err ts k) :
    Runs (ask d (MemoryStore.answer f)) ts k ok err := by
  intro s hs hts hk
  subst hts hk
  rw [meets_ask_unarmed hs]
  refine ⟨?_, ?_⟩
  · intro hd
    exact ⟨hs, hok hd⟩
  · intro hd
    exact ⟨hs, herr hd⟩

theorem ask_inTime {d : Deadline} (hd : d.expired = false) {f : Tables → α × Tables}
    (hok : ok (f ts).1 (f ts).2 k) : Runs (Action.ask d (MemoryStore.answer f)) ts k ok err := by
  apply ask
  · intro _
    exact hok
  · intro hexpired
    rw [hd] at hexpired
    cases hexpired

theorem createRow_inTime {d : Deadline} (hd : d.expired = false) {token : Token} {info : String}
    {ok : Unit → Tables → Nat → Prop}
    (hok : ∀ now, ok () (ts.upsertRow ⟨token, info, now⟩) k) :
    Runs (Archive.createRow d token info) ts k ok err := by
  intro s hs hts hk
  exact meets_bind.2 (meets_get.2 (ask_inTime hd (hok s.now) s hs hts hk))

theorem throw_bind {e : Error} {f : β → Action MemoryStore α} (h : err ts k) :
    Runs (MonadExcept.throw e >>= f) ts k ok err :=
  bind (throw h)

theorem count {f : Counters → Counters} {ok : Unit → Tables → Nat → Prop} (h : ok () ts k) :
    Runs (count f) ts k ok err := by
  intro s hs hts hk
  subst hts hk
  exact ⟨hs, h⟩

theorem drawId {a : Archive} {κ : Kind} {ok : Id κ → Tables → Nat → Prop}
    (h : ok (.random (a.source (k + 1))) ts (k + 1)) : Runs a.drawId ts k ok err := by
  intro s hs hts hk
  subst hts hk
  exact ⟨hs, h⟩

theorem meets {act : Action MemoryStore α} {s : State MemoryStore}
    (h : Runs act s.tables s.drawn ok err) (hs : s.Unarmed) :
    Meets act s (fun a t => t.Unarmed ∧ ok a t.tables t.drawn) fun _ t =>
      t.Unarmed ∧ err t.tables t.drawn :=
  h s hs rfl rfl

theorem and_keeps {act : Action MemoryStore α} {P : Tables → Prop} {R : α → Prop}
    (h : Runs act ts k ok err) (hkeeps : Keeps P act R) (hP : P ts) :
    Runs act ts k (fun a us j => ok a us j ∧ P us) err := by
  intro s hs hts hk
  subst hts hk
  apply ((h s hs rfl rfl).and (hkeeps s hP)).imp
  · intro a t ht
    exact ⟨ht.1.1, ht.1.2, ht.2.1⟩
  · intro e t ht
    exact ht.1

theorem of_keeps {act : Action MemoryStore α} {R : α → Prop} (h : Keeps (· = ts) act R)
    (hok : ∀ a, R a → ok a ts k) (herr : err ts k) : Runs act ts k ok err := by
  intro s hs hts hk
  subst hts hk
  apply (h s rfl).imp
  · intro a t ht
    obtain ⟨htables, hcalm, ha⟩ := ht
    refine ⟨hcalm.unarmed hs, ?_⟩
    rw [htables, hcalm.drawn]
    exact hok a ha
  · intro e t ht
    obtain ⟨htables, hcalm⟩ := ht
    refine ⟨hcalm.unarmed hs, ?_⟩
    rw [htables, hcalm.drawn]
    exact herr

end Runs

/-! ## What two contents have in common -/

def onTables (us : Tables) :
    EStateM.Result Error (State MemoryStore) α → EStateM.Result Error (State MemoryStore) α
  | .ok a t => .ok a (t.withTables us)
  | .error e t => .error e (t.withTables us)

def onDelay (later : Option Nat) :
    EStateM.Result Error (State MemoryStore) α → EStateM.Result Error (State MemoryStore) α
  | .ok a t => .ok a { t with delay := later }
  | .error e t => .error e { t with delay := later }

/-- From `s` the operation does what it does without a delay, or the delay lets its deadline expire
on the way. -/
def Punctual (act : Action MemoryStore α) (s : State MemoryStore) : Prop :=
  (∃ later, (later = none ↔ s.delay = none) ∧
      act s = onDelay later (act { s with delay := none })) ∨
    ∃ operation t, act s = .error (.timeout operation) t ∧ s.delay ≠ none ∧ t.delay = none

/-- The operation changes no table, ends on the tables `us` in what it ends in on `ts`, and a value
that it ends in satisfies `R`. -/
structure Lockstep (ts us : Tables) (act : Action MemoryStore α) (R : α → Prop) : Prop where
  keeps : Keeps (· = ts) act R
  same : ∀ s : State MemoryStore, s.tables = ts → act (s.withTables us) = onTables us (act s)
  punctual : ∀ s : State MemoryStore, s.tables = ts → Punctual act s

namespace Punctual

theorem of_eq {act : Action MemoryStore α} {s : State MemoryStore}
    (h : act s = onDelay s.delay (act { s with delay := none })) : Punctual act s :=
  .inl ⟨s.delay, Iff.rfl, h⟩

/-- What comes after a part that is in time decides, and it starts with what is left of the delay.
-/
theorem bind {x : Action MemoryStore β} {f : β → Action MemoryStore α} {s : State MemoryStore}
    (hx : Punctual x s) (hprompt : Punctual x { s with delay := none })
    (hf : ∀ b t, x s = .ok b t → Punctual (f b) t) : Punctual (x >>= f) s := by
  rcases hx with ⟨later, hlater, heq⟩ | ⟨operation, t, heq, hs, ht⟩
  · cases hr : x { s with delay := none } with
    | error e u =>
      rw [hr] at heq
      refine .inl ⟨later, hlater, ?_⟩
      rw [bind_of_error heq, bind_of_error hr]
      rfl
    | ok b u =>
      -- without a delay none is left over
      have hu : u.delay = none := by
        rcases hprompt with ⟨rest, hrest, hstart⟩ | ⟨_, _, -, hne, -⟩
        · rw [hr] at hstart
          have hdelay : u.delay = rest :=
            congrArg Archive.State.delay (EStateM.Result.ok.inj hstart).2
          exact hdelay.trans (hrest.2 rfl)
        · exact absurd rfl hne
      have hu' : ({ u with delay := none } : State MemoryStore) = u := by
        rw [← hu]
      rw [hr] at heq
      rcases hf b _ heq with ⟨rest, hrest, hact⟩ | ⟨operation, t, hact, hne, ht⟩
      · refine .inl ⟨rest, hrest.trans hlater, ?_⟩
        rw [bind_of_ok heq, bind_of_ok hr, hact, hu']
      · exact .inr ⟨operation, t, (bind_of_ok heq).trans hact, fun hs => hne (hlater.2 hs), ht⟩
  · exact .inr ⟨operation, t, bind_of_error heq, hs, ht⟩

theorem check {d : Deadline} (s : State MemoryStore) : Punctual (check d) s := by
  unfold Punctual
  rcases d.check_cases s.delay with ⟨hd, h⟩ | ⟨hd, later, h, hlater⟩ | ⟨-, hdelay, h⟩
  · refine .inl ⟨s.delay, Iff.rfl, ?_⟩
    rw [check_of_expired hd, check_of_expired hd]
    rfl
  · refine .inl ⟨later, hlater, ?_⟩
    have hprompt : Action.check d { s with delay := none } = .ok () { s with delay := none } :=
      check_of_not_expired hd rfl
    rw [hprompt, Action.check, h]
    rfl
  · refine .inr ⟨d.operation, { s with delay := none }, ?_, ?_, rfl⟩
    · rw [Action.check, h]
    · rw [hdelay]
      exact nofun

theorem onBackend (g : Tables → α) (s : State MemoryStore) :
    Punctual (onBackend (MemoryStore.answer fun ts => (g ts, ts))) s := by
  obtain ⟨⟨ts, fault⟩, leases, counters, locks, drawn, delay, now⟩ := s
  rcases fault with _ | ⟨_ | n, failure⟩ <;> exact .of_eq rfl

end Punctual

namespace Lockstep

variable {ts us : Tables} {R : α → Prop} {Q : β → Prop}

theorem pure {a : α} (h : R a) : Lockstep ts us (Pure.pure a) R :=
  ⟨Keeps.pure h, fun _ _ => rfl, fun _ _ => .of_eq rfl⟩

theorem throw {e : Error} : Lockstep ts us (MonadExcept.throw e : Action MemoryStore α) R :=
  ⟨Keeps.throw, fun _ _ => rfl, fun _ _ => .of_eq rfl⟩

theorem bind {x : Action MemoryStore α} {f : α → Action MemoryStore β} (hx : Lockstep ts us x R)
    (hf : ∀ a, R a → Lockstep ts us (f a) Q) : Lockstep ts us (x >>= f) Q where
  keeps := by
    apply hx.keeps.bind
    intro a ha
    exact (hf a ha).keeps
  same := by
    intro s hs
    have hkeeps := hx.keeps s hs
    rw [bind_apply, bind_apply, hx.same s hs]
    unfold Meets at hkeeps
    cases hr : x s with
    | ok a t =>
      rw [hr] at hkeeps
      exact (hf a hkeeps.2.2).same t hkeeps.1
    | error e t => rfl
  punctual := by
    intro s hs
    apply (hx.punctual s hs).bind (hx.punctual _ hs)
    intro a t hr
    have hkeeps := hx.keeps s hs
    unfold Meets at hkeeps
    rw [hr] at hkeeps
    exact (hf a hkeeps.2.2).punctual t hkeeps.1

theorem lift {r : Except Error α} (h : ∀ a, r = .ok a → R a) :
    Lockstep ts us (Action.lift r) R := by
  cases r with
  | ok a => exact pure (h a rfl)
  | error e => exact throw

theorem lift_any {r : Except Error α} : Lockstep ts us (Action.lift r) fun _ => True :=
  lift fun _ _ => trivial

/-- Only the token that the bytes are is decoded from them. -/
theorem decodeToken {bytes : Bytes} {t : Token} (h : Token.decode bytes = .ok t) :
    Lockstep ts us (Action.lift (Archive.decodeToken bytes)) (· = t) := by
  apply lift
  intro u hu
  rw [Archive.decodeToken_eq_ok_iff, h] at hu
  exact (Except.ok.inj hu).symm

theorem throw_bind {e : Error} {f : β → Action MemoryStore α} :
    Lockstep ts us (MonadExcept.throw e >>= f) R :=
  bind (R := fun _ => False) throw fun _ h => h.elim

theorem count {f : Counters → Counters} : Lockstep ts us (count f) fun _ => True :=
  ⟨Keeps.count, fun _ _ => rfl, fun _ _ => .of_eq rfl⟩

theorem check {d : Deadline} : Lockstep ts us (Action.check d) fun _ => True := by
  refine ⟨Keeps.check, ?_, fun s _ => .check s⟩
  intro s _
  obtain ⟨store, leases, counters, locks, drawn, delay, now⟩ := s
  unfold Action.check State.withTables
  dsimp only
  rcases d.check delay with ⟨_ | _, later⟩ <;> rfl

theorem ask {d : Deadline} {g : Tables → α} (h : g us = g ts) (hR : R (g ts)) :
    Lockstep ts us (ask d (MemoryStore.answer fun ts => (g ts, ts))) R := by
  refine bind check fun _ _ => ⟨?_, ?_, fun s _ => .onBackend g s⟩
  · intro s hs
    subst hs
    apply meets_onBackend
    · intro t ht htables
      exact ⟨htables, ht, hR⟩
    · intro e t ht htables
      exact ⟨htables, ht⟩
  · intro s hs
    obtain ⟨⟨vs, fault⟩, leases, counters, locks, drawn, delay, now⟩ := s
    cases (show vs = ts from hs)
    rcases fault with _ | ⟨_ | n, failure⟩
    · exact congrArg (fun a => EStateM.Result.ok a _) h
    · rfl
    · exact congrArg (fun a => EStateM.Result.ok a _) h

theorem answer_eq {act : Action MemoryStore α} (h : Lockstep ts us act R)
    (s : State MemoryStore) : act.answer (s.withTables us) = act.answer (s.withTables ts) := by
  have := h.same (s.withTables ts) rfl
  rw [Archive.State.withTables_withTables] at this
  unfold Action.answer
  rw [this]
  cases act (s.withTables ts) <;> rfl

end Lockstep

-- what an operation meets is found by its rules, not by running it
attribute [irreducible] Meets

end Action

end Chronicle
