import Chronicle.Proofs.Action

/-!
# Interrupted operations

An armed fault lets some calls of an operation pass and fails the one after them, and so does a
delay with the looks at the deadline. Either ends the operation. What it changed until then stays,
and its caller repeats it.

* `Action.Settles`: what an operation does from given tables. It has one outcome, whatever the
  counters and locks are, as long as nothing interrupts it; and wherever it is interrupted, the
  tables satisfy a condition.
* `Course`: a way from one content to another that may be left at certain contents and leads to the
  same end from each of them, but for the dates of rows.
* `Action.Restarts.converges`: an operation that follows a course can be repeated until nothing
  interrupts it, and has the outcome of a single run then.
-/
namespace Chronicle

open Archive (State)

/-! ## Interruptions -/

/-- What an operation finds beside the tables and leaves alone: who may write, and what the calendar
shows. -/
structure Setting where
  leases : LeaseTable
  now : Timestamp

namespace Archive.State

def setting (s : State MemoryStore) : Setting := ⟨s.leases, s.now⟩

def dated (s : State MemoryStore) (now : Timestamp) : State MemoryStore := { s with now }

/-- The same state with this fault armed, or with none, and with this delay, or with none. -/
def armed (s : State MemoryStore) (fault : Option ArmedFault) (delay : Option Nat) :
    State MemoryStore :=
  { s with store := { s.store with fault }, delay }

/-- On the way from `s` to `t` the fault failed a call, or the delay let the deadline expire. -/
def Struck (s t : State MemoryStore) : Prop :=
  s.store.fault ≠ none ∧ t.store.fault = none ∨ s.delay ≠ none ∧ t.delay = none

instance (s t : State MemoryStore) : Decidable (Struck s t) :=
  inferInstanceAs (Decidable (_ ∨ _))

theorem Struck.not_unarmed {s t : State MemoryStore} (h : Struck s t) : ¬ s.Unarmed := by
  intro hs
  rcases h with ⟨hfault, -⟩ | ⟨hdelay, -⟩
  · exact hfault hs.1
  · exact hdelay hs.2

theorem not_struck {s t : State MemoryStore} (hfault : t.store.fault = none → s.store.fault = none)
    (hdelay : t.delay = none → s.delay = none) : ¬ Struck s t := by
  intro h
  rcases h with ⟨hne, heq⟩ | ⟨hne, heq⟩
  · exact hne (hfault heq)
  · exact hne (hdelay heq)

end Archive.State

open Archive.State (Struck not_struck)

namespace Action

variable {α β : Type}

theorem Calm.setting {s t : State MemoryStore} (h : Calm s t) : t.setting = s.setting := by
  rw [State.setting, h.leases, h.now, State.setting]

/-- What a fault or a delay interrupts. -/
def Interrupted (act : Action MemoryStore α) (s : State MemoryStore) : Prop :=
  Struck s (act.final s)

instance (act : Action MemoryStore α) (s : State MemoryStore) : Decidable (act.Interrupted s) :=
  inferInstanceAs (Decidable (Struck s (act.final s)))

/-- The states after any number of attempts at the operation, one after the other, at any moments,
each of which a new fault or a new delay interrupted. -/
inductive Attempts (act : Action MemoryStore α) (s : State MemoryStore) : State MemoryStore → Prop
  | none : Attempts act s s
  | interrupted {t : State MemoryStore} (h : Attempts act s t) (fault : Option ArmedFault)
      (delay : Option Nat) (now : Timestamp)
      (hcut : act.Interrupted ((t.armed fault delay).dated now)) :
      Attempts act s (act.final ((t.armed fault delay).dated now))

/-! ## Outcomes -/

/-- From `s` to `t` nothing interrupted the operation, and the tables are `us` now. -/
structure Undisturbed (s t : State MemoryStore) (us : Tables) : Prop where
  calm : Calm s t
  spared : ¬ Struck s t
  tables : t.tables = us

/-- Between `s` and `t` the operation was interrupted, and the tables satisfy `cut` now. -/
structure Disturbed (s t : State MemoryStore) (cut : Tables → Prop) : Prop where
  calm : Calm s t
  struck : Struck s t
  tables : cut t.tables

theorem Undisturbed.refl (s : State MemoryStore) : Undisturbed s s s.tables :=
  ⟨.refl s, not_struck id id, rfl⟩

theorem Undisturbed.aside {s : State MemoryStore} {ts : Tables} (hs : s.tables = ts)
    (counters : Counters) (locks : List BranchId) :
    Undisturbed s { s with counters, locks } ts :=
  ⟨⟨id, id, rfl, rfl, rfl⟩, not_struck id id, hs⟩

theorem Undisturbed.trans {s t u : State MemoryStore} {us vs : Tables} (h : Undisturbed s t us)
    (h' : Undisturbed t u vs) : Undisturbed s u vs := by
  refine ⟨h.calm.trans h'.calm, fun hstruck => ?_, h'.tables⟩
  -- what was there before both is there in between, or else the first one was interrupted
  rcases hstruck with ⟨hs, hu⟩ | ⟨hs, hu⟩
  · exact h'.spared (.inl ⟨fun ht => h.spared (.inl ⟨hs, ht⟩), hu⟩)
  · exact h'.spared (.inr ⟨fun ht => h.spared (.inr ⟨hs, ht⟩), hu⟩)

theorem Undisturbed.disturbed {s t u : State MemoryStore} {us : Tables} {cut : Tables → Prop}
    (h : Undisturbed s t us) (h' : Disturbed t u cut) : Disturbed s u cut := by
  refine ⟨h.calm.trans h'.calm, ?_, h'.tables⟩
  rcases h'.struck with ⟨ht, hu⟩ | ⟨ht, hu⟩
  · exact .inl ⟨fun hs => ht (h.calm.fault hs), hu⟩
  · exact .inr ⟨fun hs => ht (h.calm.delay hs), hu⟩

/-- From every state with the tables `ts` and this setting the operation ends in the same answer and
the same tables, in a value and tables that satisfy `ok` or in an error and tables that satisfy
`err`; unless it is interrupted, at whatever call, and then the tables satisfy `cut`. -/
def Settles (env : Setting) (act : Action MemoryStore α) (ts : Tables)
    (ok : α → Tables → Prop) (err cut : Tables → Prop) : Prop :=
  ∃ (r : Except Error α) (us : Tables),
    (match r with
      | .ok a => ok a us
      | .error _ => err us) ∧
    ∀ s : State MemoryStore, s.tables = ts → s.setting = env →
      Meets act s (fun a t => Undisturbed s t us ∧ r = .ok a) fun e t =>
        (Undisturbed s t us ∧ r = .error e) ∨ Disturbed s t cut

namespace Settles

variable {env : Setting} {ts : Tables} {ok : α → Tables → Prop} {err cut : Tables → Prop}

theorem pure {a : α} (h : ok a ts) : Settles env (Pure.pure a) ts ok err cut := by
  refine ⟨.ok a, ts, h, ?_⟩
  intro s hs _
  subst hs
  exact meets_pure.2 ⟨.refl s, rfl⟩

theorem throw {e : Error} (h : err ts) :
    Settles env (MonadExcept.throw e : Action MemoryStore α) ts ok err cut := by
  refine ⟨.error e, ts, h, ?_⟩
  intro s hs _
  subst hs
  exact meets_throw.2 (.inl ⟨.refl s, rfl⟩)

theorem bind {x : Action MemoryStore β} {f : β → Action MemoryStore α}
    (h : Settles env x ts (fun b us => Settles env (f b) us ok err cut) err cut) :
    Settles env (x >>= f) ts ok err cut := by
  obtain ⟨r, us, hr, hx⟩ := h
  cases r with
  | ok b =>
    obtain ⟨r', us', hr', hf⟩ := hr
    refine ⟨r', us', hr', ?_⟩
    intro s hs henv
    apply meets_bind.2
    apply (hx s hs henv).imp
    · intro a t h
      obtain ⟨ht, heq⟩ := h
      cases heq
      apply (hf t ht.tables (ht.calm.setting.trans henv)).imp
      · intro c u hu
        exact ⟨ht.trans hu.1, hu.2⟩
      · intro e u hu
        exact hu.imp (fun hu => ⟨ht.trans hu.1, hu.2⟩) ht.disturbed
    · intro e t h
      rcases h with ⟨-, heq⟩ | hcut
      · cases heq
      · exact .inr hcut
  | error e =>
    refine ⟨.error e, us, hr, ?_⟩
    intro s hs henv
    apply meets_bind.2
    apply (hx s hs henv).imp
    · intro a t h
      cases h.2
    · intro e' t h
      rcases h with ⟨ht, heq⟩ | hcut
      · cases heq
        exact .inl ⟨ht, rfl⟩
      · exact .inr hcut

theorem imp {act : Action MemoryStore α} {ok' : α → Tables → Prop} {err' cut' : Tables → Prop}
    (h : Settles env act ts ok err cut) (hok : ∀ a us, ok a us → ok' a us)
    (herr : ∀ us, err us → err' us) (hcut : ∀ us, cut us → cut' us) :
    Settles env act ts ok' err' cut' := by
  obtain ⟨r, us, hr, hact⟩ := h
  refine ⟨r, us, ?_, ?_⟩
  · cases r with
    | ok a => exact hok a us hr
    | error e => exact herr us hr
  · intro s hs henv
    apply (hact s hs henv).imp
    · intro a t h
      exact h
    · intro e t h
      exact h.imp id fun h => ⟨h.calm, h.struck, hcut _ h.tables⟩

theorem map {act : Action MemoryStore β} {f : β → α}
    (h : Settles env act ts (fun b => ok (f b)) err cut) :
    Settles env (f <$> act) ts ok err cut := by
  obtain ⟨r, us, hr, hact⟩ := h
  refine ⟨r.map f, us, ?_, ?_⟩
  · cases r with
    | ok b => exact hr
    | error e => exact hr
  · intro s hs henv
    apply meets_map.2
    apply (hact s hs henv).imp
    · intro b t h
      obtain ⟨ht, rfl⟩ := h
      exact ⟨ht, rfl⟩
    · intro e t h
      rcases h with ⟨ht, rfl⟩ | hcut
      · exact .inl ⟨ht, rfl⟩
      · exact .inr hcut

theorem discard {act : Action MemoryStore β} {ok : Unit → Tables → Prop}
    (h : Settles env act ts (fun _ => ok ()) err cut) :
    Settles env (Functor.discard act) ts ok err cut :=
  map h

theorem lift {r : Except Error α} (hok : ∀ a, r = .ok a → ok a ts)
    (herr : ∀ e, r = .error e → err ts) : Settles env (Action.lift r) ts ok err cut := by
  cases r with
  | ok a => exact pure (hok a rfl)
  | error e => exact throw (herr e rfl)

/-- A look at the deadline that is not over from the start, or it cuts the operation. -/
theorem check_inTime {d : Deadline} (hd : d.expired = false) {ok : Unit → Tables → Prop}
    (hok : ok () ts) (hcut : cut ts) : Settles env (Action.check d) ts ok err cut := by
  refine ⟨.ok (), ts, hok, ?_⟩
  intro s hs _
  subst hs
  unfold Meets Action.check
  rcases d.check_cases s.delay with ⟨h, -⟩ | ⟨-, later, h, hlater⟩ | ⟨-, hdelay, h⟩
  · cases h.symm.trans hd
  · rw [h]
    exact ⟨⟨⟨id, hlater.2, rfl, rfl, rfl⟩, not_struck id hlater.1, rfl⟩, rfl⟩
  · rw [h]
    refine .inr ⟨⟨id, fun _ => rfl, rfl, rfl, rfl⟩, .inr ⟨?_, rfl⟩, hcut⟩
    rw [hdelay]
    exact nofun

/-- A call is the table operation, or is cut before it changes anything. -/
theorem onBackend {f : Tables → α × Tables} (hok : ok (f ts).1 (f ts).2) (hcut : cut ts) :
    Settles env (Action.onBackend (MemoryStore.answer f)) ts ok err cut := by
  refine ⟨.ok (f ts).1, (f ts).2, hok, ?_⟩
  intro s hs _
  obtain ⟨⟨us, fault⟩, leases, counters, locks, drawn, delay, now⟩ := s
  cases (show us = ts from hs)
  unfold Meets
  rcases fault with _ | ⟨_ | n, failure⟩
  · exact ⟨⟨⟨id, id, rfl, rfl, rfl⟩, not_struck id id, rfl⟩, rfl⟩
  · exact .inr ⟨⟨nofun, id, rfl, rfl, rfl⟩, .inl ⟨nofun, rfl⟩, hcut⟩
  · exact ⟨⟨⟨nofun, id, rfl, rfl, rfl⟩, not_struck nofun id, rfl⟩, rfl⟩

theorem ask_inTime {d : Deadline} (hd : d.expired = false) {f : Tables → α × Tables}
    (hok : ok (f ts).1 (f ts).2) (hcut : cut ts) :
    Settles env (Action.ask d (MemoryStore.answer f)) ts ok err cut :=
  bind (check_inTime hd (onBackend hok hcut) hcut)

theorem check {d : Deadline} {ok : Unit → Tables → Prop} (hok : d.expired = false → ok () ts)
    (herr : d.expired = true → err ts) (hcut : cut ts) :
    Settles env (Action.check d) ts ok err cut := by
  by_cases hd : d.expired = true
  · refine ⟨.error (.timeout d.operation), ts, herr hd, ?_⟩
    intro s hs _
    subst hs
    unfold Meets
    rw [check_of_expired hd]
    exact .inl ⟨.refl s, rfl⟩
  · have hd := Bool.eq_false_iff.2 hd
    exact check_inTime hd (hok hd) hcut

theorem ask {d : Deadline} {f : Tables → α × Tables}
    (hok : d.expired = false → ok (f ts).1 (f ts).2) (herr : d.expired = true → err ts)
    (hcut : cut ts) : Settles env (Action.ask d (MemoryStore.answer f)) ts ok err cut :=
  bind (check (fun hd => onBackend (hok hd) hcut) herr hcut)

/-- Storing a row in time. It is created at the moment that the calendar shows. -/
theorem createRow_inTime {d : Deadline} (hd : d.expired = false) {token : Token} {info : String}
    {ok : Unit → Tables → Prop} (hok : ok () (ts.upsertRow ⟨token, info, env.now⟩))
    (hcut : cut ts) : Settles env (Archive.createRow d token info) ts ok err cut := by
  have hask : Settles env (Action.ask d (Backend.upsertBranch ⟨token, info, env.now⟩)) ts ok err
      cut :=
    ask_inTime hd hok hcut
  obtain ⟨r, us, hr, hrun⟩ := hask
  refine ⟨r, us, hr, ?_⟩
  intro s hs henv
  subst henv
  exact meets_bind.2 (meets_get.2 (hrun s hs rfl))

theorem count {f : Counters → Counters} {ok : Unit → Tables → Prop} (h : ok () ts) :
    Settles env (count f) ts ok err cut := by
  refine ⟨.ok (), ts, h, ?_⟩
  intro s hs _
  exact meets_count.2 ⟨.aside hs .., rfl⟩

theorem lock {b : BranchId} {ok : Unit → Tables → Prop} (h : ok () ts) :
    Settles env (Archive.lock b) ts ok err cut := by
  refine ⟨.ok (), ts, h, ?_⟩
  intro s hs _
  exact meets_lock.2 ⟨.aside hs .., rfl⟩

theorem unlock {b : BranchId} {ok : Unit → Tables → Prop} (h : ok () ts) :
    Settles env (Archive.unlock b) ts ok err cut := by
  refine ⟨.ok (), ts, h, ?_⟩
  intro s hs _
  exact meets_unlock.2 ⟨.aside hs .., rfl⟩

theorem checkLease {shard : ShardId} {lease : LeaseId} {ok : Unit → Tables → Prop}
    (hok : env.leases.current shard = some lease → ok () ts)
    (herr : env.leases.current shard ≠ some lease → err ts) :
    Settles env (Archive.checkLease shard lease) ts ok err cut := by
  by_cases hlease : env.leases.current shard = some lease
  · refine ⟨.ok (), ts, hok hlease, ?_⟩
    intro s hs henv
    subst hs henv
    exact meets_checkLease.2 ⟨fun _ => ⟨.refl s, rfl⟩, fun h => absurd hlease h⟩
  · refine ⟨.error (.ownershipLost shard lease (env.leases.current shard)), ts, herr hlease, ?_⟩
    intro s hs henv
    subst hs henv
    exact meets_checkLease.2
      ⟨fun h => absurd h hlease,
        fun _ => .inl ⟨.aside rfl .., rfl⟩⟩

theorem throw_bind {e : Error} {f : β → Action MemoryStore α} (h : err ts) :
    Settles env (MonadExcept.throw e >>= f) ts ok err cut :=
  bind (throw h)

/-- The operation on its own: from a state without an armed fault it is not interrupted. -/
theorem meets {act : Action MemoryStore α} {s : State MemoryStore}
    (h : Settles s.setting act s.tables ok err cut) (hs : s.Unarmed) :
    Meets act s (fun a t => t.Unarmed ∧ t.drawn = s.drawn ∧ ok a t.tables)
      fun _ t => t.Unarmed ∧ t.drawn = s.drawn ∧ err t.tables := by
  obtain ⟨r, us, hr, hact⟩ := h
  apply (hact s rfl rfl).imp
  · intro a t h
    obtain ⟨ht, rfl⟩ := h
    rw [ht.tables]
    exact ⟨ht.calm.unarmed hs, ht.calm.drawn, hr⟩
  · intro e t h
    rcases h with ⟨ht, rfl⟩ | hcut
    · rw [ht.tables]
      exact ⟨ht.calm.unarmed hs, ht.calm.drawn, hr⟩
    · exact absurd hs hcut.struck.not_unarmed

theorem runs {act : Action MemoryStore α} {k : Nat}
    (h : ∀ env, Settles env act ts ok err cut) :
    Runs act ts k (fun a us j => ok a us ∧ j = k) fun us j => err us ∧ j = k := by
  intro s hs hts hk
  subst hts hk
  apply ((h s.setting).meets hs).imp
  · intro a t h
    exact ⟨h.1, h.2.2, h.2.1⟩
  · intro e t h
    exact ⟨h.1, h.2.2, h.2.1⟩

/-- What holds of the tables at every end, with or without an interruption, is kept. -/
theorem keeps {act : Action MemoryStore α} {P : Tables → Prop} {R : α → Prop}
    (h : ∀ env ts, P ts → Settles env act ts (fun a us => P us ∧ R a) P P) :
    Keeps P act R := by
  intro s hs
  obtain ⟨r, us, hr, hact⟩ := h s.setting s.tables hs
  apply (hact s rfl rfl).imp
  · intro a t h
    obtain ⟨ht, rfl⟩ := h
    rw [ht.tables]
    exact ⟨hr.1, ht.calm, hr.2⟩
  · intro e t h
    rcases h with ⟨ht, rfl⟩ | hcut
    · rw [ht.tables]
      exact ⟨hr, ht.calm⟩
    · exact ⟨hcut.tables, hcut.calm⟩

/-- The outcome of the operation, and what is known of a run from a state. -/
theorem outcome {act : Action MemoryStore α} (h : Settles env act ts ok err cut) :
    ∃ (r : Except Error α) (us : Tables),
      (match r with
        | .ok a => ok a us
        | .error _ => err us) ∧
      ∀ s : State MemoryStore, s.tables = ts → s.setting = env →
        (act.final s).leases = env.leases ∧
        (¬ act.Interrupted s → act.answer s = r ∧ (act.final s).tables = us) ∧
        (act.Interrupted s → cut (act.final s).tables) := by
  obtain ⟨r, us, hr, hact⟩ := h
  refine ⟨r, us, hr, ?_⟩
  intro s hs henv
  have hleases : s.leases = env.leases := henv ▸ rfl
  have hrun : ∀ t, act.final s = t → Undisturbed s t us → act.answer s = r →
      (act.final s).leases = env.leases ∧
        (¬ act.Interrupted s → act.answer s = r ∧ (act.final s).tables = us) ∧
        (act.Interrupted s → cut (act.final s).tables) := by
    intro t ht h hanswer
    subst ht
    exact ⟨h.calm.leases.trans hleases, fun _ => ⟨hanswer, h.tables⟩,
      fun hcut => absurd hcut h.spared⟩
  rcases outcome_of_meets (hact s hs henv) with ⟨a, ha, h, rfl⟩ | ⟨e, he, ⟨h, rfl⟩ | h⟩
  · exact hrun _ rfl h ha
  · exact hrun _ rfl h he
  · exact ⟨h.calm.leases.trans hleases, fun hcut => absurd h.struck hcut, fun _ => h.tables⟩

end Settles

end Action

/-! ## Courses -/

/-- The same trees and versions, and the same rows but for the moments at which they were created.
-/
structure Tables.SameButDates (ts us : Tables) : Prop where
  hasTree : ∀ t, us.hasTree t = ts.hasTree t
  rows : ∀ t b, (us.row? t b).map (fun row => (row.token, row.info)) =
    (ts.row? t b).map fun row => (row.token, row.info)
  versions : ∀ t b n x, us.version? t b n x = ts.version? t b n x

theorem Tables.SameButDates.refl (ts : Tables) : ts.SameButDates ts :=
  ⟨fun _ => rfl, fun _ _ => rfl, fun _ _ _ _ => rfl⟩

theorem Tables.SameButDates.of_eq {ts us : Tables} (h : ts = us) : ts.SameButDates us :=
  h ▸ .refl ts

/-- A way from one content of the tables to another. It may be left at a stage, and then goes on
from there to the same end. -/
structure Course where
  /-- What is taken for granted of the contents. -/
  given : Tables → Prop
  /-- The contents that the way starts from. -/
  ready : Tables → Prop
  /-- The contents on the way. -/
  stage : Tables → Tables → Prop
  /-- The content at the end of the way. -/
  done : Tables → Tables → Prop
  keep : ∀ {ts us}, given ts → stage ts us → given us
  resume : ∀ {ts us}, given ts → ready ts → stage ts us → ready us
  advance : ∀ {ts us vs}, given ts → stage ts us → stage us vs → stage ts vs
  finish : ∀ {ts us vs}, given ts → stage ts us → done us vs → done ts vs
  unique : ∀ {ts us vs}, given ts → done ts us → done ts vs → us.SameButDates vs

def Course.refused : Course where
  given _ := True
  ready _ := False
  stage _ _ := False
  done _ _ := False
  keep _ h := h.elim
  resume _ _ h := h
  advance _ h _ := h
  finish _ h _ := h
  unique _ h _ := h.elim

namespace Action

variable {α β : Type} {leases : LeaseTable} {given : Tables → Prop}

/-- The operation goes a way, at whatever moment: where the way starts, to its end, unless it is
interrupted on the way; and elsewhere it is refused and changes nothing. -/
def Follows (leases : LeaseTable) (act : Action MemoryStore α) (c : Course) : Prop :=
  ∀ now ts, c.given ts → Settles ⟨leases, now⟩ act ts (fun _ us => c.ready ts ∧ c.done ts us)
    (fun us => ¬ c.ready ts ∧ us = ts) fun us => us = ts ∨ c.ready ts ∧ c.stage ts us

/-- The operation goes some way from contents that satisfy `given`, so it can be repeated after an
interruption. -/
def Restarts (leases : LeaseTable) (act : Action MemoryStore α) (given : Tables → Prop) : Prop :=
  ∃ c : Course, (∀ ts, given ts → c.given ts) ∧ Follows leases act c

/-- Every attempt is interrupted at the start or at a stage of the way. -/
theorem Follows.attempts {act : Action MemoryStore α} {c : Course} {s t : State MemoryStore}
    (h : Follows s.leases act c) (hgiven : c.given s.tables) (ht : Attempts act s t) :
    t.leases = s.leases ∧
      (t.tables = s.tables ∨ c.ready s.tables ∧ c.stage s.tables t.tables) := by
  induction ht with
  | none => exact ⟨rfl, .inl rfl⟩
  | @interrupted t _ fault delay now hcut ih =>
    obtain ⟨hleases, hstart⟩ := ih
    have hsetting : ((t.armed fault delay).dated now).setting = ⟨s.leases, now⟩ :=
      congrArg (Setting.mk · now) hleases
    rcases hstart with htables | ⟨hready, hstage⟩
    · obtain ⟨r, us, -, hrun⟩ := (h now _ hgiven).outcome
      obtain ⟨hleases', -, hcut'⟩ := hrun ((t.armed fault delay).dated now) htables hsetting
      exact ⟨hleases', hcut' hcut⟩
    · obtain ⟨r, us, -, hrun⟩ := (h now _ (c.keep hgiven hstage)).outcome
      obtain ⟨hleases', -, hcut'⟩ := hrun ((t.armed fault delay).dated now) rfl hsetting
      refine ⟨hleases', .inr ⟨hready, ?_⟩⟩
      rcases hcut' hcut with heq | ⟨-, hlater⟩
      · rw [heq]
        exact hstage
      · exact c.advance hgiven hstage hlater

namespace Restarts

theorem refused {act : Action MemoryStore α}
    (h : ∀ env ts, env.leases = leases →
      Settles env act ts (fun _ _ => False) (· = ts) (· = ts)) :
    Restarts leases act given := by
  refine ⟨.refused, fun _ _ => trivial, ?_⟩
  intro now ts _
  apply (h ⟨leases, now⟩ ts rfl).imp
  · intro a us h
    exact h.elim
  · intro us h
    exact ⟨not_false, h⟩
  · intro us h
    exact .inl h

/-- An operation that goes one of several ways, of which only one starts anywhere. -/
theorem of_unique {act : Action MemoryStore α} {ι : Type} (c : ι → Course)
    (hunique : ∀ i j ts us, (c i).ready ts → (c j).ready us → i = j)
    (hgiven : ∀ i ts us, (c i).ready us → given ts → (c i).given ts)
    (h : ∀ now ts,
      Settles ⟨leases, now⟩ act ts (fun _ us => ∃ i, (c i).ready ts ∧ (c i).done ts us)
      (fun us => us = ts ∧ ∀ i, ¬ (c i).ready ts)
      fun us => us = ts ∨ ∃ i, (c i).ready ts ∧ (c i).stage ts us) :
    Restarts leases act given := by
  by_cases hsome : ∃ i us, (c i).ready us
  · obtain ⟨i, start, hstart⟩ := hsome
    refine ⟨c i, fun ts => hgiven i ts start hstart, ?_⟩
    intro now ts _
    apply (h now ts).imp
    · intro a us h
      obtain ⟨j, hready, hdone⟩ := h
      obtain rfl := hunique i j start ts hstart hready
      exact ⟨hready, hdone⟩
    · intro us h
      exact ⟨h.2 i, h.1⟩
    · intro us h
      refine h.imp_right fun h => ?_
      obtain ⟨j, hready, hstage⟩ := h
      obtain rfl := hunique i j start ts hstart hready
      exact ⟨hready, hstage⟩
  · refine refused fun env ts henv => ?_
    subst henv
    apply (h env.now ts).imp
    · intro a us h
      obtain ⟨i, hready, -⟩ := h
      exact hsome ⟨i, ts, hready⟩
    · intro us h
      exact h.1
    · intro us h
      refine h.resolve_right fun h => ?_
      obtain ⟨i, hready, -⟩ := h
      exact hsome ⟨i, ts, hready⟩

theorem mono {act : Action MemoryStore α} {given' : Tables → Prop}
    (h : Restarts leases act given) (hgiven : ∀ ts, given' ts → given ts) :
    Restarts leases act given' := by
  obtain ⟨c, hc, hfollows⟩ := h
  exact ⟨c, fun ts hts => hc ts (hgiven ts hts), hfollows⟩

theorem throw_bind {e : Error} {f : β → Action MemoryStore α} :
    Restarts leases (MonadExcept.throw e >>= f) given :=
  refused fun _ _ _ => .throw_bind rfl

theorem throw {e : Error} : Restarts leases (MonadExcept.throw e : Action MemoryStore α) given :=
  refused fun _ _ _ => .throw rfl

theorem map {act : Action MemoryStore β} {f : β → α} (h : Restarts leases act given) :
    Restarts leases (f <$> act) given := by
  obtain ⟨c, hgiven, hfollows⟩ := h
  exact ⟨c, hgiven, fun now ts hts => .map (hfollows now ts hts)⟩

theorem checkLease {shard : ShardId} {lease : LeaseId} {act : Action MemoryStore α}
    (h : Restarts leases act given) :
    Restarts leases (do Archive.checkLease shard lease; act) given := by
  by_cases hlease : leases.current shard = some lease
  · obtain ⟨c, hgiven, hfollows⟩ := h
    exact ⟨c, hgiven, fun now ts hts =>
      .bind (.checkLease (fun _ => hfollows now ts hts) fun hne => absurd hlease hne)⟩
  · refine refused fun env ts henv => .bind (.checkLease (fun h => absurd h ?_) fun _ => rfl)
    rw [henv]
    exact hlease

theorem lift {r : Except Error β} {f : β → Action MemoryStore α}
    (h : ∀ b, r = .ok b → Restarts leases (f b) given) :
    Restarts leases (Action.lift r >>= f) given := by
  cases r with
  | ok b =>
    obtain ⟨c, hgiven, hfollows⟩ := h b rfl
    exact ⟨c, hgiven, fun now ts hts => .bind (.pure (hfollows now ts hts))⟩
  | error e => exact throw_bind

/-- **Repetitions converge.** An operation whose answer does not depend on the date, which was
interrupted any number of times and is repeated until nothing interrupts it, then succeeds exactly
if it does without interruptions, fails in the same error otherwise, and leaves the same tables but
for dates. -/
theorem converges {act : Action MemoryStore α} {s t : State MemoryStore}
    (h : Restarts s.leases act given) (hdates : ∀ now, act.answer (s.dated now) = act.answer s)
    (hs : s.Unarmed) (hgiven : given s.tables) (ht : Attempts act s t)
    {fault : Option ArmedFault} {delay : Option Nat} {now : Timestamp}
    (hlast : ¬ act.Interrupted ((t.armed fault delay).dated now)) :
    ((∃ a, act.answer ((t.armed fault delay).dated now) = .ok a) ↔ ∃ a, act.answer s = .ok a) ∧
      (∀ e, act.answer ((t.armed fault delay).dated now) = .error e ↔ act.answer s = .error e) ∧
      (act.final s).tables.SameButDates (act.final ((t.armed fault delay).dated now)).tables := by
  obtain ⟨c, hc, hfollows⟩ := h
  have hstart := hc _ hgiven
  have hfirst : ¬ act.Interrupted s := fun hcut => hcut.not_unarmed hs
  obtain ⟨hleases, htables⟩ := hfollows.attempts hstart ht
  have hsetting : ((t.armed fault delay).dated now).setting = ⟨s.leases, now⟩ :=
    congrArg (Setting.mk · now) hleases
  obtain ⟨r, us, hr, hrun⟩ := (hfollows s.now _ hstart).outcome
  obtain ⟨hanswer, hfinal⟩ := (hrun s rfl rfl).2.1 hfirst
  rcases htables with htables | ⟨hready, hstage⟩
  · obtain ⟨r', us', hr', hrun'⟩ := (hfollows now _ hstart).outcome
    obtain ⟨hanswer', hfinal'⟩ :=
      (hrun' ((t.armed fault delay).dated now) htables hsetting).2.1 hlast
    have hlater : ¬ act.Interrupted (s.dated now) := fun hcut => hcut.not_unarmed hs
    obtain rfl : r = r' :=
      hanswer.symm.trans ((hdates now).symm.trans ((hrun' (s.dated now) rfl rfl).2.1 hlater).1)
    rw [hanswer, hanswer', hfinal, hfinal']
    refine ⟨.rfl, fun _ => .rfl, ?_⟩
    cases r with
    | error e =>
      rw [hr.2, hr'.2]
      exact .refl _
    | ok a => exact c.unique hstart hr.2 hr'.2
  · obtain ⟨r', us', hr', hrun'⟩ := (hfollows now _ (c.keep hstart hstage)).outcome
    obtain ⟨hanswer', hfinal'⟩ := (hrun' ((t.armed fault delay).dated now) rfl hsetting).2.1 hlast
    rw [hanswer, hanswer', hfinal, hfinal']
    cases r with
    | error e => exact absurd hready hr.1
    | ok a =>
      cases r' with
      | error e => exact absurd (c.resume hstart hready hstage) hr'.1
      | ok b =>
        refine ⟨⟨fun _ => ⟨a, rfl⟩, fun _ => ⟨b, rfl⟩⟩, ?_, ?_⟩
        · intro e
          exact iff_of_false nofun nofun
        · exact c.unique hstart hr.2 (c.finish hstart hstage hr'.2)

end Restarts

end Action

end Chronicle
