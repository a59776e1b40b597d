import Chronicle.Proofs.Action

/-!
# Fencing

A writer whose lease was lost must never pass the check again. Of a shard only its last lease is
recorded, so this rests on how that one changes: its number grows, or it is released and stays so
until the number grows. Numbers are 64 bits wide; behind the largest one no lease is given out.

* `Lease.Leads`: what becomes of the last lease of a shard.
* `Change.leads_last`: one change; `leads_last_after`: a run of changes.
* `leases_never_return`: what the check and `acquire` can rely on.
-/
namespace Chronicle

/-- The last lease of a shard can change from `l` to `m`: the number grows, or it stays and a
released lease is not held again. -/
def Lease.Leads (l m : Lease) : Prop :=
  l.number < m.number ∨ l.number = m.number ∧ (m.held = true → l.held = true)

namespace Lease.Leads

theorem refl (l : Lease) : l.Leads l := .inr ⟨rfl, id⟩

theorem trans {l m n : Lease} (h : l.Leads m) (h' : m.Leads n) : l.Leads n := by
  rcases h with hlt | ⟨heq, hheld⟩ <;> rcases h' with hlt' | ⟨heq', hheld'⟩
  · exact .inl (Int64.lt_trans hlt hlt')
  · exact .inl (heq' ▸ hlt)
  · exact .inl (heq ▸ hlt')
  · exact .inr ⟨heq.trans heq', fun hn => hheld (hheld' hn)⟩

theorem number_le {l m : Lease} (h : l.Leads m) : l.number ≤ m.number := by
  rcases h with hlt | ⟨heq, -⟩
  · exact Int64.le_of_lt hlt
  · exact heq ▸ Int64.le_refl _

end Lease.Leads

namespace LeaseTable

/-! ## The last lease of a shard -/

theorem last_insert (t : LeaseTable) (s shard : ShardId) (l : Lease) :
    (⟨t.leases.insert s l⟩ : LeaseTable).last shard = if shard = s then l else t.last shard := by
  unfold last
  rw [SortedMap.get?_insert]
  split <;> rfl

/-- An acquired lease is later than the last one, and the last one from then on. -/
theorem acquire_eq_ok {t u : LeaseTable} {s : ShardId} {number : LeaseId}
    (h : t.acquire s = .ok (number, u)) : (t.last s).number < number ∧
      ∀ shard, u.last shard = if shard = s then ⟨number, true⟩ else t.last shard := by
  unfold acquire at h
  dsimp only at h
  split at h
  · cases h
  next hmax =>
  cases h
  refine ⟨?_, fun shard => last_insert ..⟩
  rw [Int64.lt_iff_toInt_lt, toInt_add_one hmax]
  exact Int.lt_succ _

theorem exists_acquire_iff {t : LeaseTable} {shard : ShardId} :
    (∃ number u, t.acquire shard = .ok (number, u)) ↔
      (t.last shard).number ≠ Int64.maxValue := by
  unfold acquire
  dsimp only
  split
  · next hmax =>
    refine iff_of_false (fun h => ?_) (not_not_intro hmax)
    obtain ⟨number, u, h⟩ := h
    cases h
  · next hmax => exact iff_of_true ⟨_, _, rfl⟩ hmax

/-- An assigned lease is later than every lease so far, or confirms the one that is held. -/
theorem assign_eq_ok {t u : LeaseTable} {s : ShardId} {number : LeaseId}
    (h : t.assign s number = .ok u) : (t.last s).Leads ⟨number, true⟩ ∧
      ∀ shard, u.last shard = if shard = s then ⟨number, true⟩ else t.last shard := by
  unfold assign at h
  dsimp only at h
  split at h
  · cases h
  next hlater =>
  cases h
  rw [not_or, Int64.not_lt, not_and, Bool.not_eq_false] at hlater
  obtain ⟨hle, hheld⟩ := hlater
  refine ⟨?_, fun shard => last_insert ..⟩
  rcases Int64.lt_or_eq_of_le hle with hlt | heq
  · exact .inl hlt
  · exact .inr ⟨heq, fun _ => hheld heq.symm⟩

theorem last_release (t : LeaseTable) (s shard : ShardId) :
    (t.release s).last shard =
      if shard = s then { t.last s with held := false } else t.last shard := by
  unfold release last
  rw [SortedMap.get?_alter]
  split
  · cases t.leases.get? s <;> rfl
  · rfl

theorem current_eq_some_iff {t : LeaseTable} {shard : ShardId} {l : LeaseId} :
    t.current shard = some l ↔ t.last shard = ⟨l, true⟩ := by
  unfold current
  obtain ⟨number, held⟩ := t.last shard
  cases held <;> simp

theorem check_eq_ok_iff {t : LeaseTable} {shard : ShardId} {l : LeaseId} :
    t.check shard l = .ok () ↔ t.last shard = ⟨l, true⟩ := by
  rw [← current_eq_some_iff, check]
  split
  · next h => exact iff_of_true rfl h
  · next h =>
    refine iff_of_false (fun hok => ?_) h
    cases hok

/-- A lease that was lost stays lost, whatever its shard's last lease leads to. -/
theorem check_of_leads {t u v : LeaseTable} {shard : ShardId} {l : LeaseId}
    (hheld : t.check shard l = .ok ()) (hu : (t.last shard).Leads (u.last shard))
    (hlost : u.check shard l ≠ .ok ()) (hv : (u.last shard).Leads (v.last shard)) :
    v.check shard l = .error (.ownershipLost shard l (v.current shard)) := by
  rw [check_eq_ok_iff] at hheld
  rw [Ne, check_eq_ok_iff] at hlost
  rw [check, if_neg]
  intro hback
  rw [current_eq_some_iff] at hback
  rw [hheld] at hu
  rw [hback] at hv
  -- the number comes back to `l`, so it was `l` in between, and the lease was held in between
  have hnumber : (u.last shard).number = l := Int64.le_antisymm hv.number_le hu.number_le
  rcases hv with hlt | ⟨-, hkept⟩
  · exact Int64.lt_irrefl (hnumber ▸ hlt)
  · apply hlost
    rw [← hnumber, ← hkept rfl]

/-! ## Changes -/

inductive Change where
  | acquire (shard : ShardId)
  | assign (shard : ShardId) (number : LeaseId)
  | release (shard : ShardId)
  deriving DecidableEq, Repr

namespace Change

/-- The leases after the change; one that is refused changes none. -/
def apply : Change → LeaseTable → LeaseTable
  | .acquire s, t => match t.acquire s with
    | .ok (_, u) => u
    | .error _ => t
  | .assign s number, t => match t.assign s number with
    | .ok u => u
    | .error _ => t
  | .release s, t => t.release s

/-- The lease of `shard` that the change hands out. -/
def handsOut (shard : ShardId) : Change → LeaseTable → Option LeaseId
  | .acquire s, t => match t.acquire s with
    | .ok (number, _) => if shard = s then some number else none
    | .error _ => none
  | .assign s number, t => match t.assign s number with
    | .ok _ => if shard = s then some number else none
    | .error _ => none
  | .release _, _ => none

/-- What a change hands out is the last lease of the shard, and held. Otherwise the number stays. -/
theorem last_apply (c : Change) (t : LeaseTable) (shard : ShardId) :
    (∃ l, c.handsOut shard t = some l ∧ (c.apply t).last shard = ⟨l, true⟩) ∨
      c.handsOut shard t = none ∧ ((c.apply t).last shard).number = (t.last shard).number := by
  cases c with
  | acquire s =>
    rw [apply, handsOut]
    cases h : t.acquire s with
    | error e => exact .inr ⟨rfl, rfl⟩
    | ok p =>
      dsimp only
      rw [(acquire_eq_ok h).2]
      split
      · exact .inl ⟨_, rfl, rfl⟩
      · exact .inr ⟨rfl, rfl⟩
  | assign s number =>
    rw [apply, handsOut]
    cases h : t.assign s number with
    | error e => exact .inr ⟨rfl, rfl⟩
    | ok u =>
      dsimp only
      rw [(assign_eq_ok h).2]
      split
      · exact .inl ⟨_, rfl, rfl⟩
      · exact .inr ⟨rfl, rfl⟩
  | release s =>
    refine .inr ⟨rfl, ?_⟩
    rw [apply, last_release]
    split
    · next h => rw [h]
    · rfl

/-- **A change.** The number of the last lease grows, or stays and a released lease is not held
again. -/
theorem leads_last (c : Change) (t : LeaseTable) (shard : ShardId) :
    (t.last shard).Leads ((c.apply t).last shard) := by
  cases c with
  | acquire s =>
    rw [apply]
    cases hacquire : t.acquire s with
    | error e => exact .refl _
    | ok p =>
      obtain ⟨hlt, hlast⟩ := acquire_eq_ok hacquire
      dsimp only
      rw [hlast]
      split
      · next hs => exact .inl (hs ▸ hlt)
      · exact .refl _
  | assign s number =>
    rw [apply]
    cases hassign : t.assign s number with
    | error e => exact .refl _
    | ok u =>
      obtain ⟨hleads, hlast⟩ := assign_eq_ok hassign
      dsimp only
      rw [hlast]
      split
      · next hs => exact hs ▸ hleads
      · exact .refl _
  | release s =>
    rw [apply, last_release]
    split
    · next hs => exact .inr ⟨hs ▸ rfl, nofun⟩
    · exact .refl _

end Change

/-! ## Runs of changes -/

def after : LeaseTable → List Change → LeaseTable
  | t, [] => t
  | t, c :: cs => after (c.apply t) cs

/-- The leases of `shard` that changes hand out. -/
def handedOut (shard : ShardId) : LeaseTable → List Change → List LeaseId
  | _, [] => []
  | t, c :: cs => (c.handsOut shard t).toList ++ handedOut shard (c.apply t) cs

variable {shard : ShardId} {t : LeaseTable} {cs : List Change}

theorem after_append (t : LeaseTable) (cs ds : List Change) :
    t.after (cs ++ ds) = (t.after cs).after ds := by
  induction cs generalizing t with
  | nil => rfl
  | cons c cs ih => exact ih _

/-- **A run.** What one change does to the last lease of a shard, a run does. -/
theorem leads_last_after (shard : ShardId) (t : LeaseTable) (cs : List Change) :
    (t.last shard).Leads ((t.after cs).last shard) := by
  induction cs generalizing t with
  | nil => exact .refl _
  | cons c cs ih => exact (c.leads_last t shard).trans (ih _)

/-- No lease that was handed out is later than the last one. -/
theorem le_last_of_handedOut {l : LeaseId} (hl : l ∈ handedOut shard t cs) :
    l ≤ ((t.after cs).last shard).number := by
  induction cs generalizing t with
  | nil => cases hl
  | cons c cs ih =>
    rw [handedOut, List.mem_append, Option.mem_toList] at hl
    rcases hl with hl | hl
    · rcases c.last_apply t shard with ⟨m, hm, hlast⟩ | ⟨hnone, -⟩
      · have hleads := leads_last_after shard (c.apply t) cs
        rw [hm, Option.some.injEq] at hl
        rw [hlast, hl] at hleads
        exact hleads.number_le
      · rw [hnone] at hl
        cases hl
    · exact ih hl

/-- The last lease was handed out, or is the one that there was before. -/
theorem last_handedOut (shard : ShardId) (t : LeaseTable) (cs : List Change) :
    ((t.after cs).last shard).number = (t.last shard).number ∨
      ((t.after cs).last shard).number ∈ handedOut shard t cs := by
  induction cs generalizing t with
  | nil => exact .inl rfl
  | cons c cs ih =>
    rw [after, handedOut, List.mem_append, Option.mem_toList]
    rcases ih (c.apply t) with hbefore | hrest
    · rcases c.last_apply t shard with ⟨m, hm, hlast⟩ | ⟨-, hnumber⟩
      · rw [hbefore, hlast, hm]
        exact .inr (.inl rfl)
      · exact .inl (hbefore.trans hnumber)
    · exact .inr (.inr hrest)

/-- The largest number is the last one exactly if it was handed out. -/
theorem last_eq_maxValue_iff (shard : ShardId) (cs : List Change) :
    ((empty.after cs).last shard).number = Int64.maxValue ↔
      Int64.maxValue ∈ handedOut shard .empty cs := by
  constructor
  · intro hmax
    have hstart : (empty.last shard).number ≠ Int64.maxValue := by
      show (0 : LeaseId) ≠ Int64.maxValue
      decide
    have hlast := last_handedOut shard .empty cs
    rw [hmax] at hlast
    exact hlast.resolve_left hstart.symm
  · intro hmem
    exact Int64.le_antisymm (Int64.le_maxValue _) (le_last_of_handedOut hmem)

/-- **Leases never come back.** In every run of changes, for every shard: a lease that `acquire`
gives is later than every one that was handed out before, and it gives one until the largest number
was handed out; and a lease that passed the check, and then did not pass it any more, is refused
ever after. -/
theorem leases_never_return (shard : ShardId) (cs : List Change) :
    (∀ number u, (empty.after cs).acquire shard = .ok (number, u) →
        ∀ l ∈ handedOut shard .empty cs, l < number) ∧
      ((∃ number u, (empty.after cs).acquire shard = .ok (number, u)) ↔
        Int64.maxValue ∉ handedOut shard .empty cs) ∧
      ∀ (since later : List Change) (l : LeaseId),
        (empty.after cs).check shard l = .ok () →
        (empty.after (cs ++ since)).check shard l ≠ .ok () →
        (empty.after (cs ++ since ++ later)).check shard l =
          .error (.ownershipLost shard l ((empty.after (cs ++ since ++ later)).current shard)) := by
  refine ⟨?_, ?_, ?_⟩
  · intro number u hacquire l hl
    exact Int64.lt_of_le_of_lt (le_last_of_handedOut hl) (acquire_eq_ok hacquire).1
  · rw [exists_acquire_iff, Ne, last_eq_maxValue_iff]
  · intro since later l hheld hlost
    rw [after_append] at hlost
    rw [after_append, after_append]
    exact check_of_leads hheld (leads_last_after ..) hlost (leads_last_after ..)

/-- A shard is taken over from the holder of lease 5, released, taken over again, and gets the
largest number at last. Nobody takes it over then, and lease 5 is refused as before. -/
theorem leases_never_return_takeover :
    let cs : List Change := [.assign 2 5]
    let since : List Change := [.acquire 2]
    let later : List Change := [.release 2, .acquire 2, .acquire 1, .assign 2 5]
    let last : List Change := [.assign 2 Int64.maxValue, .acquire 2, .assign 2 5]
    (empty.after cs).check 2 5 = .ok () ∧
      (∃ u, (empty.after (cs ++ since ++ later)).acquire 2 = .ok (8, u)) ∧
      (∀ l ∈ handedOut 2 .empty (cs ++ since ++ later), l < 8) ∧
      (empty.after (cs ++ since ++ later)).check 2 5 = .error (.ownershipLost 2 5 (some 7)) ∧
      ¬ (∃ number u, (empty.after (cs ++ since ++ (later ++ last))).acquire 2 = .ok (number, u)) ∧
      (empty.after (cs ++ since ++ (later ++ last))).check 2 5 =
        .error (.ownershipLost 2 5 (some Int64.maxValue)) := by
  intro cs since later last
  have hacquire : (empty.after (cs ++ since ++ later)).acquire 2 =
      .ok (8, empty.after (cs ++ since ++ later ++ [.acquire 2])) := by decide
  have hheld : (empty.after cs).check 2 5 = .ok () := by decide
  have hlost : (empty.after (cs ++ since)).check 2 5 ≠ .ok () := by decide
  refine ⟨hheld, ⟨_, hacquire⟩, ?_, ?_, ?_, ?_⟩
  · exact (leases_never_return 2 (cs ++ since ++ later)).1 _ _ hacquire
  · exact (leases_never_return 2 cs).2.2 since later 5 hheld hlost
  · rw [(leases_never_return 2 (cs ++ since ++ (later ++ last))).2.1]
    decide
  · exact (leases_never_return 2 cs).2.2 since (later ++ last) 5 hheld hlost

end LeaseTable

end Chronicle
