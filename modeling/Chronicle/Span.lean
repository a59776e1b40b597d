import Chronicle.Identity

/-!
# Spans of a branch

A span is a stretch of the nodes of one branch. A branch that was forked from others reads their
nodes through its lineage: spans that follow each other from the first node on, each starting where
the one before it stops.

* `mem_clip`: clipping a span to a window keeps exactly the span's nodes inside the window.
* `check_eq_ok_iff`: the check accepts exactly the lineages.
-/
namespace Chronicle

/-- `AncestorRange`: the nodes of branch `owner` from `start` on, up to `stop`, which is excluded.
-/
structure Span where
  owner : BranchId
  start : NodeId
  stop : NodeId
  deriving DecidableEq, Repr

namespace Span

def contains (s : Span) (n : NodeId) : Bool := s.start ≤ n && n < s.stop

instance : Membership NodeId Span := ⟨fun s n => s.start ≤ n ∧ n < s.stop⟩

def isEmpty (s : Span) : Bool := s.stop ≤ s.start

/-- `clip`: the part of the span inside the window from `min` up to `max`, if a node is left. -/
def clip (s : Span) (min max : NodeId) : Option Span :=
  let c : Span :=
    ⟨s.owner, if s.start < min then min else s.start, if max < s.stop then max else s.stop⟩
  if c.isEmpty then none else some c

/-- Reads `owner[start, stop)`. -/
def text (s : Span) : String := s!"{s.owner}[{s.start}, {s.stop})"

instance : ToString Span := ⟨text⟩

theorem mem_def {s : Span} {n : NodeId} : n ∈ s ↔ s.start ≤ n ∧ n < s.stop := Iff.rfl

theorem contains_iff {s : Span} {n : NodeId} : s.contains n = true ↔ n ∈ s := by
  simp [contains, mem_def]

/-- Clipping changes neither the owner nor, inside the window, which nodes belong. -/
theorem clip_eq_some {s c : Span} {min max : NodeId} (h : s.clip min max = some c) :
    c.owner = s.owner ∧ ∀ n, n ∈ c ↔ n ∈ s ∧ min ≤ n ∧ n < max := by
  simp only [clip, Option.ite_none_left_eq_some, Option.some.injEq] at h
  obtain ⟨-, rfl⟩ := h
  refine ⟨rfl, fun n => ?_⟩
  simp only [mem_def, Int64.lt_iff_toInt_lt, Int64.le_iff_toInt_le]
  split <;> split <;> omega

theorem clip_eq_none {s : Span} {min max : NodeId} (h : s.clip min max = none) (n : NodeId) :
    ¬ (n ∈ s ∧ min ≤ n ∧ n < max) := by
  simp only [clip, isEmpty, mem_def, ite_eq_left_iff, reduceCtorEq, imp_false, Decidable.not_not,
    decide_eq_true_eq, Int64.lt_iff_toInt_lt, Int64.le_iff_toInt_le] at *
  split at h <;> split at h <;> omega

theorem mem_clip {s : Span} {min max n : NodeId} :
    (∃ c, s.clip min max = some c ∧ n ∈ c) ↔ n ∈ s ∧ min ≤ n ∧ n < max := by
  constructor
  · intro h
    obtain ⟨c, hc, hn⟩ := h
    exact ((clip_eq_some hc).2 n).1 hn
  · intro hn
    cases hc : s.clip min max with
    | none => exact absurd hn (clip_eq_none hc n)
    | some c => exact ⟨c, rfl, ((clip_eq_some hc).2 n).2 hn⟩

end Span

/-! ## Lineages -/

namespace Lineage

/-- Why spans are no lineage. -/
inductive Fault where
  /-- `span` does not start where the span before it stops. -/
  | misplaced (span : Span) (expected : NodeId)
  | empty (span : Span)
  deriving DecidableEq, Repr

def Fault.message : Fault → String
  | .misplaced span expected => s!"ancestor range {span} does not start at node {expected}"
  | .empty span => s!"ancestor range {span} is empty"

/-- Checks that the spans follow each other from node `start` on. -/
def checkFrom (start : NodeId) : List Span → Except Fault Unit
  | [] => .ok ()
  | s :: rest =>
    if s.start ≠ start then .error (.misplaced s start)
    else if s.isEmpty then .error (.empty s)
    else checkFrom s.stop rest

/-- `validate_ancestors`: checks that the spans follow each other from the first node on. -/
def check (spans : List Span) : Except Fault Unit := checkFrom firstEvent spans

/-- The node at which the spans end: the first node if there is none. -/
def stop (spans : List Span) : NodeId := (spans.getLast?.map (·.stop)).getD firstEvent

/-- The spans follow each other from node `start` on, and none is empty. -/
def Follows : NodeId → List Span → Prop
  | _, [] => True
  | start, s :: rest => s.start = start ∧ s.start < s.stop ∧ Follows s.stop rest

theorem checkFrom_eq_ok_iff {start : NodeId} {spans : List Span} :
    checkFrom start spans = .ok () ↔ Follows start spans := by
  induction spans generalizing start with
  | nil => simp [checkFrom, Follows]
  | cons s rest ih =>
    unfold checkFrom Follows
    split
    · next hstart => exact iff_of_false nofun fun h => hstart h.1
    · next hstart =>
      have hstart := Decidable.not_not.1 hstart
      split
      · next h =>
        simp only [Span.isEmpty, decide_eq_true_eq] at h
        exact iff_of_false nofun fun hf => Int64.not_lt.2 h hf.2.1
      · next h =>
        simp only [Span.isEmpty, decide_eq_true_eq, Int64.not_le] at h
        rw [ih]
        exact ⟨fun hrest => ⟨hstart, h, hrest⟩, fun hf => hf.2.2⟩

theorem check_eq_ok_iff {spans : List Span} : check spans = .ok () ↔ Follows firstEvent spans :=
  checkFrom_eq_ok_iff

/-- The part of a branch's lineage that a fork at `node` inherits: `spans` belong to branch `owner`,
whose own nodes start where they stop. Below that point the spans are cut at `node`; above it the
owner's own nodes up to `node` are added. -/
def upTo (spans : List Span) (owner : BranchId) (node : NodeId) : List Span :=
  if node ≤ stop spans then
    (spans.takeWhile (fun s => s.start < node)).map fun s =>
      { s with stop := if node < s.stop then node else s.stop }
  else
    spans ++ [⟨owner, stop spans, node⟩]

end Lineage

end Chronicle
