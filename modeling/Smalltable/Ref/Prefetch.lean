import Mathlib.Logic.Function.Basic
import Smalltable.Ref.Command

/-!
# The arrays of `try_prefetch` (`command.c`)

`tryPrefetch` says which keys the engine is told of. Here is the same walk with the
arrays that hold the keys until there are enough of them: a key is a pointer into the
batch and a length, and a bulk is what lies in the arrays below `b_sz`. The arrays are
static, so they still have what the batch before left in them.
-/

namespace Smalltable.Ref

/-- A call of `storage_prefetch`; a pointer is an offset into the batch. -/
inductive PrefetchCall where
  /-- without arrays -/
  | clear
  | bulk (entries : List (Int × Nat))
  deriving DecidableEq

structure PrefetchWalk where
  bKey : Nat → Int
  bKeySz : Nat → Nat
  bSz : Nat := 0
  firstRun : Bool := true
  /-- `req_buf` -/
  reqBuf : Int := 0
  /-- history -/
  calls : List PrefetchCall := []

/-- What the engine finds in the arrays. -/
def PrefetchWalk.entries (p : PrefetchWalk) : List (Int × Nat) :=
  (List.range p.bSz).map fun i => (p.bKey i, p.bKeySz i)

/-- clear previous prefetches -/
def PrefetchWalk.clear (p : PrefetchWalk) : PrefetchWalk :=
  if p.firstRun then { p with firstRun := false, calls := p.calls ++ [.clear] } else p

/-- `none` where the arrays are written behind their end. -/
def prefetchWalkStep (t : CmdTable) (p : PrefetchWalk) (request : Bytes) : Option PrefetchWalk :=
  let requestSz := mcGetRequestSz request
  if (t (mcGetOpcode request)).isPrefetch then
    let p := p.clear
    if p.bSz < bulkSz then
      let p := { p with
        bKeySz := Function.update p.bKeySz p.bSz (mcGetKeyLength request)
        bKey := Function.update p.bKey p.bSz
          (p.reqBuf + memcacheHeaderSize + mcGetExtrasLength request)
        bSz := p.bSz + 1 }
      let p := if p.bSz = bulkSz then { p with calls := p.calls ++ [.bulk p.entries], bSz := 0 }
        else p
      some { p with reqBuf := p.reqBuf + requestSz }
    else none
  else some { p with reqBuf := p.reqBuf + requestSz }

/-- The calls for a batch, with what was in the arrays before. -/
def prefetchCalls (t : CmdTable) (bKey : Nat → Int) (bKeySz : Nat → Nat) (reqBuf : Bytes) :
    Option (List PrefetchCall) :=
  match forRequests reqBuf { bKey := bKey, bKeySz := bKeySz : PrefetchWalk } fun p request =>
      (prefetchWalkStep t p request).map .yield with
  | none => none
  | some p => some (if p.bSz ≠ 0 then p.calls ++ [.bulk p.entries] else p.calls)

/-- What the engine makes of a call, reading the keys where they lie. -/
def prefetchCall {σ : Type} (api : StStorageApi σ) (reqBuf : Bytes) (store : σ) :
    PrefetchCall → σ
  | .clear => storagePrefetch api store []
  | .bulk entries => storagePrefetch api store (entries.map fun e => slice reqBuf e.1.toNat e.2)

end Smalltable.Ref
