import DelayTuning.Ledger

/-!
# Choosing a batch

From a pool with scores the batch takes the best candidates that are new: neither observed before nor
chosen already. Only when the pool has no new candidate left is the batch filled up with the best ones
that were passed over.

## Main definitions

- `ranked`: the pool in the order of its scores
- `Selection`, `select`: the new candidates of a ranked pool, and those that were passed over
- `chooseBatch`: the batch
-/

namespace DelayTuning

/-- The pool in the total order of its scores, the highest first. Candidates with equal scores stay in
    the order of the pool. -/
def ranked (pool : List Candidate) (scores : List Double) : List (Candidate × Double) :=
  (pool.zip scores).mergeSort fun a b => b.2.totalLe a.2

/-- The outcome of going through a ranked pool. -/
structure Selection where
  /-- The new candidates in order. -/
  fresh : List Candidate
  /-- The candidates that were passed over, in order. -/
  repeats : List Candidate
  deriving DecidableEq, Repr

/-- Go through a ranked pool while there is room. The candidates that are chosen and passed over so far
    are kept with the latest first. -/
def selectFrom (observed : Candidate → Bool) :
    Nat → List Candidate → List Candidate → List Candidate → Selection
  | 0, _, fresh, repeats => ⟨fresh.reverse, repeats.reverse⟩
  | _ + 1, [], fresh, repeats => ⟨fresh.reverse, repeats.reverse⟩
  | room + 1, c :: rest, fresh, repeats =>
    if observed c || fresh.any (fun d => d == c) then
      selectFrom observed (room + 1) rest fresh (c :: repeats)
    else selectFrom observed room rest (c :: fresh) repeats

/-- The first `room` candidates of a ranked pool that are neither observed nor chosen already, and the
    ones that were passed over on the way. -/
def select (observed : Candidate → Bool) (room : Nat) (pool : List Candidate) : Selection :=
  selectFrom observed room pool [] []

/-- A selection as a batch: the new candidates, then repeats up to the size of the batch. -/
def Selection.batch (s : Selection) (size : Nat) : List Candidate :=
  s.fresh ++ s.repeats.take (size - s.fresh.length)

def chooseBatch (ledger : Ledger) (pool : List Candidate) (scores : List Double) (size : Nat) :
    List Candidate :=
  (select ledger.contains size ((ranked pool scores).map Prod.fst)).batch size

end DelayTuning
