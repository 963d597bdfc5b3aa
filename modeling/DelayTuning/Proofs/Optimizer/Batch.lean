import DelayTuning.Proofs.Optimizer.History
import DelayTuning.Proofs.Optimizer.Selection

/-!
# The batch that is suggested

A batch has exactly the size that was asked for. As soon as something has been observed it consists of new
candidates of the scored pool followed by repeats, and there are repeats only if the pool is exhausted.

## Main statements

- `Optimizer.length_of_suggest`: the size of every batch
- `Optimizer.suggest_freshFirst`: the shape of every batch
-/

namespace DelayTuning

namespace Optimizer

variable {σ : Type} [Surrogate σ]

/-- A batch that is suggested is an initial design, or it is chosen from a scored pool. -/
theorem suggested_cases {o next : Optimizer σ} {size : Nat} {batch : List Candidate}
    (h : o.suggest size = (.ok batch, next)) :
    (o.ledger.entries = [] ∧ o.initialBatch size = (.ok batch, next)) ∨
    (o.ledger.entries ≠ [] ∧ ∃ ready pool g scores,
      o.refresh = (.ok (), ready) ∧
      drawPool o.space o.config o.ledger size o.generator = (some pool, g) ∧
      Surrogate.acquire ready.surrogate pool = (.ok scores, next.surrogate) ∧
      scores.length = pool.length ∧ batch = chooseBatch o.ledger pool scores size) := by
  have hsuggests := suggests_of_suggest h
  generalize hr : (Except.ok batch : Except (Halt TuneError) (List Candidate)) = r at hsuggests
  cases hsuggests with
  | empty => cases hr
  | oversized => cases hr
  | initial _ hledger => exact Or.inl ⟨hledger, rfl⟩
  | unfit => cases hr
  | undrawn => cases hr
  | unscored => cases hr
  | miscounted => cases hr
  | @chosen ready g pool scores s _ hledger hrefresh hpool hscores hcount =>
    cases hr
    exact Or.inr ⟨hledger, ready, pool, g, scores, hrefresh, hpool, hscores, hcount, rfl⟩

theorem length_of_suggest {o next : Optimizer σ} {size : Nat} {batch : List Candidate}
    (h : o.suggest size = (.ok batch, next)) : batch.length = size := by
  obtain ⟨-, hinitial⟩ | ⟨-, _, _, _, _, -, hpool, -, hcount, rfl⟩ := suggested_cases h
  · exact length_of_initialBatch hinitial
  · obtain ⟨_, _, hbatch, hlength, -⟩ :=
      exists_freshFirst_chooseBatch o.ledger hcount (batchSize_le_length_of_drawPool hpool)
    rw [hbatch, hlength]

/-- Once something has been observed a batch is taken from a pool. -/
theorem mem_drawPool_of_suggest {o next : Optimizer σ} {size : ℕ} {batch : List Candidate}
    (hledger : o.ledger.entries ≠ []) (h : o.suggest size = (.ok batch, next)) :
    ∃ pool g, drawPool o.space o.config o.ledger size o.generator = (some pool, g) ∧
      ∀ c ∈ batch, c ∈ pool := by
  obtain ⟨hempty, -⟩ | ⟨-, _, pool, g, _, -, hpool, -, hcount, rfl⟩ := suggested_cases h
  · exact absurd hempty hledger
  · obtain ⟨_, _, hbatch, -, hshape⟩ :=
      exists_freshFirst_chooseBatch o.ledger hcount (batchSize_le_length_of_drawPool hpool)
    rw [hbatch]
    exact ⟨pool, g, hpool, fun c hc => hshape.taken.subset hc⟩

/-- In every state, whatever the model does, a batch that is suggested has the size that was asked for.
    Once something has been observed it is new candidates first, then repeats, all of them from the pool
    that the model has scored. -/
theorem suggest_freshFirst {o next : Optimizer σ} {size : Nat} {batch : List Candidate}
    (h : o.suggest size = (.ok batch, next)) :
    batch.length = size ∧
      (o.ledger.isEmpty = false →
        ∃ ready pool g scores fresh repeats,
          o.refresh = (.ok (), ready) ∧
          drawPool o.space o.config o.ledger size o.generator = (some pool, g) ∧
          Surrogate.acquire ready.surrogate pool = (.ok scores, next.surrogate) ∧
          batch = fresh ++ repeats ∧
          FreshFirst o.ledger pool fresh repeats) := by
  refine ⟨length_of_suggest h, ?_⟩
  intro hobserved
  rcases suggested_cases h with
    ⟨hledger, -⟩ | ⟨-, ready, pool, g, scores, hrefresh, hpool, hscores, hcount, rfl⟩
  · rw [Ledger.isEmpty, hledger] at hobserved
    cases hobserved
  · obtain ⟨fresh, repeats, hbatch, -, hfresh⟩ :=
      exists_freshFirst_chooseBatch o.ledger hcount (batchSize_le_length_of_drawPool hpool)
    exact ⟨ready, pool, g, scores, fresh, repeats, hrefresh, hpool, hscores, hbatch, hfresh⟩

/-! ### A search whose space is used up -/

theorem wellFormed_narrow : WellFormed [(⟨"x", 1.0, 1.0000000000000002⟩ : Parameter Double)] :=
  (fault?_eq_none_iff _).mp (by decide)

/-- The space of a double and its successor. -/
def narrowSpace : Space Double := ⟨_, wellFormed_narrow⟩

/-- A search over two points, one of which has been observed. -/
def exhaustedSearch : Optimizer IndifferentModel :=
  ((start narrowSpace .indifferent { OptimizerConfig.standard with poolSize := 8, localFraction := 0.0 }).observe
    [[1.0]] [1.0]).2

/-- What is drawn for a batch of two: both points, each of them several times. -/
def exhaustedPool : List Candidate :=
  [[1.0000000000000002], [1.0000000000000002], [1.0], [1.0000000000000002], [1.0], [1.0], [1.0],
    [1.0000000000000002]]

theorem drawPool_exhaustedSearch :
    (drawPool exhaustedSearch.space exhaustedSearch.config exhaustedSearch.ledger 2
      exhaustedSearch.generator).1 = some exhaustedPool := by
  decide +kernel

/-- The batch is the point that has not been observed and a repeat. -/
theorem exhaustedSearch_freshFirst :
    ∃ batch next, exhaustedSearch.suggest 2 = (.ok batch, next) ∧ batch.length = 2 ∧
      ∃ ready g scores fresh repeats,
        exhaustedSearch.refresh = (.ok (), ready) ∧
        drawPool exhaustedSearch.space exhaustedSearch.config exhaustedSearch.ledger 2
          exhaustedSearch.generator = (some exhaustedPool, g) ∧
        Surrogate.acquire ready.surrogate exhaustedPool = (.ok scores, next.surrogate) ∧
        batch = fresh ++ repeats ∧
        FreshFirst exhaustedSearch.ledger exhaustedPool fresh repeats ∧
        fresh = [[1.0000000000000002]] ∧ repeats.length = 1 := by
  have hok : (exhaustedSearch.suggest 2).1.isOk = true := by decide +kernel
  have hobserved : exhaustedSearch.ledger.isEmpty = false := by decide +kernel
  cases hsuggest : exhaustedSearch.suggest 2 with
  | mk result next =>
    rw [hsuggest] at hok
    cases result with
    | error e => cases hok
    | ok batch =>
      obtain ⟨hlength, hshape⟩ := suggest_freshFirst hsuggest
      obtain ⟨ready, pool, g, scores, fresh, repeats, hrefresh, hpool, hscores, rfl, hfresh⟩ :=
        hshape hobserved
      obtain rfl : exhaustedPool = pool := by
        have hdrawn := congrArg Prod.fst hpool
        rw [drawPool_exhaustedSearch] at hdrawn
        exact Option.some_inj.mp hdrawn
      have hne : fresh ++ repeats ≠ [] := List.ne_nil_of_length_eq_add_one hlength
      obtain rfl : fresh = [[1.0000000000000002]] :=
        hfresh.fresh_eq_singleton hne List.mem_cons_self (by decide +kernel) (by decide +kernel)
          (by decide +kernel)
      have hrepeats : repeats.length = 1 := by simpa using hlength
      exact ⟨_, next, rfl, hlength, ready, g, scores, _, repeats, hrefresh, hpool, hscores, rfl, hfresh, rfl,
        hrepeats⟩

end Optimizer

end DelayTuning
