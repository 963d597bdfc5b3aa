import DelayTuning.Proofs.Ledger.Minimum
import DelayTuning.Proofs.Optimizer.Batch
import DelayTuning.Proofs.Run.Loops

/-!
# The best observation of a run

Whatever an optimizer has been through, its ledger is one that has been filled by appending finite values. A run
asks and tells like any other caller, so it leaves such a ledger too, and the outcome takes the best observation
and the convergence from it: the best one is the earliest minimal observation of the whole ledger, that of earlier
runs included, and the convergence ends at its value.

## Main statements

- `Optimizer.ranked_ledger_after`: the ledger after a history
- `exists_history_of_run`: a run is a history of calls
- `run_best`: the ledger, and what an outcome says about it
-/

namespace DelayTuning

namespace Optimizer

variable {σ : Type} [Surrogate σ]

theorem ranked_ledger_perform {o : Optimizer σ} (h : o.ledger.Ranked) (call : Call) :
    (o.perform call).2.ledger.Ranked := by
  cases call with
  | suggest size =>
    have hledger : (o.suggest size).2.ledger = o.ledger := ledger_of_suggest rfl
    rw [perform, hledger]
    exact h
  | observe candidates values =>
    have hobserves := observes_observe o candidates values
    rw [perform]
    generalize (o.observe candidates values).1 = r at hobserves
    generalize (o.observe candidates values).2 = next at hobserves
    cases hobserves with
    | refused => exact h
    | recorded _ _ hfinite =>
      apply h.extend
      intro observation hmem
      obtain ⟨p, hp, rfl⟩ := List.mem_map.mp hmem
      exact hfinite p.2 (List.of_mem_zip hp).2

theorem ranked_ledger_after (space : Space Double) (s : σ) (settings : OptimizerConfig)
    (history : List Call) : ((start space s settings).after history).ledger.Ranked :=
  invariant_after (P := fun o => o.ledger.Ranked) (fun _ call h => ranked_ledger_perform h call)
    Ledger.ranked_empty history

end Optimizer

/-! ### Runs as histories -/

section Histories

variable {σ ε : Type} [Surrogate σ] [Evaluator ε] {config : RunConfig} {p next : Progress σ ε}
  {r : Except (Halt RunError) Unit}

namespace Progress

theorem exists_history_evaluateAndObserve {batch : List Candidate}
    (h : p.evaluateAndObserve config batch = (r, next)) :
    ∃ calls, next.optimizer = p.optimizer.after calls := by
  obtain ⟨_, -, hsame, -⟩ | ⟨evaluated, _, -, hobserve, -⟩ := evaluateAndObserve_cases h
  · exact ⟨[], hsame⟩
  · exact ⟨[.observe (evaluated.map Prod.fst) (evaluated.map Prod.snd)],
      (congrArg Prod.snd hobserve).symm⟩

theorem exists_history_round (h : p.round config = (r, next)) :
    ∃ calls, next.optimizer = p.optimizer.after calls := by
  obtain ⟨_, hsuggest, -⟩ | ⟨_, asked, hsuggest, hbatch⟩ := round_cases h
  · exact ⟨[.suggest config.batchSize], (congrArg Prod.snd hsuggest).symm⟩
  · obtain ⟨calls, hcalls⟩ := exists_history_evaluateAndObserve hbatch
    have hasked : p.optimizer.after [.suggest config.batchSize] = asked := congrArg Prod.snd hsuggest
    refine ⟨[.suggest config.batchSize] ++ calls, ?_⟩
    rw [Optimizer.after_append, hasked]
    exact hcalls

theorem exists_history_rounds {n : ℕ} (h : p.rounds config n = (r, next)) :
    ∃ calls, next.optimizer = p.optimizer.after calls := by
  induction n generalizing p with
  | zero =>
    cases h
    exact ⟨[], rfl⟩
  | succ n ih =>
    obtain ⟨_, hround, -⟩ | ⟨middle, hround, hrest⟩ := rounds_succ_cases h
    · exact exists_history_round hround
    · obtain ⟨first, hfirst⟩ := exists_history_round hround
      obtain ⟨later, hlater⟩ := ih hrest
      exact ⟨first ++ later, by rw [Optimizer.after_append, ← hfirst, hlater]⟩

theorem exists_history_seedsAndRounds (h : p.seedsAndRounds config = (r, next)) :
    ∃ calls, next.optimizer = p.optimizer.after calls := by
  obtain ⟨_, hseeds, -⟩ | ⟨middle, hseeds, hrounds⟩ := seedsAndRounds_cases h
  · exact exists_history_evaluateAndObserve hseeds
  · obtain ⟨first, hfirst⟩ := exists_history_evaluateAndObserve hseeds
    obtain ⟨later, hlater⟩ := exists_history_rounds hrounds
    exact ⟨first ++ later, by rw [Optimizer.after_append, ← hfirst, hlater]⟩

end Progress

/-- A run, however it ends, is a history of calls to its optimizer. -/
theorem exists_history_of_run {o last : Optimizer σ} {e e' : ε}
    {result : Except (Halt RunError) RunOutcome} (h : run config o e = (result, last, e')) :
    ∃ calls, last = o.after calls := by
  obtain ⟨ended, p, hended, rfl, -, -⟩ := run_cases h
  exact Progress.exists_history_seedsAndRounds hended

/-- The best observation and the convergence of an outcome are those of the ledger at the end. -/
theorem best_of_run {o last : Optimizer σ} {e e' : ε} {outcome : RunOutcome}
    (h : run config o e = (.ok outcome, last, e')) :
    last.ledger.best = .ok outcome.best ∧ outcome.convergence = last.ledger.convergence := by
  obtain ⟨ended, p, -, rfl, -, ⟨_, -, herror⟩ | ⟨-, houtcome⟩⟩ := run_cases h
  · cases herror
  rw [RunOutcome.ofProgress, Optimizer.best] at houtcome
  cases hbest : p.optimizer.ledger.best with
  | error e =>
    rw [hbest] at houtcome
    cases houtcome
  | ok best =>
    rw [hbest] at houtcome
    cases houtcome
    exact ⟨rfl, rfl⟩

end Histories

/-! ### Ledgers and outcomes -/

/-- A ledger consists of what was offered and finite, in order; anything else is refused and changes nothing.
Its best observation is the earliest one whose value is not strictly above any other, and its convergence is the
running minimum, which never increases, ends at the best value and reaches it where the best observation stands.
A run on an optimizer with any history leaves a history, and its outcome gives the earliest minimal observation of
the whole ledger and a convergence that ends at its value. -/
theorem run_best :
    (∀ offered : List Observation,
      let l := Ledger.empty.offerAll offered
      l.entries = Ledger.accepted offered ∧
      (∀ observation, observation.value.isFinite = false →
        l.append observation = .error (.nonFiniteValue l.count observation.value) ∧
          l.offer observation = l) ∧
      l.Summarized) ∧
    ∀ {σ ε : Type} [Surrogate σ] [Evaluator ε] (space : Space Double) (s : σ)
      (settings : OptimizerConfig) (history : List Call) (config : RunConfig) (e e' : ε)
      (outcome : RunOutcome) (last : Optimizer σ),
      run config ((Optimizer.start space s settings).after history) e = (.ok outcome, last, e') →
      (∃ more, last = (Optimizer.start space s settings).after (history ++ more)) ∧
      last.ledger.Summarized ∧
      (∃ i, IsLeast {j | NotAbove last.ledger.values j} i ∧
        last.ledger.entries[i]? = some outcome.best) ∧
      outcome.convergence = last.ledger.convergence ∧
      ∃ m, outcome.convergence.getLast? = some m ∧ (m == outcome.best.value) = true := by
  constructor
  · intro offered
    refine ⟨?_, ?_, (Ledger.ranked_offerAll offered).summarized⟩
    · rw [Ledger.offerAll_eq_extend, Ledger.entries_extend]
      exact List.nil_append _
    · intro observation hnot
      exact ⟨Ledger.append_of_not_isFinite _ hnot, Ledger.offer_of_not_isFinite _ hnot⟩
  · intro σ ε _ _ space s settings history config e e' outcome last h
    obtain ⟨more, hlast⟩ := exists_history_of_run h
    rw [← Optimizer.after_append] at hlast
    have hranked : last.ledger.Ranked := by
      rw [hlast]
      exact Optimizer.ranked_ledger_after space s settings (history ++ more)
    obtain ⟨hbest, hconvergence⟩ := best_of_run h
    rw [hconvergence]
    exact ⟨⟨more, hlast⟩, hranked.summarized, (hranked.best_eq_ok_iff _).mp hbest, rfl,
      hranked.exists_last_convergence hbest⟩

/-! ### A run that ends at a zero -/

/-- A run on an optimizer that has observed a negative zero; its seed has the value zero. -/
def zeroRun : Except (Halt RunError) RunOutcome × Optimizer IndifferentModel × QuadraticBowl :=
  run { RunConfig.standard with iterations := 0, seeds := [[0.5]] }
    ((Optimizer.start pointSpace .indifferent .standard).after
      [.observe [[0.25], [0.75]] [1.0, -0.0]])
    .standard

/-- The earlier one of two zeros is the best one. The convergence ends at the later one, which is equal to it. -/
theorem zeroRun_best :
    ∃ outcome last e', zeroRun = (.ok outcome, last, e') ∧
      last.ledger.bestIndex = some 1 ∧ last.ledger.entries[1]? = some outcome.best ∧
      ∃ m, outcome.convergence.getLast? = some m ∧ (m == outcome.best.value) = true ∧
        m ≠ outcome.best.value := by
  have hok : zeroRun.1.isOk = true := by decide +kernel
  have hindex : zeroRun.2.1.ledger.bestIndex = some 1 := by decide +kernel
  have hzeros : (zeroRun.1.toOption.bind fun outcome => outcome.convergence.getLast?) ≠
      zeroRun.1.toOption.map fun outcome => outcome.best.value := by
    decide +kernel
  rcases hrun : zeroRun with ⟨e | outcome, last, e'⟩
  · rw [hrun] at hok
    cases hok
  rw [hrun] at hindex hzeros
  obtain ⟨-, hsummarized, ⟨i, hleast, hbest⟩, -, m, hm, hequal⟩ :=
    run_best.2 _ _ _ _ _ _ _ _ _ hrun
  obtain rfl : 1 = i :=
    Option.some_inj.mp (hindex.symm.trans ((hsummarized.bestIndex_eq_some_iff i).mpr hleast))
  refine ⟨outcome, last, e', rfl, hindex, hbest, m, hm, hequal, ?_⟩
  rintro rfl
  exact hzeros hm

end DelayTuning
