import DelayTuning.Surrogate.GaussianProcess

/-!
# When a Gaussian process has an answer

A fit on some observations succeeds or finds no factor of the kernel matrix, and then the process is what
it was before. A process that has been fit scores all candidates with a coordinate for each parameter of the
space it was fit for.

## Main statements

- `GaussianProcess.fit_cases`: the two outcomes of a fit
- `GaussianProcess.exists_scores`: when there are scores
-/

namespace DelayTuning

namespace GaussianProcess

/-- A fit on some observations learns a model of the given space, or the kernel matrix has no factor and
    nothing is learned or forgotten. -/
theorem fit_cases (gp : GaussianProcess) (space : Space Double) {observations : List Observation}
    (h : observations ≠ []) :
    (∃ model, model.space = space ∧
      gp.fit space observations = (.ok (), { gp with fitted := some model })) ∨
    gp.fit space observations =
      (.error (.surrogate (.notPositiveDefinite observations.length)), gp) := by
  have hisEmpty : ¬ observations.isEmpty = true := by simpa using h
  rw [fit, if_neg hisEmpty]
  simp only
  split
  · next regression _ => exact Or.inl ⟨⟨space, regression, _⟩, rfl, rfl⟩
  · exact Or.inr rfl

theorem exists_prediction (gp : GaussianProcess) {model : FittedModel} {candidate : Candidate}
    (h : candidate.length = model.space.dimension) :
    ∃ prediction, gp.predictFitted model candidate = .ok prediction :=
  ⟨_, if_pos h⟩

/-- A process that has been fit scores every candidate that has a coordinate for each parameter. -/
theorem exists_scores {gp : GaussianProcess} {model : FittedModel} (hfitted : gp.fitted = some model)
    {pool : List Candidate} (h : ∀ c ∈ pool, c.length = model.space.dimension) :
    ∃ scores, gp.acquire pool = .ok scores ∧ scores.length = pool.length := by
  rw [acquire, hfitted]
  simp only
  clear hfitted
  induction pool with
  | nil => exact ⟨[], rfl, rfl⟩
  | cons c rest ih =>
    obtain ⟨scores, hscores, hlength⟩ := ih fun d hd => h d (List.mem_cons_of_mem c hd)
    obtain ⟨⟨mean, deviation⟩, hprediction⟩ := gp.exists_prediction (h c List.mem_cons_self)
    refine ⟨gp.config.acquisition.score mean deviation model.best :: scores, ?_, ?_⟩
    · rw [acquireFitted] at hscores ⊢
      rw [List.mapM_cons, hscores, hprediction]
      rfl
    · rw [List.length_cons, List.length_cons, hlength]

end GaussianProcess

end DelayTuning
