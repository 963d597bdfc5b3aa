import DelayTuning.Ledger

/-!
# The delay parameters of the mapper

The space of the ten delay parameters, and points of it that are known to be good.

## Main definitions

- `delaySpace`: the space
- `expertDesign`: the values set by hand
- `expertSeeds`: the best points of earlier searches
-/

namespace DelayTuning

def delayParameters : List (Parameter Double) := [
  ⟨"delay_para0", 0.0, 1.0⟩,
  ⟨"delay_para1", 0.0, 0.5⟩,
  ⟨"delay_para2", 0.0, 0.5⟩,
  ⟨"delay_para3", 0.0, 1.0⟩,
  ⟨"delay_para4", 0.5, 2.0⟩,
  ⟨"delay_para5", 0.0, 0.5⟩,
  ⟨"delay_para6", 0.0, 0.5⟩,
  ⟨"delay_para7", 0.0, 1.0⟩,
  ⟨"delay_para8", 0.5, 2.0⟩,
  ⟨"delay_para9", 0.0, 1.0⟩]

theorem wellFormed_delayParameters : WellFormed delayParameters :=
  (fault?_eq_none_iff delayParameters).mp (by decide +kernel)

def delaySpace : Space Double := ⟨delayParameters, wellFormed_delayParameters⟩

def expertDesign : Candidate := [0.5, 0.3, 0.1, 0.5, 1.0, 0.3, 0.1, 0.25, 1.0, 0.5]

def expertSeeds : List Candidate := [
  [0.042, 0.041, 0.261, 0.755, 0.589, 0.189, 0.035, 0.026, 1.836, 0.731],
  [0.139, 0.022, 0.040, 0.174, 1.424, 0.324, 0.298, 0.138, 1.989, 0.631],
  [0.348, 0.061, 0.017, 0.146, 1.832, 0.411, 0.260, 0.050, 1.954, 0.782],
  [0.905, 0.243, 0.114, 0.205, 1.363, 0.120, 0.384, 0.780, 1.407, 0.044]]

end DelayTuning
