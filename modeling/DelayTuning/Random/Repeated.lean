import DelayTuning.Random.Generator

/-!
# Repeated draws

A draw made once for each entry of a list, the generator passed on from one to the next.

## Main definitions

- `drawEach`: a draw for each entry
- `drawEach?`: the same for draws that may break off; the first one that does ends the sequence

## Main statements

- `drawEach_cons`, `drawEach?_cons`: the first draw comes first
-/

namespace DelayTuning

variable {β γ : Type}

/-- The draws for the rest of a list, after the ones in `done`, the latest first. -/
@[specialize]
def drawEachAfter (draw : β → Generator → γ × Generator) :
    List β → List γ → Generator → List γ × Generator
  | [], done, g => (done.reverse, g)
  | x :: rest, done, g =>
    let (y, g) := draw x g
    drawEachAfter draw rest (y :: done) g

/-- A draw for each entry of a list, from the first one on. -/
@[specialize]
def drawEach (draw : β → Generator → γ × Generator) (xs : List β) (g : Generator) :
    List γ × Generator :=
  drawEachAfter draw xs [] g

theorem drawEachAfter_eq (draw : β → Generator → γ × Generator) (xs : List β) (done : List γ)
    (g : Generator) :
    drawEachAfter draw xs done g =
      (done.reverse ++ (drawEachAfter draw xs [] g).1, (drawEachAfter draw xs [] g).2) := by
  induction xs generalizing done g with
  | nil => simp [drawEachAfter]
  | cons x rest ih =>
    simp only [drawEachAfter]
    rw [ih ((draw x g).1 :: done), ih [(draw x g).1]]
    simp

@[simp]
theorem drawEach_nil (draw : β → Generator → γ × Generator) (g : Generator) :
    drawEach draw [] g = ([], g) :=
  rfl

/-- The draw for the first entry comes first. -/
theorem drawEach_cons (draw : β → Generator → γ × Generator) (x : β) (rest : List β)
    (g : Generator) :
    drawEach draw (x :: rest) g =
      ((draw x g).1 :: (drawEach draw rest (draw x g).2).1, (drawEach draw rest (draw x g).2).2) := by
  simp only [drawEach, drawEachAfter]
  rw [drawEachAfter_eq]
  simp

/-- The draws for the rest of a list, after the ones in `done`, the latest first, up to the first one
    that breaks off. -/
@[specialize]
def drawEachAfter? (draw : β → Generator → Option γ × Generator) :
    List β → List γ → Generator → Option (List γ) × Generator
  | [], done, g => (some done.reverse, g)
  | x :: rest, done, g =>
    match draw x g with
    | (some y, g) => drawEachAfter? draw rest (y :: done) g
    | (none, g) => (none, g)

/-- A draw for each entry of a list, from the first one on; `none` from the first draw that breaks
    off. -/
@[specialize]
def drawEach? (draw : β → Generator → Option γ × Generator) (xs : List β) (g : Generator) :
    Option (List γ) × Generator :=
  drawEachAfter? draw xs [] g

theorem drawEachAfter?_eq (draw : β → Generator → Option γ × Generator) (xs : List β)
    (done : List γ) (g : Generator) :
    drawEachAfter? draw xs done g =
      ((drawEachAfter? draw xs [] g).1.map (done.reverse ++ ·), (drawEachAfter? draw xs [] g).2) := by
  induction xs generalizing done g with
  | nil => simp [drawEachAfter?]
  | cons x rest ih =>
    simp only [drawEachAfter?]
    split
    · next y g' heq =>
      rw [ih (y :: done), ih [y]]
      simp [Function.comp_def]
    · simp

@[simp]
theorem drawEach?_nil (draw : β → Generator → Option γ × Generator) (g : Generator) :
    drawEach? draw [] g = (some [], g) :=
  rfl

/-- The draw for the first entry comes first, and the others follow if it has an answer. -/
theorem drawEach?_cons (draw : β → Generator → Option γ × Generator) (x : β) (rest : List β)
    (g : Generator) :
    drawEach? draw (x :: rest) g =
      match draw x g with
      | (some y, g) => ((drawEach? draw rest g).1.map (y :: ·), (drawEach? draw rest g).2)
      | (none, g) => (none, g) := by
  simp only [drawEach?, drawEachAfter?]
  split
  · rw [drawEachAfter?_eq]
    simp
  · rfl

end DelayTuning
