import DelayTuning.Optimizer.Basic
import DelayTuning.Proofs.Optimizer.Pool

/-!
# What a question and an answer can do to an optimizer

Every way in which an operation of the optimizer can go, with the state it leaves behind. All later
statements about searches argue by these cases and do not look into the operations again.

## Main definitions

- `Optimizer.Refreshes`, `Optimizer.Suggests`, `Optimizer.Observes`: the cases of `refresh`, of `suggest`
  and of `observe`
- `Optimizer.recorded`: the optimizer with evaluated candidates on its ledger

## Main statements

- `Optimizer.suggests_suggest`, `Optimizer.observes_observe`: each operation goes by one of its cases
- `Optimizer.batchFault?_eq_none_iff`: which batches are recorded
- `Optimizer.length_of_initialBatch`: an initial design has the size of the batch
-/

namespace DelayTuning

/-- A ledger with more observations at its end, whose values are taken to be finite. -/
def Ledger.extend (l : Ledger) : List Observation → Ledger
  | [] => l
  | observation :: rest =>
    Ledger.extend ⟨l.entries ++ [observation],
      if l.improves observation.value then some l.count else l.bestIndex⟩ rest

@[simp]
theorem Ledger.entries_extend (l : Ledger) (observations : List Observation) :
    (l.extend observations).entries = l.entries ++ observations := by
  induction observations generalizing l with
  | nil => simp [extend]
  | cons observation rest ih => simp [extend, ih]

theorem Ledger.extend_append (l : Ledger) (earlier later : List Observation) :
    l.extend (earlier ++ later) = (l.extend earlier).extend later := by
  induction earlier generalizing l with
  | nil => rfl
  | cons observation rest ih => exact ih _

namespace Optimizer

variable {σ : Type}

/-! ### Observing -/

def observations (evaluated : List (Candidate × Float)) : List Observation :=
  evaluated.map fun (candidate, value) => ⟨candidate, value⟩

theorem observations_append (earlier later : List (Candidate × Float)) :
    observations (earlier ++ later) = observations earlier ++ observations later :=
  List.map_append

/-- The optimizer with evaluated candidates on its ledger. The model is stale if there are any. -/
def recorded (o : Optimizer σ) (evaluated : List (Candidate × Float)) : Optimizer σ :=
  { o with
    ledger := o.ledger.extend (observations evaluated)
    stale := o.stale || !evaluated.isEmpty }

@[simp]
theorem recorded_nil (o : Optimizer σ) : o.recorded [] = o := by
  simp [recorded, observations, Ledger.extend]

@[simp]
theorem entries_recorded (o : Optimizer σ) (evaluated : List (Candidate × Float)) :
    (o.recorded evaluated).ledger.entries = o.ledger.entries ++ observations evaluated :=
  Ledger.entries_extend o.ledger _

@[simp]
theorem count_recorded (o : Optimizer σ) (evaluated : List (Candidate × Float)) :
    (o.recorded evaluated).count = o.count + evaluated.length := by
  rw [count, Ledger.count, entries_recorded, List.length_append, observations, List.length_map]
  rfl

theorem record_of_finite (o : Optimizer σ) {evaluated : List (Candidate × Float)}
    (h : ∀ p ∈ evaluated, p.2.isFinite = true) :
    o.record evaluated = (.ok (), o.recorded evaluated) := by
  induction evaluated generalizing o with
  | nil => simp [record]
  | cons p rest ih =>
    obtain ⟨candidate, value⟩ := p
    have hvalue : value.isFinite = true := h (candidate, value) List.mem_cons_self
    -- the first value marks the model as stale, whatever comes after it
    have happend : o.ledger.append ⟨candidate, value⟩ = .ok _ :=
      Ledger.append_of_isFinite o.ledger hvalue
    rw [record, happend]
    simp only
    rw [ih _ fun p hp => h p (List.mem_cons_of_mem _ hp)]
    simp [recorded, observations, Ledger.extend]

theorem find?_zipIdx_eq_none_iff (values : List Float) :
    (values.zipIdx.find? fun (value, _) => !value.isFinite) = none ↔
      ∀ v ∈ values, v.isFinite = true := by
  rw [List.find?_eq_none]
  constructor
  · intro h v hv
    obtain ⟨i, hi, rfl⟩ := List.getElem_of_mem hv
    simpa using h (values[i], i) (by simp [List.mem_zipIdx_iff_getElem?])
  · rintro h ⟨v, i⟩ hvi
    simpa using h v (List.fst_mem_of_mem_zipIdx hvi)

/-- A batch has no fault iff it has a finite value for each candidate and the candidates have a coordinate
    for each parameter. -/
theorem batchFault?_eq_none_iff (o : Optimizer σ) (candidates : List Candidate)
    (values : List Float) :
    o.batchFault? candidates values = none ↔
      candidates.length = values.length ∧ (∀ c ∈ candidates, c.length = o.space.dimension) ∧
        ∀ v ∈ values, v.isFinite = true := by
  rw [batchFault?]
  by_cases hlength : candidates.length = values.length
  · simp only [hlength, ne_eq, not_true, if_false, true_and]
    cases hfind : candidates.find? fun c => c.length != o.space.dimension with
    | some c =>
      have hc := List.find?_some hfind
      have hmem := List.mem_of_find?_eq_some hfind
      simp only [reduceCtorEq, false_iff, not_and]
      intro hall
      simp [hall c hmem] at hc
    | none =>
      have hall : ∀ c ∈ candidates, c.length = o.space.dimension := by
        simpa using List.find?_eq_none.mp hfind
      simp only [Option.map_eq_none_iff, find?_zipIdx_eq_none_iff]
      exact ⟨fun h => ⟨hall, h⟩, fun h => h.2⟩
  · simp [hlength]

/-- How an observation of a batch can go. -/
inductive Observes (o : Optimizer σ) (candidates : List Candidate) (values : List Float) :
    Except TuneError Unit → Optimizer σ → Prop
  | refused {e : TuneError} (hfault : o.batchFault? candidates values = some e) :
    Observes o candidates values (.error e) o
  | recorded (hlength : candidates.length = values.length)
    (hdimension : ∀ c ∈ candidates, c.length = o.space.dimension)
    (hfinite : ∀ v ∈ values, v.isFinite = true) :
    Observes o candidates values (.ok ()) (o.recorded (candidates.zip values))

theorem observes_observe (o : Optimizer σ) (candidates : List Candidate) (values : List Float) :
    Observes o candidates values (o.observe candidates values).1
      (o.observe candidates values).2 := by
  cases hfault : o.batchFault? candidates values with
  | some e =>
    rw [observe, hfault]
    exact .refused hfault
  | none =>
    obtain ⟨hlength, hdimension, hfinite⟩ := (batchFault?_eq_none_iff o candidates values).mp hfault
    have hrecord : o.record (candidates.zip values) = (.ok (), o.recorded (candidates.zip values)) :=
      record_of_finite o fun p hp => hfinite p.2 (List.of_mem_zip hp).2
    rw [observe, hfault]
    simp only [hrecord]
    exact .recorded hlength hdimension hfinite

theorem observes_of_observe {o next : Optimizer σ} {candidates : List Candidate}
    {values : List Float} {r : Except TuneError Unit}
    (h : o.observe candidates values = (r, next)) : Observes o candidates values r next := by
  have hobserves := observes_observe o candidates values
  rwa [h] at hobserves

/-! ### Asking -/

theorem length_of_initialBatch {o next : Optimizer σ} {size : Nat} {batch : List Candidate}
    (h : o.initialBatch size = (.ok batch, next)) : batch.length = size := by
  rw [initialBatch] at h
  split at h
  · obtain ⟨rfl, -⟩ : (o.space.latinHypercube size o.generator).1 = batch ∧ _ := by
      simpa using h
    simp
  · split at h
    · next points g hdraw =>
      obtain ⟨rfl, -⟩ : points = batch ∧ _ := by simpa using h
      have hsome : (drawUniform o.space size o.generator).1 = some points := by rw [hdraw]
      simpa using length_of_drawEach? hsome
    · exact absurd h (by simp)

/-- An initial design moves the generator and nothing else. -/
theorem exists_generator_initialBatch (o : Optimizer σ) (size : Nat) :
    ∃ g, (o.initialBatch size).2 = { o with generator := g } := by
  rw [initialBatch]
  split
  · exact ⟨_, rfl⟩
  · split
    · exact ⟨_, rfl⟩
    · exact ⟨_, rfl⟩

/-- An initial design is never refused. -/
theorem initialBatch_ne_refused (o : Optimizer σ) (size : Nat) (e : TuneError) :
    (o.initialBatch size).1 ≠ .error (.refused e) := by
  rw [initialBatch]
  split
  · simp
  · split
    · simp
    · simp

variable [Surrogate σ]

/-- How a refresh can go. -/
inductive Refreshes (o : Optimizer σ) : Except TuneError Unit → Optimizer σ → Prop
  | current (hstale : o.stale = false) : Refreshes o (.ok ()) o
  | refit {s : σ} (hstale : o.stale = true)
    (hfit : Surrogate.fit o.surrogate o.space o.ledger.entries = (.ok (), s)) :
    Refreshes o (.ok ()) { o with surrogate := s, stale := false, fitCount := o.fitCount + 1 }
  | unfit {e : TuneError} {s : σ} (hstale : o.stale = true)
    (hfit : Surrogate.fit o.surrogate o.space o.ledger.entries = (.error e, s)) :
    Refreshes o (.error e) { o with surrogate := s }

theorem refreshes_refresh (o : Optimizer σ) : Refreshes o o.refresh.1 o.refresh.2 := by
  rw [refresh]
  split
  · next hstale =>
    split
    · next s hfit => exact .refit hstale hfit
    · next e s hfit => exact .unfit hstale hfit
  · next hstale => exact .current (Bool.eq_false_iff.mpr hstale)

theorem refreshes_of_refresh {o next : Optimizer σ} {r : Except TuneError Unit}
    (h : o.refresh = (r, next)) : Refreshes o r next := by
  have hrefreshes := refreshes_refresh o
  rwa [h] at hrefreshes

/-- A batch size that is refused in no state. -/
def Proper (size : Nat) : Prop :=
  size ≠ 0 ∧ size ≤ maxBatchSize

/-- How a request for a batch can go. A request that stops short leaves behind what has been done until
    then: a model that is fit stays so, and a generator stays where it has come to. -/
inductive Suggests (o : Optimizer σ) (size : Nat) :
    Except (Halt TuneError) (List Candidate) → Optimizer σ → Prop
  | empty (hsize : size = 0) :
    Suggests o size (.error (.refused (.invalidRequest .emptyBatch))) o
  | oversized (hsize : maxBatchSize < size) :
    Suggests o size (.error (.refused (.invalidRequest (.oversizedBatch size maxBatchSize)))) o
  | initial (hsize : Proper size) (hledger : o.ledger.entries = []) :
    Suggests o size (o.initialBatch size).1 (o.initialBatch size).2
  | unfit {e : TuneError} {next : Optimizer σ} (hsize : Proper size)
    (hledger : o.ledger.entries ≠ []) (hrefresh : o.refresh = (.error e, next)) :
    Suggests o size (.error (.refused e)) next
  | undrawn {ready : Optimizer σ} {g : Generator} (hsize : Proper size)
    (hledger : o.ledger.entries ≠ []) (hrefresh : o.refresh = (.ok (), ready))
    (hpool : drawPool o.space o.config o.ledger size o.generator = (none, g)) :
    Suggests o size (.error .unboundedDraw) { ready with generator := g }
  | unscored {ready : Optimizer σ} {g : Generator} {pool : List Candidate} {e : TuneError} {s : σ}
    (hsize : Proper size) (hledger : o.ledger.entries ≠ []) (hrefresh : o.refresh = (.ok (), ready))
    (hpool : drawPool o.space o.config o.ledger size o.generator = (some pool, g))
    (hscores : Surrogate.acquire ready.surrogate pool = (.error e, s)) :
    Suggests o size (.error (.refused e)) { ready with generator := g, surrogate := s }
  | miscounted {ready : Optimizer σ} {g : Generator} {pool : List Candidate} {scores : List Double}
    {s : σ} (hsize : Proper size) (hledger : o.ledger.entries ≠ [])
    (hrefresh : o.refresh = (.ok (), ready))
    (hpool : drawPool o.space o.config o.ledger size o.generator = (some pool, g))
    (hscores : Surrogate.acquire ready.surrogate pool = (.ok scores, s))
    (hcount : scores.length ≠ pool.length) :
    Suggests o size
      (.error (.refused (.surrogate (.scoreCount (Surrogate.name s) scores.length pool.length))))
      { ready with generator := g, surrogate := s }
  | chosen {ready : Optimizer σ} {g : Generator} {pool : List Candidate} {scores : List Double}
    {s : σ} (hsize : Proper size) (hledger : o.ledger.entries ≠ [])
    (hrefresh : o.refresh = (.ok (), ready))
    (hpool : drawPool o.space o.config o.ledger size o.generator = (some pool, g))
    (hscores : Surrogate.acquire ready.surrogate pool = (.ok scores, s))
    (hcount : scores.length = pool.length) :
    Suggests o size (.ok (chooseBatch o.ledger pool scores size))
      { ready with generator := g, surrogate := s }

theorem Refreshes.frame {o next : Optimizer σ} {r : Except TuneError Unit}
    (h : Refreshes o r next) :
    next.space = o.space ∧ next.config = o.config ∧ next.ledger = o.ledger ∧
      next.generator = o.generator := by
  cases h with
  | current => exact ⟨rfl, rfl, rfl, rfl⟩
  | refit => exact ⟨rfl, rfl, rfl, rfl⟩
  | unfit => exact ⟨rfl, rfl, rfl, rfl⟩

theorem suggests_suggest (o : Optimizer σ) (size : Nat) :
    Suggests o size (o.suggest size).1 (o.suggest size).2 := by
  rw [suggest]
  split
  · next hsize => exact .empty hsize
  next hpos =>
  split
  · next hsize => exact .oversized hsize
  next hmax =>
  have hsize : Proper size := ⟨hpos, Nat.le_of_not_lt hmax⟩
  split
  · next hledger => exact .initial hsize (List.isEmpty_iff.mp hledger)
  next hisEmpty =>
  have hledger : o.ledger.entries ≠ [] := fun h => hisEmpty (List.isEmpty_iff.mpr h)
  split
  · next ready hrefresh =>
    obtain ⟨hspace, hconfig, hledger', hgenerator⟩ := (refreshes_of_refresh hrefresh).frame
    -- the pool is drawn from parts of the state that a refresh leaves alone
    have hdraw : drawPool ready.space ready.config ready.ledger size ready.generator =
        drawPool o.space o.config o.ledger size o.generator := by
      rw [hspace, hconfig, hledger', hgenerator]
    rw [propose, hdraw]
    split
    · next pool g hpool =>
      rw [chooseFrom]
      split
      · next scores s hscores =>
        have hbatch : chooseBatch ready.ledger pool scores size =
            chooseBatch o.ledger pool scores size := by rw [hledger']
        split
        · next hcount =>
          rw [hbatch]
          have hchosen := Suggests.chosen hsize hledger hrefresh hpool hscores hcount
          exact hchosen
        · next hcount =>
          have hmiscounted := Suggests.miscounted hsize hledger hrefresh hpool hscores hcount
          exact hmiscounted
      · next e s hscores =>
        have hunscored := Suggests.unscored hsize hledger hrefresh hpool hscores
        exact hunscored
    · next g hpool => exact .undrawn hsize hledger hrefresh hpool
  · next e next hrefresh => exact .unfit hsize hledger hrefresh

theorem suggests_of_suggest {o next : Optimizer σ} {size : Nat}
    {r : Except (Halt TuneError) (List Candidate)} (h : o.suggest size = (r, next)) :
    Suggests o size r next := by
  have hsuggests := suggests_suggest o size
  rwa [h] at hsuggests

/-- A request never changes the space, the parameters or the ledger. -/
theorem Suggests.frame {o next : Optimizer σ} {size : Nat}
    {r : Except (Halt TuneError) (List Candidate)} (h : Suggests o size r next) :
    next.space = o.space ∧ next.config = o.config ∧ next.ledger = o.ledger := by
  have hrefreshed : ∀ {r ready}, o.refresh = (r, ready) →
      ready.space = o.space ∧ ready.config = o.config ∧ ready.ledger = o.ledger := by
    intro r ready hrefresh
    obtain ⟨hspace, hconfig, hledger, -⟩ := (refreshes_of_refresh hrefresh).frame
    exact ⟨hspace, hconfig, hledger⟩
  cases h with
  | empty => exact ⟨rfl, rfl, rfl⟩
  | oversized => exact ⟨rfl, rfl, rfl⟩
  | initial =>
    obtain ⟨g, hg⟩ := exists_generator_initialBatch o size
    rw [hg]
    exact ⟨rfl, rfl, rfl⟩
  | unfit _ _ hrefresh => exact hrefreshed hrefresh
  | undrawn _ _ hrefresh =>
    have hready := hrefreshed hrefresh
    exact hready
  | unscored _ _ hrefresh =>
    have hready := hrefreshed hrefresh
    exact hready
  | miscounted _ _ hrefresh =>
    have hready := hrefreshed hrefresh
    exact hready
  | chosen _ _ hrefresh =>
    have hready := hrefreshed hrefresh
    exact hready

theorem ledger_of_suggest {o next : Optimizer σ} {size : Nat}
    {r : Except (Halt TuneError) (List Candidate)} (h : o.suggest size = (r, next)) :
    next.ledger = o.ledger :=
  (suggests_of_suggest h).frame.2.2

end Optimizer

end DelayTuning
