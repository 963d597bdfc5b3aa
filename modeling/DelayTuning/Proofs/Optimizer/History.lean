import DelayTuning.Proofs.Optimizer.Step
import DelayTuning.Proofs.Surrogate.Basic

/-!
# Histories of an optimizer

A history is a sequence of questions and answers put to one optimizer, each of which may fail. Whatever
holds at the start and is kept by every call holds after every history.

## Main definitions

- `Call`, `Answer`: a call of an optimizer and what comes back
- `Optimizer.perform`, `Optimizer.after`, `Optimizer.transcript`: one call, a whole history, and the
  answers in it
- `Answer.isRefusal`: whether a call has failed with an error
- `Optimizer.map`: the optimizer with another model

## Main statements

- `Optimizer.invariant_after`: what every call keeps holds after every history
- `Optimizer.transcript_kept`: if refused calls change nothing they can be left out
- `Optimizer.after_map`: a map that respects the models commutes with histories
-/

namespace DelayTuning

/-- A call of an optimizer. -/
inductive Call where
  | suggest (size : Nat)
  | observe (candidates : List Candidate) (values : List Float)
  deriving DecidableEq, Repr

/-- What comes back from a call. -/
inductive Answer where
  | suggested (result : Except (Halt TuneError) (List Candidate))
  | observed (result : Except TuneError Unit)

/-- Whether a call has failed with an error. A draw that breaks off returns nothing at all, so it is no
    refusal. -/
def Answer.isRefusal : Answer → Bool
  | .suggested (.error (.refused _)) => true
  | .suggested _ => false
  | .observed (.error _) => true
  | .observed (.ok _) => false

namespace Optimizer

variable {σ τ : Type} [Surrogate σ] [Surrogate τ]

/-- One call, with the optimizer it leaves behind. -/
def perform (o : Optimizer σ) : Call → Answer × Optimizer σ
  | .suggest size => (.suggested (o.suggest size).1, (o.suggest size).2)
  | .observe candidates values =>
    (.observed (o.observe candidates values).1, (o.observe candidates values).2)

def after (o : Optimizer σ) : List Call → Optimizer σ
  | [] => o
  | call :: rest => (o.perform call).2.after rest

/-- The calls of a history with their answers. -/
def transcript (o : Optimizer σ) : List Call → List (Call × Answer)
  | [] => []
  | call :: rest => (call, (o.perform call).1) :: (o.perform call).2.transcript rest

@[simp]
theorem after_nil (o : Optimizer σ) : o.after [] = o := rfl

@[simp]
theorem after_append (o : Optimizer σ) (earlier later : List Call) :
    o.after (earlier ++ later) = (o.after earlier).after later := by
  induction earlier generalizing o with
  | nil => rfl
  | cons call rest ih => exact ih _

/-- What every call keeps holds after every history. -/
theorem invariant_after {P : Optimizer σ → Prop} (hstep : ∀ o call, P o → P (o.perform call).2)
    {o : Optimizer σ} (h : P o) (calls : List Call) : P (o.after calls) := by
  induction calls generalizing o with
  | nil => exact h
  | cons call rest ih => exact ih (hstep o call h)

/-! ### Leaving out refused calls -/

/-- The calls of a history that were not refused, with their answers. -/
def kept (o : Optimizer σ) (calls : List Call) : List (Call × Answer) :=
  (o.transcript calls).filter fun entry => !entry.2.isRefusal

/-- If no refused call changes anything, the other calls have the same answers without them and leave the
    same optimizer behind. -/
theorem transcript_kept {P : Optimizer σ → Prop} (hstep : ∀ o call, P o → P (o.perform call).2)
    (hrefused : ∀ o call, P o → (o.perform call).1.isRefusal = true → (o.perform call).2 = o)
    {o : Optimizer σ} (h : P o) (calls : List Call) :
    o.transcript ((o.kept calls).map Prod.fst) = o.kept calls ∧
      o.after ((o.kept calls).map Prod.fst) = o.after calls := by
  induction calls generalizing o with
  | nil => exact ⟨rfl, rfl⟩
  | cons call rest ih =>
    obtain ⟨htranscript, hafter⟩ := ih (hstep o call h)
    cases hanswer : (o.perform call).1.isRefusal with
    | true =>
      -- the first call is left out, and the others start from the state that it has not changed
      have hkept : o.kept (call :: rest) = (o.perform call).2.kept rest := by
        simp [kept, transcript, hanswer]
      have hsame := hrefused o call h hanswer
      rw [hkept, after]
      rw [hsame] at htranscript hafter ⊢
      exact ⟨htranscript, hafter⟩
    | false =>
      have hkept : o.kept (call :: rest) =
          (call, (o.perform call).1) :: (o.perform call).2.kept rest := by
        simp [kept, transcript, hanswer]
      rw [hkept, List.map_cons, transcript, after, after, htranscript, hafter]
      exact ⟨rfl, rfl⟩

/-! ### Searches with another model -/

/-- The optimizer with another model in the place of its own. -/
def map (f : σ → τ) (o : Optimizer σ) : Optimizer τ :=
  { o with surrogate := f o.surrogate }

omit [Surrogate σ] [Surrogate τ] in
theorem record_map (f : σ → τ) (o : Optimizer σ) (evaluated : List (Candidate × Float)) :
    (o.map f).record evaluated = Prod.map id (map f) (o.record evaluated) := by
  induction evaluated generalizing o with
  | nil => rfl
  | cons p rest ih =>
    obtain ⟨candidate, value⟩ := p
    have hledger : (o.map f).ledger = o.ledger := rfl
    rw [record, record, hledger]
    split
    · next ledger _ => exact ih { o with ledger := ledger, stale := true }
    · rfl

omit [Surrogate σ] [Surrogate τ] in
theorem observe_map (f : σ → τ) (o : Optimizer σ) (candidates : List Candidate)
    (values : List Float) :
    (o.map f).observe candidates values = Prod.map id (map f) (o.observe candidates values) := by
  have hfault : (o.map f).batchFault? candidates values = o.batchFault? candidates values := rfl
  rw [observe, observe, hfault]
  split
  · rfl
  · exact record_map f o _

omit [Surrogate σ] [Surrogate τ] in
theorem initialBatch_map (f : σ → τ) (o : Optimizer σ) (size : Nat) :
    (o.map f).initialBatch size = Prod.map id (map f) (o.initialBatch size) := by
  have hconfig : (o.map f).config = o.config := rfl
  have hspace : (o.map f).space = o.space := rfl
  have hgenerator : (o.map f).generator = o.generator := rfl
  rw [initialBatch, initialBatch, hconfig, hspace, hgenerator]
  split
  · rfl
  · split
    · rfl
    · rfl

variable {f : σ → τ}

theorem refresh_map (hf : Surrogate.Respects f) (o : Optimizer σ) :
    (o.map f).refresh = Prod.map id (map f) o.refresh := by
  rw [refresh, refresh]
  by_cases hstale : o.stale = true
  · have hstale' : (o.map f).stale = true := hstale
    have hfit : Surrogate.fit (o.map f).surrogate (o.map f).space (o.map f).ledger.entries =
        Prod.map id f (Surrogate.fit o.surrogate o.space o.ledger.entries) := hf.fit _ _ _
    rw [if_pos hstale, if_pos hstale', hfit]
    obtain ⟨_ | _, s⟩ := Surrogate.fit o.surrogate o.space o.ledger.entries
    · rfl
    · rfl
  · have hstale' : ¬ (o.map f).stale = true := hstale
    rw [if_neg hstale, if_neg hstale']
    rfl

theorem chooseFrom_map (hf : Surrogate.Respects f) (o : Optimizer σ) (pool : List Candidate)
    (size : Nat) :
    (o.map f).chooseFrom pool size = Prod.map id (map f) (o.chooseFrom pool size) := by
  have hacquire : Surrogate.acquire (o.map f).surrogate pool =
      Prod.map id f (Surrogate.acquire o.surrogate pool) := hf.acquire _ _
  rw [chooseFrom, chooseFrom, hacquire]
  obtain ⟨e | scores, s⟩ := Surrogate.acquire o.surrogate pool
  · rfl
  · simp only [Prod.map, id_eq]
    split
    · rfl
    · rw [hf.name]
      rfl

theorem propose_map (hf : Surrogate.Respects f) (o : Optimizer σ) (size : Nat) :
    (o.map f).propose size = Prod.map id (map f) (o.propose size) := by
  have hpool : drawPool (o.map f).space (o.map f).config (o.map f).ledger size
      (o.map f).generator = drawPool o.space o.config o.ledger size o.generator := rfl
  rw [propose, propose, hpool]
  split
  · next pool g _ => exact chooseFrom_map hf { o with generator := g } pool size
  · rfl

theorem suggest_map (hf : Surrogate.Respects f) (o : Optimizer σ) (size : Nat) :
    (o.map f).suggest size = Prod.map id (map f) (o.suggest size) := by
  have hledger : (o.map f).ledger = o.ledger := rfl
  rw [suggest, suggest, hledger, refresh_map hf]
  split
  · rfl
  split
  · rfl
  split
  · exact initialBatch_map f o size
  obtain ⟨_ | _, ready⟩ := o.refresh
  · rfl
  · exact propose_map hf ready size

theorem perform_map (hf : Surrogate.Respects f) (o : Optimizer σ) (call : Call) :
    (o.map f).perform call = Prod.map id (map f) (o.perform call) := by
  cases call with
  | suggest size => simp [perform, suggest_map hf]
  | observe candidates values => simp [perform, observe_map f]

/-- A map that respects the models commutes with histories, and the answers are the same. -/
theorem after_map (hf : Surrogate.Respects f) (o : Optimizer σ) (calls : List Call) :
    (o.map f).after calls = (o.after calls).map f ∧
      (o.map f).transcript calls = o.transcript calls := by
  induction calls generalizing o with
  | nil => exact ⟨rfl, rfl⟩
  | cons call rest ih =>
    obtain ⟨hafter, htranscript⟩ := ih (o.perform call).2
    have hanswer : ((o.map f).perform call).1 = (o.perform call).1 := by rw [perform_map hf]; rfl
    have hnext : ((o.map f).perform call).2 = (o.perform call).2.map f := by
      rw [perform_map hf]; rfl
    rw [after, after, transcript, transcript, hanswer, hnext, hafter, htranscript]
    exact ⟨rfl, rfl⟩

end Optimizer

/-! ### The smallest search space -/

theorem wellFormed_point : WellFormed [(⟨"x", 0.5, 0.5⟩ : Parameter Double)] :=
  (fault?_eq_none_iff _).mp (by decide)

def pointSpace : Space Double := ⟨_, wellFormed_point⟩

/-- A search over it, before anything has been observed. -/
def Optimizer.pointSearch : Optimizer IndifferentModel :=
  .start pointSpace .indifferent .standard

end DelayTuning
