import DelayTuning.Optimizer.Batch
import DelayTuning.Proofs.Double

/-!
# What a batch is made of

A batch is a block of new candidates followed by a block of repeats, and there are repeats only when the
pool has no new candidate left. The invariant `Picked` says what the candidates chosen and passed over so
far have to do with the part of the pool that has been looked at; each step of the selection keeps it.

## Main definitions

- `Picked`: the invariant of the selection
- `FreshFirst`: new candidates first, then repeats of an exhausted pool

## Main statements

- `exists_picked_selectFrom`: the invariant at the end of a selection
- `freshFirst_select`, `length_chooseBatch`: the shape and the size of a batch
-/

namespace DelayTuning

/-- The candidates that have been chosen and passed over, all with the latest one first, once the
    candidates in `passed` have been looked at. -/
structure Picked (observed : Candidate → Bool) (passed fresh repeats : List Candidate) : Prop where
  perm : (fresh ++ repeats).Perm passed
  unobserved : ∀ c ∈ fresh, observed c = false
  /-- No chosen candidate is equal to one that was chosen before it. -/
  distinct : fresh.Pairwise fun later earlier => (earlier == later) = false
  /-- A candidate is passed over because it has been observed or chosen. -/
  repeated : ∀ c ∈ repeats, observed c = true ∨ ∃ d ∈ fresh, (d == c) = true

namespace Picked

variable {observed : Candidate → Bool} {passed fresh repeats : List Candidate} {c : Candidate}

theorem nil (observed : Candidate → Bool) : Picked observed [] [] [] where
  perm := List.Perm.refl []
  unobserved := by simp
  distinct := List.Pairwise.nil
  repeated := by simp

theorem choose (h : Picked observed passed fresh repeats)
    (hnew : (observed c || fresh.any fun d => d == c) = false) :
    Picked observed (c :: passed) (c :: fresh) repeats := by
  obtain ⟨hobserved, hfresh⟩ := Bool.or_eq_false_iff.mp hnew
  refine ⟨h.perm.cons c, ?_, ?_, ?_⟩
  · intro d hd
    obtain rfl | hd := List.mem_cons.mp hd
    · exact hobserved
    · exact h.unobserved d hd
  · refine List.Pairwise.cons ?_ h.distinct
    intro d hd
    simpa using List.any_eq_false.mp hfresh d hd
  · intro d hd
    obtain hobs | ⟨e, he, hed⟩ := h.repeated d hd
    · exact Or.inl hobs
    · exact Or.inr ⟨e, List.mem_cons_of_mem c he, hed⟩

/-- Passing over a candidate that is not new keeps the invariant. -/
theorem passOver (h : Picked observed passed fresh repeats)
    (hold : (observed c || fresh.any fun d => d == c) = true) :
    Picked observed (c :: passed) fresh (c :: repeats) := by
  refine ⟨?_, h.unobserved, h.distinct, ?_⟩
  · exact List.perm_middle.trans (h.perm.cons c)
  · intro d hd
    obtain rfl | hd := List.mem_cons.mp hd
    · obtain hobs | hany := Bool.or_eq_true_iff.mp hold
      · exact Or.inl hobs
      · obtain ⟨e, he, hed⟩ := List.any_eq_true.mp hany
        exact Or.inr ⟨e, he, hed⟩
    · exact h.repeated d hd

end Picked

/-- The invariant at the end of a selection: either the whole pool has been looked at, or there is no
    room left. -/
theorem exists_picked_selectFrom {observed : Candidate → Bool} (room : Nat)
    (rest : List Candidate) {passed fresh repeats : List Candidate}
    (h : Picked observed passed fresh repeats) :
    ∃ passed' fresh' repeats' left,
      selectFrom observed room rest fresh repeats = ⟨fresh'.reverse, repeats'.reverse⟩ ∧
      Picked observed passed' fresh' repeats' ∧
      passed.reverse ++ rest = passed'.reverse ++ left ∧
      fresh'.length ≤ fresh.length + room ∧
      (left = [] ∨ fresh'.length = fresh.length + room) := by
  induction rest generalizing room passed fresh repeats with
  | nil =>
    -- the pool has been looked at to its end, with or without room left
    refine ⟨passed, fresh, repeats, [], ?_, h, rfl, Nat.le_add_right _ _, Or.inl rfl⟩
    cases room <;> rfl
  | cons c rest ih =>
    cases room with
    | zero => exact ⟨passed, fresh, repeats, c :: rest, rfl, h, rfl, Nat.le_refl _, Or.inr rfl⟩
    | succ room =>
      rw [selectFrom]
      split
      · next hold =>
        obtain ⟨passed', fresh', repeats', left, hselect, hpicked, hsplit, hroom, hend⟩ :=
          ih (room + 1) (h.passOver hold)
        refine ⟨passed', fresh', repeats', left, hselect, hpicked, ?_, hroom, hend⟩
        simpa using hsplit
      · next hnew =>
        obtain ⟨passed', fresh', repeats', left, hselect, hpicked, hsplit, hroom, hend⟩ :=
          ih room (h.choose (Bool.eq_false_iff.mpr hnew))
        refine ⟨passed', fresh', repeats', left, hselect, hpicked, ?_, ?_, ?_⟩
        · simpa using hsplit
        · rw [List.length_cons] at hroom
          omega
        · refine hend.imp_right fun hfull => ?_
          rw [hfull, List.length_cons]
          omega

/-! ### The shape of a batch -/

/-- A block of new candidates of a pool followed by a block of repeats, the latter only if the pool has
    no new candidate left. -/
structure FreshFirst (ledger : Ledger) (pool fresh repeats : List Candidate) : Prop where
  /-- All candidates are entries of the pool, and no entry is taken twice. -/
  taken : (fresh ++ repeats).Subperm pool
  unobserved : ∀ c ∈ fresh, ledger.contains c = false
  /-- No two new candidates are equal. -/
  distinct : fresh.Pairwise fun c d => (c == d) = false ∧ (d == c) = false
  /-- A repeat has been observed, or it is equal to a new candidate. -/
  repeated : ∀ c ∈ repeats, ledger.contains c = true ∨ ∃ d ∈ fresh, (d == c) = true
  /-- If there is a repeat, every candidate of the pool has been observed, is one of the new ones or is
      equal to one of them. -/
  exhausted : repeats ≠ [] →
    ∀ c ∈ pool, ledger.contains c = true ∨ c ∈ fresh ∨ ∃ d ∈ fresh, (d == c) = true

/-- From a pool with a single new candidate, however often it is there, this one is taken, and the rest of the
batch are repeats. -/
theorem FreshFirst.fresh_eq_singleton {ledger : Ledger} {pool fresh repeats : List Candidate} {c : Candidate}
    (h : FreshFirst ledger pool fresh repeats) (hbatch : fresh ++ repeats ≠ []) (hc : c ∈ pool)
    (hnew : ledger.contains c = false) (hsame : (c == c) = true)
    (honly : ∀ d ∈ pool, ledger.contains d = false → d = c) : fresh = [c] := by
  have hfresh : ∀ d ∈ fresh, d = c := fun d hd =>
    honly d (h.taken.subset (List.mem_append_left _ hd)) (h.unobserved d hd)
  cases fresh with
  | nil =>
    obtain hobserved | hmem | ⟨d, hd, -⟩ := h.exhausted hbatch c hc
    · rw [hnew] at hobserved
      cases hobserved
    · cases hmem
    · cases hd
  | cons d rest =>
    obtain ⟨rfl, hrest⟩ := List.forall_mem_cons.mp hfresh
    cases rest with
    | nil => rfl
    | cons e rest =>
      -- a second one would be equal to the first
      obtain rfl := hrest e List.mem_cons_self
      have hdistinct := (List.pairwise_cons.mp h.distinct).1 e List.mem_cons_self
      rw [hsame] at hdistinct
      cases hdistinct.1

theorem map_fst_ranked_perm {pool : List Candidate} {scores : List Double}
    (h : scores.length = pool.length) : ((ranked pool scores).map Prod.fst).Perm pool := by
  have hsorted := (List.mergeSort_perm (pool.zip scores) fun a b => b.2.totalLe a.2).map Prod.fst
  rw [List.map_fst_zip (Nat.le_of_eq h.symm)] at hsorted
  exact hsorted

section Chosen

variable (ledger : Ledger) {pool : List Candidate} {scores : List Double} (size : Nat)

/-- The invariant at the end of a selection from a whole pool, which is what was chosen, what was passed over, and
what was not looked at. -/
theorem exists_picked_select (hscores : scores.length = pool.length) :
    ∃ passed later skipped left,
      select ledger.contains size ((ranked pool scores).map Prod.fst) = ⟨later.reverse, skipped.reverse⟩ ∧
      Picked ledger.contains passed later skipped ∧
      (later ++ skipped ++ left).Perm pool ∧
      later.length ≤ size ∧ (left = [] ∨ later.length = size) := by
  obtain ⟨passed, later, skipped, left, hselect, hpicked, hsplit, hroom, hend⟩ :=
    exists_picked_selectFrom size ((ranked pool scores).map Prod.fst) (Picked.nil ledger.contains)
  rw [List.length_nil, Nat.zero_add] at hroom hend
  refine ⟨passed, later, skipped, left, hselect, hpicked, ?_, hroom, hend⟩
  have hlooked : (later ++ skipped ++ left).Perm (passed.reverse ++ left) :=
    (hpicked.perm.trans passed.reverse_perm.symm).append_right left
  rw [← hsplit] at hlooked
  exact hlooked.trans (map_fst_ranked_perm hscores)

/-- A batch is full if the pool is large enough. -/
theorem length_chooseBatch (hscores : scores.length = pool.length) (hsize : size ≤ pool.length) :
    (chooseBatch ledger pool scores size).length = size := by
  obtain ⟨_, later, skipped, left, hselect, -, hpool, hroom, hend⟩ :=
    exists_picked_select ledger size hscores
  have hlength : later.length + (skipped.length + left.length) = pool.length := by
    simpa using hpool.length_eq
  rw [chooseBatch, hselect, Selection.batch, List.length_append, List.length_take, List.length_reverse,
    List.length_reverse]
  obtain rfl | hfull := hend
  · rw [List.length_nil] at hlength
    omega
  · omega

/-- The two blocks of a batch. -/
theorem freshFirst_select (hscores : scores.length = pool.length) {s : Selection}
    (hs : select ledger.contains size ((ranked pool scores).map Prod.fst) = s) :
    FreshFirst ledger pool s.fresh (s.repeats.take (size - s.fresh.length)) := by
  obtain ⟨_, later, skipped, left, hselect, hpicked, hpool, -, hend⟩ :=
    exists_picked_select ledger size hscores
  cases hselect.symm.trans hs
  simp only [List.length_reverse]
  refine ⟨?_, ?_, ?_, ?_, ?_⟩
  · have htake : (skipped.reverse.take (size - later.length)).Sublist skipped.reverse :=
      List.take_sublist _ _
    have hsub : (later.reverse ++ skipped.reverse.take (size - later.length)).Subperm
        (later ++ skipped) :=
      (((List.Sublist.refl later.reverse).append htake).subperm).trans
        (later.reverse_perm.append skipped.reverse_perm).subperm
    exact hsub.trans ((List.sublist_append_left _ left).subperm.trans hpool.subperm)
  · intro c hc
    exact hpicked.unobserved c (List.mem_reverse.mp hc)
  · rw [List.pairwise_reverse]
    refine hpicked.distinct.imp fun {c d} hdc => ⟨hdc, ?_⟩
    rw [Candidate.beq_comm]
    exact hdc
  · intro c hc
    simpa using hpicked.repeated c (List.mem_reverse.mp (List.mem_of_mem_take hc))
  · intro hrepeats c hc
    have hleft : left = [] := by
      refine hend.resolve_right fun hfull => hrepeats ?_
      rw [hfull, Nat.sub_self, List.take_zero]
    rw [hleft, List.append_nil] at hpool
    obtain hc | hc := List.mem_append.mp (hpool.mem_iff.mpr hc)
    · exact Or.inr (Or.inl (List.mem_reverse.mpr hc))
    · obtain hobserved | ⟨d, hd, hdc⟩ := hpicked.repeated c hc
      · exact Or.inl hobserved
      · exact Or.inr (Or.inr ⟨d, List.mem_reverse.mpr hd, hdc⟩)

end Chosen

/-- A batch is new candidates first, and it is full if the pool is large enough. -/
theorem exists_freshFirst_chooseBatch (ledger : Ledger) {pool : List Candidate}
    {scores : List Double} {size : Nat} (hscores : scores.length = pool.length)
    (hsize : size ≤ pool.length) :
    ∃ fresh repeats, chooseBatch ledger pool scores size = fresh ++ repeats ∧
      (fresh ++ repeats).length = size ∧ FreshFirst ledger pool fresh repeats :=
  ⟨_, _, rfl, length_chooseBatch ledger size hscores hsize, freshFirst_select ledger size hscores rfl⟩

end DelayTuning
