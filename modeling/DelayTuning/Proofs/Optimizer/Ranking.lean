import DelayTuning.Proofs.Optimizer.Batch
import DelayTuning.Space.Delay

/-!
# The best candidates of the pool

The selection goes through the pool in the order of the scores, so a candidate that it does not choose comes after
all that it chooses, or it has been observed, or an equal one is chosen before it. The same vector can stand in the
pool several times with different scores, so the entries of the pool are told apart by their positions.

That the choice is the best one follows from this alone. If another choice were better at some rank, its entries up
to this rank would all be represented by the chosen ones before it, which are fewer.

## Main definitions

- `PoolEntry`, `poolEntries`: the candidates of a pool with their scores and positions
- `PoolEntry.Precedes`: the order of the entries
- `PoolEntry.StandsFor`: whether an entry makes another one superfluous
- `Sifts`: how a selection goes through a ranked pool
- `Covers`: what becomes of the entries that are not chosen
- `Choice`, `BestFirst`: what can be chosen, and what is chosen

## Main statements

- `pairwise_precedes_rankedEntries`: the entries in their order
- `Sifts.covers`: a selection covers all entries
- `Choice.forall₂_take`: no other choice is better at any rank
- `Optimizer.suggest_bestFirst`: the batch that is suggested
-/

namespace DelayTuning

/-! ### The entries of a pool -/

/-- A candidate of a pool with its score, at its position in the pool. -/
structure PoolEntry where
  candidate : Candidate
  score : Double
  position : ℕ
  deriving DecidableEq, Repr

namespace PoolEntry

def ofIndexed (p : (Candidate × Double) × ℕ) : PoolEntry :=
  ⟨p.1.1, p.1.2, p.2⟩

/-- An entry comes before another one if its score is higher in the total order of doubles, or if it has the same
score and stands first in the pool. -/
structure Precedes (d e : PoolEntry) : Prop where
  score_le : e.score.totalLe d.score = true
  position_lt : d.score.totalLe e.score = true → d.position < e.position

theorem precedes_of_zipIdxLE {p q : (Candidate × Double) × ℕ}
    (h : List.zipIdxLE (fun a b => b.2.totalLe a.2) p q = true) (hne : p.2 ≠ q.2) :
    (ofIndexed p).Precedes (ofIndexed q) := by
  rw [List.zipIdxLE] at h
  split at h
  · next hle =>
    refine ⟨hle, fun hge => ?_⟩
    have hge' : p.1.2.totalLe q.1.2 = true := hge
    rw [if_pos hge'] at h
    exact Nat.lt_of_le_of_ne (of_decide_eq_true h) hne
  · cases h

/-- An entry stands for another one if it is the same entry or has an equal candidate. A candidate with a NaN is not
equal to itself. -/
def StandsFor (d e : PoolEntry) : Prop :=
  d = e ∨ (d.candidate == e.candidate) = true

/-- Two entries with the same representative are the same, or their candidates are equal. -/
theorem StandsFor.eq_or_beq {d e e' : PoolEntry} (h : d.StandsFor e) (h' : d.StandsFor e') :
    e = e' ∨ (e.candidate == e'.candidate) = true := by
  obtain rfl | hequal := h
  · exact h'
  · rw [Candidate.beq_comm] at hequal
    obtain rfl | hequal' := h'
    · exact Or.inr hequal
    · exact Or.inr (Candidate.beq_trans hequal hequal')

end PoolEntry

section Entries

variable (pool : List Candidate) (scores : List Double)

def poolEntries : List PoolEntry :=
  (pool.zip scores).zipIdx.map PoolEntry.ofIndexed

/-- The entries of a pool, the one that comes first in front. -/
def rankedEntries : List PoolEntry :=
  ((pool.zip scores).zipIdx.mergeSort (List.zipIdxLE fun a b => b.2.totalLe a.2)).map PoolEntry.ofIndexed

theorem rankedEntries_perm : (rankedEntries pool scores).Perm (poolEntries pool scores) :=
  (List.mergeSort_perm _ _).map _

theorem nodup_position_poolEntries : ((poolEntries pool scores).map PoolEntry.position).Nodup := by
  have hpositions : (poolEntries pool scores).map PoolEntry.position =
      List.range' 0 (pool.zip scores).length := by
    rw [poolEntries, List.map_map, ← List.zipIdx_map_snd]
    rfl
  rw [hpositions]
  exact List.nodup_range'

theorem nodup_poolEntries : (poolEntries pool scores).Nodup :=
  (nodup_position_poolEntries pool scores).of_map _

/-- Without the positions the order is that of the ranked pool, since equal scores keep the order of the pool. -/
theorem map_candidate_rankedEntries :
    (rankedEntries pool scores).map PoolEntry.candidate = (ranked pool scores).map Prod.fst := by
  rw [ranked, ← List.mergeSort_zipIdx, rankedEntries, List.map_map, List.map_map]
  rfl

theorem pairwise_precedes_rankedEntries : (rankedEntries pool scores).Pairwise PoolEntry.Precedes := by
  have hpositions : ((rankedEntries pool scores).map PoolEntry.position).Nodup :=
    ((rankedEntries_perm pool scores).map _).nodup_iff.mpr (nodup_position_poolEntries pool scores)
  have hsorted := List.pairwise_mergeSort
    (List.zipIdxLE_trans fun (a b c : Candidate × Double) hab hbc => c.2.totalLe_trans b.2 a.2 hbc hab)
    (List.zipIdxLE_total fun a b => b.2.totalLe_total a.2) (pool.zip scores).zipIdx
  rw [rankedEntries, List.map_map, List.nodup_iff_pairwise_ne, List.pairwise_map] at hpositions
  rw [rankedEntries, List.pairwise_map]
  exact hsorted.imp₂ (fun _ _ => PoolEntry.precedes_of_zipIdxLE) hpositions

end Entries

/-! ### Going through the entries -/

/-- Each unobserved entry has a representative among the chosen ones that scores at least as high, or there are as
many chosen ones as there may be and all of them score at least as high. -/
def Covers (ledger : Ledger) (entries : List PoolEntry) (size : ℕ) (fresh : List PoolEntry) : Prop :=
  ∀ e ∈ entries, ledger.contains e.candidate = false →
    (∃ d ∈ fresh, d.StandsFor e ∧ e.score.totalLe d.score = true) ∨
      (fresh.length = size ∧ ∀ d ∈ fresh, e.score.totalLe d.score = true)

/-- How a selection with room for so many entries goes through the rest of a ranked pool, with some entries chosen
already: it chooses the `fresh` ones, passes over the `repeats` and does not look at those that are `left`. That the
chosen ones are new is said by `FreshFirst`. -/
inductive Sifts (observed : Candidate → Bool) :
    List PoolEntry → ℕ → List PoolEntry → List PoolEntry → List PoolEntry → List PoolEntry → Prop
  | full (chosen left : List PoolEntry) : Sifts observed chosen 0 left [] [] left
  | finished (chosen : List PoolEntry) (room : ℕ) : Sifts observed chosen (room + 1) [] [] [] []
  | passOver {chosen rest fresh repeats left : List PoolEntry} {room : ℕ} {e : PoolEntry}
    (hold : observed e.candidate = true ∨ ∃ d ∈ chosen, (d.candidate == e.candidate) = true)
    (h : Sifts observed chosen (room + 1) rest fresh repeats left) :
    Sifts observed chosen (room + 1) (e :: rest) fresh (e :: repeats) left
  | choose {chosen rest fresh repeats left : List PoolEntry} {room : ℕ} {e : PoolEntry}
    (h : Sifts observed (e :: chosen) room rest fresh repeats left) :
    Sifts observed chosen (room + 1) (e :: rest) (e :: fresh) repeats left

/-- The selection goes through the candidates of the entries in this way. -/
theorem exists_sifts_selectFrom (observed : Candidate → Bool) (room : ℕ) (rest chosen passed : List PoolEntry) :
    ∃ fresh repeats left, Sifts observed chosen room rest fresh repeats left ∧
      selectFrom observed room (rest.map PoolEntry.candidate) (chosen.map PoolEntry.candidate)
          (passed.map PoolEntry.candidate) =
        ⟨(chosen.reverse ++ fresh).map PoolEntry.candidate,
          (passed.reverse ++ repeats).map PoolEntry.candidate⟩ := by
  induction rest generalizing room chosen passed with
  | nil =>
    cases room with
    | zero => exact ⟨[], [], [], .full chosen [], by simp [selectFrom]⟩
    | succ room => exact ⟨[], [], [], .finished chosen room, by simp [selectFrom]⟩
  | cons e rest ih =>
    cases room with
    | zero => exact ⟨[], [], e :: rest, .full chosen _, by simp [selectFrom]⟩
    | succ room =>
      rw [List.map_cons, selectFrom]
      split
      · next hold =>
        obtain ⟨fresh, repeats, left, hsifts, hselect⟩ := ih (room + 1) chosen (e :: passed)
        refine ⟨fresh, e :: repeats, left, .passOver ?_ hsifts, ?_⟩
        · simpa using hold
        · rw [List.map_cons] at hselect
          rw [hselect, List.reverse_cons, List.append_assoc, List.singleton_append]
      · obtain ⟨fresh, repeats, left, hsifts, hselect⟩ := ih room (e :: chosen) passed
        refine ⟨e :: fresh, repeats, left, .choose hsifts, ?_⟩
        rw [List.map_cons] at hselect
        rw [hselect, List.reverse_cons, List.append_assoc, List.singleton_append]

namespace Sifts

variable {observed : Candidate → Bool} {chosen rest fresh repeats left : List PoolEntry} {room : ℕ}

theorem perm (h : Sifts observed chosen room rest fresh repeats left) :
    (fresh ++ repeats ++ left).Perm rest := by
  induction h with
  | full => exact List.Perm.refl _
  | finished => exact List.Perm.refl _
  | passOver _ _ ih =>
    rw [List.append_assoc] at ih ⊢
    exact List.perm_middle.trans (ih.cons _)
  | choose _ ih => exact ih.cons _

theorem fresh_sublist (h : Sifts observed chosen room rest fresh repeats left) : fresh.Sublist rest := by
  induction h with
  | full => exact List.nil_sublist _
  | finished => exact List.nil_sublist _
  | passOver _ _ ih => exact ih.cons _
  | choose _ ih => exact ih.cons_cons _

theorem repeats_sublist (h : Sifts observed chosen room rest fresh repeats left) :
    repeats.Sublist rest := by
  induction h with
  | full => exact List.nil_sublist _
  | finished => exact List.nil_sublist _
  | passOver _ _ ih => exact ih.cons_cons _
  | choose _ ih => exact ih.cons _

/-- Only a selection without room does not look at everything. -/
theorem left_eq_nil_or (h : Sifts observed chosen room rest fresh repeats left) :
    left = [] ∨ fresh.length = room := by
  induction h with
  | full => exact Or.inr rfl
  | finished => exact Or.inl rfl
  | passOver _ _ ih => exact ih
  | choose _ ih => exact ih.imp_right fun hfull => by rw [List.length_cons, hfull]

theorem length_le (h : Sifts observed chosen room rest fresh repeats left) : fresh.length ≤ room := by
  induction h with
  | full => exact Nat.le_refl _
  | finished => exact Nat.zero_le _
  | passOver _ _ ih => exact ih
  | choose _ ih => exact Nat.succ_le_succ ih

/-- What is not looked at comes after all that is chosen. -/
theorem precedes_left (h : Sifts observed chosen room rest fresh repeats left)
    (hranked : rest.Pairwise PoolEntry.Precedes) : ∀ d ∈ fresh, ∀ e ∈ left, d.Precedes e := by
  induction h with
  | full => simp
  | finished => simp
  | passOver _ _ ih => exact ih (List.pairwise_cons.mp hranked).2
  | choose h ih =>
    obtain ⟨hfirst, hrest⟩ := List.pairwise_cons.mp hranked
    refine List.forall_mem_cons.mpr ⟨?_, ih hrest⟩
    intro e he
    exact hfirst e (h.perm.subset (List.mem_append_right _ he))

/-- What is passed over has been observed, or it comes after a chosen entry with an equal candidate. -/
theorem precedes_repeats (h : Sifts observed chosen room rest fresh repeats left)
    (hranked : rest.Pairwise PoolEntry.Precedes)
    (hchosen : ∀ d ∈ chosen, ∀ e ∈ rest, d.Precedes e) :
    ∀ e ∈ repeats, observed e.candidate = true ∨
      ∃ d, (d ∈ chosen ∨ d ∈ fresh) ∧ d.Precedes e ∧ (d.candidate == e.candidate) = true := by
  induction h with
  | full => simp
  | finished => simp
  | passOver hold h ih =>
    obtain ⟨-, hrest⟩ := List.pairwise_cons.mp hranked
    have hlater := ih hrest fun d hd e he => hchosen d hd e (List.mem_cons_of_mem _ he)
    refine List.forall_mem_cons.mpr ⟨?_, hlater⟩
    refine hold.imp_right fun ⟨d, hd, hequal⟩ => ?_
    exact ⟨d, Or.inl hd, hchosen d hd _ List.mem_cons_self, hequal⟩
  | @choose chosen rest fresh repeats left room first h ih =>
    obtain ⟨hfirst, hrest⟩ := List.pairwise_cons.mp hranked
    have hbehind : ∀ d ∈ first :: chosen, ∀ e ∈ rest, d.Precedes e :=
      List.forall_mem_cons.mpr ⟨hfirst, fun d hd e he => hchosen d hd e (List.mem_cons_of_mem _ he)⟩
    intro e he
    refine (ih hrest hbehind e he).imp_right fun ⟨d, hd, hafter⟩ => ⟨d, ?_, hafter⟩
    rw [List.mem_cons, or_assoc, or_left_comm] at hd
    rw [List.mem_cons]
    exact hd

/-- A new entry is chosen, or a chosen one with an equal candidate comes before it, or the selection is full before
it comes to it. -/
theorem covers {ledger : Ledger} (h : Sifts ledger.contains [] room rest fresh repeats left)
    (hranked : rest.Pairwise PoolEntry.Precedes) : Covers ledger rest room fresh := by
  intro e he hnew
  have hmem := h.perm.mem_iff.mpr he
  rw [List.mem_append, List.mem_append] at hmem
  obtain (hfresh | hrepeat) | hleft := hmem
  · exact Or.inl ⟨e, hfresh, Or.inl rfl, e.score.totalLe_refl⟩
  · obtain hold | ⟨d, hd, hbefore, hequal⟩ := h.precedes_repeats hranked (by simp) e hrepeat
    · cases hold.symm.trans hnew
    · have hd : d ∈ fresh := hd.resolve_left List.not_mem_nil
      exact Or.inl ⟨d, hd, Or.inr hequal, hbefore.score_le⟩
  · have hfull := h.left_eq_nil_or.resolve_left (List.ne_nil_of_mem hleft)
    exact Or.inr ⟨hfull, fun d hd => (h.precedes_left hranked d hd e hleft).score_le⟩

end Sifts

/-! ### The best choice -/

/-- In the order of their scores no later entry has a higher score. -/
theorem PoolEntry.score_le_of_le {entries : List PoolEntry}
    (h : entries.Pairwise fun d e => e.score.totalLe d.score = true) {i j : ℕ} (hj : j < entries.length)
    (hij : i ≤ j) : entries[j].score.totalLe entries[i].score = true := by
  obtain rfl | hlt := hij.eq_or_lt
  · exact entries[i].score.totalLe_refl
  · exact List.pairwise_iff_getElem.mp h i j (by omega) hj hlt

/-- What can be chosen: at most so many unobserved entries of a pool with unequal candidates, in the order of their
scores. -/
structure Choice (ledger : Ledger) (entries : List PoolEntry) (size : ℕ) (chosen : List PoolEntry) : Prop where
  taken : chosen.Subperm entries
  length_le : chosen.length ≤ size
  unobserved : ∀ e ∈ chosen, ledger.contains e.candidate = false
  distinct : chosen.Pairwise fun d e => (d.candidate == e.candidate) = false
  sorted : chosen.Pairwise fun d e => e.score.totalLe d.score = true

namespace Choice

variable {ledger : Ledger} {entries other fresh : List PoolEntry} {size : ℕ}

/-- No two entries of a choice have the same representative. -/
theorem eq_of_standsFor (h : Choice ledger entries size other) (hnodup : entries.Nodup) {i j : ℕ}
    (hi : i < other.length) (hj : j < other.length) {d : PoolEntry} (hdi : d.StandsFor other[i])
    (hdj : d.StandsFor other[j]) : i = j := by
  obtain ⟨_, hperm, hsublist⟩ := h.taken
  have hother : other.Nodup := hperm.nodup_iff.mp (hnodup.sublist hsublist)
  by_contra hne
  obtain hsame | hequal := hdi.eq_or_beq hdj
  · exact hne (hother.getElem_inj_iff.mp hsame)
  · obtain hlt | hlt := lt_or_gt_of_ne hne
    · rw [List.pairwise_iff_getElem.mp h.distinct i j hi hj hlt] at hequal
      cases hequal
    · rw [Candidate.beq_comm, List.pairwise_iff_getElem.mp h.distinct j i hj hi hlt] at hequal
      cases hequal

/-- Where all entries are covered, no other choice has a higher score at any rank. -/
theorem score_le (h : Choice ledger entries size other) (hnodup : entries.Nodup)
    (hcovers : Covers ledger entries size fresh)
    (hsorted : fresh.Pairwise fun d e => e.score.totalLe d.score = true)
    {k : ℕ} (hk : k < other.length) :
    ∃ hk' : k < fresh.length, other[k].score.totalLe fresh[k].score = true := by
  by_contra hworse
  -- then each of its entries up to this rank is represented by a chosen one before it
  have hearlier : ∀ j : Fin (k + 1), ∃ i : Fin k, ∃ hi : i.val < fresh.length,
      fresh[i.val].StandsFor other[j.val] := by
    intro j
    have hscore := PoolEntry.score_le_of_le h.sorted hk (Nat.le_of_lt_succ j.isLt)
    have hmem : other[j.val] ∈ other := List.getElem_mem _
    obtain ⟨d, hd, hstands, hle⟩ | ⟨hfull, hall⟩ :=
      hcovers _ (h.taken.subset hmem) (h.unobserved _ hmem)
    · obtain ⟨i, hi, rfl⟩ := List.getElem_of_mem hd
      refine ⟨⟨i, ?_⟩, hi, hstands⟩
      by_contra hik
      have hk' : k < fresh.length := by omega
      have hchosen := PoolEntry.score_le_of_le hsorted hi (Nat.le_of_not_lt hik)
      exact hworse ⟨hk', Double.totalLe_trans _ _ _ (Double.totalLe_trans _ _ _ hscore hle) hchosen⟩
    · have hk' : k < fresh.length := by
        have := h.length_le
        omega
      exact (hworse ⟨hk', Double.totalLe_trans _ _ _ hscore (hall _ (List.getElem_mem hk'))⟩).elim
  choose rank hrank hstands using hearlier
  obtain ⟨i, j, hne, hsame⟩ := Fintype.exists_ne_map_eq_of_card_lt rank (by simp)
  have hj := hstands j
  simp only [← hsame] at hj
  exact hne (Fin.ext (h.eq_of_standsFor hnodup _ _ (hstands i) hj))

theorem forall₂_take (h : Choice ledger entries size other) (hnodup : entries.Nodup)
    (hcovers : Covers ledger entries size fresh)
    (hsorted : fresh.Pairwise fun d e => e.score.totalLe d.score = true) :
    List.Forall₂ (fun e d => e.score.totalLe d.score = true) other (fresh.take other.length) := by
  have hlength : other.length ≤ fresh.length := by
    by_contra hmore
    obtain ⟨hlt, -⟩ := h.score_le hnodup hcovers hsorted (Nat.lt_of_not_le hmore)
    exact Nat.lt_irrefl _ hlt
  refine List.forall₂_iff_get.mpr ⟨by rw [List.length_take, min_eq_left hlength], ?_⟩
  intro k hk hk'
  obtain ⟨_, hscore⟩ := h.score_le hnodup hcovers hsorted hk
  simpa using hscore

end Choice

/-- What is chosen: a block of new entries, which are the best choice, and a block of repeats. -/
structure BestFirst (ledger : Ledger) (entries : List PoolEntry) (size : ℕ)
    (fresh repeats : List PoolEntry) : Prop where
  /-- No entry is taken twice. -/
  taken : (fresh ++ repeats).Subperm entries
  fresh_ranked : fresh.Pairwise PoolEntry.Precedes
  repeats_ranked : repeats.Pairwise PoolEntry.Precedes
  fresh_choice : Choice ledger entries size fresh
  /-- An unobserved entry with a higher score than the last new one is among the new ones, or its candidate is equal
  to one of theirs. -/
  complete : ∀ last ∈ fresh.getLast?, ∀ e ∈ entries, ledger.contains e.candidate = false →
    e.score.totalLe last.score = false → ∃ d ∈ fresh, d.StandsFor e
  /-- No other choice has more entries, or a higher score at any rank. -/
  best : ∀ other, Choice ledger entries size other →
    List.Forall₂ (fun e d => e.score.totalLe d.score = true) other (fresh.take other.length)

variable {ledger : Ledger} {pool : List Candidate} {scores : List Double} {size : ℕ}

/-- A selection from a whole pool chooses the best, if what it chooses is new; of what it passes over the batch takes
the first ones. -/
theorem Sifts.bestFirst {fresh skipped left : List PoolEntry}
    (h : Sifts ledger.contains [] size (rankedEntries pool scores) fresh skipped left)
    (hunobserved : ∀ e ∈ fresh, ledger.contains e.candidate = false)
    (hdistinct : fresh.Pairwise fun d e => (d.candidate == e.candidate) = false) (repeats : ℕ) :
    BestFirst ledger (poolEntries pool scores) size fresh (skipped.take repeats) := by
  have hperm := rankedEntries_perm pool scores
  have hranked := pairwise_precedes_rankedEntries pool scores
  have hfresh := hranked.sublist h.fresh_sublist
  have hsorted := hfresh.imp PoolEntry.Precedes.score_le
  have htake : (skipped.take repeats).Sublist skipped := List.take_sublist _ _
  have hcovers : Covers ledger (poolEntries pool scores) size fresh := fun e he =>
    h.covers hranked e (hperm.mem_iff.mpr he)
  refine ⟨?_, hfresh, hranked.sublist (htake.trans h.repeats_sublist), ?_, ?_, ?_⟩
  · have hsub := ((List.Sublist.refl fresh).append htake).trans (List.sublist_append_left _ left)
    exact hsub.subperm.trans (h.perm.trans hperm).subperm
  · exact ⟨h.fresh_sublist.subperm.trans hperm.subperm, h.length_le, hunobserved, hdistinct, hsorted⟩
  · intro last hlast e he hnew hhigher
    obtain ⟨d, hd, hstands, -⟩ | ⟨-, hall⟩ := hcovers e he hnew
    · exact ⟨d, hd, hstands⟩
    · cases (hall last (List.mem_of_getLast? hlast)).symm.trans hhigher
  · intro other hother
    exact hother.forall₂_take (nodup_poolEntries pool scores) hcovers hsorted

theorem exists_bestFirst_chooseBatch (hscores : scores.length = pool.length) :
    ∃ fresh repeats, chooseBatch ledger pool scores size = (fresh ++ repeats).map PoolEntry.candidate ∧
      FreshFirst ledger pool (fresh.map PoolEntry.candidate) (repeats.map PoolEntry.candidate) ∧
      BestFirst ledger (poolEntries pool scores) size fresh repeats := by
  obtain ⟨fresh, skipped, left, hsifts, hselect⟩ :=
    exists_sifts_selectFrom ledger.contains size (rankedEntries pool scores) [] []
  have hselection : select ledger.contains size ((ranked pool scores).map Prod.fst) =
      ⟨fresh.map PoolEntry.candidate, skipped.map PoolEntry.candidate⟩ := by
    rw [← map_candidate_rankedEntries]
    exact hselect
  have hshape := freshFirst_select ledger size hscores hselection
  simp only [List.length_map, ← List.map_take] at hshape
  have hdistinct := (List.pairwise_map.mp hshape.distinct).imp And.left
  refine ⟨fresh, skipped.take (size - fresh.length), ?_, hshape,
    hsifts.bestFirst (List.forall_mem_map.mp hshape.unobserved) hdistinct _⟩
  rw [chooseBatch, hselection, Selection.batch, List.length_map, List.map_append, List.map_take]

/-! ### The batch that is suggested -/

namespace Optimizer

variable {σ : Type} [Surrogate σ]

/-- In every state with an observation, whatever the model does, a batch that is suggested is the best choice from
the pool that the model has scored: its new candidates stand in the order of the scores, equal scores in the order
of the pool, and so do the repeats after them. No unobserved candidate with a higher score than the last new one is
missing, and no other choice of so many unobserved, unequal candidates is better at any rank. -/
theorem suggest_bestFirst {o next : Optimizer σ} {size : ℕ} {batch : List Candidate}
    (hobserved : o.ledger.isEmpty = false) (h : o.suggest size = (.ok batch, next)) :
    ∃ ready pool g scores fresh repeats,
      o.refresh = (.ok (), ready) ∧
      drawPool o.space o.config o.ledger size o.generator = (some pool, g) ∧
      Surrogate.acquire ready.surrogate pool = (.ok scores, next.surrogate) ∧
      scores.length = pool.length ∧
      batch = (fresh ++ repeats).map PoolEntry.candidate ∧
      FreshFirst o.ledger pool (fresh.map PoolEntry.candidate) (repeats.map PoolEntry.candidate) ∧
      BestFirst o.ledger (poolEntries pool scores) size fresh repeats := by
  obtain ⟨hledger, -⟩ | ⟨-, ready, pool, g, scores, hrefresh, hpool, hscores, hcount, rfl⟩ := suggested_cases h
  · rw [Ledger.isEmpty, hledger] at hobserved
    cases hobserved
  · obtain ⟨fresh, repeats, hbatch, hshape, hbest⟩ := exists_bestFirst_chooseBatch hcount
    exact ⟨ready, pool, g, scores, fresh, repeats, hrefresh, hpool, hscores, hcount, hbatch, hshape, hbest⟩

end Optimizer

/-! ### A search for small delays -/

/-- A model that learns nothing and prefers small coordinates. -/
inductive ThriftyModel where
  | thrifty
  deriving DecidableEq, Repr

/-- The lower the sum of the coordinates, the higher the score. -/
def thriftyScore (c : Candidate) : Double :=
  -c.foldl (· + ·) 0.0

instance instSurrogateThriftyModel : Surrogate ThriftyModel where
  name _ := "thrifty"
  fit s _ _ := (.ok (), s)
  acquire s pool := (.ok (pool.map thriftyScore), s)

def thriftySearch : Optimizer ThriftyModel :=
  ((Optimizer.start delaySpace .thrifty { OptimizerConfig.standard with poolSize := 8 }).observe
    [List.replicate 10 0.5] [1.0]).2

theorem thriftySearch_bestFirst :
    ∃ batch next pool scores fresh repeats, thriftySearch.suggest 2 = (.ok batch, next) ∧
      scores = pool.map thriftyScore ∧
      batch = (fresh ++ repeats).map PoolEntry.candidate ∧
      FreshFirst thriftySearch.ledger pool (fresh.map PoolEntry.candidate)
        (repeats.map PoolEntry.candidate) ∧
      BestFirst thriftySearch.ledger (poolEntries pool scores) 2 fresh repeats := by
  have hok : (thriftySearch.suggest 2).1.isOk = true := by decide +kernel
  have hobserved : thriftySearch.ledger.isEmpty = false := by decide +kernel
  rcases hsuggest : thriftySearch.suggest 2 with ⟨_ | batch, next⟩
  · rw [hsuggest] at hok
    cases hok
  obtain ⟨_, pool, _, scores, fresh, repeats, -, -, hscores, -, hbatch, hshape, hbest⟩ :=
    Optimizer.suggest_bestFirst hobserved hsuggest
  have hsums : scores = pool.map thriftyScore := (Except.ok.inj (Prod.mk.inj hscores).1).symm
  exact ⟨batch, next, pool, scores, fresh, repeats, rfl, hsums, hbatch, hshape, hbest⟩

end DelayTuning
