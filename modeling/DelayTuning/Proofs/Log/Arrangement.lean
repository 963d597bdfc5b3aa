import DelayTuning.Proofs.Log.Line

/-!
# Arranging numbers by their indices

The numbers of a line are sorted by their indices, neighbours with the same index are looked for, and then places
with another index than their own. Sorting brings equal indices together, so the first such neighbours have the
least repeated index; and in a list without repetition the first place with another index is the least absent
index. What comes out depends on the entries only and not on their order.

## Main definitions

- `Gives`: what entries give, whatever their order is

## Main statements

- `arrange_gives`: what the entries of a line give
- `Gives.unique`: entries give only one thing
-/

namespace DelayTuning

/-- The indices of entries. -/
def indices (entries : Multiset (ℕ × Float)) : Multiset ℕ :=
  entries.map Prod.fst

/-- What the entries of a line give: the least repeated index if an index is repeated, otherwise the least absent
one if the indices are not `0, 1, …`, otherwise the numbers by their indices. -/
inductive Gives (entries : Multiset (ℕ × Float)) : Except LineFault (List Float) → Prop
  | nothing (hempty : entries = 0) : Gives entries (.error .noTokens)
  | repeated {i : ℕ} (hleast : IsLeast {j | 2 ≤ (indices entries).count j} i) :
    Gives entries (.error (.duplicateIndex i))
  | missing {i : ℕ} (hnodup : (indices entries).Nodup)
    (hother : indices entries ≠ Multiset.range (Multiset.card entries))
    (hleast : IsLeast {j | j ∉ indices entries} i) : Gives entries (.error (.missingIndex i))
  | point {v : List Float} (hne : v ≠ []) (hentries : entries = v.zipIdx.map Prod.swap) :
    Gives entries (.ok v)

/-! ### Repeated and absent indices -/

/-- Entries in the order of their indices. -/
def Ordered (l : List (ℕ × Float)) : Prop :=
  l.Pairwise fun a b => a.1 ≤ b.1

/-- Entries in the order of their indices, all of them different. -/
def StrictlyOrdered (l : List (ℕ × Float)) : Prop :=
  l.Pairwise fun a b => a.1 < b.1

theorem strictlyOrdered_of_firstRepeat? {l : List (ℕ × Float)} (h : Ordered l)
    (hnone : firstRepeat? l = none) : StrictlyOrdered l := by
  induction l with
  | nil => exact List.Pairwise.nil
  | cons a rest ih =>
    obtain ⟨hhead, hrest⟩ := List.pairwise_cons.mp h
    cases rest with
    | nil => exact List.pairwise_singleton _ _
    | cons b others =>
      rw [firstRepeat?] at hnone
      split at hnone
      · cases hnone
      · next hne =>
        have hlt : a.1 < b.1 := lt_of_le_of_ne (hhead b List.mem_cons_self) hne
        refine List.pairwise_cons.mpr ⟨?_, ih hrest hnone⟩
        intro c hc
        obtain rfl | hc := List.mem_cons.mp hc
        · exact hlt
        · exact hlt.trans_le ((List.pairwise_cons.mp hrest).1 c hc)

/-- The first repeated index of a sorted list is the least one. -/
theorem isLeast_of_firstRepeat? {l : List (ℕ × Float)} (h : Ordered l) {i : ℕ}
    (hsome : firstRepeat? l = some i) : IsLeast {j | 2 ≤ (l.map Prod.fst).count j} i := by
  induction l with
  | nil => cases hsome
  | cons a rest ih =>
    obtain ⟨hhead, hrest⟩ := List.pairwise_cons.mp h
    cases rest with
    | nil => cases hsome
    | cons b others =>
      rw [firstRepeat?] at hsome
      split at hsome
      · next heq =>
        cases hsome
        constructor
        · change 2 ≤ (a.1 :: b.1 :: others.map Prod.fst).count a.1
          rw [← heq, List.count_cons_self, List.count_cons_self]
          omega
        · intro j hj
          have hmem : j ∈ (a :: b :: others).map Prod.fst := List.count_pos_iff.mp (by
            change 2 ≤ _ at hj
            omega)
          obtain ⟨c, hc, rfl⟩ := List.mem_map.mp hmem
          obtain rfl | hc := List.mem_cons.mp hc
          · exact le_rfl
          · exact hhead c hc
      · next hne =>
        have hlt : ∀ c ∈ b :: others, a.1 < c.1 := by
          have hfirst : a.1 < b.1 := lt_of_le_of_ne (hhead b List.mem_cons_self) hne
          intro c hc
          obtain rfl | hc := List.mem_cons.mp hc
          · exact hfirst
          · exact hfirst.trans_le ((List.pairwise_cons.mp hrest).1 c hc)
        -- the first index is less than all others, so it is not repeated
        have hset : {j | 2 ≤ ((a :: b :: others).map Prod.fst).count j} =
            {j | 2 ≤ ((b :: others).map Prod.fst).count j} := by
          ext j
          rw [Set.mem_ofPred_eq, Set.mem_ofPred_eq, List.map_cons, List.count_cons]
          by_cases hj : a.1 = j
          · have habsent : ((b :: others).map Prod.fst).count j = 0 := by
              rw [List.count_eq_zero]
              intro hmem
              obtain ⟨c, hc, hcj⟩ := List.mem_map.mp hmem
              exact absurd (hlt c hc) (by omega)
            rw [habsent]
            split <;> omega
          · rw [if_neg (by rwa [beq_iff_eq]), Nat.add_zero]
        rw [hset]
        exact ih hrest hsome

theorem indices_of_firstGap? {l : List (ℕ × Float)} (h : StrictlyOrdered l) {expected : ℕ}
    (hnone : firstGap? expected l = none) : l.map Prod.fst = List.range' expected l.length := by
  induction l generalizing expected with
  | nil => rfl
  | cons a rest ih =>
    rw [firstGap?] at hnone
    split at hnone
    · next heq =>
      rw [List.map_cons, ih (List.pairwise_cons.mp h).2 hnone, heq, List.length_cons, List.range'_succ]
    · cases hnone

/-- The first place with another index is the least absent index. -/
theorem absent_of_firstGap? {l : List (ℕ × Float)} (h : StrictlyOrdered l) {expected i : ℕ}
    (hbound : ∀ a ∈ l, expected ≤ a.1) (hsome : firstGap? expected l = some i) :
    expected ≤ i ∧ i < expected + l.length ∧ i ∉ l.map Prod.fst ∧
      ∀ j, expected ≤ j → j < i → j ∈ l.map Prod.fst := by
  induction l generalizing expected with
  | nil => cases hsome
  | cons a rest ih =>
    obtain ⟨hhead, hrest⟩ := List.pairwise_cons.mp h
    rw [firstGap?] at hsome
    split at hsome
    · next heq =>
      have hnext : ∀ c ∈ rest, expected + 1 ≤ c.1 := by
        intro c hc
        have := hhead c hc
        omega
      obtain ⟨hle, hlt, habsent, hpresent⟩ := ih hrest hnext hsome
      refine ⟨by omega, by rw [List.length_cons]; omega, ?_, ?_⟩
      · rw [List.map_cons, List.mem_cons, not_or]
        exact ⟨by omega, habsent⟩
      · intro j hj hji
        rw [List.map_cons, List.mem_cons]
        by_cases hje : j = expected
        · exact Or.inl (hje.trans heq.symm)
        · exact Or.inr (hpresent j (by omega) hji)
    · next hne =>
      cases hsome
      have hfirst := hbound a List.mem_cons_self
      refine ⟨le_rfl, by rw [List.length_cons]; omega, ?_, by intro j hj hji; omega⟩
      rw [List.map_cons, List.mem_cons, not_or]
      refine ⟨by omega, ?_⟩
      intro hmem
      obtain ⟨c, hc, hci⟩ := List.mem_map.mp hmem
      have := hhead c hc
      omega

/-! ### Arranging -/

theorem indices_coe (l : List (ℕ × Float)) : indices l = (l.map Prod.fst : List ℕ) := rfl

theorem map_fst_zipIdx_swap (v : List Float) :
    (v.zipIdx.map Prod.swap).map Prod.fst = List.range' 0 v.length := by
  rw [List.map_map]
  exact List.zipIdx_map_snd 0 v

theorem indices_zipIdx (v : List Float) :
    indices (v.zipIdx.map Prod.swap : List (ℕ × Float)) = Multiset.range v.length := by
  rw [indices_coe, map_fst_zipIdx_swap, ← List.range_eq_range', Multiset.coe_range]

/-- Entries with the indices `0, 1, …` in order are numbers with their places. -/
theorem eq_zipIdx_of_indices {l : List (ℕ × Float)} (h : l.map Prod.fst = List.range' 0 l.length) :
    l = (l.map Prod.snd).zipIdx.map Prod.swap := by
  rw [List.zipIdx_eq_zip_range', List.length_map, ← h, List.zip_map', List.map_map]
  exact (List.map_id l).symm

theorem ordered_mergeSort (entries : List (ℕ × Float)) :
    Ordered (entries.mergeSort fun a b => decide (a.1 ≤ b.1)) := by
  have htrans : ∀ a b c : ℕ × Float, decide (a.1 ≤ b.1) = true → decide (b.1 ≤ c.1) = true →
      decide (a.1 ≤ c.1) = true := by
    intro a b c hab hbc
    rw [decide_eq_true_iff] at hab hbc ⊢
    exact hab.trans hbc
  have htotal : ∀ a b : ℕ × Float, (decide (a.1 ≤ b.1) || decide (b.1 ≤ a.1)) = true := by
    intro a b
    rw [Bool.or_eq_true, decide_eq_true_iff, decide_eq_true_iff]
    exact le_total a.1 b.1
  exact (List.pairwise_mergeSort htrans htotal entries).imp of_decide_eq_true

/-- What the entries of a line give. -/
theorem arrange_gives {entries : List (ℕ × Float)} (hne : entries ≠ []) :
    Gives entries (arrange entries) := by
  obtain ⟨sorted, hsorted⟩ : ∃ sorted, sorted = entries.mergeSort fun a b => decide (a.1 ≤ b.1) := ⟨_, rfl⟩
  have hordered : Ordered sorted := hsorted ▸ ordered_mergeSort entries
  have hperm : sorted.Perm entries := hsorted ▸ List.mergeSort_perm _ _
  have hentries : (entries : Multiset (ℕ × Float)) = sorted := (Multiset.coe_eq_coe.mpr hperm).symm
  rw [hentries, arrange, ← hsorted]
  split
  · next i hrepeat =>
    refine .repeated ?_
    simp only [indices_coe, Multiset.coe_count]
    exact isLeast_of_firstRepeat? hordered hrepeat
  · next hrepeat =>
    have hstrict := strictlyOrdered_of_firstRepeat? hordered hrepeat
    split
    · next i hgap =>
      obtain ⟨-, hlt, habsent, hpresent⟩ := absent_of_firstGap? hstrict (fun a _ => Nat.zero_le a.1) hgap
      rw [Nat.zero_add] at hlt
      refine .missing ?_ ?_ ⟨habsent, ?_⟩
      · rw [indices_coe, Multiset.coe_nodup]
        exact List.pairwise_map.mpr (hstrict.imp ne_of_lt)
      · intro hrange
        have hmem : i ∈ indices sorted := by
          rw [hrange, Multiset.mem_range]
          exact hlt
        exact habsent hmem
      · intro j hj
        by_contra hji
        exact hj (hpresent j (Nat.zero_le j) (not_le.mp hji))
    · next hgap =>
      have hsome : sorted ≠ [] := by
        rintro rfl
        exact hne (List.nil_perm.mp hperm)
      refine .point ?_ (congrArg _ (eq_zipIdx_of_indices (indices_of_firstGap? hstrict hgap)))
      rwa [Ne, List.map_eq_nil_iff]

section Unique

variable {entries : Multiset (ℕ × Float)} {v w : List Float}

theorem not_nodup_of_repeated {i : ℕ} (h : 2 ≤ (indices entries).count i) : ¬ (indices entries).Nodup := by
  intro hnodup
  have := Multiset.nodup_iff_count_le_one.mp hnodup i
  omega

theorem indices_of_point (h : entries = v.zipIdx.map Prod.swap) :
    (indices entries).Nodup ∧ indices entries = Multiset.range (Multiset.card entries) := by
  have hcard : Multiset.card entries = v.length := by
    rw [h, Multiset.coe_card, List.length_map, List.length_zipIdx]
  have hrange : indices entries = Multiset.range v.length := by
    rw [h]
    exact indices_zipIdx v
  rw [hcard, hrange]
  exact ⟨Multiset.nodup_range _, rfl⟩

theorem ne_zero_of_point (hne : v ≠ []) (h : entries = v.zipIdx.map Prod.swap) : entries ≠ 0 := by
  rintro rfl
  have hlength := congrArg Multiset.card h
  rw [Multiset.card_zero, Multiset.coe_card, List.length_map, List.length_zipIdx] at hlength
  exact hne (List.length_eq_zero_iff.mp hlength.symm)

theorem mem_zipIdx_swap {i : ℕ} {x : Float} :
    (i, x) ∈ (v.zipIdx.map Prod.swap : List (ℕ × Float)) ↔ v[i]? = some x := by
  rw [← List.mk_mem_zipIdx_iff_getElem?]
  constructor
  · intro h
    obtain ⟨⟨y, j⟩, hmem, hswap⟩ := List.mem_map.mp h
    cases hswap
    exact hmem
  · intro h
    exact List.mem_map.mpr ⟨(x, i), h, rfl⟩

/-- Numbers are determined by their entries. -/
theorem eq_of_zipIdx_perm (h : (v.zipIdx.map Prod.swap).Perm (w.zipIdx.map Prod.swap)) : v = w := by
  apply List.ext_getElem?
  intro i
  ext x
  rw [← mem_zipIdx_swap, ← mem_zipIdx_swap]
  exact h.mem_iff

/-- Entries give only one thing. -/
theorem Gives.unique {r r' : Except LineFault (List Float)} (h : Gives entries r)
    (h' : Gives entries r') : r = r' := by
  have hzero : (indices 0).Nodup ∧ indices 0 = Multiset.range (Multiset.card (0 : Multiset (ℕ × Float))) :=
    ⟨Multiset.nodup_zero, rfl⟩
  cases h with
  | nothing hempty =>
    cases h' with
    | nothing => rfl
    | repeated hleast => exact absurd (hempty ▸ hzero.1) (not_nodup_of_repeated hleast.1)
    | missing _ hother => exact absurd (hempty ▸ hzero.2) hother
    | point hne hentries => exact absurd hempty (ne_zero_of_point hne hentries)
  | repeated hleast =>
    have hrepeated := not_nodup_of_repeated hleast.1
    cases h' with
    | nothing hempty => exact absurd (hempty ▸ hzero.1) hrepeated
    | repeated hleast' => rw [hleast.unique hleast']
    | missing hnodup => exact absurd hnodup hrepeated
    | point _ hentries => exact absurd (indices_of_point hentries).1 hrepeated
  | missing hnodup hother hleast =>
    cases h' with
    | nothing hempty => exact absurd (hempty ▸ hzero.2) hother
    | repeated hleast' => exact absurd hnodup (not_nodup_of_repeated hleast'.1)
    | missing _ _ hleast' => rw [hleast.unique hleast']
    | point _ hentries => exact absurd (indices_of_point hentries).2 hother
  | point hne hentries =>
    obtain ⟨hnodup, hrange⟩ := indices_of_point hentries
    cases h' with
    | nothing hempty => exact absurd hempty (ne_zero_of_point hne hentries)
    | repeated hleast => exact absurd hnodup (not_nodup_of_repeated hleast.1)
    | missing _ hother => exact absurd hrange hother
    | point _ hentries' => rw [eq_of_zipIdx_perm (Multiset.coe_eq_coe.mp (hentries.symm.trans hentries'))]

end Unique

end DelayTuning
