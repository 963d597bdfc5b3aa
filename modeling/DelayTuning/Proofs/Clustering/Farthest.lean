import DelayTuning.Proofs.Binary64.Distance
import DelayTuning.Proofs.Clustering.Partition

/-!
# The search for the farthest point

Both searches of a clustering go through distances from the first on and hold on to the best so far: the search for
the next centre as long as nothing is greater, the search for a point to take over as long as it is at least as
great. Among distances that are at least zero these rules are the same, so either search finds the first greatest.

## Main definitions

- `Leads`: an entry of a list is the first greatest

## Main statements

- `leads_of_largest?`: the search through a list of distances
- `leads_foldl_fartherOf`: the search through candidates with positions
- `exists_lt_notMem`: there is a position that is not used as long as there are fewer used ones than points
-/

namespace DelayTuning

variable {γ : Type}

/-- An entry of a list is the first greatest in size: those before it are less, and none after it is greater. -/
structure Leads (size : γ → Float) (front : List γ) (c : γ) (back : List γ) : Prop where
  lt_of_mem_front : ∀ b ∈ front, size b < size c
  le_of_mem_back : ∀ b ∈ back, size b ≤ size c

namespace Leads

variable {size : γ → Float} {front back : List γ} {c d : γ}

theorem singleton (size : γ → Float) (c : γ) : Leads size [] c [] :=
  ⟨by simp, by simp⟩

theorem keep (h : Leads size front c back) (hle : size d ≤ size c) : Leads size front c (back ++ [d]) where
  lt_of_mem_front := h.lt_of_mem_front
  le_of_mem_back := List.forall_mem_append.mpr ⟨h.le_of_mem_back, List.forall_mem_singleton.mpr hle⟩

variable (hsizes : ∀ b ∈ front ++ c :: back, 0.0 ≤ size b)

include hsizes

theorem le_of_mem (h : Leads size front c back) : ∀ b ∈ front ++ c :: back, size b ≤ size c := by
  have hc : 0.0 ≤ size c := hsizes c (by simp)
  intro b hb
  obtain hfront | hrest := List.mem_append.mp hb
  · exact le_of_lt_of_nonneg (hsizes b hb) hc (h.lt_of_mem_front b hfront)
  · obtain rfl | hback := List.mem_cons.mp hrest
    · exact le_self_of_nonneg hc
    · exact h.le_of_mem_back b hback

theorem replace (h : Leads size front c back) (hd : 0.0 ≤ size d) (hlt : size c < size d) :
    Leads size (front ++ c :: back) d [] where
  lt_of_mem_front b hb :=
    lt_of_le_of_lt_of_nonneg (hsizes b hb) (hsizes c (by simp)) hd (h.le_of_mem hsizes b hb) hlt
  le_of_mem_back := by simp

end Leads

/-! ### The search through distances -/

theorem leads_largestFrom {front back rest : List Float} {m : Float} (h : Leads id front m back)
    (hsizes : ∀ d ∈ front ++ m :: back ++ rest, 0.0 ≤ d) :
    ∃ front' m' back', front ++ m :: back ++ rest = front' ++ m' :: back' ∧ Leads id front' m' back' ∧
      largestFrom rest (front ++ m :: back).length front.length m = (front'.length, m') := by
  induction rest generalizing front m back with
  | nil => exact ⟨front, m, back, List.append_nil _, h, rfl⟩
  | cons d rest ih =>
    have hbefore : ∀ b ∈ front ++ m :: back, 0.0 ≤ b := fun b hb => hsizes b (List.mem_append_left _ hb)
    have hm : 0.0 ≤ m := hbefore m (by simp)
    have hd : 0.0 ≤ d := hsizes d (by simp)
    rw [largestFrom]
    split
    · next hlt =>
      have hnext := ih (h.replace hbefore hd hlt) (by simpa using hsizes)
      simpa [Nat.add_assoc] using hnext
    · next hge =>
      have hnext := ih (h.keep (le_of_not_lt_of_nonneg hm hd hge)) (by simpa using hsizes)
      simpa [Nat.add_assoc] using hnext

/-- The search finds the first greatest of some distances. -/
theorem leads_of_largest? {ds : List Float} (hsizes : ∀ d ∈ ds, 0.0 ≤ d) {pick : ℕ} {m : Float}
    (h : largest? ds = some (pick, m)) :
    ∃ front back, ds = front ++ m :: back ∧ pick = front.length ∧ Leads id front m back := by
  cases ds with
  | nil => cases h
  | cons d rest =>
    have hall : ∀ e ∈ [] ++ d :: [] ++ rest, 0.0 ≤ e := hsizes
    obtain ⟨front, m', back, hsplit, hleads, hfound⟩ := leads_largestFrom (Leads.singleton id d) hall
    have hpair : (front.length, m') = (pick, m) := hfound.symm.trans (Option.some.inj h)
    obtain ⟨rfl, rfl⟩ := Prod.mk.inj hpair
    exact ⟨front, back, hsplit, rfl, hleads⟩

/-! ### The search through candidates -/

section Candidates

variable (index : γ → ℕ) (size : γ → Float)

theorem leads_foldl_fartherOf {front back rest : List γ} {c : γ} (h : Leads size front c back)
    (hsizes : ∀ d ∈ front ++ c :: back ++ rest, 0.0 ≤ size d) :
    ∃ front' c' back', front ++ c :: back ++ rest = front' ++ c' :: back' ∧ Leads size front' c' back' ∧
      rest.foldl (fun best d => fartherOf best (index d) (size d)) (some (index c, size c)) =
        some (index c', size c') := by
  induction rest generalizing front c back with
  | nil => exact ⟨front, c, back, List.append_nil _, h, rfl⟩
  | cons d rest ih =>
    have hbefore : ∀ b ∈ front ++ c :: back, 0.0 ≤ size b := fun b hb =>
      hsizes b (List.mem_append_left _ hb)
    have hc : 0.0 ≤ size c := hbefore c (by simp)
    have hd : 0.0 ≤ size d := hsizes d (by simp)
    rw [List.foldl_cons, fartherOf]
    split
    · next hle =>
      have hnext := ih (h.keep hle) (by simpa using hsizes)
      simpa using hnext
    · next hnot =>
      have hlt : size c < size d := by
        by_contra hge
        exact hnot (le_of_not_lt_of_nonneg hc hd hge)
      have hnext := ih (h.replace hbefore hd hlt) (by simpa using hsizes)
      simpa using hnext

end Candidates

/-! ### Positions that are not used -/

/-- Fewer positions than there are do not use them all. -/
theorem exists_lt_notMem {used : List ℕ} {n : ℕ} (h : used.length < n) : ∃ i < n, i ∉ used := by
  by_contra hnone
  push Not at hnone
  have hsubset : List.range n ⊆ used := fun i hi => hnone i (List.mem_range.mp hi)
  have hle := (List.nodup_range.subperm hsubset).length_le
  rw [List.length_range] at hle
  omega

end DelayTuning
