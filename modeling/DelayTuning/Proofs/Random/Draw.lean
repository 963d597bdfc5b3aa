import DelayTuning.Random.Repeated

/-!
# What repeated draws give

A draw made for each entry of a list gives as many results as the list has entries, and a property of
every single draw is a property of every result. A draw below a bound is below it, and a shuffle gives a
permutation.

## Main statements

- `length_drawEach`, `length_of_drawEach?`: as many results as entries
- `forall_mem_drawEach`, `forall_mem_of_drawEach?`: what holds of each draw holds of each result
- `exists_generators_drawEach`, `exists_generators_drawEach?`: each draw goes on with the generator of the one before
- `isSome_drawEach?`: if no draw breaks off there are results
- `Generator.below_lt`: an integer below a bound
- `Generator.shuffle_perm`: a shuffled list is a permutation of the list
-/

namespace DelayTuning

variable {β γ : Type}

@[simp]
theorem length_drawEach (draw : β → Generator → γ × Generator) (xs : List β) (g : Generator) :
    (drawEach draw xs g).1.length = xs.length := by
  induction xs generalizing g with
  | nil => rfl
  | cons x rest ih => simp [drawEach_cons, ih]

theorem forall_mem_drawEach {draw : β → Generator → γ × Generator} {P : γ → Prop} {xs : List β}
    (h : ∀ x ∈ xs, ∀ g, P (draw x g).1) (g : Generator) :
    ∀ y ∈ (drawEach draw xs g).1, P y := by
  induction xs generalizing g with
  | nil => simp
  | cons x rest ih =>
    rw [drawEach_cons]
    intro y hy
    obtain rfl | hy := List.mem_cons.mp hy
    · exact h x List.mem_cons_self g
    · exact ih (fun z hz => h z (List.mem_cons_of_mem x hz)) _ y hy

/-- The generators between the draws, the one before draw number `i` in place `i`. -/
theorem exists_generators_drawEach (draw : β → Generator → γ × Generator) (xs : List β) (g : Generator) :
    ∃ generators : Nat → Generator, generators 0 = g ∧ generators xs.length = (drawEach draw xs g).2 ∧
      ∀ i x, xs[i]? = some x → ∃ y, (drawEach draw xs g).1[i]? = some y ∧
        draw x (generators i) = (y, generators (i + 1)) := by
  induction xs generalizing g with
  | nil => exact ⟨fun _ => g, rfl, rfl, by simp⟩
  | cons x rest ih =>
    obtain ⟨later, hfirst, hlast, hdraws⟩ := ih (draw x g).2
    refine ⟨fun i => i.casesOn g later, rfl, ?_, ?_⟩
    · rw [drawEach_cons]
      exact hlast
    · intro i z hz
      rw [drawEach_cons]
      cases i with
      | zero =>
        obtain rfl : x = z := Option.some_inj.mp hz
        refine ⟨(draw x g).1, rfl, ?_⟩
        show draw x g = ((draw x g).1, later 0)
        rw [hfirst]
      | succ i => exact hdraws i z hz

/-- If no draw breaks off there is a first result and the results for the rest. -/
theorem exists_cons_of_drawEach? {draw : β → Generator → Option γ × Generator} {x : β}
    {rest : List β} {ys : List γ} {g : Generator} (h : (drawEach? draw (x :: rest) g).1 = some ys) :
    ∃ y tail, (draw x g).1 = some y ∧ (drawEach? draw rest (draw x g).2).1 = some tail ∧
      ys = y :: tail := by
  rw [drawEach?_cons] at h
  split at h
  · next y g' hdraw =>
    obtain ⟨tail, htail, rfl⟩ := Option.map_eq_some_iff.mp h
    exact ⟨y, tail, by rw [hdraw], by rw [hdraw]; exact htail, rfl⟩
  · exact absurd h (by simp)

theorem length_of_drawEach? {draw : β → Generator → Option γ × Generator} {xs : List β}
    {ys : List γ} {g : Generator} (h : (drawEach? draw xs g).1 = some ys) :
    ys.length = xs.length := by
  induction xs generalizing ys g with
  | nil => simpa using h.symm
  | cons x rest ih =>
    obtain ⟨y, tail, -, htail, rfl⟩ := exists_cons_of_drawEach? h
    simp [ih htail]

theorem forall_mem_of_drawEach? {draw : β → Generator → Option γ × Generator} {P : γ → Prop}
    {xs : List β} {ys : List γ} {g : Generator} (h : ∀ x ∈ xs, ∀ g y, (draw x g).1 = some y → P y)
    (hys : (drawEach? draw xs g).1 = some ys) : ∀ y ∈ ys, P y := by
  induction xs generalizing ys g with
  | nil =>
    obtain rfl : [] = ys := by simpa using hys
    simp
  | cons x rest ih =>
    obtain ⟨y, tail, hy, htail, rfl⟩ := exists_cons_of_drawEach? hys
    intro z hz
    obtain rfl | hz := List.mem_cons.mp hz
    · exact h x List.mem_cons_self g z hy
    · exact ih (fun w hw => h w (List.mem_cons_of_mem x hw)) htail z hz

theorem isSome_drawEach? {draw : β → Generator → Option γ × Generator} {xs : List β}
    (h : ∀ x ∈ xs, ∀ g, (draw x g).1.isSome = true) (g : Generator) :
    (drawEach? draw xs g).1.isSome = true := by
  induction xs generalizing g with
  | nil => rfl
  | cons x rest ih =>
    have hx := h x List.mem_cons_self g
    rw [drawEach?_cons]
    split
    · rw [Option.isSome_map]
      exact ih (fun z hz => h z (List.mem_cons_of_mem x hz)) _
    · next hdraw =>
      rw [hdraw] at hx
      exact absurd hx (by simp)

/-- The generators between the draws if none breaks off. -/
theorem exists_generators_drawEach? {draw : β → Generator → Option γ × Generator} {xs : List β} {ys : List γ}
    {g g' : Generator} (h : drawEach? draw xs g = (some ys, g')) :
    ∃ generators : Nat → Generator, generators 0 = g ∧ generators xs.length = g' ∧
      ∀ i x, xs[i]? = some x → ∃ y, ys[i]? = some y ∧
        draw x (generators i) = (some y, generators (i + 1)) := by
  induction xs generalizing ys g with
  | nil =>
    obtain ⟨-, rfl⟩ := Prod.mk.inj h
    exact ⟨fun _ => g, rfl, rfl, by simp⟩
  | cons x rest ih =>
    rw [drawEach?_cons] at h
    split at h
    · next y between hdraw =>
      obtain ⟨hys, hrest⟩ := Prod.mk.inj h
      obtain ⟨tail, htail, rfl⟩ := Option.map_eq_some_iff.mp hys
      obtain ⟨later, hfirst, hlast, hdraws⟩ := ih (Prod.ext htail hrest)
      refine ⟨fun i => i.casesOn g later, rfl, hlast, ?_⟩
      intro i z hz
      cases i with
      | zero =>
        obtain rfl : x = z := Option.some_inj.mp hz
        refine ⟨y, rfl, ?_⟩
        show draw x g = (some y, later 0)
        rw [hdraw, hfirst]
      | succ i => exact hdraws i z hz
    · cases (Prod.mk.inj h).1

namespace Generator

/-- A draw below a positive bound is below it, also when a second word decides. -/
theorem below_lt {bound : Nat} (h : 0 < bound) (g : Generator) :
    (g.below bound).1 < bound := by
  have hword : ∀ word : UInt32, word.toNat * bound + bound ≤ UInt32.size * bound := by
    intro word
    rw [← Nat.succ_mul]
    exact Nat.mul_le_mul_right bound word.toNat_lt
  have hresult : ∀ word : UInt32, word.toNat * bound / UInt32.size < bound := by
    intro word
    have hle := hword word
    rw [Nat.div_lt_iff_lt_mul (by decide), Nat.mul_comm bound]
    omega
  rw [below]
  obtain ⟨word, g⟩ := g.next32
  simp only
  split
  · obtain ⟨second, g⟩ := g.next32
    simp only
    split
    · next hcarry =>
      have hcut := Nat.div_add_mod (word.toNat * bound) UInt32.size
      have hle := hword word
      have hsecond := hresult second
      simp only [UInt32.size] at *
      omega
    · exact hresult word
  · exact hresult word

/-- Two entries that change places leave a permutation, also when one of them does not exist. -/
theorem swapIfInBounds_perm (xs : Array β) (i j : Nat) : (xs.swapIfInBounds i j).Perm xs := by
  rw [Array.swapIfInBounds_def]
  split
  · split
    · exact Array.swap_perm _ _
    · exact Array.Perm.refl xs
  · exact Array.Perm.refl xs

/-- The steps of a shuffle only exchange entries. -/
theorem shuffleFrom_perm (fuel i : Nat) (xs : Array β) (s : IndexSource) :
    (shuffleFrom fuel i xs s).1.Perm xs := by
  induction fuel generalizing i xs s with
  | zero => exact Array.Perm.refl xs
  | succ fuel ih => exact (ih _ _ _).trans (swapIfInBounds_perm xs i _)

theorem shuffle_perm (xs : List β) (g : Generator) : (g.shuffle xs).1.Perm xs := by
  rw [shuffle]
  split
  · exact List.Perm.refl xs
  · exact (shuffleFrom_perm xs.length 0 xs.toArray ⟨g, 0, 1⟩).toList

@[simp]
theorem length_shuffle (xs : List β) (g : Generator) : (g.shuffle xs).1.length = xs.length :=
  (shuffle_perm xs g).length_eq

end Generator

end DelayTuning
