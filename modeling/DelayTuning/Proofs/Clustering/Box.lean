import DelayTuning.Proofs.Clustering.Optimal
import DelayTuning.Proofs.Space.Exact

/-!
# Centres lie among the points

Some points span a box: in every coordinate it reaches from the least to the greatest that a point has there.
In exact arithmetic a mean of points lies in their box, since not all numbers are above their mean and not
all are below it. So a centre never leaves the box of the points, whether it is one of the first centres,
the mean of a cluster or a point that an empty cluster has taken over. A space that contains the points
contains their box.

## Main definitions

- `InBox`: a point of the box that some points span

## Main statements

- `inBox_of_mem`, `inBox_meanPoint`: points and means of points lie in the box
- `InBox.validate`: a space that contains the points contains their box
- `cluster_inBox`: every centre that is returned lies in the box
-/

namespace DelayTuning

variable {K : Type} [Field K] [LinearOrder K]

/-- A point of the box that some points span: it has as many coordinates as they have, and each of them is
    between those of two points. -/
structure InBox (points : List (Point (Exact K))) (centre : Point (Exact K)) : Prop where
  length_eq : ∀ x ∈ points, centre.length = x.length
  exists_le : ∀ (j : ℕ) (y : Exact K), centre[j]? = some y → ∃ a ∈ points, ∃ x, a[j]? = some x ∧ x ≤ y
  exists_ge : ∀ (j : ℕ) (y : Exact K), centre[j]? = some y → ∃ b ∈ points, ∃ x, b[j]? = some x ∧ y ≤ x

section

variable {points : List (Point (Exact K))} {dimension : ℕ}
  (hpoints : ∀ x ∈ points, x.length = dimension)

include hpoints

theorem inBox_of_mem {x : Point (Exact K)} (hx : x ∈ points) : InBox points x where
  length_eq z hz := (hpoints x hx).trans (hpoints z hz).symm
  exists_le _ y hy := ⟨x, hx, y, hy, le_refl y.value⟩
  exists_ge _ y hy := ⟨x, hx, y, hy, le_refl y.value⟩

/-- The mean of points lies in their box. -/
theorem inBox_meanPoint [IsStrictOrderedRing K] {group : List (Point (Exact K))} (hne : group ≠ [])
    (hgroup : ∀ x ∈ group, x ∈ points) : InBox points (meanPoint dimension group) := by
  have hdimension : ∀ x ∈ group, x.length = dimension := fun x hx => hpoints x (hgroup x hx)
  have hlength : (meanPoint dimension group).length = dimension := length_meanPoint hdimension
  have hcoordinates : ∀ j, group.map (fun x => x.values.getD j 0) ≠ [] := by simpa using hne
  have hmean : ∀ (j : ℕ) (y : Exact K), (meanPoint dimension group)[j]? = some y → j < dimension ∧
      y.value = (group.map fun x => x.values.getD j 0).sum /
        (group.map fun x => x.values.getD j 0).length := by
    intro j y hy
    obtain ⟨hj, rfl⟩ := List.getElem?_eq_some_iff.mp hy
    have hj' : j < dimension := hlength ▸ hj
    rw [← getD_values_meanPoint hdimension hj', Point.getD_values hj]
    exact ⟨hj', rfl⟩
  have hcoordinate : ∀ {j : ℕ} {v : K}, j < dimension → v ∈ group.map (fun x => x.values.getD j 0) →
      ∃ a ∈ points, ∃ x, a[j]? = some x ∧ x.value = v := by
    intro j v hj hv
    obtain ⟨a, ha, rfl⟩ := List.mem_map.mp hv
    have hja : j < a.length := hdimension a ha ▸ hj
    exact ⟨a, hgroup a ha, a[j], List.getElem?_eq_getElem hja, (Point.getD_values hja 0).symm⟩
  refine ⟨fun x hx => hlength.trans (hpoints x hx).symm, ?_, ?_⟩
  · intro j y hy
    obtain ⟨hj, hvalue⟩ := hmean j y hy
    obtain ⟨v, hv, hle⟩ := exists_le_mean (hcoordinates j)
    obtain ⟨a, ha, x, hx, rfl⟩ := hcoordinate hj hv
    exact ⟨a, ha, x, hx, hle.trans_eq hvalue.symm⟩
  · intro j y hy
    obtain ⟨hj, hvalue⟩ := hmean j y hy
    obtain ⟨v, hv, hle⟩ := exists_mean_le (hcoordinates j)
    obtain ⟨b, hb, x, hx, rfl⟩ := hcoordinate hj hv
    exact ⟨b, hb, x, hx, hvalue.trans_le hle⟩

end

/-- A space that contains some points contains the box that they span. -/
theorem InBox.validate {points : List (Point (Exact K))} (hpoints : points ≠ []) {s : Space (Exact K)}
    (hvalid : ∀ x ∈ points, s.validate x = true) {centre : Point (Exact K)}
    (hcentre : InBox points centre) : s.validate centre = true := by
  obtain ⟨first, hfirst⟩ := List.exists_mem_of_ne_nil points hpoints
  have hcontains : ∀ {j : ℕ} {p : Parameter (Exact K)} {a : Point (Exact K)} {x : Exact K}, a ∈ points →
      s.parameters[j]? = some p → a[j]? = some x →
        p.lower.value ≤ x.value ∧ x.value ≤ p.upper.value := by
    intro j p a x ha hp hx
    exact Parameter.contains_iff_le.mp ((Space.validate_iff_getElem?.mp (hvalid a ha)).2 j p x hp hx)
  refine Space.validate_iff_getElem?.mpr ⟨?_, ?_⟩
  · exact (hcentre.length_eq first hfirst).trans (Space.validate_iff_getElem?.mp (hvalid first hfirst)).1
  · intro j p y hp hy
    obtain ⟨a, ha, x, hx, hxy⟩ := hcentre.exists_le j y hy
    obtain ⟨b, hb, z, hz, hyz⟩ := hcentre.exists_ge j y hy
    rw [Parameter.contains_iff_le]
    exact ⟨(hcontains ha hp hx).1.trans hxy, le_trans hyz (hcontains hb hp hz).2⟩

/-- In exact arithmetic every centre of a clustering lies in the box of the points, and so in every space
    that contains the points, however many rounds there are and wherever empty clusters have gone. -/
theorem cluster_inBox [IsStrictOrderedRing K] (config : ClusteringConfig)
    (points : List (Point (Exact K))) (k : ℕ) :
    ∀ c, cluster config points k = .ok c →
      c.centres.length = k ∧ (∀ centre ∈ c.centres, InBox points centre) ∧
        ∀ s : Space (Exact K), (∀ x ∈ points, s.validate x = true) →
          ∀ centre ∈ c.centres, s.validate centre = true := by
  intro c hc
  obtain ⟨hk, hle, dimension, hpoints⟩ := (exists_cluster_iff config).mp ⟨c, hc⟩
  have hne : points ≠ [] := List.ne_nil_of_length_pos (Nat.lt_of_lt_of_le hk hle)
  have hbox : ∀ centre ∈ c.centres, InBox points centre :=
    forall_mem_centres hpoints (fun _ => inBox_of_mem hpoints)
      (fun _ hgroup hmem => inBox_meanPoint hpoints hgroup hmem) hc
  refine ⟨?_, hbox, ?_⟩
  · obtain ⟨d, hd, hshape, -⟩ := exists_cluster config hpoints hk hle
    obtain rfl := Except.ok.inj (hd.symm.trans hc)
    exact hshape.count
  · exact fun s hvalid centre hcentre => (hbox centre hcentre).validate hne hvalid

/-- Four rational points of the plane, of which three are the same. -/
def heapedPoints : List (Point (Exact ℚ)) := [[⟨1⟩, ⟨5⟩], [⟨1⟩, ⟨5⟩], [⟨3⟩, ⟨5⟩], [⟨1⟩, ⟨5⟩]]

/-- With a cluster for each of the four points two clusters are empty, and all centres are in the box. -/
theorem heapedPoints_inBox :
    ∃ c, cluster .standard heapedPoints 4 = .ok c ∧
      members heapedPoints c.labels 2 = [] ∧ members heapedPoints c.labels 3 = [] ∧
      (∀ centre ∈ c.centres, InBox heapedPoints centre) ∧
      ∀ centre ∈ c.centres, Space.mixedSpace.validate centre = true := by
  have hcluster : ∃ c, cluster .standard heapedPoints 4 = .ok c ∧
      members heapedPoints c.labels 2 = [] ∧ members heapedPoints c.labels 3 = [] := by
    refine ⟨_, rfl, ?_, ?_⟩ <;> decide +kernel
  obtain ⟨c, hc, hsecond, hthird⟩ := hcluster
  have hvalid : ∀ x ∈ heapedPoints, Space.mixedSpace.validate x = true := by decide +kernel
  obtain ⟨-, hbox, hspace⟩ := cluster_inBox .standard heapedPoints 4 c hc
  exact ⟨c, hc, hsecond, hthird, hbox, hspace Space.mixedSpace hvalid⟩

end DelayTuning
