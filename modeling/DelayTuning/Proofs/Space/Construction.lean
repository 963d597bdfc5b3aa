import DelayTuning.Json.Space
import DelayTuning.Proofs.Json.Reading
import DelayTuning.Proofs.Space.Bounds
import DelayTuning.Space.Delay

/-!
# How a space comes about

There are three ways to a parameter space: to check a list of parameters, to take the one of the mapper, or
to decode a JSON value. All of them pass the same check, so every space has parameters with finite and
ordered bounds and with different names. A list that is refused is refused for its first offending
parameter, and a space that is written as JSON text comes back when the text is read.

## Main definitions

- `Parameter.Ordered`: finite bounds, the lower one not above the upper one
- `Parameter.Offends`: what is wrong with a parameter behind others
- `Space.Obtained`: a space that somebody can come by
- `Space.jsonOfParameters`: a list of parameters as JSON, whether or not it makes a space
- `Parameter.Given`, `Parameter.BoundsReadBack`: what is asked of bounds that are written and read

## Main statements

- `Parameter.bounded_iff_ordered`: the check of the bounds, NaNs included
- `Space.ofParameters_eq_error_iff`: a list is refused for its first offending parameter
- `Space.ofJson_eq_of_parametersOfJson?`: decoding is the check of the parameters that are read
- `Space.readsBack_jsonOfParameters`: the text of a list of parameters
- `Space.construction_sound`: all of it together
-/

namespace DelayTuning

/-! ### Bounds -/

namespace Parameter

/-- Both bounds are finite, and the lower one is not above the upper one. -/
def Ordered (p : Parameter Double) : Prop :=
  p.lower.toFloat.isFinite = true ∧ p.upper.toFloat.isFinite = true ∧ p.lower ≤ p.upper

instance instDecidableOrdered (p : Parameter Double) : Decidable p.Ordered :=
  inferInstanceAs (Decidable (_ ∧ _ ∧ _))

/-- Finite bounds that are not inverted are in order. -/
theorem bounded_iff_ordered {p : Parameter Double} : p.Bounded ↔ p.Ordered := by
  constructor
  · intro h
    refine ⟨h.lower_isFinite, h.upper_isFinite, ?_⟩
    exact (le_iff_exactValue_le h.lower_isFinite h.upper_isFinite).mpr h.exactValue_le
  · rintro ⟨hlower, hupper, hle⟩
    refine ⟨Bool.and_eq_true_iff.mpr ⟨hlower, hupper⟩, ?_⟩
    intro hlt
    have hle' := (le_iff_exactValue_le hlower hupper).mp hle
    exact absurd ((lt_iff_exactValue_lt hupper hlower).mp hlt) (not_lt.mpr hle')

end Parameter

/-! ### The first offending parameter -/

section

variable {α : Type} [Scalar α]

/-- What is wrong with a parameter when some names are taken: first of all bounds that are not finite,
    then inverted bounds, then a name that is taken. -/
inductive Parameter.Offends (taken : List String) (p : Parameter α) : SpaceFault α → Prop where
  | nonFinite (h : p.hasFiniteBounds = false) : Offends taken p (.nonFiniteBounds p)
  | inverted (hfinite : p.hasFiniteBounds = true) (h : p.upper < p.lower) :
    Offends taken p (.invertedBounds p)
  | duplicate (hbounded : p.Bounded) (h : p.name ∈ taken) : Offends taken p (.duplicateName p.name)

theorem Parameter.Offends.congr {taken taken' : List String}
    (hiff : ∀ name, name ∈ taken ↔ name ∈ taken') {p : Parameter α} {fault : SpaceFault α}
    (h : p.Offends taken fault) : p.Offends taken' fault := by
  cases h with
  | nonFinite h => exact .nonFinite h
  | inverted hfinite h => exact .inverted hfinite h
  | duplicate hbounded h => exact .duplicate hbounded ((hiff _).mp h)

theorem Parameter.offends_or_sound (taken : List String) (p : Parameter α) :
    (∃ fault, p.Offends taken fault) ∨ (p.Bounded ∧ p.name ∉ taken) := by
  by_cases hfinite : p.hasFiniteBounds = true
  · by_cases horder : p.upper < p.lower
    · exact Or.inl ⟨_, .inverted hfinite horder⟩
    · by_cases hname : p.name ∈ taken
      · exact Or.inl ⟨_, .duplicate ⟨hfinite, horder⟩ hname⟩
      · exact Or.inr ⟨⟨hfinite, horder⟩, hname⟩
  · exact Or.inl ⟨_, .nonFinite (Bool.eq_false_iff.mpr hfinite)⟩

theorem faultAfter?_of_offends {seen : List String} {p : Parameter α} {fault : SpaceFault α}
    (h : p.Offends seen fault) (rest : List (Parameter α)) :
    faultAfter? seen (p :: rest) = some fault := by
  rw [faultAfter?]
  cases h with
  | nonFinite h => simp [h]
  | inverted hfinite h => simp [hfinite, h]
  | duplicate hbounded h => simp [hbounded.1, hbounded.2, h]

theorem faultAfter?_of_sound {seen : List String} {p : Parameter α} (hbounded : p.Bounded)
    (hname : p.name ∉ seen) (rest : List (Parameter α)) :
    faultAfter? seen (p :: rest) = faultAfter? (p.name :: seen) rest := by
  rw [faultAfter?]
  simp [hbounded.1, hbounded.2, hname]

/-- Behind parameters without a fault the check goes on with their names taken. -/
theorem faultAfter?_append {seen : List String} {earlier : List (Parameter α)}
    (h : faultAfter? seen earlier = none) (later : List (Parameter α)) :
    faultAfter? seen (earlier ++ later) =
      faultAfter? ((earlier.map Parameter.name).reverse ++ seen) later := by
  induction earlier generalizing seen with
  | nil => rfl
  | cons q earlier ih =>
    obtain ⟨fault, hoffends⟩ | ⟨hbounded, hname⟩ := q.offends_or_sound seen
    · rw [faultAfter?_of_offends hoffends] at h
      cases h
    · rw [faultAfter?_of_sound hbounded hname] at h
      rw [List.cons_append, faultAfter?_of_sound hbounded hname, ih h]
      simp

/-- The check finds the first parameter that offends against those before it. -/
theorem faultAfter?_eq_some_iff {seen : List String} {parameters : List (Parameter α)}
    {fault : SpaceFault α} :
    faultAfter? seen parameters = some fault ↔
      ∃ earlier p later, parameters = earlier ++ p :: later ∧ faultAfter? seen earlier = none ∧
        p.Offends (earlier.map Parameter.name ++ seen) fault := by
  constructor
  · intro h
    induction parameters generalizing seen with
    | nil => cases h
    | cons p rest ih =>
      obtain ⟨fault', hoffends⟩ | ⟨hbounded, hname⟩ := p.offends_or_sound seen
      · rw [faultAfter?_of_offends hoffends] at h
        obtain rfl := Option.some.inj h
        exact ⟨[], p, rest, rfl, rfl, hoffends⟩
      · rw [faultAfter?_of_sound hbounded hname] at h
        obtain ⟨earlier, q, later, rfl, hearlier, hoffends⟩ := ih h
        refine ⟨p :: earlier, q, later, rfl, ?_, hoffends.congr ?_⟩
        · rw [faultAfter?_of_sound hbounded hname, hearlier]
        · intro name
          simp only [List.mem_append, List.mem_cons, List.map_cons]
          tauto
  · rintro ⟨earlier, p, later, rfl, hearlier, hoffends⟩
    rw [faultAfter?_append hearlier]
    refine faultAfter?_of_offends (hoffends.congr ?_) later
    simp

end

/-! ### The check of a list -/

namespace Space

section

variable {α : Type} [Scalar α] {parameters : List (Parameter α)}

theorem ofParameters_eq_ok_iff {s : Space α} :
    ofParameters parameters = .ok s ↔ WellFormed parameters ∧ s.parameters = parameters := by
  rw [← fault?_eq_none_iff, ofParameters]
  split
  · next hnone =>
    rw [Except.ok.injEq, Space.ext_iff]
    exact ⟨fun h => ⟨hnone, h.symm⟩, fun h => h.2.symm⟩
  · next hsome => simp [hsome]

theorem ofParameters_eq_error_iff_fault? {fault : SpaceFault α} :
    ofParameters parameters = .error fault ↔ fault? parameters = some fault := by
  rw [ofParameters]
  split
  · next hnone => simp [hnone]
  · next hsome => rw [hsome, Except.error.injEq, Option.some.injEq]

/-- A list without parameters is refused for that, any other list for its first offending parameter. -/
theorem ofParameters_eq_error_iff {fault : SpaceFault α} :
    ofParameters parameters = .error fault ↔
      (parameters = [] ∧ fault = .noParameters) ∨
      ∃ earlier p later, parameters = earlier ++ p :: later ∧ (∀ q ∈ earlier, q.Bounded) ∧
        (earlier.map Parameter.name).Nodup ∧ p.Offends (earlier.map Parameter.name) fault := by
  rw [ofParameters_eq_error_iff_fault?]
  cases parameters with
  | nil => simp [fault?, eq_comm]
  | cons p rest =>
    have hfault : fault? (p :: rest) = faultAfter? [] (p :: rest) := rfl
    rw [hfault, faultAfter?_eq_some_iff]
    simp [faultAfter?_eq_none_iff, and_assoc]

end

/-! ### Decoding -/

/-- A list of parameters as JSON, written like a space, whether or not it makes one. -/
def jsonOfParameters (parameters : List (Parameter Double)) : Json :=
  .object [("specs", .array (parameters.map Parameter.toJson))]

/-- Where parameters can be read at all, decoding checks them as any other list. -/
theorem ofJson_eq_of_parametersOfJson? {v : Json} {parameters : List (Parameter Double)}
    (h : parametersOfJson? v = some parameters) :
    ofJson v = (ofParameters parameters).mapError SpaceDecodeFault.space := by
  rw [ofJson, h]
  simp only
  cases ofParameters parameters with
  | ok s => rfl
  | error fault => rfl

end Space

namespace Parameter

/-- Bounds as they are given from outside: a NaN among them is positive. -/
def Given (p : Parameter Double) : Prop :=
  Double.ofFloat p.lower.toFloat = p.lower ∧ Double.ofFloat p.upper.toFloat = p.upper

theorem ofFloat_toFloat_of_isFinite {x : Double} (h : x.toFloat.isFinite = true) :
    Double.ofFloat x.toFloat = x := by
  cases x with
  | nan negative =>
    have hnan : (0.0 / 0.0 : Float).isFinite = false := by decide
    rw [Double.toFloat, hnan] at h
    cases h
  | number x hx => exact dif_pos hx

theorem Bounded.given {p : Parameter Double} (h : p.Bounded) : p.Given :=
  ⟨ofFloat_toFloat_of_isFinite h.lower_isFinite, ofFloat_toFloat_of_isFinite h.upper_isFinite⟩

theorem ofJson?_toJson {p : Parameter Double} (h : p.Given) : ofJson? p.toJson = some p := by
  have hread : ofJson? p.toJson =
      some ⟨p.name, .ofFloat p.lower.toFloat, .ofFloat p.upper.toFloat⟩ := by
    simp [ofJson?, toJson, fields, Json.record?, Json.fieldValue?, Json.lookup?, Json.required,
      Json.asText?, Json.plain?, Json.asFloat?]
  rw [hread, h.1, h.2]

end Parameter

namespace Space

variable {parameters : List (Parameter Double)}

theorem parametersOfJson?_jsonOfParameters (h : ∀ p ∈ parameters, p.Given) :
    parametersOfJson? (jsonOfParameters parameters) = some parameters := by
  have hlist : (parameters.map Parameter.toJson).mapM Parameter.ofJson? = some parameters := by
    induction parameters with
    | nil => rfl
    | cons p rest ih =>
      rw [List.map_cons, List.mapM_cons, Parameter.ofJson?_toJson (h p List.mem_cons_self),
        ih fun q hq => h q (List.mem_cons_of_mem p hq)]
      rfl
  exact hlist

/-- A space that is written as JSON is decoded as this space. -/
theorem ofJson_toJson (s : Space Double) : ofJson s.toJson = .ok s := by
  have hread : parametersOfJson? s.toJson = some s.parameters :=
    parametersOfJson?_jsonOfParameters fun p hp => (s.wellFormed.bounded p hp).given
  rw [ofJson_eq_of_parametersOfJson? hread, ofParameters_eq_ok_iff.mpr ⟨s.wellFormed, rfl⟩]
  rfl

end Space

/-! ### The text of a space -/

/-- The bounds are written so that they read back. -/
def Parameter.BoundsReadBack (p : Parameter Double) : Prop :=
  ∀ x ∈ [p.lower.toFloat, p.upper.toFloat],
    Json.parseNumber? (Json.renderFloat x).toList = some (.float x, [])

/-- The float that has been read, if nothing follows it. -/
def Json.wholeFloat? : Option (Json × List Char) → Option Float
  | some (.float x, []) => some x
  | _ => none

theorem Json.wholeFloat?_eq_some_iff {read : Option (Json × List Char)} {x : Float} :
    wholeFloat? read = some x ↔ read = some (.float x, []) := by
  constructor
  · intro h
    rw [wholeFloat?.eq_def] at h
    split at h
    · rw [Option.some.inj h]
    · cases h
  · rintro rfl
    rfl

instance Parameter.instDecidableBoundsReadBack (p : Parameter Double) :
    Decidable p.BoundsReadBack :=
  decidable_of_iff
    (∀ x ∈ [p.lower.toFloat, p.upper.toFloat],
      Json.wholeFloat? (Json.parseNumber? (Json.renderFloat x).toList) = some x)
    (forall₂_congr fun _ _ => Json.wholeFloat?_eq_some_iff)

open Json in
theorem Parameter.readsBack_toJson {p : Parameter Double} (h : p.BoundsReadBack) :
    ReadsBack p.toJson := by
  have hkeys : ["name", "kind", "lower", "upper"].Nodup := by decide
  refine readsBack_object hkeys ?_
  simp only [List.forall_mem_cons]
  exact ⟨readsBack_text _, readsBack_text _, readsBack_float (h _ (by simp)),
    readsBack_float (h _ (by simp)), by simp⟩

open Json in
/-- The text of a list of parameters is read as this list. -/
theorem Space.readsBack_jsonOfParameters {parameters : List (Parameter Double)}
    (h : ∀ p ∈ parameters, p.BoundsReadBack) : ReadsBack (jsonOfParameters parameters) := by
  have hitems : ∀ v ∈ parameters.map Parameter.toJson, ReadsBack v :=
    List.forall_mem_map.mpr fun p hp => Parameter.readsBack_toJson (h p hp)
  refine readsBack_object (List.nodup_singleton "specs") ?_
  simp only [List.forall_mem_singleton]
  exact readsBack_array hitems

/-! ### The three ways to a space -/

namespace Space

/-- The spaces that somebody can come by. -/
inductive Obtained : Space Double → Prop where
  /-- From a list of parameters. -/
  | checked {parameters : List (Parameter Double)} {s : Space Double}
    (h : ofParameters parameters = .ok s) : Obtained s
  /-- The delay parameters of the mapper. -/
  | mapper : Obtained delaySpace
  /-- From a JSON value. -/
  | decoded {v : Json} {s : Space Double} (h : ofJson v = .ok s) : Obtained s

/-- Every space that can be obtained has parameters, whose bounds are in order, so that a coordinate can be
    moved between them, and whose names are different. A list of parameters makes a space iff it is like
    that, and otherwise the first parameter that offends against those before it is named. Decoding is the
    same check, and what has been written as JSON is read and decoded as what it was. -/
theorem construction_sound :
    (∀ s : Space Double, s.Obtained →
      s.parameters ≠ [] ∧ (∀ p ∈ s.parameters, p.Ordered) ∧ s.names.Nodup) ∧
    (∀ (parameters : List (Parameter Double)) (s : Space Double),
      ofParameters parameters = .ok s ↔
        (parameters ≠ [] ∧ (∀ p ∈ parameters, p.Ordered) ∧
          (parameters.map Parameter.name).Nodup) ∧ s.parameters = parameters) ∧
    (∀ (parameters : List (Parameter Double)) (fault : SpaceFault Double),
      ofParameters parameters = .error fault ↔
        (parameters = [] ∧ fault = .noParameters) ∨
        ∃ earlier p later, parameters = earlier ++ p :: later ∧ (∀ q ∈ earlier, q.Ordered) ∧
          (earlier.map Parameter.name).Nodup ∧ p.Offends (earlier.map Parameter.name) fault) ∧
    (∀ (v : Json) (parameters : List (Parameter Double)), parametersOfJson? v = some parameters →
      ofJson v = (ofParameters parameters).mapError SpaceDecodeFault.space) ∧
    (∀ parameters : List (Parameter Double),
      ((∀ p ∈ parameters, p.Given) →
        parametersOfJson? (jsonOfParameters parameters) = some parameters) ∧
      ((∀ p ∈ parameters, p.BoundsReadBack) →
        Json.ofText? (jsonOfParameters parameters).render = some (jsonOfParameters parameters))) ∧
    (∀ s : Space Double, s.Obtained → ofJson s.toJson = .ok s ∧
      ((∀ p ∈ s.parameters, p.BoundsReadBack) →
        ∃ v, Json.ofText? s.toJson.render = some v ∧ ofJson v = .ok s)) := by
  have hordered : ∀ parameters : List (Parameter Double),
      (∀ p ∈ parameters, p.Bounded) ↔ ∀ p ∈ parameters, p.Ordered :=
    fun _ => forall₂_congr fun _ _ => Parameter.bounded_iff_ordered
  have htext : ∀ parameters : List (Parameter Double), (∀ p ∈ parameters, p.BoundsReadBack) →
      Json.ofText? (jsonOfParameters parameters).render = some (jsonOfParameters parameters) :=
    fun _ h => Json.ofText?_render (readsBack_jsonOfParameters h)
  refine ⟨?_, ?_, ?_, ?_, ?_, ?_⟩
  · intro s _
    exact ⟨s.wellFormed.nonempty, (hordered _).mp s.wellFormed.bounded, s.wellFormed.distinct⟩
  · intro parameters s
    rw [ofParameters_eq_ok_iff, ← hordered]
    refine and_congr_left' ⟨fun h => ⟨h.nonempty, h.bounded, h.distinct⟩, ?_⟩
    rintro ⟨hnonempty, hbounded, hdistinct⟩
    exact ⟨hnonempty, hbounded, hdistinct⟩
  · intro parameters fault
    simp only [← hordered]
    exact ofParameters_eq_error_iff
  · exact fun v parameters h => ofJson_eq_of_parametersOfJson? h
  · exact fun parameters => ⟨parametersOfJson?_jsonOfParameters, htext parameters⟩
  · intro s _
    refine ⟨ofJson_toJson s, ?_⟩
    intro h
    exact ⟨_, htext s.parameters h, ofJson_toJson s⟩

/-- Two parameters with one name. -/
def namesakes : List (Parameter Double) := [⟨"x", 0.0, 1.0⟩, ⟨"x", 0.0, 2.0⟩]

/-- The space of the mapper is written and read again, and two parameters with one name are refused, also
    when they are decoded. -/
theorem delaySpace_sound :
    delaySpace.Obtained ∧ (∀ p ∈ delaySpace.parameters, p.BoundsReadBack) ∧
    (∃ v, Json.ofText? delaySpace.toJson.render = some v ∧ ofJson v = .ok delaySpace) ∧
    (∀ p ∈ namesakes, p.Given) ∧ ofParameters namesakes = .error (.duplicateName "x") ∧
    ofJson (jsonOfParameters namesakes) = .error (.space (.duplicateName "x")) := by
  obtain ⟨-, -, hrefused, hdecoded, hread, hwritten⟩ := construction_sound
  have hbounds : ∀ p ∈ delaySpace.parameters, p.BoundsReadBack := by decide +kernel
  have hbounded : ∀ p ∈ namesakes, p.Bounded := by decide +kernel
  have hgiven : ∀ p ∈ namesakes, p.Given := fun p hp => (hbounded p hp).given
  have hfault : ofParameters namesakes = .error (.duplicateName "x") :=
    (hrefused _ _).mpr (Or.inr ⟨[⟨"x", 0.0, 1.0⟩], ⟨"x", 0.0, 2.0⟩, [], rfl, by decide +kernel,
      List.nodup_singleton "x", .duplicate (by decide +kernel) (List.mem_singleton.mpr rfl)⟩)
  refine ⟨.mapper, hbounds, (hwritten _ .mapper).2 hbounds, hgiven, hfault, ?_⟩
  rw [hdecoded _ _ ((hread _).1 hgiven), hfault]
  rfl

end Space

end DelayTuning
