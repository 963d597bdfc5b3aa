import DelayTuning.Double
import DelayTuning.Proofs.Binary64.Arithmetic

/-!
# The arithmetic of doubles whose NaN has a sign

Without the sign of its NaN a double of this kind is one of the machine, and it is calculated with in the
same way: the machine has one NaN only, which is the result wherever it is an operand.

## Main statements

- `Double.toFloat_add`, `Double.toFloat_sub`, `Double.toFloat_mul`, `Double.toFloat_div`: the operations
- `Double.toFloat_natCast`: the double of an integer
-/

namespace DelayTuning

open Float.Model Float.Model.UnpackedFloat

theorem eq_nan_of_isNaN {x : Float} (h : x.isNaN = true) : x = 0.0 / 0.0 := by
  have hquotient : (0.0 / 0.0 : Float) = Float.nan := by decide
  rw [Float.isNaN_eq_decide_eq_nan, decide_eq_true_iff] at h
  rw [h, hquotient]

theorem unpack_nan : (0.0 / 0.0 : Float).toModel.unpack = .notANumber :=
  rfl

theorem packed_notANumber : packed .notANumber = 0.0 / 0.0 := by
  rw [← unpack_nan, packed_unpack]

/-- An operation that the machine performs on what its decoder gives, and for which no number is the result
wherever no number is an operand. -/
theorem nan_absorbs {f : Float → Float → Float} (op : UnpackedFloat → UnpackedFloat → UnpackedFloat)
    (hop : ∀ x y, f x y = packed (op x.toModel.unpack y.toModel.unpack))
    (hleft : ∀ u, op .notANumber u = .notANumber) (hright : ∀ u, op u .notANumber = .notANumber)
    (x : Float) : f (0.0 / 0.0) x = 0.0 / 0.0 ∧ f x (0.0 / 0.0) = 0.0 / 0.0 := by
  constructor
  · rw [hop, unpack_nan, hleft, packed_notANumber]
  · rw [hop, unpack_nan, hright, packed_notANumber]

namespace Double

theorem eq_of_toFloat_eq {x y : Double} (h : x.toFloat = y.toFloat) (hx : x.toFloat.isFinite = true) :
    x = y := by
  have hnan : (0.0 / 0.0 : Float).isFinite = false := by decide
  cases x with
  | nan s => exact absurd hx (Bool.eq_false_iff.mp hnan)
  | number x _ =>
    cases y with
    | nan t =>
      rw [h] at hx
      exact absurd hx (Bool.eq_false_iff.mp hnan)
    | number y _ =>
      cases h
      rfl

@[simp]
theorem toFloat_ofResult (x : Float) : (ofResult x).toFloat = x := by
  rw [ofResult]
  split
  · rfl
  · next h => exact (eq_nan_of_isNaN (Bool.eq_true_of_not_eq_false h)).symm

theorem toFloat_ofFloat_self (x : Float) : (ofFloat x).toFloat = x := by
  rw [ofFloat]
  split
  · rfl
  · next h => exact (eq_nan_of_isNaN (Bool.eq_true_of_not_eq_false h)).symm

theorem toFloat_binary {f : Float → Float → Float}
    (hnan : ∀ x, f (0.0 / 0.0) x = 0.0 / 0.0 ∧ f x (0.0 / 0.0) = 0.0 / 0.0) (x y : Double) :
    (binary f x y).toFloat = f x.toFloat y.toFloat := by
  cases x with
  | nan s => exact (hnan y.toFloat).1.symm
  | number x hx =>
    cases y with
    | nan t => exact (hnan x).2.symm
    | number y hy => exact toFloat_ofResult (f x y)

@[simp]
theorem toFloat_add (x y : Double) : (x + y).toFloat = x.toFloat + y.toFloat :=
  toFloat_binary (nan_absorbs (UnpackedFloat.add Format.binary64) add_eq_packed
    (fun _ => rfl) (fun u => by cases u <;> rfl)) x y

@[simp]
theorem toFloat_sub (x y : Double) : (x - y).toFloat = x.toFloat - y.toFloat :=
  toFloat_binary (nan_absorbs (UnpackedFloat.sub Format.binary64) sub_eq_packed
    (fun _ => rfl) (fun u => by cases u <;> rfl)) x y

@[simp]
theorem toFloat_mul (x y : Double) : (x * y).toFloat = x.toFloat * y.toFloat :=
  toFloat_binary (nan_absorbs (UnpackedFloat.mul Format.binary64) mul_eq_packed
    (fun _ => rfl) (fun u => by cases u <;> rfl)) x y

@[simp]
theorem toFloat_div (x y : Double) : (x / y).toFloat = x.toFloat / y.toFloat :=
  toFloat_binary (nan_absorbs (UnpackedFloat.div Format.binary64) div_eq_packed
    (fun _ => rfl) (fun u => by cases u <;> rfl)) x y

@[simp]
theorem toFloat_natCast (n : ℕ) : (n : Double).toFloat = Float.ofNat n :=
  toFloat_ofFloat_self (Float.ofNat n)

end Double

end DelayTuning
