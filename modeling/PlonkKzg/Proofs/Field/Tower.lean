import PlonkKzg.Field.Fq12
import PlonkKzg.Proofs.Field.Quadratic

/-!
# The extension of degree twelve is a ring

The operations on triples and on pairs of triples compute their products by fewer products below.
Written out they are the products of polynomials with `v³` replaced by `9 + u` and `w²` by `v`, so
the laws follow from those of the coefficients.

* `Fq6.c0_mul`, `Fq6.c1_mul`, `Fq6.c2_mul` — the coefficients of a product;
* `Fq6.mulV_eq` — the product with `v`, as a product of the ring;
* `Fq6.commRing`, `Fq12.commRing` — the two rings.
-/

namespace PlonkKzg

namespace Fq6

/-! ### The coefficients of the results -/

@[simp] theorem c0_zero : (0 : Fq6).c0 = 0 := rfl

@[simp] theorem c1_zero : (0 : Fq6).c1 = 0 := rfl

@[simp] theorem c2_zero : (0 : Fq6).c2 = 0 := rfl

@[simp] theorem c0_one : (1 : Fq6).c0 = 1 := rfl

@[simp] theorem c1_one : (1 : Fq6).c1 = 0 := rfl

@[simp] theorem c2_one : (1 : Fq6).c2 = 0 := rfl

@[simp] theorem c0_add (a b : Fq6) : (a + b).c0 = a.c0 + b.c0 := rfl

@[simp] theorem c1_add (a b : Fq6) : (a + b).c1 = a.c1 + b.c1 := rfl

@[simp] theorem c2_add (a b : Fq6) : (a + b).c2 = a.c2 + b.c2 := rfl

@[simp] theorem c0_sub (a b : Fq6) : (a - b).c0 = a.c0 - b.c0 := rfl

@[simp] theorem c1_sub (a b : Fq6) : (a - b).c1 = a.c1 - b.c1 := rfl

@[simp] theorem c2_sub (a b : Fq6) : (a - b).c2 = a.c2 - b.c2 := rfl

@[simp] theorem c0_neg (a : Fq6) : (-a).c0 = -a.c0 := rfl

@[simp] theorem c1_neg (a : Fq6) : (-a).c1 = -a.c1 := rfl

@[simp] theorem c2_neg (a : Fq6) : (-a).c2 = -a.c2 := rfl

/-- The mixed products are what the product of two sums has beside the other products. -/
@[simp] theorem c0_mul (a b : Fq6) :
    (a * b).c0 = a.c0 * b.c0 + Fq2.xi * (a.c1 * b.c2 + a.c2 * b.c1) := by
  show a.c0 * b.c0 +
    Fq2.xi * ((a.c1 + a.c2) * (b.c1 + b.c2) - a.c1 * b.c1 - a.c2 * b.c2) = _
  ring

@[simp] theorem c1_mul (a b : Fq6) :
    (a * b).c1 = a.c0 * b.c1 + a.c1 * b.c0 + Fq2.xi * (a.c2 * b.c2) := by
  show (a.c0 + a.c1) * (b.c0 + b.c1) - a.c0 * b.c0 - a.c1 * b.c1 + Fq2.xi * (a.c2 * b.c2) = _
  ring

@[simp] theorem c2_mul (a b : Fq6) :
    (a * b).c2 = a.c0 * b.c2 + a.c1 * b.c1 + a.c2 * b.c0 := by
  show (a.c0 + a.c2) * (b.c0 + b.c2) - a.c0 * b.c0 - a.c2 * b.c2 + a.c1 * b.c1 = _
  ring

@[simp] theorem c0_mulV (a : Fq6) : a.mulV.c0 = Fq2.xi * a.c2 := rfl

@[simp] theorem c1_mulV (a : Fq6) : a.mulV.c1 = a.c0 := rfl

@[simp] theorem c2_mulV (a : Fq6) : a.mulV.c2 = a.c1 := rfl

/-! ### The ring -/

instance commRing : CommRing Fq6 where
  add_assoc a b c := by ext1 <;> simp [add_assoc]
  zero_add a := by ext1 <;> simp
  add_zero a := by ext1 <;> simp
  add_comm a b := by ext1 <;> simp [add_comm]
  mul_assoc a b c := by ext1 <;> simp only [c0_mul, c1_mul, c2_mul] <;> ring
  one_mul a := by ext1 <;> simp
  mul_one a := by ext1 <;> simp
  mul_comm a b := by ext1 <;> simp only [c0_mul, c1_mul, c2_mul] <;> ring
  left_distrib a b c := by
    ext1 <;> simp only [c0_mul, c1_mul, c2_mul, c0_add, c1_add, c2_add] <;> ring
  right_distrib a b c := by
    ext1 <;> simp only [c0_mul, c1_mul, c2_mul, c0_add, c1_add, c2_add] <;> ring
  zero_mul a := by ext1 <;> simp
  mul_zero a := by ext1 <;> simp
  neg_add_cancel a := by ext1 <;> simp
  sub_eq_add_neg a b := by ext1 <;> simp [sub_eq_add_neg]
  nsmul := nsmulRec
  zsmul := zsmulRec

/-- The element whose cube is `9 + u`. -/
def v : Fq6 := ⟨0, 1, 0⟩

/-- The shortcut for multiplying by `v` is the multiplication by `v`. -/
theorem mulV_eq (a : Fq6) : a.mulV = v * a := by
  ext1 <;> simp [v]

end Fq6

namespace Fq12

/-! ### Sums -/

instance : Add Fq12 := ⟨fun a b => ⟨a.c0 + b.c0, a.c1 + b.c1⟩⟩

instance : Sub Fq12 := ⟨fun a b => ⟨a.c0 - b.c0, a.c1 - b.c1⟩⟩

instance : Neg Fq12 := ⟨fun a => ⟨-a.c0, -a.c1⟩⟩

@[simp] theorem c0_zero : (0 : Fq12).c0 = 0 := rfl

@[simp] theorem c1_zero : (0 : Fq12).c1 = 0 := rfl

@[simp] theorem c0_one : (1 : Fq12).c0 = 1 := rfl

@[simp] theorem c1_one : (1 : Fq12).c1 = 0 := rfl

@[simp] theorem c0_add (a b : Fq12) : (a + b).c0 = a.c0 + b.c0 := rfl

@[simp] theorem c1_add (a b : Fq12) : (a + b).c1 = a.c1 + b.c1 := rfl

@[simp] theorem c0_sub (a b : Fq12) : (a - b).c0 = a.c0 - b.c0 := rfl

@[simp] theorem c1_sub (a b : Fq12) : (a - b).c1 = a.c1 - b.c1 := rfl

@[simp] theorem c0_neg (a : Fq12) : (-a).c0 = -a.c0 := rfl

@[simp] theorem c1_neg (a : Fq12) : (-a).c1 = -a.c1 := rfl

@[simp] theorem c0_mul (a b : Fq12) : (a * b).c0 = a.c0 * b.c0 + Fq6.v * (a.c1 * b.c1) := by
  rw [← Fq6.mulV_eq]
  rfl

@[simp] theorem c1_mul (a b : Fq12) : (a * b).c1 = a.c0 * b.c1 + a.c1 * b.c0 := by
  show (a.c0 + a.c1) * (b.c0 + b.c1) - a.c0 * b.c0 - a.c1 * b.c1 = _
  ring

/-! ### The ring -/

instance commRing : CommRing Fq12 where
  add_assoc a b c := by ext1 <;> simp only [c0_add, c1_add, add_assoc]
  zero_add a := by ext1 <;> simp only [c0_add, c1_add, c0_zero, c1_zero, zero_add]
  add_zero a := by ext1 <;> simp only [c0_add, c1_add, c0_zero, c1_zero, add_zero]
  add_comm a b := by ext1 <;> simp only [c0_add, c1_add, add_comm]
  mul_assoc a b c := by ext1 <;> simp only [c0_mul, c1_mul] <;> ring
  one_mul a := by ext1 <;> simp only [c0_mul, c1_mul, c0_one, c1_one] <;> ring
  mul_one a := by ext1 <;> simp only [c0_mul, c1_mul, c0_one, c1_one] <;> ring
  mul_comm a b := by ext1 <;> simp only [c0_mul, c1_mul] <;> ring
  left_distrib a b c := by ext1 <;> simp only [c0_mul, c1_mul, c0_add, c1_add] <;> ring
  right_distrib a b c := by ext1 <;> simp only [c0_mul, c1_mul, c0_add, c1_add] <;> ring
  zero_mul a := by ext1 <;> simp only [c0_mul, c1_mul, c0_zero, c1_zero] <;> ring
  mul_zero a := by ext1 <;> simp only [c0_mul, c1_mul, c0_zero, c1_zero] <;> ring
  neg_add_cancel a := by
    ext1 <;> simp only [c0_add, c1_add, c0_neg, c1_neg, c0_zero, c1_zero, neg_add_cancel]
  sub_eq_add_neg a b := by
    ext1 <;> simp only [c0_add, c1_add, c0_neg, c1_neg, c0_sub, c1_sub, sub_eq_add_neg]
  nsmul := nsmulRec
  zsmul := zsmulRec

end Fq12

end PlonkKzg
