import Mathlib.Data.Rat.Floor
import Mathlib.Algebra.Order.Ring.Abs
import Mathlib.Tactic

/-!
The column types of the read model (`infra/postgres_init.sql`), each with the check its values have
passed, and the limit of its indexes.

* `Text`, `Int4`, `Numeric`: `TEXT`, `INTEGER` and `NUMERIC(p, 2)`; a value out of range cannot be
  built.
* `Text.ofString`, `Int4.ofInt`, `Numeric.ofRat`: how a parameter of a statement becomes a value of
  its column, `none` where Postgres refuses it.
* `Btree`: which rows the indexes take; nothing is assumed of it.
* `cents`: the rounding of `NUMERIC`, to the nearest cent and away from zero at half a cent.
-/

namespace OrderCqrs

/-- A `TEXT`: any string without the character of code 0. -/
@[ext] structure Text where
  val : String
  noNul : Char.ofNat 0 ∉ val.toList
  deriving DecidableEq

/-- An `INTEGER`: 32 bits with sign. -/
@[ext] structure Int4 where
  val : ℤ
  lower : -2 ^ 31 ≤ val
  upper : val < 2 ^ 31
  deriving DecidableEq

/-- A `NUMERIC(p, 2)`: at most `p` digits, two of them after the point. -/
@[ext] structure Numeric (p : ℕ) where
  cents : ℤ
  fits : |cents| < 10 ^ p
  deriving DecidableEq

/-! ### Text -/

/-- A string as a `TEXT`. -/
def Text.ofString (s : String) : Option Text :=
  if h : Char.ofNat 0 ∉ s.toList then some ⟨s, h⟩ else none

@[simp] lemma Text.ofString_eq_some {s : String} {t : Text} :
    Text.ofString s = some t ↔ t.val = s := by
  rw [Text.ofString]
  constructor
  · intro h
    split_ifs at h
    rw [← Option.some.inj h]
  · rintro rfl
    rw [dif_pos t.noNul]

lemma Text.ofString_isSome {s : String} :
    (Text.ofString s).isSome ↔ Char.ofNat 0 ∉ s.toList := by
  rw [Text.ofString]
  split_ifs with h <;> simp [h]

/-! ### Index rows -/

/-- The rows that a btree index takes.  PostgreSQL refuses an index row of more than 2704 bytes, which
are counted after long values have been compressed. -/
class Btree where
  takes : List String → Bool

/-- A btree that compresses nothing: a row has a header, and a length with each of its values. -/
instance Btree.plain : Btree where
  takes values := 8 + (values.map fun s => 8 + s.utf8ByteSize).sum ≤ 2704

/-! ### Integers -/

/-- A number as an `INTEGER`. -/
def Int4.ofInt (n : ℤ) : Option Int4 :=
  if h : -2 ^ 31 ≤ n ∧ n < 2 ^ 31 then some ⟨n, h.1, h.2⟩ else none

@[simp] lemma Int4.ofInt_eq_some {n : ℤ} {i : Int4} : Int4.ofInt n = some i ↔ i.val = n := by
  rw [Int4.ofInt]
  constructor
  · intro h
    split_ifs at h
    rw [← Option.some.inj h]
  · rintro rfl
    rw [dif_pos ⟨i.lower, i.upper⟩]

lemma Int4.ofInt_isSome {n : ℤ} : (Int4.ofInt n).isSome ↔ -2 ^ 31 ≤ n ∧ n < 2 ^ 31 := by
  rw [Int4.ofInt]
  split_ifs with h <;> simp only [h, Option.isSome_some, Option.isSome_none, Bool.false_eq_true]
  trivial

/-! ### Decimals -/

/-- An amount in cents, rounded half away from zero. -/
def cents (q : ℚ) : ℤ :=
  if 0 ≤ q then ⌊q * 100 + 1 / 2⌋ else -⌊-q * 100 + 1 / 2⌋

/-- An amount in whole cents. -/
def WholeCents (q : ℚ) : Prop := ∃ k : ℤ, q = k / 100

/-- A whole number of cents is not rounded. -/
lemma cents_div (k : ℤ) : cents (k / 100) = k := by
  have hfloor : ∀ m : ℤ, ⌊(m : ℚ) / 100 * 100 + 1 / 2⌋ = m := by
    intro m
    rw [div_mul_cancel₀ _ (by norm_num : (100 : ℚ) ≠ 0), Int.floor_intCast_add]
    norm_num
  rw [cents]
  split_ifs
  · exact hfloor k
  · have hneg : -((k : ℚ) / 100) = ((-k : ℤ) : ℚ) / 100 := by
      push_cast
      ring
    rw [hneg, hfloor, neg_neg]

lemma WholeCents.cents_eq {q : ℚ} (h : WholeCents q) : (cents q : ℚ) = q * 100 := by
  obtain ⟨k, rfl⟩ := h
  rw [cents_div, div_mul_cancel₀ _ (by norm_num : (100 : ℚ) ≠ 0)]

lemma cents_nonneg {q : ℚ} (h : 0 ≤ q) : 0 ≤ cents q := by
  rw [cents, if_pos h]
  exact Int.floor_nonneg.mpr (by positivity)

/-- A number of cents as a `NUMERIC(p, 2)`. -/
def Numeric.ofCents (p : ℕ) (c : ℤ) : Option (Numeric p) :=
  if h : |c| < 10 ^ p then some ⟨c, h⟩ else none

@[simp] lemma Numeric.ofCents_eq_some {p : ℕ} {c : ℤ} {x : Numeric p} :
    Numeric.ofCents p c = some x ↔ x.cents = c := by
  rw [Numeric.ofCents]
  constructor
  · intro h
    split_ifs at h
    rw [← Option.some.inj h]
  · rintro rfl
    rw [dif_pos x.fits]

@[simp] lemma Numeric.ofCents_isSome {p : ℕ} {c : ℤ} :
    (Numeric.ofCents p c).isSome ↔ |c| < 10 ^ p := by
  rw [Numeric.ofCents]
  split_ifs with h <;> simp [h]

/-- An amount as a `NUMERIC(p, 2)`: rounded first and then checked. -/
def Numeric.ofRat (p : ℕ) (q : ℚ) : Option (Numeric p) := Numeric.ofCents p (OrderCqrs.cents q)

@[simp] lemma Numeric.ofRat_eq_some {p : ℕ} {q : ℚ} {x : Numeric p} :
    Numeric.ofRat p q = some x ↔ x.cents = OrderCqrs.cents q :=
  Numeric.ofCents_eq_some

/-- The amount a `NUMERIC` denotes. -/
def Numeric.amount {p : ℕ} (x : Numeric p) : ℚ := x.cents / 100

end OrderCqrs
