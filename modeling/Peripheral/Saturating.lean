/-!
# `Peripheral.Saturating` — arithmetic that stops at the ends of its range

Counters, hold levels and pointer motion never wrap: a result outside the range of its width becomes
the nearer end of that range.

## Contents
- `add16`, `accumulate`, `narrow`: signed sums and the cut from 32 to 16 bits.
- `raise`: an unsigned counter that stays at its greatest value.
- `toInt_add16`, `toInt_accumulate`, `toInt_narrow`, `toNat_raise`: the same operations read as
  integers, which is what arithmetic proofs use.
- `raise_raise`, `raise_toNat_raise`: counts that are raised in parts.
- `eq_zero_of_raise_eq_zero`, `eq_zero_of_raise_eq_self`: what a counter tells that has not changed.
-/

namespace Peripheral.Saturating

/-- The sum of two 16-bit numbers, held at the nearer end of the range. -/
def add16 (a b : Int16) : Int16 :=
  Int16.ofIntClamp (a.toInt + b.toInt)

/-- A 32-bit total with a 16-bit amount added, held at the nearer end of the range. -/
def accumulate (total : Int32) (amount : Int16) : Int32 :=
  Int32.ofIntClamp (total.toInt + amount.toInt)

/-- A 32-bit total cut to the 16-bit number nearest to it. -/
def narrow (total : Int32) : Int16 :=
  Int16.ofIntClamp total.toInt

/-- A counter raised by `amount`, which stays at its greatest value once it is there. -/
def raise (count : UInt32) (amount : Nat) : UInt32 :=
  UInt32.ofNatClamp (count.toNat + amount)

/-! ## Read as integers -/

theorem toInt_clamp16 (i : Int) : (Int16.ofIntClamp i).toInt = max (-32768) (min 32767 i) := by
  have hmin : Int16.minValue.toInt = -32768 := by decide
  have hmax : Int16.maxValue.toInt = 32767 := by decide
  unfold Int16.ofIntClamp
  split
  · split
    · rw [Int16.toInt_ofIntLE]
      omega
    · rw [hmax]
      omega
  · rw [hmin]
    omega

theorem toInt_clamp32 (i : Int) :
    (Int32.ofIntClamp i).toInt = max (-2147483648) (min 2147483647 i) := by
  have hmin : Int32.minValue.toInt = -2147483648 := by decide
  have hmax : Int32.maxValue.toInt = 2147483647 := by decide
  unfold Int32.ofIntClamp
  split
  · split
    · rw [Int32.toInt_ofIntLE]
      omega
    · rw [hmax]
      omega
  · rw [hmin]
    omega

theorem toInt_add16 (a b : Int16) :
    (add16 a b).toInt = max (-32768) (min 32767 (a.toInt + b.toInt)) :=
  toInt_clamp16 _

theorem toInt_accumulate (total : Int32) (amount : Int16) :
    (accumulate total amount).toInt
      = max (-2147483648) (min 2147483647 (total.toInt + amount.toInt)) :=
  toInt_clamp32 _

theorem toInt_narrow (total : Int32) :
    (narrow total).toInt = max (-32768) (min 32767 total.toInt) :=
  toInt_clamp16 _

theorem toNat_raise (count : UInt32) (amount : Nat) :
    (raise count amount).toNat = min 4294967295 (count.toNat + amount) := by
  unfold raise UInt32.ofNatClamp
  split
  · rename_i h
    simp only [UInt32.size] at h
    rw [UInt32.toNat_ofNatLT]
    omega
  · rename_i h
    simp only [UInt32.size] at h
    rw [UInt32.toNat_ofNatLT]
    simp only [UInt32.size]
    omega

@[simp] theorem raise_zero (n : UInt32) : raise n 0 = n := by
  rw [← UInt32.toNat_inj, toNat_raise]
  have := UInt32.toNat_lt n
  omega

/-- A counter can be raised part by part. -/
theorem raise_raise (n : UInt32) (k m : Nat) : raise (raise n k) m = raise n (k + m) := by
  rw [← UInt32.toNat_inj, toNat_raise, toNat_raise, toNat_raise]
  omega

/-- Two counts can be added up before or after one of them is raised. -/
theorem raise_toNat_raise (base n : UInt32) (k : Nat) :
    raise base (raise n k).toNat = raise (raise base n.toNat) k := by
  rw [← UInt32.toNat_inj, toNat_raise, toNat_raise, toNat_raise, toNat_raise]
  omega

/-- A counter that is at zero was not raised. -/
theorem eq_zero_of_raise_eq_zero {n : UInt32} {k : Nat} (h : raise n k = 0) : k = 0 := by
  rw [← UInt32.toNat_inj, toNat_raise] at h
  change min 4294967295 (n.toNat + k) = 0 at h
  omega

/-- A counter that stays has nothing added to it, unless it is at its greatest value. -/
theorem eq_zero_of_raise_eq_self {n m : UInt32} (h : raise n m.toNat = n) :
    n = 4294967295 ∨ m = 0 := by
  rw [← UInt32.toNat_inj, toNat_raise] at h
  rw [← UInt32.toNat_inj, ← UInt32.toNat_inj]
  show n.toNat = 4294967295 ∨ m.toNat = 0
  change min 4294967295 (n.toNat + m.toNat) = n.toNat at h
  omega

end Peripheral.Saturating
