import Mathlib
import ToyDB.Encoding.OrderedCode
import ToyDB.Error

/-!
# Big-endian numbers

Numbers as a fixed number of bytes, the most significant first. The bytes keep the order
of the numbers.
-/
namespace ToyDB.Encoding

/-- The big-endian bytes of a number, the lowest of the given width. -/
def beBytes : ℕ → ℕ → Bytes
  | 0, _ => []
  | width + 1, n => UInt8.ofNat (n / 256 ^ width) :: beBytes width (n % 256 ^ width)

/-- The number of big-endian bytes. -/
def ofBeBytes : Bytes → ℕ
  | [] => 0
  | b :: bytes => b.toNat * 256 ^ bytes.length + ofBeBytes bytes

theorem compare_uint8 (a b : UInt8) : compare a b = compare a.toNat b.toNat := by
  simp only [compare, compareOfLessAndEq, UInt8.lt_iff_toNat_lt, ← UInt8.toNat_inj]

@[simp] theorem length_beBytes (width n : ℕ) : (beBytes width n).length = width := by
  induction width generalizing n with
  | zero => rfl
  | succ width ih => rw [beBytes, List.length_cons, ih]

theorem ofBeBytes_beBytes {width n : ℕ} (h : n < 256 ^ width) : ofBeBytes (beBytes width n) = n := by
  induction width generalizing n with
  | zero => simpa [beBytes, ofBeBytes] using (Nat.lt_one_iff.mp h).symm
  | succ width ih =>
      have hpos : 0 < 256 ^ width := Nat.pow_pos (by decide)
      have hdiv : n / 256 ^ width < 256 := Nat.div_lt_of_lt_mul (by rwa [pow_succ] at h)
      rw [beBytes, ofBeBytes, length_beBytes, ih (Nat.mod_lt n hpos), UInt8.toNat_ofNat',
        Nat.mod_eq_of_lt hdiv]
      exact Nat.div_add_mod' n _

theorem ofBeBytes_lt (bytes : Bytes) : ofBeBytes bytes < 256 ^ bytes.length := by
  induction bytes with
  | nil => simp [ofBeBytes]
  | cons b bytes ih =>
      have hb := b.toNat_lt
      have hle : b.toNat * 256 ^ bytes.length ≤ 255 * 256 ^ bytes.length :=
        Nat.mul_le_mul_right _ (by omega)
      rw [ofBeBytes, List.length_cons, pow_succ]
      omega

theorem beBytes_ofBeBytes (bytes : Bytes) : beBytes bytes.length (ofBeBytes bytes) = bytes := by
  induction bytes with
  | nil => rfl
  | cons b bytes ih =>
      have hlt := ofBeBytes_lt bytes
      have hpos : 0 < 256 ^ bytes.length := Nat.pow_pos (by decide)
      have hdiv : (b.toNat * 256 ^ bytes.length + ofBeBytes bytes) / 256 ^ bytes.length = b.toNat := by
        rw [Nat.mul_comm, Nat.mul_add_div hpos, Nat.div_eq_of_lt hlt, Nat.add_zero]
      have hmod : (b.toNat * 256 ^ bytes.length + ofBeBytes bytes) % 256 ^ bytes.length =
          ofBeBytes bytes := by
        rw [Nat.mul_comm, Nat.mul_add_mod, Nat.mod_eq_of_lt hlt]
      rw [List.length_cons, beBytes, ofBeBytes, hdiv, hmod, ih, UInt8.ofNat_toNat]

/-- Big-endian bytes keep the order of numbers. -/
theorem ordered_beBytes (width : ℕ) :
    OrderedCode (beBytes width) compare fun n => n < 256 ^ width := by
  induction width with
  | zero =>
      intro a b ha hb x y
      obtain rfl : a = 0 := Nat.lt_one_iff.mp ha
      obtain rfl : b = 0 := Nat.lt_one_iff.mp hb
      rfl
  | succ width ih =>
      intro a b ha hb x y
      have hpos : 0 < 256 ^ width := Nat.pow_pos (by decide)
      have hda : a / 256 ^ width < 256 := Nat.div_lt_of_lt_mul (by rwa [pow_succ] at ha)
      have hdb : b / 256 ^ width < 256 := Nat.div_lt_of_lt_mul (by rwa [pow_succ] at hb)
      rw [beBytes, beBytes, List.cons_append, List.cons_append, cmpList_cons, compare_uint8,
        UInt8.toNat_ofNat', UInt8.toNat_ofNat', Nat.mod_eq_of_lt hda, Nat.mod_eq_of_lt hdb,
        ih _ _ (Nat.mod_lt a hpos) (Nat.mod_lt b hpos), ← Ordering.then_assoc]
      congr 1
      have ha' := Nat.div_add_mod' a (256 ^ width)
      have hb' := Nat.div_add_mod' b (256 ^ width)
      rcases lt_trichotomy (a / 256 ^ width) (b / 256 ^ width) with hlt | heq | hgt
      · have hab : a < b := Nat.lt_of_div_lt_div hlt
        rw [compare_lt_iff_lt.mpr hlt, compare_lt_iff_lt.mpr hab]
        rfl
      · rw [heq, compare_eq_iff_eq.mpr rfl, Ordering.eq_then]
        rw [heq] at ha'
        have hlt : a % 256 ^ width < b % 256 ^ width ↔ a < b := by omega
        have hgt : b % 256 ^ width < a % 256 ^ width ↔ b < a := by omega
        rw [Nat.compare_eq_ite_lt, Nat.compare_eq_ite_lt, if_congr hlt rfl (if_congr hgt rfl rfl)]
      · have hab : b < a := Nat.lt_of_div_lt_div hgt
        rw [compare_gt_iff_gt.mpr hgt, compare_gt_iff_gt.mpr hab]
        rfl

end ToyDB.Encoding
