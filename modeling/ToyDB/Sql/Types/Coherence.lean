import Mathlib.Data.Set.Basic
import Mathlib.Tactic.Ring
import ToyDB.Sql.Types.ValueSet

/-!
# Coherence of comparisons

Equality, order and hash of values are three implementations. They agree on the values of
a set just if no integer in it equals a float in it, and no two floats in it are equal but
different: the zeros, and the NaNs. Integers and floats then have common positions, by the
nearest float and then by the integer, since rounding keeps the order.
-/
namespace ToyDB.Sql

/-! ## Rounding -/

namespace F64

/-- The mantissa of a number with its leading bit, or with the next one after rounding up. -/
def mantissa (n : ℕ) : ℕ :=
  if n.log2 ≤ 52 then n * 2 ^ (52 - n.log2)
  else
    let unit := 2 ^ (n.log2 - 52)
    if unit < 2 * (n % unit) ∨ (2 * (n % unit) = unit ∧ n / unit % 2 = 1) then n / unit + 1
    else n / unit

theorem mantissa_bounds {n : ℕ} (h : n ≠ 0) : 2 ^ 52 ≤ mantissa n ∧ mantissa n ≤ 2 ^ 53 := by
  have hlow := Nat.log2_self_le h
  have hhigh : n < 2 ^ (n.log2 + 1) := Nat.lt_log2_self
  unfold mantissa
  split_ifs with he
  · have hpow : 2 ^ n.log2 * 2 ^ (52 - n.log2) = 2 ^ 52 := by
      rw [← pow_add]
      congr 1
      omega
    have hpos : 0 < 2 ^ (52 - n.log2) := Nat.two_pow_pos _
    rw [pow_succ] at hhigh
    constructor
    · rw [← hpow]
      exact Nat.mul_le_mul_right _ hlow
    · rw [pow_succ, ← hpow]
      calc n * 2 ^ (52 - n.log2) ≤ 2 ^ n.log2 * 2 * 2 ^ (52 - n.log2) :=
            Nat.mul_le_mul_right _ hhigh.le
        _ = 2 ^ n.log2 * 2 ^ (52 - n.log2) * 2 := by ring
  · dsimp only
    set unit := 2 ^ (n.log2 - 52) with hunit
    have hpos : 0 < unit := Nat.two_pow_pos _
    have hpow : 2 ^ n.log2 = 2 ^ 52 * unit := by
      rw [hunit, ← pow_add]
      congr 1
      omega
    have hdiv : 2 ^ 52 ≤ n / unit := (Nat.le_div_iff_mul_le hpos).mpr (hpow ▸ hlow)
    have hdiv' : n / unit < 2 ^ 53 := by
      refine (Nat.div_lt_iff_lt_mul hpos).mpr ?_
      rw [pow_succ] at hhigh
      calc n < 2 ^ n.log2 * 2 := hhigh
        _ = 2 ^ 53 * unit := by rw [hpow]; ring
    split_ifs <;> omega

/-- Rounding keeps the order of numbers with as many bits. -/
theorem mantissa_mono {m n : ℕ} (h : m ≤ n) (he : m.log2 = n.log2) : mantissa m ≤ mantissa n := by
  unfold mantissa
  rw [he]
  split_ifs with hsmall
  · exact Nat.mul_le_mul_right _ h
  · dsimp only
    set unit := 2 ^ (n.log2 - 52) with hunit
    have hpos : 0 < unit := Nat.two_pow_pos _
    have hdiv : m / unit ≤ n / unit := Nat.div_le_div_right h
    have hm := Nat.div_add_mod m unit
    have hn := Nat.div_add_mod n unit
    rcases hdiv.lt_or_eq with hlt | heq
    · split_ifs <;> omega
    · have hmod : m % unit ≤ n % unit := by
        rw [heq] at hm
        omega
      rw [heq]
      split_ifs <;> omega

theorem magnitude_eq (x : F64) (h : x.bits.toNat < 2 ^ 63) :
    x.magnitude = x.bits.toNat ∧ x.isSignNegative = false := by
  constructor
  · exact Nat.mod_eq_of_lt h
  · rw [isSignNegative, BitVec.msb_eq_decide]
    exact decide_eq_false (by omega)

theorem ofNat_bits {n : ℕ} (h : n ≠ 0) (hlt : n < 2 ^ 64) :
    (ofNat n).bits.toNat = (n.log2 + 1022) * 2 ^ 52 + mantissa n ∧ n.log2 ≤ 63 := by
  have hlog : n.log2 ≤ 63 := by
    have := (Nat.log2_lt h).mpr hlt
    omega
  obtain ⟨hlow, hhigh⟩ := mantissa_bounds h
  have hbits : (ofNat n).bits = BitVec.ofNat 64 ((n.log2 + 1022) * 2 ^ 52 + mantissa n) := by
    by_cases he : n.log2 ≤ 52
    · simp only [ofNat, mantissa, if_neg h, if_pos he]
    · simp only [ofNat, mantissa, if_neg h, if_neg he]
  refine ⟨?_, hlog⟩
  rw [hbits, BitVec.toNat_ofNat]
  exact Nat.mod_eq_of_lt (by omega)

/-- Natural numbers are rounded to positive floats, in order. -/
theorem magnitude_ofNat {n : ℕ} (hlt : n < 2 ^ 64) :
    (ofNat n).isSignNegative = false ∧ (ofNat n).magnitude ≤ infinity ∧
      ((ofNat n).magnitude = 0 ↔ n = 0) := by
  by_cases h : n = 0
  · subst h
    decide
  · obtain ⟨hbits, hlog⟩ := ofNat_bits h hlt
    obtain ⟨hlow, hhigh⟩ := mantissa_bounds h
    obtain ⟨hm, hs⟩ := magnitude_eq (ofNat n) (by omega)
    refine ⟨hs, ?_, ?_⟩
    · rw [hm, hbits, infinity]
      omega
    · rw [hm, hbits]
      constructor
      · omega
      · exact fun hz => absurd hz h

theorem magnitude_ofNat_mono {m n : ℕ} (h : m ≤ n) (hlt : n < 2 ^ 64) :
    (ofNat m).magnitude ≤ (ofNat n).magnitude := by
  by_cases hm : m = 0
  · subst hm
    exact Nat.zero_le _
  · have hn : n ≠ 0 := by omega
    obtain ⟨hbm, hlm⟩ := ofNat_bits hm (by omega)
    obtain ⟨hbn, hln⟩ := ofNat_bits hn hlt
    obtain ⟨hm₁, hm₂⟩ := mantissa_bounds hm
    obtain ⟨hn₁, hn₂⟩ := mantissa_bounds hn
    rw [(magnitude_eq (ofNat m) (by omega)).1, (magnitude_eq (ofNat n) (by omega)).1, hbm, hbn]
    have hlog : m.log2 ≤ n.log2 := (Nat.le_log2 hn).mpr ((Nat.log2_self_le hm).trans h)
    rcases hlog.lt_or_eq with hlt | heq
    · omega
    · have := mantissa_mono h heq
      omega

theorem natAbs_lt (i : Int64) : i.toInt.natAbs < 2 ^ 64 := by
  have := i.le_toInt
  have := i.toInt_lt
  omega

theorem totalPosition_ofInt64 (i : Int64) : (ofInt64 i).totalPosition =
    if i.toInt < 0 then -((ofNat i.toInt.natAbs).magnitude : ℤ) - 1
    else (ofNat i.toInt.natAbs).magnitude := by
  obtain ⟨hs, _⟩ := magnitude_ofNat (natAbs_lt i)
  unfold ofInt64 totalPosition
  split_ifs with h₁ h₂ h₂
  · rw [magnitude_neg]
  · rw [isSignNegative_neg, hs] at h₂
    exact absurd rfl h₂
  · rw [hs] at h₂
    cases h₂
  · rfl

theorem isNan_ofInt64 (i : Int64) : (ofInt64 i).isNan = false := by
  obtain ⟨_, hle, _⟩ := magnitude_ofNat (natAbs_lt i)
  have h : (ofInt64 i).magnitude = (ofNat i.toInt.natAbs).magnitude := by
    unfold ofInt64
    split_ifs
    · exact magnitude_neg _
    · rfl
  rw [isNan, h]
  exact decide_eq_false (Nat.not_lt.mpr hle)

/-- Rounding to the nearest float keeps the order of integers. -/
theorem totalPosition_ofInt64_mono {i j : Int64} (h : i.toInt ≤ j.toInt) :
    (ofInt64 i).totalPosition ≤ (ofInt64 j).totalPosition := by
  rw [totalPosition_ofInt64, totalPosition_ofInt64]
  split_ifs with hi hj hj
  · have := magnitude_ofNat_mono (by omega : j.toInt.natAbs ≤ i.toInt.natAbs) (natAbs_lt i)
    omega
  · omega
  · omega
  · have := magnitude_ofNat_mono (by omega : i.toInt.natAbs ≤ j.toInt.natAbs) (natAbs_lt j)
    omega

theorem eq_symm (x y : F64) : x.eq y = y.eq x := by
  unfold eq
  have hsymm : x.position = y.position ↔ y.position = x.position := ⟨Eq.symm, Eq.symm⟩
  rw [Bool.and_comm (!x.isNan), decide_eq_decide.mpr hsymm]

/-- Floats are equal if they are the same or both zero. -/
theorem eq_or_zero {x y : F64} (h : x.eq y = true) :
    x = y ∨ x.magnitude = 0 ∧ y.magnitude = 0 := by
  simp only [eq, Bool.and_eq_true] at h
  have hp : x.position = y.position := of_decide_eq_true h.2
  unfold position at hp
  by_cases hz : x.magnitude = 0
  · refine Or.inr ⟨hz, ?_⟩
    split_ifs at hp <;> omega
  · refine Or.inl (ext_magnitude ?_ ?_)
    · split_ifs at hp with hx hy hy <;> first | omega | simp [hx, hy]
    · split_ifs at hp <;> omega

end F64

namespace Value

/-! ## Hashes -/

/-- What a value feeds to a hasher. -/
inductive HashInput where
  | discriminant (n : ℕ)
  | boolean (b : Bool)
  | integer (i : Int64)
  | bits (b : BitVec 64)
  | string (s : String)
  deriving DecidableEq

/-- All that a value feeds to a hasher: two values have the same hash, whatever the hasher,
just if it is the same. Negative zeros and negative NaNs are hashed as positive. -/
def hash : Value → List HashInput
  | null => [.discriminant 0]
  | boolean b => [.discriminant 1, .boolean b]
  | integer i => [.discriminant 2, .integer i]
  | float f => [.discriminant 3,
      .bits (if (f.isNan || f.magnitude = 0) && f.isSignNegative then f.neg else f).bits]
  | string s => [.discriminant 4, .string s]

/-! ## Coherence -/

/-- On the values of the set, the order is total, and equality, order and hash agree. -/
structure Coherent (S : Set Value) : Prop where
  refl : ∀ a ∈ S, a.cmp a = .eq
  swap : ∀ a ∈ S, ∀ b ∈ S, b.cmp a = (a.cmp b).swap
  trans : ∀ a ∈ S, ∀ b ∈ S, ∀ c ∈ S, a.cmp b ≠ .gt → b.cmp c ≠ .gt → a.cmp c ≠ .gt
  eq_iff : ∀ a ∈ S, ∀ b ∈ S, a.eq b = true ↔ a.cmp b = .eq
  hash_eq : ∀ a ∈ S, ∀ b ∈ S, a.eq b = true → a.hash = b.hash

/-- No integer in the set is equal to a float in it, and it holds at most one zero and at
most one NaN among its floats. -/
structure Separate (S : Set Value) : Prop where
  integer_float : ∀ i f, integer i ∈ S → float f ∈ S → (F64.ofInt64 i).eq f = false
  zeros : ∀ f g, float f ∈ S → float g ∈ S → f.magnitude = 0 → g.magnitude = 0 → f = g
  nans : ∀ f g, float f ∈ S → float g ∈ S → f.isNan = true → g.isNan = true → f = g

/-- The class of a value; numbers are one class. -/
def kind : Value → ℕ
  | null => 0
  | boolean _ => 1
  | integer _ => 2
  | float _ => 2
  | string _ => 3

/-- The position of a value in its class; integers that are rounded to one float keep their
order. -/
def position : Value → ℤ ×ₗ ℤ ×ₗ String
  | null => toLex (0, toLex (0, ""))
  | boolean b => toLex ((b.toNat : ℤ), toLex (0, ""))
  | integer i => toLex ((F64.ofInt64 i).totalPosition, toLex (i.toInt, ""))
  | float f => toLex (f.totalPosition, toLex (0, ""))
  | string s => toLex (0, toLex (0, s))

/-- The position of a value among those of a separate set. -/
def place (v : Value) : ℕ ×ₗ ℤ ×ₗ ℤ ×ₗ String := toLex (v.kind, v.position)

variable {S : Set Value} {a b : Value}

theorem cmp_of_kind (h : a.kind ≠ b.kind) : a.cmp b = compare a.kind b.kind := by
  cases a <;> cases b <;> first | rfl | exact absurd rfl h

theorem compare_place : compare a.place b.place =
    (compare a.kind b.kind).then (compare a.position b.position) := by
  rcases lt_trichotomy a.kind b.kind with h | h | h
  · rw [compare_lt_iff_lt.mpr h, compare_lt_iff_lt.mpr (Prod.Lex.toLex_lt_toLex.mpr (Or.inl h))]
    rfl
  · rw [compare_eq_iff_eq.mpr h, Ordering.then]
    refine compare_congr ?_ ?_
    · simp [place, Prod.Lex.toLex_lt_toLex, h]
    · simp [place, Prod.Lex.toLex_lt_toLex, h]
  · rw [compare_gt_iff_gt.mpr h, compare_gt_iff_gt.mpr (Prod.Lex.toLex_lt_toLex.mpr (Or.inl h))]
    rfl

/-- Unequal numbers have different positions. -/
theorem position_ne {i : Int64} {f : F64} (h : (F64.ofInt64 i).eq f = false) :
    (F64.ofInt64 i).totalPosition ≠ f.totalPosition := by
  intro heq
  obtain rfl := F64.totalPosition_injective heq
  rw [F64.eq, F64.isNan_ofInt64] at h
  simp at h

namespace Separate

/-- On a separate set, values are ordered by their positions. -/
theorem cmp_eq (h : Separate S) (ha : a ∈ S) (hb : b ∈ S) : a.cmp b = compare a.place b.place := by
  rw [compare_place]
  by_cases hk : a.kind = b.kind
  · rw [compare_eq_iff_eq.mpr hk, Ordering.then]
    cases a <;> cases b <;> simp [kind] at hk
    case null.null => exact (compare_eq_iff_eq.mpr rfl).symm
    case boolean.boolean a b =>
      refine compare_congr ?_ ?_ <;> cases a <;> cases b <;>
        simp [position, Prod.Lex.toLex_lt_toLex]
    case string.string s t =>
      refine compare_congr ?_ ?_ <;> simp [position, Prod.Lex.toLex_lt_toLex]
    case float.float f g =>
      refine compare_congr ?_ ?_ <;> simp [position, Prod.Lex.toLex_lt_toLex]
    case integer.float i f =>
      have hne := position_ne (h.integer_float i f ha hb)
      refine compare_congr ?_ ?_ <;> simp [position, Prod.Lex.toLex_lt_toLex, hne, hne.symm]
    case float.integer f i =>
      have hne := position_ne (h.integer_float i f hb ha)
      refine compare_congr ?_ ?_ <;> simp [position, Prod.Lex.toLex_lt_toLex, hne, hne.symm]
    case integer.integer i j =>
      have hlt : ∀ i j : Int64, i.toInt < j.toInt ↔ (integer i).position < (integer j).position := by
        intro i j
        simp only [position, Prod.Lex.toLex_lt_toLex]
        constructor
        · intro hij
          rcases (F64.totalPosition_ofInt64_mono hij.le).lt_or_eq with hp | hp
          · exact Or.inl hp
          · exact Or.inr ⟨hp, Or.inl hij⟩
        · rintro (hp | ⟨_, hij | ⟨_, hs⟩⟩)
          · by_contra hij
            have := F64.totalPosition_ofInt64_mono (not_lt.mp hij)
            omega
          · exact hij
          · exact absurd hs (lt_irrefl _)
      exact compare_congr (hlt i j) (hlt j i)
  · rw [cmp_of_kind hk]
    rcases lt_or_gt_of_ne hk with hlt | hgt
    · rw [compare_lt_iff_lt.mpr hlt]
      rfl
    · rw [compare_gt_iff_gt.mpr hgt]
      rfl

/-- On a separate set, equal values are the same. -/
theorem eq_of_eq (h : Separate S) (ha : a ∈ S) (hb : b ∈ S) (heq : a.eq b = true) : a = b := by
  cases a <;> cases b <;> first | cases heq | skip
  case null.null => rfl
  case boolean.boolean => simpa using heq
  case integer.integer => simpa using heq
  case string.string => simpa using heq
  case integer.float i f =>
    have heq' : (F64.ofInt64 i).eq f = true := heq
    rw [h.integer_float i f ha hb] at heq'
    cases heq'
  case float.integer f i =>
    have heq' : f.eq (F64.ofInt64 i) = true := heq
    rw [F64.eq_symm, h.integer_float i f hb ha] at heq'
    cases heq'
  case float.float f g =>
    have hor : f.eq g = true ∨ f.isNan = true ∧ g.isNan = true := by simpa using heq
    rcases hor with hfg | ⟨hf, hg⟩
    · rcases F64.eq_or_zero hfg with rfl | ⟨hf, hg⟩
      · rfl
      · rw [h.zeros f g ha hb hf hg]
    · rw [h.nans f g ha hb hf hg]

/-- On a separate set, values in one place are the same. -/
theorem eq_of_place (h : Separate S) (ha : a ∈ S) (hb : b ∈ S) (hplace : a.place = b.place) :
    a = b := by
  obtain ⟨hk, hp⟩ := Prod.mk.inj (toLex_inj.mp hplace)
  cases a <;> cases b <;> simp [kind] at hk
  case null.null => rfl
  case boolean.boolean a b => cases a <;> cases b <;> simp [position] at hp ⊢
  case integer.integer i j =>
    simp only [position, toLex_inj, Prod.mk.injEq] at hp
    rw [Int64.toInt_inj.mp hp.2.1]
  case string.string => simpa [position] using hp
  case float.float f g =>
    simp only [position, toLex_inj, Prod.mk.injEq] at hp
    rw [F64.totalPosition_injective hp.1]
  case integer.float i f =>
    simp only [position, toLex_inj, Prod.mk.injEq] at hp
    exact absurd hp.1 (position_ne (h.integer_float i f ha hb))
  case float.integer f i =>
    simp only [position, toLex_inj, Prod.mk.injEq] at hp
    exact absurd hp.1.symm (position_ne (h.integer_float i f hb ha))

end Separate

theorem eq_refl (a : Value) : a.eq a = true := by
  cases a with
  | null => rfl
  | float f =>
      cases hf : f.isNan
      · simp [F64.eq, hf]
      · simp [hf]
  | _ => simp

/-- Comparisons are coherent on a set of values if and only if the set is separate. -/
theorem coherent_iff (S : Set Value) : Coherent S ↔ Separate S := by
  constructor
  · intro h
    have hfloat : ∀ f g, float f ∈ S → float g ∈ S → (float f).eq (float g) = true → f = g := by
      intro f g hf hg heq
      have hcmp : compare f.totalPosition g.totalPosition = .eq := (h.eq_iff _ hf _ hg).mp heq
      exact F64.totalPosition_injective (compare_eq_iff_eq.mp hcmp)
    refine ⟨fun i f hi hf => ?_, fun f g hf hg hf₀ hg₀ => hfloat f g hf hg ?_,
      fun f g hf hg hfn hgn => hfloat f g hf hg (by simp [hfn, hgn])⟩
    · by_contra heq
      have hhash := h.hash_eq _ hi _ hf (Bool.not_eq_false _ ▸ heq)
      simp [hash] at hhash
    · have hnan : ∀ f : F64, f.magnitude = 0 → f.isNan = false := fun f hf => by
        rw [F64.isNan, hf]
        rfl
      simp [F64.eq, F64.position, hnan f hf₀, hnan g hg₀, hf₀, hg₀]
  · intro h
    refine ⟨fun a _ => cmp_self a, fun a ha b hb => ?_, fun a ha b hb c hc hab hbc => ?_,
      fun a ha b hb => ⟨fun heq => ?_, fun hcmp => ?_⟩, fun a ha b hb heq => ?_⟩
    · rw [h.cmp_eq ha hb, h.cmp_eq hb ha]
      rcases lt_trichotomy a.place b.place with hlt | heq | hgt
      · rw [compare_lt_iff_lt.mpr hlt, compare_gt_iff_gt.mpr hlt]
        rfl
      · rw [compare_eq_iff_eq.mpr heq, compare_eq_iff_eq.mpr heq.symm]
        rfl
      · rw [compare_gt_iff_gt.mpr hgt, compare_lt_iff_lt.mpr hgt]
        rfl
    · rw [h.cmp_eq ha hb, ne_eq, compare_gt_iff_gt, not_lt] at hab
      rw [h.cmp_eq hb hc, ne_eq, compare_gt_iff_gt, not_lt] at hbc
      rw [h.cmp_eq ha hc, ne_eq, compare_gt_iff_gt, not_lt]
      exact hab.trans hbc
    · rw [h.eq_of_eq ha hb heq, cmp_self]
    · rw [h.cmp_eq ha hb, compare_eq_iff_eq] at hcmp
      rw [h.eq_of_place ha hb hcmp, eq_refl]
    · rw [h.eq_of_eq ha hb heq]

/-- Two integers that are rounded to one float, the two zeros, and an integer with its float
are not ordered, not compared and not hashed alike. -/
theorem not_coherent : ¬ Coherent Set.univ ∧
    ¬ Coherent {integer 9007199254740993, float ⟨0x4340000000000000⟩, integer 9007199254740992} ∧
      ¬ Coherent {float ⟨0⟩, float ⟨0x8000000000000000⟩} ∧
      ¬ Coherent {integer 1, float ⟨0x3ff0000000000000⟩} := by
  have hone : ∀ S, integer 1 ∈ S → float ⟨0x3ff0000000000000⟩ ∈ S → ¬ Coherent S := by
    intro S hi hf h
    have hhash := h.hash_eq _ hi _ hf (by decide +kernel)
    revert hhash
    decide +kernel
  refine ⟨hone _ (Set.mem_univ _) (Set.mem_univ _), fun h => ?_, fun h => ?_,
    hone _ (by simp) (by simp)⟩
  · refine h.trans (integer 9007199254740993) (by simp) (float ⟨0x4340000000000000⟩) (by simp)
      (integer 9007199254740992) (by simp) ?_ ?_ ?_ <;> decide +kernel
  · have hcmp := (h.eq_iff (float ⟨0⟩) (by simp) (float ⟨0x8000000000000000⟩) (by simp)).mp
      (by decide +kernel)
    revert hcmp
    decide +kernel

end Value
end ToyDB.Sql
