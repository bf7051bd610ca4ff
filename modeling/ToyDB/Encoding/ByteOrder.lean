import ToyDB.Encoding.Keycode
import ToyDB.Storage.BitCask

/-!
# The order of bytes

Byte strings are ordered as the codes compare them, and strings like their UTF-8 encodings:
a longer encoding starts with a higher byte, and encodings of one length are compared digit
by digit.
-/
namespace ToyDB.Encoding
open ToyDB.Keycode ToyDB.Storage

/-- Byte strings compare as they are ordered. -/
theorem cmpList_eq_lt {x y : Bytes} : cmpList x y = .lt ↔ x < y := by
  induction x generalizing y with
  | nil =>
      cases y with
      | nil => simp
      | cons c y => simp [cmpList, List.compareLex_nil_cons]
  | cons b x ih =>
      cases y with
      | nil => simp [cmpList, List.compareLex_cons_nil]
      | cons c y =>
          rw [cmpList_cons, Ordering.then_eq_lt, ih, List.cons_lt_cons_iff]
          exact or_congr compare_lt_iff_lt (and_congr_left fun _ => compare_eq_iff_eq)

/-! ## Strings -/

section
variable {a b v w : ℕ} {x y : Bytes}

theorem ofNat_lt (ha : a < 256) (hb : b < 256) : UInt8.ofNat a < UInt8.ofNat b ↔ a < b := by
  rw [UInt8.lt_iff_toNat_lt, UInt8.toNat_ofNat', UInt8.toNat_ofNat', Nat.mod_eq_of_lt ha,
    Nat.mod_eq_of_lt hb]

theorem ofNat_eq (ha : a < 256) (hb : b < 256) : UInt8.ofNat a = UInt8.ofNat b ↔ a = b := by
  rw [← UInt8.toNat_inj, UInt8.toNat_ofNat', UInt8.toNat_ofNat', Nat.mod_eq_of_lt ha,
    Nat.mod_eq_of_lt hb]

/-- Numbers are ordered by all digits but the last, and then by the last. -/
theorem lt_or_digit {p : Prop} :
    v / 64 < w / 64 ∨ v / 64 = w / 64 ∧ (v % 64 < w % 64 ∨ v % 64 = w % 64 ∧ p) ↔
      v < w ∨ v = w ∧ p := by
  by_cases hp : p <;> simp only [hp, and_true, and_false, or_false] <;> omega

/-- Encoded characters are ordered like the characters, whatever follows them. -/
theorem utf8EncodeChar_lt {c d : Char} :
    String.utf8EncodeChar c ++ x < String.utf8EncodeChar d ++ y ↔ c < d ∨ c = d ∧ x < y := by
  have hlt : c < d ↔ c.val.toNat < d.val.toNat := Iff.rfl
  have heq : c = d ↔ c.val.toNat = d.val.toNat := by rw [UInt32.toNat_inj, Char.ext_iff]
  have hc : c.val.toNat < 0x110000 := c.valid.elim (fun h => h.trans (by decide)) And.right
  have hd : d.val.toNat < 0x110000 := d.valid.elim (fun h => h.trans (by decide)) And.right
  have hdiv : ∀ n : ℕ, n / 4096 = n / 64 / 64 ∧ n / 262144 = n / 64 / 64 / 64 := fun n => by omega
  rw [hlt, heq]
  simp only [String.utf8EncodeChar]
  generalize c.val.toNat = v at *
  generalize d.val.toNat = w at *
  split_ifs <;> simp (disch := omega) only [List.cons_append, List.nil_append,
    List.cons_lt_cons_iff, ofNat_lt, ofNat_eq]
  -- encodings of different lengths differ in the first byte
  all_goals first
    | omega
    | simp (disch := omega) only [Nat.mod_eq_of_lt, Nat.add_lt_add_iff_right,
        Nat.add_right_cancel_iff, hdiv, lt_or_digit]

theorem flatMap_utf8EncodeChar_lt {l m : List Char} :
    l.flatMap String.utf8EncodeChar < m.flatMap String.utf8EncodeChar ↔ l < m := by
  have hnil : ∀ (c : Char) (x : Bytes), [] < String.utf8EncodeChar c ++ x := fun c x => by
    obtain ⟨b, bytes, hb⟩ := List.exists_cons_of_ne_nil (String.utf8EncodeChar_ne_nil (c := c))
    rw [hb]
    exact List.nil_lt_cons _ _
  induction l generalizing m with
  | nil =>
      cases m with
      | nil => simp
      | cons d m => simp [hnil]
  | cons c l ih =>
      cases m with
      | nil => simp
      | cons d m =>
          rw [List.flatMap_cons, List.flatMap_cons, utf8EncodeChar_lt, List.cons_lt_cons_iff]
          exact or_congr_right (and_congr_right fun _ => ih)

theorem asBytes_eq (s : String) : asBytes s = s.toList.flatMap String.utf8EncodeChar := by
  rw [asBytes, ← String.utf8Encode_toList, List.utf8Encode, List.toList_data_toByteArray]

/-- Strings are ordered like their bytes. -/
theorem asBytes_lt {s t : String} : asBytes s < asBytes t ↔ s < t := by
  rw [asBytes_eq, asBytes_eq, flatMap_utf8EncodeChar_lt, String.lt_iff_toList_lt]

end
end ToyDB.Encoding
