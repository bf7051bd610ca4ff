import Mathlib

/-!
# Ordered codes

Encodings of values as lists of symbols that can be written one after the other: what
follows a value is compared only if the values are equal. Such a code keeps the order and
no encoded value is a proper prefix of another. A decoder reads a value from the front of
a list and returns the rest.
-/
namespace ToyDB.Encoding

/-- The lexicographic comparison of lists. -/
abbrev cmpList {σ : Type} [Ord σ] : List σ → List σ → Ordering := List.compareLex compare

/-- Encoded values compare like the values, whatever follows them. -/
def OrderedCode {σ α : Type} [Ord σ] (encode : α → List σ) (cmp : α → α → Ordering)
    (Good : α → Prop) : Prop :=
  ∀ a b, Good a → Good b → ∀ x y,
    cmpList (encode a ++ x) (encode b ++ y) = (cmp a b).then (cmpList x y)

section Ordered
variable {σ α β : Type} [Ord σ] {encode : α → List σ} {cmp : α → α → Ordering}
  {Good : α → Prop} {a b : α}

@[simp] theorem cmpList_nil : cmpList ([] : List σ) [] = .eq := List.compareLex_nil_nil

@[simp] theorem cmpList_cons (s t : σ) (x y : List σ) :
    cmpList (s :: x) (t :: y) = (compare s t).then (cmpList x y) := List.compareLex_cons_cons

theorem OrderedCode.compare (h : OrderedCode encode cmp Good) (ha : Good a) (hb : Good b) :
    cmpList (encode a) (encode b) = cmp a b := by
  have := h a b ha hb [] []
  simpa only [List.append_nil, cmpList_nil, Ordering.then_eq] using this

/-- No encoded value is a proper prefix of another. -/
theorem OrderedCode.not_prefix [Std.ReflOrd σ] (h : OrderedCode encode cmp Good)
    (ha : Good a) (hb : Good b) {z : List σ} (hz : encode b = encode a ++ z) : z = [] := by
  have hab := h a b ha hb z []
  rw [List.append_nil, hz] at hab
  have hrefl : cmpList (encode a ++ z) (encode a ++ z) = .eq := Std.ReflCmp.compare_self
  rw [hrefl] at hab
  cases z with
  | nil => rfl
  | cons s z =>
      have hgt : cmpList (s :: z) ([] : List σ) = .gt := List.compareLex_cons_nil
      rw [hgt] at hab
      cases hc : cmp a b <;> rw [hc] at hab <;> cases hab

theorem OrderedCode.comap {f : β → α} (h : OrderedCode encode cmp Good) :
    OrderedCode (fun b => encode (f b)) (fun a b => cmp (f a) (f b)) fun b => Good (f b) :=
  fun a b ha hb => h (f a) (f b) ha hb

/-- One code after another compares the second values if the first ones are equal. -/
theorem OrderedCode.append {encode' : β → List σ} {cmp' : β → β → Ordering} {Good' : β → Prop}
    (h : OrderedCode encode cmp Good) (h' : OrderedCode encode' cmp' Good') :
    OrderedCode (fun p : α × β => encode p.1 ++ encode' p.2)
      (fun p q => (cmp p.1 q.1).then (cmp' p.2 q.2)) fun p => Good p.1 ∧ Good' p.2 := by
  intro p q hp hq x y
  rw [List.append_assoc, List.append_assoc, h p.1 q.1 hp.1 hq.1, h' p.2 q.2 hp.2 hq.2,
    Ordering.then_assoc]

/-- An enumeration is a variant followed by a content. -/
theorem OrderedCode.enum {tag : ℕ → List σ} {variant : α → ℕ} {content : α → List σ} {count : ℕ}
    (ht : OrderedCode tag Ord.compare fun i => i < count) (hv : ∀ a, variant a < count)
    (hne : ∀ a b, variant a ≠ variant b → cmp a b = Ord.compare (variant a) (variant b))
    (heq : ∀ a b, Good a → Good b → variant a = variant b → ∀ x y,
      cmpList (content a ++ x) (content b ++ y) = (cmp a b).then (cmpList x y)) :
    OrderedCode (fun a => tag (variant a) ++ content a) cmp Good := by
  intro a b ha hb x y
  rw [List.append_assoc, List.append_assoc, ht _ _ (hv a) (hv b)]
  by_cases h : variant a = variant b
  · rw [h, Nat.compare_eq_eq.mpr rfl, Ordering.eq_then, heq a b ha hb h]
  · rw [hne a b h]
    cases hc : Ord.compare (variant a) (variant b) with
    | eq => exact absurd (Nat.compare_eq_eq.mp hc) h
    | lt => rfl
    | gt => rfl

end Ordered

/-! ## Readers -/

/-- A program that reads a value from the front of a list. -/
abbrev Reader (σ ε α : Type) := StateT (List σ) (Except ε) α

section Reader
variable {σ ε α β : Type} {r : Reader σ ε α} {f : α → Reader σ ε β} {s t x y : List σ} {a : α} {b : β}

theorem run_bind_eq_ok : (r >>= f).run s = .ok (b, t) ↔
    ∃ a x, r.run s = .ok (a, x) ∧ (f a).run x = .ok (b, t) := by
  rw [StateT.run_bind]
  cases h : r.run s with
  | error e => exact ⟨fun h => (by cases h), fun ⟨_, _, h, _⟩ => (by cases h)⟩
  | ok p => exact ⟨fun h => ⟨p.1, p.2, rfl, h⟩, fun ⟨a, x, h, hf⟩ => (by cases h; exact hf)⟩

theorem run_bind_ok (h : r.run s = .ok (a, x)) : (r >>= f).run s = (f a).run x := by
  rw [StateT.run_bind, h]
  rfl

@[simp] theorem run_pure_ok : (pure a : Reader σ ε α).run s = .ok (a, s) := rfl

/-- The reader inverts the encoding on good values: it reads back what was written, and
what it reads was written so. -/
structure Decodes (encode : α → List σ) (r : Reader σ ε α) (Good : α → Prop) : Prop where
  roundTrip a (ha : Good a) x : r.run (encode a ++ x) = .ok (a, x)
  canonical {a : α} {s x : List σ} (h : r.run s = .ok (a, x)) (ha : Good a) : s = encode a ++ x

/-- A reader that never fails in the given way. -/
def Avoids (r : Reader σ ε α) (bad : ε → Prop) : Prop := ∀ s e, r.run s = .error e → ¬ bad e

theorem avoids_pure {bad : ε → Prop} : Avoids (pure a : Reader σ ε α) bad :=
  fun _ _ h => (by cases h)

theorem Avoids.bind {bad : ε → Prop} (hr : Avoids r bad) (hf : ∀ a, Avoids (f a) bad) :
    Avoids (r >>= f) bad := by
  intro s e h
  rw [StateT.run_bind] at h
  cases hs : r.run s with
  | error e' =>
      rw [hs] at h
      cases h
      exact hr s e hs
  | ok p =>
      rw [hs] at h
      exact hf p.1 p.2 e h

end Reader
end ToyDB.Encoding
