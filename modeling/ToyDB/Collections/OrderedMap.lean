import Mathlib.Algebra.GroupWithZero.Nat
import Mathlib.Order.Lattice
import Mathlib.Tactic.Common

/-!
# Finite maps as key-ordered lists

A map is a list of pairs with strictly increasing keys, so that two maps with the
same lookups are equal and a scan in key order is a filter of the list. All
operations are structural and can be evaluated.
-/
namespace ToyDB.Collections

structure OrderedMap (K V : Type) [LinearOrder K] where
  entries : List (K × V)
  sorted : entries.Pairwise fun a b => a.1 < b.1

namespace OrderedMap
variable {K V : Type} [LinearOrder K]

/-- Insertion into a key-ordered list, replacing the value of an equal key. -/
def insertList (k : K) (v : V) : List (K × V) → List (K × V)
  | [] => [(k, v)]
  | (k', v') :: l =>
      if k < k' then (k, v) :: (k', v') :: l
      else if k = k' then (k, v) :: l
      else (k', v') :: insertList k v l

theorem mem_insertList {k : K} {v : V} {l : List (K × V)} {p : K × V}
    (h : p ∈ insertList k v l) : p = (k, v) ∨ p ∈ l := by
  induction l with
  | nil => simpa [insertList] using h
  | cons q l ih =>
      rw [insertList] at h
      split_ifs at h <;> simp only [List.mem_cons] at h ⊢ <;> grind

theorem insertList_sorted {k : K} {v : V} {l : List (K × V)}
    (h : l.Pairwise fun a b => a.1 < b.1) :
    (insertList k v l).Pairwise fun a b => a.1 < b.1 := by
  induction l with
  | nil => simp [insertList]
  | cons q l ih =>
      obtain ⟨hq, hl⟩ := List.pairwise_cons.mp h
      rw [insertList]
      split_ifs with h₁ h₂
      · refine List.pairwise_cons.mpr ⟨fun p hp => ?_, h⟩
        rcases List.mem_cons.mp hp with rfl | hp
        · exact h₁
        · exact h₁.trans (hq p hp)
      · exact List.pairwise_cons.mpr ⟨fun p hp => h₂ ▸ hq p hp, hl⟩
      · refine List.pairwise_cons.mpr ⟨fun p hp => ?_, ih hl⟩
        rcases mem_insertList hp with rfl | hp
        · exact lt_of_le_of_ne (not_lt.mp h₁) (Ne.symm h₂)
        · exact hq p hp

def empty : OrderedMap K V := ⟨[], List.Pairwise.nil⟩

instance : Inhabited (OrderedMap K V) := ⟨empty⟩

def insert (m : OrderedMap K V) (k : K) (v : V) : OrderedMap K V :=
  ⟨insertList k v m.entries, insertList_sorted m.sorted⟩

def erase (m : OrderedMap K V) (k : K) : OrderedMap K V :=
  ⟨m.entries.filter fun p => p.1 ≠ k, m.sorted.filter _⟩

def get (m : OrderedMap K V) (k : K) : Option V :=
  (m.entries.find? fun p => p.1 = k).map Prod.snd

def keys (m : OrderedMap K V) : List K := m.entries.map Prod.fst

def values (m : OrderedMap K V) : List V := m.entries.map Prod.snd

/-- The entries whose keys satisfy the predicate, in key order. -/
def scan (m : OrderedMap K V) (p : K → Bool) : List (K × V) :=
  m.entries.filter fun e => p e.1

/-! ## Lookups -/

theorem get_eq_some_iff {m : OrderedMap K V} {k : K} {v : V} :
    m.get k = some v ↔ (k, v) ∈ m.entries := by
  constructor
  · intro h
    obtain ⟨p, hp, rfl⟩ := Option.map_eq_some_iff.mp h
    have hk : p.1 = k := by simpa using List.find?_some hp
    exact hk ▸ List.mem_of_find?_eq_some hp
  · intro h
    have hs := m.sorted
    rw [get]
    induction hm : m.entries generalizing m with
    | nil => simp [hm] at h
    | cons q l ih =>
        rw [hm] at h hs
        obtain ⟨hq, hl⟩ := List.pairwise_cons.mp hs
        rcases List.mem_cons.mp h with rfl | h
        · simp
        · have hne : q.1 ≠ k := (hq _ h).ne
          rw [List.find?_cons_of_neg (by simpa using hne)]
          exact ih (m := ⟨l, hl⟩) h hl rfl

theorem get_eq_none_iff {m : OrderedMap K V} {k : K} :
    m.get k = none ↔ ∀ v, (k, v) ∉ m.entries := by
  simp only [← get_eq_some_iff]
  exact Option.eq_none_iff_forall_ne_some

theorem mem_insertList_self (k : K) (v : V) (l : List (K × V)) : (k, v) ∈ insertList k v l := by
  induction l with
  | nil => simp [insertList]
  | cons q l ih =>
      rw [insertList]
      split_ifs <;> simp [ih]

theorem mem_insertList_of_ne {k : K} {v : V} {l : List (K × V)} {p : K × V} (hp : p ∈ l)
    (hne : p.1 ≠ k) : p ∈ insertList k v l := by
  induction l with
  | nil => simp at hp
  | cons q l ih =>
      rw [insertList]
      rcases List.mem_cons.mp hp with rfl | hp
      · split_ifs with h₁ h₂
        · simp
        · exact absurd h₂.symm hne
        · simp
      · split_ifs <;> simp [hp, ih hp]

@[simp] theorem get_empty (k : K) : (empty : OrderedMap K V).get k = none := rfl

@[simp] theorem get_insert_self (m : OrderedMap K V) (k : K) (v : V) :
    (m.insert k v).get k = some v :=
  get_eq_some_iff.mpr (mem_insertList_self k v m.entries)

theorem get_insert_of_ne (m : OrderedMap K V) {k k' : K} (v : V) (h : k' ≠ k) :
    (m.insert k v).get k' = m.get k' := by
  apply Option.ext
  intro w
  rw [get_eq_some_iff, get_eq_some_iff]
  constructor
  · intro hw
    rcases mem_insertList hw with he | hw
    · exact absurd (congrArg Prod.fst he) h
    · exact hw
  · exact fun hw => mem_insertList_of_ne hw h

theorem get_insert (m : OrderedMap K V) (k k' : K) (v : V) :
    (m.insert k v).get k' = if k' = k then some v else m.get k' := by
  split_ifs with h
  · rw [h, get_insert_self]
  · exact get_insert_of_ne m v h

theorem get_erase (m : OrderedMap K V) (k k' : K) :
    (m.erase k).get k' = if k' = k then none else m.get k' := by
  apply Option.ext
  intro w
  rw [get_eq_some_iff, erase]
  split_ifs with h
  · simp [h]
  · simp [h, get_eq_some_iff]

@[simp] theorem get_erase_self (m : OrderedMap K V) (k : K) : (m.erase k).get k = none := by
  simp [get_erase]

theorem get_erase_of_ne (m : OrderedMap K V) {k k' : K} (h : k' ≠ k) :
    (m.erase k).get k' = m.get k' := by
  simp [get_erase, h]

/-- Maps with the same lookups are equal. -/
theorem ext_get {m m' : OrderedMap K V} (h : ∀ k, m.get k = m'.get k) : m = m' := by
  have hmem : ∀ p, p ∈ m.entries ↔ p ∈ m'.entries := fun p => by
    rw [← get_eq_some_iff, ← get_eq_some_iff, h]
  have hperm : m.entries.Perm m'.entries :=
    (List.perm_ext_iff_of_nodup (m.sorted.imp fun h => ne_of_apply_ne _ h.ne)
      (m'.sorted.imp fun h => ne_of_apply_ne _ h.ne)).mpr hmem
  have heq : m.entries = m'.entries :=
    hperm.eq_of_pairwise (fun a b _ _ h₁ h₂ => absurd h₁ h₂.asymm) m.sorted m'.sorted
  cases m
  cases m'
  cases heq
  rfl

/-! ## Keys, values and scans -/

theorem mem_keys {m : OrderedMap K V} {k : K} : k ∈ m.keys ↔ (m.get k).isSome := by
  rw [keys, List.mem_map, Option.isSome_iff_exists]
  constructor
  · rintro ⟨p, hp, rfl⟩
    exact ⟨p.2, get_eq_some_iff.mpr hp⟩
  · rintro ⟨v, hv⟩
    exact ⟨(k, v), get_eq_some_iff.mp hv, rfl⟩

theorem mem_values_of_get {m : OrderedMap K V} {k : K} {v : V} (h : m.get k = some v) :
    v ∈ m.values :=
  List.mem_map.mpr ⟨(k, v), get_eq_some_iff.mp h, rfl⟩

theorem mem_values {m : OrderedMap K V} {v : V} (h : v ∈ m.values) : ∃ k, m.get k = some v := by
  obtain ⟨p, hp, rfl⟩ := List.mem_map.mp h
  exact ⟨p.1, get_eq_some_iff.mpr hp⟩

/-- Maps with the same keys list them in the same order. -/
theorem keys_eq {m : OrderedMap K V} {l : List K} (hl : l.Pairwise (· < ·))
    (h : ∀ k, (m.get k).isSome ↔ k ∈ l) : m.keys = l := by
  have hm : m.keys.Pairwise (· < ·) := List.pairwise_map.mpr m.sorted
  refine @List.Perm.eq_of_pairwise K (· < ·) _ _ (fun a b _ _ hab hba => ?_) hm hl ?_
  · exact absurd hba (lt_asymm hab)
  · refine (List.perm_ext_iff_of_nodup (hm.imp fun h => h.ne) (hl.imp fun h => h.ne)).mpr ?_
    exact fun k => mem_keys.trans (h k)

theorem keys_insert_of_mem {m : OrderedMap K V} {k : K} {v : V} (h : k ∈ m.keys) :
    (m.insert k v).keys = m.keys := by
  refine keys_eq (List.pairwise_map.mpr m.sorted) fun k' => ?_
  rw [get_insert]
  split_ifs with hk
  · exact iff_of_true rfl (hk ▸ h)
  · exact mem_keys.symm

theorem mem_scan {m : OrderedMap K V} {p : K → Bool} {k : K} {v : V} :
    (k, v) ∈ m.scan p ↔ m.get k = some v ∧ p k = true := by
  rw [scan, List.mem_filter, ← get_eq_some_iff]

theorem scan_sorted (m : OrderedMap K V) (p : K → Bool) :
    (m.scan p).Pairwise fun a b => a.1 < b.1 := m.sorted.filter _

/-- A scan is the key-ordered list of the matching entries. -/
theorem scan_eq {m : OrderedMap K V} {p : K → Bool} {l : List (K × V)}
    (hl : l.Pairwise fun a b => a.1 < b.1) (h : ∀ k v, (k, v) ∈ l ↔ m.get k = some v ∧ p k = true) :
    m.scan p = l := by
  have hnodup : ∀ {l : List (K × V)}, (l.Pairwise fun a b => a.1 < b.1) → l.Nodup :=
    fun hl => hl.imp fun h => ne_of_apply_ne _ h.ne
  have hperm : (m.scan p).Perm l :=
    (List.perm_ext_iff_of_nodup (hnodup (m.scan_sorted p)) (hnodup hl)).mpr
      fun e => mem_scan.trans (h e.1 e.2).symm
  exact hperm.eq_of_pairwise (fun a b _ _ h₁ h₂ => absurd h₁ h₂.asymm) (m.scan_sorted p) hl

/-- Maps whose lookups have the same images have the same images of entries. -/
theorem map_scan_eq {V' α : Type} {m : OrderedMap K V} {m' : OrderedMap K V'} {f : V → α}
    {g : V' → α} (h : ∀ k, (m.get k).map f = (m'.get k).map g) (p : K → Bool) :
    ((m.scan p).map fun e => (e.1, f e.2)) = (m'.scan p).map fun e => (e.1, g e.2) := by
  have hmem : ∀ {V : Type} {m : OrderedMap K V} {f : V → α} {k : K} {a : α},
      (k, a) ∈ ((m.scan p).map fun e => (e.1, f e.2)) ↔ (m.get k).map f = some a ∧ p k = true := by
    intro V m f k a
    rw [List.mem_map, Option.map_eq_some_iff]
    constructor
    · rintro ⟨e, he, hea⟩
      obtain ⟨rfl, rfl⟩ := Prod.mk.inj hea
      obtain ⟨hg, hp⟩ := mem_scan.mp he
      exact ⟨⟨e.2, hg, rfl⟩, hp⟩
    · rintro ⟨⟨v, hg, rfl⟩, hp⟩
      exact ⟨(k, v), mem_scan.mpr ⟨hg, hp⟩, rfl⟩
  have hsorted : ∀ {V : Type} (m : OrderedMap K V) (f : V → α),
      ((m.scan p).map fun e => (e.1, f e.2)).Pairwise fun a b => a.1 < b.1 :=
    fun m f => List.pairwise_map.mpr (m.scan_sorted p)
  have hnodup : ∀ {l : List (K × α)}, (l.Pairwise fun a b => a.1 < b.1) → l.Nodup :=
    fun hl => hl.imp fun h => ne_of_apply_ne _ h.ne
  have hperm := (List.perm_ext_iff_of_nodup (hnodup (hsorted m f)) (hnodup (hsorted m' g))).mpr
    fun e => by rw [hmem (k := e.1) (a := e.2), hmem (k := e.1) (a := e.2), h]
  exact hperm.eq_of_pairwise (fun a b _ _ h₁ h₂ => absurd h₁ h₂.asymm) (hsorted m f) (hsorted m' g)

theorem scan_true (m : OrderedMap K V) : m.scan (fun _ => true) = m.entries :=
  List.filter_eq_self.mpr fun _ _ => rfl

/-- The last entry of a scan is the one of the highest matching key. -/
theorem getLast_scan {m : OrderedMap K V} {p : K → Bool} {k : K} {v : V} :
    (m.scan p).getLast? = some (k, v) ↔
      (m.get k = some v ∧ p k = true) ∧ ∀ k', (m.get k').isSome → p k' = true → k' ≤ k := by
  have hmem : ∀ {e}, (m.scan p).getLast? = some e → m.get e.1 = some e.2 ∧ p e.1 = true :=
    fun h => mem_scan.mp (List.mem_of_getLast? h)
  have hmax : ∀ {e : K × V}, (m.scan p).getLast? = some e →
      ∀ k', (m.get k').isSome → p k' = true → k' ≤ e.1 := by
    intro e h k' hk hp
    obtain ⟨v', hv'⟩ := Option.isSome_iff_exists.mp hk
    obtain ⟨l, hl⟩ := List.getLast?_eq_some_iff.mp h
    have hin := mem_scan.mpr ⟨hv', hp⟩
    have hs := m.scan_sorted p
    rw [hl] at hin hs
    rcases List.mem_append.mp hin with hin | hin
    · exact ((List.pairwise_append.mp hs).2.2 _ hin e (by simp)).le
    · exact (congrArg Prod.fst (List.mem_singleton.mp hin)).le
  constructor
  · exact fun h => ⟨hmem h, hmax h⟩
  · rintro ⟨⟨hk, hp⟩, hle⟩
    cases hl : (m.scan p).getLast? with
    | none =>
        have := mem_scan.mpr ⟨hk, hp⟩
        simp [List.getLast?_eq_none_iff.mp hl] at this
    | some e =>
        have hkey : e.1 = k := le_antisymm (hle e.1 (by simp [(hmem hl).1]) (hmem hl).2)
          (hmax hl k (by simp [hk]) hp)
        have hval := (hmem hl).1
        rw [hkey, hk] at hval
        rw [← hkey, Option.some.inj hval]

theorem getLast_scan_none {m : OrderedMap K V} {p : K → Bool} :
    (m.scan p).getLast? = none ↔ ∀ k, p k = true → m.get k = none := by
  rw [List.getLast?_eq_none_iff, List.eq_nil_iff_forall_not_mem]
  constructor
  · intro h k hp
    exact Option.eq_none_iff_forall_ne_some.mpr fun v hv => h (k, v) (mem_scan.mpr ⟨hv, hp⟩)
  · intro h e he
    obtain ⟨hg, hp⟩ := mem_scan (v := e.2).mp he
    rw [h _ hp] at hg
    cases hg

/-- The last matching entry of a scan. -/
theorem find_reverse_scan (m : OrderedMap K V) (p q : K → Bool) :
    ((m.scan p).reverse.find? fun e => q e.1) = (m.scan fun k => p k && q k).getLast? := by
  rw [← List.head?_filter, List.filter_reverse, List.head?_reverse, scan, scan, List.filter_filter]
  simp only [Bool.and_comm]

theorem keys_nodup (m : OrderedMap K V) : m.keys.Nodup :=
  List.pairwise_map.mpr (m.sorted.imp fun h => h.ne)

/-- Replacing a value by one with the same image keeps the images of all values. -/
theorem map_values_insert {α : Type} {m : OrderedMap K V} {k : K} {v w : V} {f : V → α}
    (hk : m.get k = some v) (hf : f w = f v) : (m.insert k w).values.map f = m.values.map f := by
  have hlist : ∀ l : List (K × V), (l.Pairwise fun a b => a.1 < b.1) → (k, v) ∈ l →
      ((insertList k w l).map Prod.snd).map f = (l.map Prod.snd).map f := by
    intro l hl hmem
    induction l with
    | nil => cases hmem
    | cons p l ih =>
        obtain ⟨hp, hl⟩ := List.pairwise_cons.mp hl
        rcases List.mem_cons.mp hmem with rfl | hmem
        · simp [insertList, hf]
        · have hlt := hp _ hmem
          simp [insertList, hlt.not_gt, hlt.ne', ← ih hl hmem]
  exact hlist m.entries m.sorted (get_eq_some_iff.mp hk)

/-! ## Counting values -/

theorem countP_insert_le (m : OrderedMap K V) (k : K) (v : V) (p : V → Bool) :
    (m.insert k v).values.countP p ≤ m.values.countP p + (p v).toNat := by
  have hlist : ∀ l : List (K × V), ((insertList k v l).map Prod.snd).countP p ≤
      (l.map Prod.snd).countP p + (p v).toNat := by
    intro l
    induction l with
    | nil => cases h : p v <;> simp [insertList, h]
    | cons q l ih =>
        rw [insertList]
        split_ifs
        · cases h : p v <;> simp [List.countP_cons, h]
        · cases h : p v <;> simp [List.countP_cons, h]
        · simp only [List.map_cons, List.countP_cons]
          omega
  exact hlist m.entries

theorem countP_erase_le (m : OrderedMap K V) (k : K) (p : V → Bool) :
    (m.erase k).values.countP p ≤ m.values.countP p :=
  (List.Sublist.map _ List.filter_sublist).countP_le

theorem countP_erase_add_le {m : OrderedMap K V} {k : K} {v : V} (h : m.get k = some v)
    (p : V → Bool) : (m.erase k).values.countP p + (p v).toNat ≤ m.values.countP p := by
  have hmem : ∀ l : List (K × V), (k, v) ∈ l →
      ((l.filter fun e => e.1 ≠ k).map Prod.snd).countP p + (p v).toNat ≤
        (l.map Prod.snd).countP p := by
    intro l hl
    induction l with
    | nil => simp at hl
    | cons q l ih =>
        rcases List.mem_cons.mp hl with rfl | hl
        · have hle : ((l.filter fun e => e.1 ≠ k).map Prod.snd).countP p ≤
              (l.map Prod.snd).countP p := (List.Sublist.map _ List.filter_sublist).countP_le
          rw [List.filter_cons_of_neg (by simp), List.map_cons, List.countP_cons]
          cases hp : p v <;> simp only [Bool.toNat_true, Bool.toNat_false, if_true] <;> omega
        · have := ih hl
          by_cases hq : q.1 = k
          · rw [List.filter_cons_of_neg (by simpa using hq), List.map_cons, List.countP_cons]
            omega
          · rw [List.filter_cons_of_pos (by simpa using hq), List.map_cons, List.countP_cons,
              List.map_cons, List.countP_cons]
            omega
  exact hmem m.entries (get_eq_some_iff.mp h)

/-! ## Totals -/

/-- The sum of a measure over the entries. -/
def total (m : OrderedMap K V) (f : K → V → ℕ) : ℕ := (m.entries.map fun e => f e.1 e.2).sum

@[simp] theorem total_empty (f : K → V → ℕ) : (empty : OrderedMap K V).total f = 0 := rfl

theorem total_insert_le (m : OrderedMap K V) (k : K) (v : V) (f : K → V → ℕ) :
    (m.insert k v).total f ≤ m.total f + f k v := by
  have hlist : ∀ l : List (K × V), ((insertList k v l).map fun e => f e.1 e.2).sum ≤
      (l.map fun e => f e.1 e.2).sum + f k v := by
    intro l
    induction l with
    | nil => simp [insertList]
    | cons q l ih =>
        rw [insertList]
        split_ifs
        · simp only [List.map_cons, List.sum_cons]
          omega
        · simp only [List.map_cons, List.sum_cons]
          omega
        · simp only [List.map_cons, List.sum_cons]
          omega
  exact hlist m.entries

theorem total_insert_of_get_none {m : OrderedMap K V} {k : K} (h : m.get k = none) (v : V)
    (f : K → V → ℕ) : (m.insert k v).total f = m.total f + f k v := by
  have hlist : ∀ l : List (K × V), (∀ e ∈ l, e.1 ≠ k) →
      ((insertList k v l).map fun e => f e.1 e.2).sum =
        (l.map fun e => f e.1 e.2).sum + f k v := by
    intro l hl
    induction l with
    | nil => simp [insertList]
    | cons q l ih =>
        obtain ⟨hq, hl⟩ := List.forall_mem_cons.mp hl
        rw [insertList, if_neg (Ne.symm hq)]
        split_ifs
        · simp only [List.map_cons, List.sum_cons]
          omega
        · simp only [List.map_cons, List.sum_cons, ih hl]
          omega
  refine hlist m.entries fun e he hk => ?_
  have hget : m.get k = some e.2 := get_eq_some_iff.mpr (hk ▸ he)
  rw [h] at hget
  cases hget

theorem total_erase_le (m : OrderedMap K V) (k : K) (f : K → V → ℕ) :
    (m.erase k).total f ≤ m.total f := by
  have hlist : ∀ l : List (K × V), ((l.filter fun e => e.1 ≠ k).map fun e => f e.1 e.2).sum ≤
      (l.map fun e => f e.1 e.2).sum := by
    intro l
    induction l with
    | nil => exact Nat.le_refl 0
    | cons q l ih =>
        by_cases hq : q.1 = k
        · rw [List.filter_cons_of_neg (by simpa using hq), List.map_cons, List.sum_cons]
          omega
        · rw [List.filter_cons_of_pos (by simpa using hq), List.map_cons, List.map_cons,
            List.sum_cons, List.sum_cons]
          omega
  exact hlist m.entries

end OrderedMap
end ToyDB.Collections
