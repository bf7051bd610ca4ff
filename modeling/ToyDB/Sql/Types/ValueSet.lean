import ToyDB.Sql.Types.Value

/-!
# Ordered sets of values

Sets as the lists of their members in the code's order. An integer and a float can be
equal in that order, so a set of both kinds keeps only one of them.
-/
namespace ToyDB.Sql

abbrev ValueSet := List Value

namespace ValueSet

def insert (value : Value) : ValueSet → ValueSet
  | [] => [value]
  | v :: set =>
      match value.cmp v with
      | .lt => value :: v :: set
      | .eq => v :: set
      | .gt => v :: insert value set

def remove (value : Value) : ValueSet → ValueSet
  | [] => []
  | v :: set =>
      match value.cmp v with
      | .lt => v :: set
      | .eq => set
      | .gt => v :: remove value set

def ofList (values : List Value) : ValueSet := values.foldl (fun set value => insert value set) []

/-- The set that the store gives back for this one. -/
def stored (set : ValueSet) : ValueSet := ofList (set.map Value.stored)

end ValueSet

/-! ## Sets of values of one type -/

theorem compare_congr {α β : Type} [LinearOrder α] [LinearOrder β] {a a' : α} {b b' : β}
    (hlt : a < a' ↔ b < b') (hgt : a' < a ↔ b' < b) : compare a a' = compare b b' := by
  rcases lt_trichotomy a a' with h | rfl | h
  · rw [compare_lt_iff_lt.mpr h, compare_lt_iff_lt.mpr (hlt.mp h)]
  · have hb : b = b' := le_antisymm (not_lt.mp fun h => lt_irrefl _ (hgt.mpr h))
      (not_lt.mp fun h => lt_irrefl _ (hlt.mpr h))
    rw [compare_eq_iff_eq.mpr rfl, compare_eq_iff_eq.mpr hb]
  · rw [compare_gt_iff_gt.mpr h, compare_gt_iff_gt.mpr (hgt.mp h)]

theorem Value.cmp_eq_compare {v w : Value} (h : v.datatype = w.datatype) :
    v.cmp w = compare v w := by
  have hrank : compare v w = compare v.rank w.rank := rfl
  rw [hrank]
  cases v <;> cases w <;> simp only [datatype, reduceCtorEq, Option.some.injEq] at h
  case null.null => rfl
  case boolean.boolean a b => cases a <;> cases b <;> rfl
  case integer.integer a b =>
    rw [cmp_integer]
    apply compare_congr <;> simp [rank, Prod.Lex.toLex_lt_toLex]
  case float.float a b =>
    rw [cmp_float]
    apply compare_congr <;> simp [rank, Prod.Lex.toLex_lt_toLex]
  case string.string a b =>
    rw [cmp_string]
    apply compare_congr <;> simp [rank, Prod.Lex.toLex_lt_toLex]

namespace ValueSet
variable {set : ValueSet} {values : List Value} {v x : Value} {t : Option DataType}

/-- Members of one type, in order. -/
structure Uniform (t : Option DataType) (set : ValueSet) : Prop where
  datatype {v : Value} : v ∈ set → v.datatype = t
  sorted : set.Pairwise (· < ·)

theorem uniform_nil : Uniform t [] := ⟨fun h => absurd h List.not_mem_nil, .nil⟩

theorem Uniform.tail (h : Uniform t (x :: set)) : Uniform t set :=
  ⟨fun hv => h.datatype (List.mem_cons_of_mem _ hv), (List.pairwise_cons.mp h.sorted).2⟩

theorem mem_insert (hv : v.datatype = t) (hset : Uniform t set) :
    x ∈ insert v set ↔ x = v ∨ x ∈ set := by
  induction set with
  | nil => simp [insert]
  | cons w set ih =>
      have hw : v.datatype = w.datatype := hv.trans (hset.datatype List.mem_cons_self).symm
      rw [insert]
      cases hcmp : v.cmp w with
      | lt => exact List.mem_cons
      | eq =>
          have heq : v = w := Value.eq_of_cmp hcmp hw
          simp [heq]
      | gt =>
          dsimp only
          rw [List.mem_cons, ih hset.tail, List.mem_cons]
          exact or_left_comm

theorem insert_ne_nil : insert v set ≠ [] := by
  cases set with
  | nil => simp [insert]
  | cons w set =>
      rw [insert]
      cases v.cmp w <;> simp

theorem Uniform.insert (hv : v.datatype = t) (hset : Uniform t set) :
    Uniform t (insert v set) := by
  constructor
  · intro u hu
    obtain rfl | hu := (mem_insert hv hset).mp hu
    · exact hv
    · exact hset.datatype hu
  · induction set with
    | nil => simp [ValueSet.insert]
    | cons w set ih =>
        have hw : v.datatype = w.datatype := hv.trans (hset.datatype List.mem_cons_self).symm
        obtain ⟨hlt, -⟩ := List.pairwise_cons.mp hset.sorted
        rw [ValueSet.insert]
        cases hcmp : v.cmp w with
        | lt =>
            rw [Value.cmp_eq_compare hw, compare_lt_iff_lt] at hcmp
            refine List.pairwise_cons.mpr ⟨?_, hset.sorted⟩
            intro u hu
            obtain rfl | hu := List.mem_cons.mp hu
            · exact hcmp
            · exact hcmp.trans (hlt u hu)
        | eq => exact hset.sorted
        | gt =>
            rw [Value.cmp_eq_compare hw, compare_gt_iff_gt] at hcmp
            refine List.pairwise_cons.mpr ⟨?_, ih hset.tail⟩
            intro u hu
            obtain rfl | hu := (mem_insert hv hset.tail).mp hu
            · exact hcmp
            · exact hlt u hu

/-- A set of values of one type has these members. -/
theorem ofList_spec (h : ∀ v ∈ values, v.datatype = t) :
    (∀ x, x ∈ ofList values ↔ x ∈ values) ∧ Uniform t (ofList values) := by
  have hfold : ∀ (values : List Value) (set : ValueSet), (∀ v ∈ values, v.datatype = t) →
      Uniform t set →
      (∀ x, x ∈ values.foldl (fun set v => insert v set) set ↔ x ∈ values ∨ x ∈ set) ∧
        Uniform t (values.foldl (fun set v => insert v set) set) := by
    intro values
    induction values with
    | nil => exact fun set _ hset => ⟨fun x => by simp, hset⟩
    | cons v values ih =>
        intro set hvalues hset
        have hv := hvalues v List.mem_cons_self
        obtain ⟨hmem, hresult⟩ := ih (insert v set)
          (fun u hu => hvalues u (List.mem_cons_of_mem _ hu)) (hset.insert hv)
        refine ⟨?_, hresult⟩
        intro x
        rw [List.foldl_cons, hmem, mem_insert hv hset, List.mem_cons]
        tauto
  obtain ⟨hmem, hresult⟩ := hfold values [] h uniform_nil
  exact ⟨fun x => (hmem x).trans (by simp), hresult⟩

/-- A set that is stored has the stored members. -/
theorem stored_spec (h : ∀ v ∈ set, v.datatype = t) :
    (∀ x, x ∈ set.stored ↔ ∃ v ∈ set, v.stored = x) ∧ Uniform t set.stored := by
  have hstored : ∀ v ∈ set.map Value.stored, v.datatype = t := by
    intro v hv
    obtain ⟨u, hu, rfl⟩ := List.mem_map.mp hv
    rw [Value.datatype_stored]
    exact h u hu
  obtain ⟨hmem, huniform⟩ := ofList_spec hstored
  refine ⟨?_, huniform⟩
  intro x
  exact (hmem x).trans List.mem_map

theorem remove_sublist : (remove v set).Sublist set := by
  induction set with
  | nil => exact .slnil
  | cons w set ih =>
      rw [remove]
      cases v.cmp w with
      | lt => exact List.Sublist.refl _
      | eq => exact List.sublist_cons_self w set
      | gt => exact ih.cons_cons w

theorem Uniform.remove (hset : Uniform t set) : Uniform t (remove v set) :=
  ⟨fun hu => hset.datatype (remove_sublist.subset hu), hset.sorted.sublist remove_sublist⟩

theorem mem_remove (hset : Uniform t set) (hv : v.datatype = t) :
    x ∈ remove v set ↔ x ∈ set ∧ x ≠ v := by
  induction set with
  | nil => simp [ValueSet.remove]
  | cons w set ih =>
      have hw : v.datatype = w.datatype := hv.trans (hset.datatype List.mem_cons_self).symm
      obtain ⟨hlt, -⟩ := List.pairwise_cons.mp hset.sorted
      rw [ValueSet.remove]
      cases hcmp : v.cmp w with
      | lt =>
          rw [Value.cmp_eq_compare hw, compare_lt_iff_lt] at hcmp
          refine (and_iff_left_of_imp ?_).symm
          rintro hx rfl
          obtain rfl | hx := List.mem_cons.mp hx
          · exact lt_irrefl _ hcmp
          · exact lt_irrefl _ (hcmp.trans (hlt _ hx))
      | eq =>
          obtain rfl := Value.eq_of_cmp hcmp hw
          rw [List.mem_cons]
          constructor
          · exact fun hx => ⟨Or.inr hx, (hlt x hx).ne'⟩
          · exact fun ⟨hx, hne⟩ => hx.resolve_left hne
      | gt =>
          rw [Value.cmp_eq_compare hw, compare_gt_iff_gt] at hcmp
          dsimp only
          rw [List.mem_cons, ih hset.tail, List.mem_cons]
          constructor
          · rintro (rfl | ⟨hx, hne⟩)
            · exact ⟨Or.inl rfl, hcmp.ne⟩
            · exact ⟨Or.inr hx, hne⟩
          · rintro ⟨rfl | hx, hne⟩
            · exact Or.inl rfl
            · exact Or.inr ⟨hx, hne⟩

end ValueSet
end ToyDB.Sql
