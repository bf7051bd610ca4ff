import Mathlib.Data.Finset.Card
import Mathlib.Data.List.Sort
import Mathlib.Tactic.Common

/-!
# Values that a quorum reaches

The `q`-th largest of a list of values is reached by at least `q` of them. When
the values belong to distinct nodes, `q` nodes reach it.
-/
namespace ToyDB.Consensus

/-- At least `q` values reach the `q`-th largest. -/
theorem le_countP_of_sorted {l : List ℕ} {q v : ℕ}
    (hv : (l.insertionSort (· ≥ ·))[q]? = some v) : q + 1 ≤ l.countP (v ≤ ·) := by
  have hq := (List.getElem?_eq_some_iff.mp hv).1
  have hall : ∀ x ∈ (l.insertionSort (· ≥ ·)).take (q + 1), v ≤ x := by
    intro x hx
    obtain ⟨j, hj, rfl⟩ := List.mem_iff_getElem.mp hx
    obtain ⟨_, rfl⟩ := List.getElem?_eq_some_iff.mp hv
    rw [List.length_take] at hj
    rw [List.getElem_take]
    rcases Nat.lt_or_ge j q with hjq | hjq
    · exact List.pairwise_iff_getElem.mp (List.pairwise_insertionSort (· ≥ ·) l) j q _ _ hjq
    · obtain rfl : j = q := by omega
      exact le_rfl
  have hcount : ((l.insertionSort (· ≥ ·)).take (q + 1)).countP (v ≤ ·) = q + 1 := by
    rw [List.countP_eq_length.mpr (by simpa using hall), List.length_take]
    omega
  calc q + 1 = ((l.insertionSort (· ≥ ·)).take (q + 1)).countP (v ≤ ·) := hcount.symm
    _ ≤ (l.insertionSort (· ≥ ·)).countP (v ≤ ·) := (List.take_sublist _ _).countP_le
    _ = l.countP (v ≤ ·) := (List.perm_insertionSort _ l).countP_eq _

/-- At most `q` values exceed the `q`-th largest, counted from zero. -/
theorem countP_le_of_sorted {l : List ℕ} {q v k : ℕ}
    (hv : (l.insertionSort (· ≥ ·))[q]? = some v) (hk : v < k) : l.countP (k ≤ ·) ≤ q := by
  have hdrop : ((l.insertionSort (· ≥ ·)).drop q).countP (k ≤ ·) = 0 := by
    rw [List.countP_eq_zero]
    intro x hx
    obtain ⟨j, hj, rfl⟩ := List.mem_iff_getElem.mp hx
    obtain ⟨hq, rfl⟩ := List.getElem?_eq_some_iff.mp hv
    rw [List.getElem_drop] at *
    rcases Nat.eq_zero_or_pos j with rfl | hj'
    · simpa using hk
    · have hle : _ ≥ _ := List.pairwise_iff_getElem.mp
        (List.pairwise_insertionSort (· ≥ ·) l) q (q + j) hq
        (by rw [List.length_drop] at hj; omega) (by omega)
      simp only [decide_eq_true_eq, not_le]
      omega
  calc l.countP (k ≤ ·) = (l.insertionSort (· ≥ ·)).countP (k ≤ ·) :=
        ((List.perm_insertionSort _ l).countP_eq _).symm
    _ = ((l.insertionSort (· ≥ ·)).take q).countP (k ≤ ·) := by
        rw [← List.take_append_drop q (l.insertionSort (· ≥ ·)), List.countP_append, hdrop,
          List.take_append_drop, Nat.add_zero]
    _ ≤ q := List.countP_le_length.trans (List.length_take_le _ _)

/-- The nodes whose values reach `v`. -/
theorem exists_reaching {N : Type} [DecidableEq N] {l : List (N × ℕ)}
    (hl : (l.map Prod.fst).Nodup) {q v : ℕ} (hq : q ≤ (l.map Prod.snd).countP (v ≤ ·)) :
    ∃ Q : Finset N, q ≤ Q.card ∧ ∀ n ∈ Q, ∃ x, (n, x) ∈ l ∧ v ≤ x := by
  refine ⟨((l.filter fun p => v ≤ p.2).map Prod.fst).toFinset, ?_, ?_⟩
  · have hsub : ((l.filter fun p => v ≤ p.2).map Prod.fst).Nodup :=
      hl.sublist ((List.filter_sublist).map _)
    rw [List.toFinset_card_of_nodup hsub, List.length_map, ← List.countP_eq_length_filter]
    rwa [List.countP_map] at hq
  · intro n hn
    simp only [List.mem_toFinset, List.mem_map, List.mem_filter, decide_eq_true_eq] at hn
    obtain ⟨⟨m, x⟩, ⟨hp, hx⟩, rfl⟩ := hn
    exact ⟨x, hp, hx⟩

end ToyDB.Consensus
