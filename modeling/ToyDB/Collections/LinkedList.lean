import Mathlib.Data.List.Nodup
import Mathlib.Tactic.Common

/-!
# Doubly linked lists with keys as pointers

The pointers are functions from keys to keys. They link a list if each of its keys points
to its neighbours in both directions, and head and tail are its ends.
-/
namespace ToyDB.Collections
variable {K : Type}

/-- Following the pointers from a start visits the keys in order, and then ends. -/
inductive Visits (step : K → Option K) : Option K → List K → Prop where
  | done : Visits step none []
  | visit {k : K} {l : List K} : Visits step (step k) l → Visits step (some k) (k :: l)

structure Linked (next prev : K → Option K) (head tail : Option K) (l : List K) : Prop where
  nodup : l.Nodup
  head_eq : head = l.head?
  tail_eq : tail = l.getLast?
  links (before : List K) (a : K) (behind : List K) (h : l = before ++ a :: behind) :
    prev a = before.getLast? ∧ next a = behind.head?

namespace Linked
variable {next prev next' prev' : K → Option K} {head tail head' tail' : Option K}
  {l before behind : List K} {key : K}

theorem nil : Linked next prev none none [] where
  nodup := List.nodup_nil
  head_eq := rfl
  tail_eq := rfl
  links before a behind h := by simp at h

/-- Only the pointers of the listed keys matter. -/
theorem congr (h : Linked next prev head tail l) (hnext : ∀ a ∈ l, next' a = next a)
    (hprev : ∀ a ∈ l, prev' a = prev a) : Linked next' prev' head tail l where
  nodup := h.nodup
  head_eq := h.head_eq
  tail_eq := h.tail_eq
  links before a behind hl := by
    have ha : a ∈ l := by simp [hl]
    rw [hnext a ha, hprev a ha]
    exact h.links before a behind hl

theorem reverse (h : Linked next prev head tail l) : Linked prev next tail head l.reverse where
  nodup := List.nodup_reverse.mpr h.nodup
  head_eq := by rw [List.head?_reverse, h.tail_eq]
  tail_eq := by rw [List.getLast?_reverse, h.head_eq]
  links before a behind hl := by
    have hl' : l = behind.reverse ++ a :: before.reverse := by
      rw [← List.reverse_reverse l, hl]
      simp
    obtain ⟨hprev, hnext⟩ := h.links _ a _ hl'
    rw [hprev, hnext]
    simp

theorem visits_next (h : Linked next prev head tail l) : Visits next head l := by
  have hsuffix : ∀ before behind, l = before ++ behind → Visits next behind.head? behind := by
    intro before behind hl
    induction behind generalizing before with
    | nil => exact .done
    | cons a behind ih =>
        have hbehind := ih (before ++ [a]) (by simpa using hl)
        rw [← (h.links before a behind hl).2] at hbehind
        exact .visit hbehind
  rw [h.head_eq]
  exact hsuffix [] l rfl

theorem visits_prev (h : Linked next prev head tail l) : Visits prev tail l.reverse :=
  h.reverse.visits_next

section Detach
variable [DecidableEq K]

/-- The pointers of a key before the detached one. -/
theorem links_before (h : Linked next prev head tail (before ++ key :: behind))
    {before' mid : List K} {a : K} (ha : before = before' ++ a :: mid) :
    prev a = before'.getLast? ∧
      (if before.getLast? = some a then behind.head? else next a) = (mid ++ behind).head? ∧
      behind.head? ≠ some a ∧ a ≠ key := by
  obtain ⟨hprev, hnext⟩ := h.links before' a (mid ++ key :: behind) (by rw [ha]; simp)
  have hnodup := h.nodup
  rw [ha] at hnodup ⊢
  refine ⟨hprev, ?_, fun hhead => ?_, fun heq => ?_⟩
  · cases mid with
    | nil => simp
    | cons b mid =>
        have hlast : (before' ++ a :: b :: mid).getLast? ≠ some a := by
          intro hlast
          have hmem : a ∈ b :: mid := List.mem_of_getLast? (by simpa using hlast)
          simp only [List.append_assoc, List.cons_append, List.nodup_append, List.nodup_cons,
            List.mem_cons, List.mem_append] at hnodup hmem
          tauto
        rw [if_neg hlast, hnext]
        rfl
  · have hmem := List.mem_of_mem_head? hhead
    simp only [List.append_assoc, List.cons_append, List.nodup_append, List.nodup_cons,
      List.mem_append, List.mem_cons] at hnodup
    tauto
  · subst heq
    simp only [List.append_assoc, List.cons_append, List.nodup_append, List.nodup_cons,
      List.mem_append, List.mem_cons] at hnodup
    tauto

/-- A key is taken out of the list by linking its neighbours. -/
theorem detach (h : Linked next prev head tail (before ++ key :: behind))
    (hnext : ∀ a, a ≠ key → next' a = if before.getLast? = some a then behind.head? else next a)
    (hprev : ∀ a, a ≠ key → prev' a = if behind.head? = some a then before.getLast? else prev a)
    (hhead : head' = if before = [] then behind.head? else head)
    (htail : tail' = if behind = [] then before.getLast? else tail) :
    Linked next' prev' head' tail' (before ++ behind) where
  nodup := h.nodup.sublist ((List.Sublist.refl before).append (List.sublist_cons_self key behind))
  head_eq := by
    rw [hhead, h.head_eq]
    cases before <;> simp
  tail_eq := by
    rw [htail, h.tail_eq]
    cases behind <;> simp
  links before' a behind' hl := by
    have hbehind : ∀ mid, before' = before ++ mid → behind = mid ++ a :: behind' →
        prev' a = before'.getLast? ∧ next' a = behind'.head? := by
      intro mid hbefore' hmid
      -- the other direction
      have hrev := h.reverse
      rw [List.reverse_append, List.reverse_cons, List.append_assoc, List.singleton_append] at hrev
      obtain ⟨hn, hp, hhead, hne⟩ := hrev.links_before
        (show behind.reverse = behind'.reverse ++ a :: mid.reverse by rw [hmid]; simp)
      rw [List.getLast?_reverse, List.head?_reverse, ← List.reverse_append, List.head?_reverse] at hp
      rw [List.head?_reverse] at hhead
      rw [List.getLast?_reverse] at hn
      rw [hprev a hne, hp, hnext a hne, if_neg hhead, hn, hbefore']
      exact ⟨rfl, rfl⟩
    obtain ⟨mid, hbefore', hmid⟩ | ⟨mid, hbefore, hmid⟩ := List.append_eq_append_iff.mp hl
    · exact hbehind mid hbefore' hmid
    · cases mid with
      | nil => exact hbehind [] (by simpa using hbefore.symm) (by simpa using hmid.symm)
      | cons b mid =>
          obtain ⟨rfl, rfl⟩ := List.cons.inj hmid
          obtain ⟨hp, hn, hhead, hne⟩ := h.links_before hbefore
          rw [hprev a hne, if_neg hhead, hp, hnext a hne, hn]
          exact ⟨rfl, rfl⟩

/-- A key is put in front of the list. -/
theorem attach (h : Linked next prev head tail l) (hkey : key ∉ l)
    (hnext : ∀ a, next' a = if a = key then head else next a)
    (hprev : ∀ a, prev' a = if a = key then none else if head = some a then some key else prev a)
    (hhead : head' = some key) (htail : tail' = if head = none then some key else tail) :
    Linked next' prev' head' tail' (key :: l) where
  nodup := List.nodup_cons.mpr ⟨hkey, h.nodup⟩
  head_eq := hhead
  tail_eq := by
    rw [htail, h.head_eq, h.tail_eq]
    cases l <;> simp
  links before a behind hl := by
    cases before with
    | nil =>
        obtain ⟨rfl, rfl⟩ := List.cons.inj hl
        rw [hprev, hnext, if_pos rfl, if_pos rfl, h.head_eq]
        exact ⟨rfl, rfl⟩
    | cons b before =>
        obtain ⟨rfl, rfl⟩ := List.cons.inj hl
        obtain ⟨hp, hn⟩ := h.links before a behind rfl
        have hne : a ≠ key := fun heq => hkey (heq ▸ by simp)
        rw [hprev, hnext, if_neg hne, if_neg hne, hn, hp, h.head_eq]
        refine ⟨?_, rfl⟩
        cases before with
        | nil => simp
        | cons c before =>
            have hnodup := h.nodup
            have hca : c ≠ a := by
              rintro rfl
              simp at hnodup
            simp [hca]

end Detach
end Linked
end ToyDB.Collections
