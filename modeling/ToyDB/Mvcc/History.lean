import Mathlib.Data.Finset.Max
import Mathlib.Data.List.Infix
import Mathlib.Tactic.Common

/-!
# Histories of concurrent transactions

The abstract view of a multi-version store: a history of what its transactions did,
newest event first. Read-write transactions have consecutive versions. A write is legal if the
writer, at the history it began with, sees every stored version of the key.
-/
namespace ToyDB.Mvcc

inductive Status where
  | active
  | committed
  | rolledBack
  deriving DecidableEq

/-- What a transaction did; a written `none` deletes the key. -/
inductive Event (K V : Type) where
  | began (v : ℕ)
  | wrote (v : ℕ) (k : K) (value : Option V)
  | committed (v : ℕ)
  | rolledBack (v : ℕ)
  deriving DecidableEq

def Event.isCommitted {K V : Type} : Event K V → Bool
  | committed _ => true
  | _ => false

/-- The events of a store, newest first. -/
abbrev History (K V : Type) := List (Event K V)

namespace History
variable {K V : Type}

/-- The next version to allocate. -/
def next : History K V → ℕ
  | [] => 1
  | .began _ :: h => next h + 1
  | .wrote .. :: h | .committed _ :: h | .rolledBack _ :: h => next h

def status : History K V → ℕ → Option Status
  | [], _ => none
  | .began u :: h, v => if v = u then some .active else status h v
  | .wrote .. :: h, v => status h v
  | .committed u :: h, v => if v = u then some .committed else status h v
  | .rolledBack u :: h, v => if v = u then some .rolledBack else status h v

/-- The history that a transaction began with. -/
def before : History K V → ℕ → History K V
  | [], _ => []
  | .began u :: h, v => if v = u then h else before h v
  | .wrote .. :: h, v | .committed _ :: h, v | .rolledBack _ :: h, v => before h v

/-- The active transactions. -/
def activeSet (h : History K V) : Finset ℕ :=
  (Finset.range h.next).filter fun v => h.status v = some .active

section
variable [DecidableEq K]

/-- The latest write of a transaction to a key. -/
def written : History K V → ℕ → K → Option (Option V)
  | [], _, _ => none
  | .wrote u k' value :: h, v, k => if v = u ∧ k = k' then some value else written h v k
  | .began _ :: h, v, k | .committed _ :: h, v, k | .rolledBack _ :: h, v, k => written h v k

/-- The value that a store keeps for a version of a key. -/
def stored (h : History K V) (v : ℕ) (k : K) : Option (Option V) :=
  if h.status v = some .rolledBack then none else h.written v k

/-- The highest committed version below `v` that wrote the key. -/
def latest (h : History K V) (v : ℕ) (k : K) : Option ℕ :=
  ((List.range v).filter fun u =>
    h.status u = some .committed ∧ (h.written u k).isSome).getLast?

/-- The value of a key in the committed state below version `v`. -/
def snapshotRead (h : History K V) (v : ℕ) (k : K) : Option V :=
  ((h.latest v k).bind fun u => h.written u k).join

/-- The transaction that began with `seen` at version `v` sees the version `u`. -/
def Sees (seen : History K V) (v u : ℕ) : Prop :=
  u ≤ v ∧ seen.status u ≠ some .active

instance (seen : History K V) (v u : ℕ) : Decidable (Sees seen v u) :=
  inferInstanceAs (Decidable (_ ∧ _))

/-- One of the two transactions began while the other was active. -/
def Overlap (h : History K V) (u v : ℕ) : Prop :=
  (h.before v).status u = some .active ∨ (h.before u).status v = some .active

/-- The transaction committed a write of the key. -/
def CommittedWrite (h : History K V) (v : ℕ) (k : K) : Prop :=
  h.status v = some .committed ∧ (h.written v k).isSome

/-- The histories that transactions make. -/
inductive Legal : History K V → Prop where
  | nil : Legal []
  | began {h : History K V} : Legal h → Legal (.began h.next :: h)
  | wrote {h : History K V} {v : ℕ} {k : K} {value : Option V} : Legal h →
      h.status v = some .active → (∀ u, (h.stored u k).isSome → Sees (h.before v) v u) →
      Legal (.wrote v k value :: h)
  | committed {h : History K V} {v : ℕ} : Legal h → h.status v = some .active →
      Legal (.committed v :: h)
  | rolledBack {h : History K V} {v : ℕ} : Legal h → h.status v = some .active →
      Legal (.rolledBack v :: h)

end

/-! ## Versions and suffixes -/

section Suffix
variable {h seen : History K V}

theorem next_pos (h : History K V) : 0 < h.next := by
  induction h with
  | nil => exact Nat.one_pos
  | cons e h ih => cases e <;> simp only [next] <;> omega

theorem next_mono (hs : seen <:+ h) : seen.next ≤ h.next := by
  induction h with
  | nil => rw [List.suffix_nil.mp hs]
  | cons e h ih =>
      rcases List.suffix_cons_iff.mp hs with rfl | hs
      · exact le_rfl
      · have := ih hs
        cases e <;> simp only [next] <;> omega

theorem before_suffix (h : History K V) (v : ℕ) : h.before v <:+ h := by
  induction h with
  | nil => exact List.suffix_rfl
  | cons e h ih =>
      cases e <;> simp only [before]
      · split_ifs
        · exact List.suffix_cons _ _
        · exact ih.trans (List.suffix_cons _ _)
      all_goals exact ih.trans (List.suffix_cons _ _)

end Suffix

section Legal
variable [DecidableEq K] {h seen : History K V} {u v : ℕ} {k : K}

/-- Exactly the versions below the next one have begun. -/
theorem Legal.status_isSome (hl : Legal h) (v : ℕ) :
    (h.status v).isSome ↔ 0 < v ∧ v < h.next := by
  induction hl with
  | nil => simp [status, next]; omega
  | @began h hl ih =>
      have := h.next_pos
      simp only [status, next]
      split_ifs with hv
      · simp only [Option.isSome_some, true_iff]
        omega
      · rw [ih]
        omega
  | wrote hl ha _ ih => simpa only [status, next] using ih
  | @committed h u hl ha ih | @rolledBack h u hl ha ih =>
      simp only [status, next]
      split_ifs with hv
      · rw [← ih, hv, ha]
        simp
      · exact ih

theorem Legal.lt_next (hl : Legal h) {s : Status} (hs : h.status v = some s) : v < h.next :=
  ((hl.status_isSome v).mp (by simp [hs])).2

theorem Legal.status_next (hl : Legal h) : h.status h.next = none := by
  by_contra hs
  exact absurd ((hl.status_isSome _).mp (Option.isSome_iff_ne_none.mpr hs)).2 (lt_irrefl _)

/-- Only transactions that began have written. -/
theorem Legal.status_of_written (hl : Legal h) (hw : (h.written v k).isSome) :
    (h.status v).isSome := by
  induction hl with
  | nil => simp [written] at hw
  | began hl ih =>
      simp only [status]
      split_ifs
      · rfl
      · exact ih hw
  | @wrote h u k' x hl ha hsees ih =>
      simp only [status]
      by_cases hv : v = u
      · simp [hv, ha]
      · simp only [written, hv, false_and, if_false] at hw
        exact ih hw
  | committed hl ha ih | rolledBack hl ha ih =>
      simp only [status]
      split_ifs
      · rfl
      · exact ih hw

theorem Legal.of_suffix (hl : Legal h) (hs : seen <:+ h) : Legal seen := by
  induction hl with
  | nil => exact (List.suffix_nil.mp hs) ▸ .nil
  | began hl ih =>
      rcases List.suffix_cons_iff.mp hs with rfl | hs
      · exact .began hl
      · exact ih hs
  | wrote hl ha hsees ih =>
      rcases List.suffix_cons_iff.mp hs with rfl | hs
      · exact .wrote hl ha hsees
      · exact ih hs
  | committed hl ha ih =>
      rcases List.suffix_cons_iff.mp hs with rfl | hs
      · exact .committed hl ha
      · exact ih hs
  | rolledBack hl ha ih =>
      rcases List.suffix_cons_iff.mp hs with rfl | hs
      · exact .rolledBack hl ha
      · exact ih hs

/-- A finished transaction stays as it is. -/
theorem Legal.finished (hl : Legal h) (hs : seen <:+ h) {s : Status}
    (hf : seen.status u = some s) (hne : s ≠ .active) :
    h.status u = some s ∧ ∀ k, h.written u k = seen.written u k := by
  induction hl with
  | nil => exact (List.suffix_nil.mp hs) ▸ ⟨hf, fun _ => rfl⟩
  | @began h hl ih =>
      rcases List.suffix_cons_iff.mp hs with rfl | hs
      · exact ⟨hf, fun _ => rfl⟩
      · have hu := hl.lt_next (ih hs).1
        simp only [status, written, if_neg hu.ne]
        exact ih hs
  | @wrote h v k' x hl ha hsees ih =>
      rcases List.suffix_cons_iff.mp hs with rfl | hs
      · exact ⟨hf, fun _ => rfl⟩
      · have hu : u ≠ v := fun he =>
          hne (Option.some.inj ((ih hs).1.symm.trans (he ▸ ha)))
        simp only [status, written, hu, false_and, if_false]
        exact ih hs
  | @committed h v hl ha ih | @rolledBack h v hl ha ih =>
      rcases List.suffix_cons_iff.mp hs with rfl | hs
      · exact ⟨hf, fun _ => rfl⟩
      · have hu : u ≠ v := fun he =>
          hne (Option.some.inj ((ih hs).1.symm.trans (he ▸ ha)))
        simp only [status, written, if_neg hu]
        exact ih hs

theorem Legal.not_active_mono (hl : Legal h) (hs : seen <:+ h) (hu : u < seen.next)
    (hn : seen.status u ≠ some .active) : h.status u ≠ some .active := by
  intro ha
  have hpos := ((hl.status_isSome u).mp (by simp [ha])).1
  obtain ⟨s, hf⟩ := Option.isSome_iff_exists.mp
    (((hl.of_suffix hs).status_isSome u).mpr ⟨hpos, hu⟩)
  have hne : s ≠ .active := fun h => hn (h ▸ hf)
  rw [(hl.finished hs hf hne).1] at ha
  exact hne (Option.some.inj ha)

/-- A transaction has the version that was next when it began. -/
theorem Legal.next_before (hl : Legal h) (hv : (h.status v).isSome) : (h.before v).next = v := by
  induction hl with
  | nil => simp [status] at hv
  | @began h hl ih =>
      simp only [before]
      split_ifs with hu
      · exact hu.symm
      · simp only [status, if_neg hu] at hv
        exact ih hv
  | wrote hl ha hsees ih => exact ih hv
  | @committed h u hl ha ih | @rolledBack h u hl ha ih =>
      simp only [before]
      apply ih
      by_cases hu : v = u
      · simp [hu, ha]
      · simpa only [status, if_neg hu] using hv

theorem Legal.before_eq_nil (hl : Legal h) (hv : h.status v = none) : h.before v = [] := by
  induction hl with
  | nil => rfl
  | @began h hl ih =>
      simp only [status] at hv
      split_ifs at hv with hne
      rw [before, if_neg hne]
      exact ih hv
  | wrote hl _ _ ih => exact ih hv
  | committed hl _ ih | rolledBack hl _ ih =>
      simp only [status] at hv
      split_ifs at hv
      exact ih hv

/-- A transaction that began stays with the same history. -/
theorem Legal.before_eq (hl : Legal h) (hs : seen <:+ h) (hv : v < seen.next) :
    h.before v = seen.before v := by
  induction hl with
  | nil => rw [List.suffix_nil.mp hs]
  | @began h hl ih =>
      rcases List.suffix_cons_iff.mp hs with rfl | hs
      · rfl
      · have := next_mono hs
        rw [before, if_neg (by omega)]
        exact ih hs
  | wrote hl _ _ ih | committed hl _ ih | rolledBack hl _ ih =>
      rcases List.suffix_cons_iff.mp hs with rfl | hs
      · rfl
      · exact ih hs

/-! ## Stored versions -/

theorem Legal.not_written (hl : Legal h) (hs : h.status v = none) : h.written v k = none := by
  by_contra hw
  have := hl.status_of_written (Option.isSome_iff_ne_none.mpr hw)
  simp [hs] at this

theorem Legal.stored_began (hl : Legal h) (v : ℕ) (k : K) :
    stored (.began h.next :: h) v k = h.stored v k := by
  simp only [stored, status, written]
  by_cases hv : v = h.next
  · subst hv
    simp [hl.status_next, hl.not_written hl.status_next]
  · simp only [hv, if_false]

theorem stored_wrote (ha : h.status u = some .active) (k' : K) (value : Option V) (v : ℕ) (k : K) :
    stored (.wrote u k' value :: h) v k = if v = u ∧ k = k' then some value else h.stored v k := by
  simp only [stored, status, written]
  by_cases hv : v = u ∧ k = k'
  · simp [hv.1, hv.2, ha]
  · simp only [hv, if_false]

theorem stored_committed (ha : h.status u = some .active) (v : ℕ) (k : K) :
    stored (.committed u :: h) v k = h.stored v k := by
  simp only [stored, status, written]
  by_cases hv : v = u
  · simp [hv, ha]
  · simp only [hv, if_false]

theorem stored_rolledBack (u v : ℕ) (k : K) :
    stored (.rolledBack u :: h) v k = if v = u then none else h.stored v k := by
  simp only [stored, status, written]
  by_cases hv : v = u
  · simp [hv]
  · simp only [hv, if_false]

/-- What the store keeps of the versions that a transaction does not see as active. -/
theorem Legal.stored_of_seen (hl : Legal h) (hs : seen <:+ h) (hu : u < seen.next)
    (hn : seen.status u ≠ some .active) (k : K) :
    h.stored u k = if seen.status u = some .committed then seen.written u k else none := by
  have hls := hl.of_suffix hs
  cases hf : seen.status u with
  | none =>
      have hz : u = 0 := by
        have := (hls.status_isSome u).not.mp (by simp [hf])
        omega
      have hh : h.status u = none := by
        have := (hl.status_isSome u).not.mpr (by omega)
        simpa using this
      simp [stored, hh, hl.not_written hh]
  | some s =>
      have hne : s ≠ .active := fun h => hn (h ▸ hf)
      obtain ⟨hst, hw⟩ := hl.finished hs hf hne
      rw [stored, hst, hw]
      cases s with
      | active => exact absurd rfl hne
      | committed => rfl
      | rolledBack => rfl

/-! ## The order of the versions of a key -/

/-- A stored version of a key was not active when the writer of a higher one began. -/
theorem Legal.ordered (hl : Legal h) (huv : u < v) (hu : (h.stored u k).isSome)
    (hv : (h.stored v k).isSome) : (h.before v).status u ≠ some .active := by
  induction hl with
  | nil => simp [stored, written] at hu
  | @began h hl ih =>
      rw [hl.stored_began] at hu hv
      have hne : v ≠ h.next := by
        rintro rfl
        simp [stored, hl.not_written hl.status_next] at hv
      rw [before, if_neg hne]
      exact ih hu hv
  | @wrote h w k' x hl ha hsees ih =>
      rw [stored_wrote ha] at hu hv
      rw [before]
      by_cases hnew : v = w ∧ k = k'
      · obtain ⟨rfl, rfl⟩ := hnew
        rw [if_neg (by omega)] at hu
        exact (hsees u hu).2
      · rw [if_neg hnew] at hv
        by_cases hold : u = w ∧ k = k'
        · obtain ⟨rfl, rfl⟩ := hold
          exact absurd (hsees v hv).1 (by omega)
        · rw [if_neg hold] at hu
          exact ih hu hv
  | committed hl ha ih =>
      rw [stored_committed ha] at hu hv
      exact ih hu hv
  | rolledBack hl ha ih =>
      rw [stored_rolledBack] at hu hv
      split_ifs at hu hv with h₁ h₂
      · exact absurd hu (by simp)
      · exact absurd hu (by simp)
      · exact absurd hv (by simp)
      · exact ih hu hv

/-- A transaction that sees the highest stored version of a key sees all of them. -/
theorem Legal.sees_all (hl : Legal h) (hv : (h.status v).isSome) {w : ℕ}
    (hw : (h.stored w k).isSome) (hmax : ∀ u, (h.stored u k).isSome → u ≤ w)
    (hsees : Sees (h.before v) v w) (hu : (h.stored u k).isSome) : Sees (h.before v) v u := by
  have huw := hmax u hu
  refine ⟨huw.trans hsees.1, ?_⟩
  rcases huw.eq_or_lt with rfl | huw
  · exact hsees.2
  have hord := hl.ordered huw hu hw
  rcases hsees.1.eq_or_lt with rfl | hwv
  · exact hord
  · have hs := before_suffix h v
    have hnext := hl.next_before hv
    have hww : (h.before w).next = w := by
      refine hl.next_before (hl.status_of_written (k := k) ?_)
      rw [stored] at hw
      split_ifs at hw
      · exact absurd hw (by simp)
      · exact hw
    have hw' : h.before w = (h.before v).before w := hl.before_eq hs (by rw [hnext]; exact hwv)
    refine (hl.of_suffix hs).not_active_mono (hw' ▸ before_suffix _ w) ?_ hord
    rw [hww]
    exact huw

theorem Legal.not_active_later (hl : Legal h) (hv : (h.status v).isSome) (hvu : v ≤ u) :
    (h.before v).status u ≠ some .active := by
  intro ha
  have := (hl.of_suffix (before_suffix h v)).lt_next ha
  rw [hl.next_before hv] at this
  omega

/-- Of two overlapping transactions, at most one commits a write of a key. -/
theorem Legal.no_lost_update (hl : Legal h) (hne : u ≠ v) (ho : h.Overlap u v) :
    ¬ (h.CommittedWrite u k ∧ h.CommittedWrite v k) := by
  rintro ⟨hu, hv⟩
  have hstored : ∀ {x}, h.CommittedWrite x k → (h.stored x k).isSome := fun hx => by
    rw [stored, hx.1, if_neg (by simp)]
    exact hx.2
  have hsome : ∀ {x}, h.CommittedWrite x k → (h.status x).isSome := fun hx => by simp [hx.1]
  rcases Nat.lt_or_gt_of_ne hne with hlt | hlt
  · rcases ho with ho | ho
    · exact hl.ordered hlt (hstored hu) (hstored hv) ho
    · exact hl.not_active_later (hsome hu) hlt.le ho
  · rcases ho with ho | ho
    · exact hl.not_active_later (hsome hv) hlt.le ho
    · exact hl.ordered hlt (hstored hv) (hstored hu) ho

/-! ## The highest committed version -/

theorem getLast_range_filter {p : ℕ → Bool} {n u : ℕ} :
    ((List.range n).filter p).getLast? = some u ↔ u < n ∧ p u ∧ ∀ u' < n, p u' → u' ≤ u := by
  induction n with
  | zero => simp
  | succ n ih =>
      rw [List.range_succ, List.filter_append, List.getLast?_append]
      by_cases hn : p n
      · simp only [List.filter_singleton, hn, cond_true, List.getLast?_singleton, Option.some_or,
          Option.some.injEq]
        constructor
        · rintro rfl
          exact ⟨by omega, hn, fun u' hu' _ => by omega⟩
        · rintro ⟨hu, _, hmax⟩
          have := hmax n (by omega) hn
          omega
      · simp only [List.filter_singleton, hn, cond_false, List.getLast?_nil, Option.none_or, ih]
        constructor
        · rintro ⟨hu, hp, hmax⟩
          refine ⟨by omega, hp, fun u' hu' hp' => hmax u' ?_ hp'⟩
          have : u' ≠ n := fun h => hn (h ▸ hp')
          omega
        · rintro ⟨hu, hp, hmax⟩
          have : u ≠ n := fun h => hn (h ▸ hp)
          exact ⟨by omega, hp, fun u' hu' hp' => hmax u' (by omega) hp'⟩

theorem latest_eq_some_iff : h.latest v k = some u ↔
    (u < v ∧ h.status u = some .committed ∧ (h.written u k).isSome) ∧
      ∀ u' < v, h.status u' = some .committed → (h.written u' k).isSome → u' ≤ u := by
  rw [latest, getLast_range_filter]
  simp only [decide_eq_true_eq, and_imp, and_assoc]

theorem latest_eq_none_iff : h.latest v k = none ↔
    ∀ u < v, h.status u = some .committed → h.written u k = none := by
  rw [latest, List.getLast?_eq_none_iff, List.filter_eq_nil_iff]
  simp

theorem mem_activeSet (hl : Legal h) : v ∈ h.activeSet ↔ h.status v = some .active := by
  rw [activeSet, Finset.mem_filter, Finset.mem_range]
  exact ⟨fun h => h.2, fun hv => ⟨hl.lt_next hv, hv⟩⟩

end Legal
end History
end ToyDB.Mvcc
