import ToyDB.Mvcc.History

/-!
# The committed state

The state that a transaction begins with is the committed one. A commit lays the writes
of its transaction over the committed state, and no other event changes it. Keys that an
active transaction has written still have the values that it began with.
-/
namespace ToyDB.Mvcc

/-- Writes laid over a state; a written `none` deletes the key. -/
def overlay {K V : Type} (S : K → Option V) (W : K → Option (Option V)) (k : K) : Option V :=
  (W k).getD (S k)

namespace History
variable {K V : Type} [DecidableEq K] {h h' seen : History K V} {u v v' : ℕ} {k : K}

/-- The committed state. -/
def current (h : History K V) (k : K) : Option V := h.snapshotRead h.next k

@[simp] theorem current_nil : current ([] : History K V) k = none := rfl

/-- A snapshot is determined by the committed writes below its version. -/
theorem snapshotRead_congr
    (hc : ∀ u, (u < v ∧ h.CommittedWrite u k) ↔ (u < v' ∧ h'.CommittedWrite u k))
    (hw : ∀ u, u < v → h.CommittedWrite u k → h'.written u k = h.written u k) :
    h.snapshotRead v k = h'.snapshotRead v' k := by
  unfold snapshotRead
  cases hlat : h.latest v k with
  | none =>
      have hnone := latest_eq_none_iff.mp hlat
      have hlat' : h'.latest v' k = none := by
        refine latest_eq_none_iff.mpr fun u hu hst => ?_
        by_contra hne
        obtain ⟨hlt, hst, hwr⟩ := (hc u).mpr ⟨hu, hst, Option.isSome_iff_ne_none.mpr hne⟩
        rw [hnone u hlt hst] at hwr
        cases hwr
      rw [hlat']
      rfl
  | some u =>
      obtain ⟨⟨hu, hst, hwr⟩, hmax⟩ := latest_eq_some_iff.mp hlat
      obtain ⟨hu', hst', hwr'⟩ := (hc u).mp ⟨hu, hst, hwr⟩
      have hlat' : h'.latest v' k = some u :=
        latest_eq_some_iff.mpr ⟨⟨hu', hst', hwr'⟩, fun u' hlt hs hw' => by
          obtain ⟨hlt, hs, hw'⟩ := (hc u').mpr ⟨hlt, hs, hw'⟩
          exact hmax u' hlt hs hw'⟩
      rw [hlat', Option.bind_some, Option.bind_some, hw u hu ⟨hst, hwr⟩]

theorem Legal.lt_of_committedWrite (hl : Legal h) (hc : h.CommittedWrite u k) : u < h.next :=
  hl.lt_next hc.1

/-- Committed writes that stay as they are leave the committed state as it is. -/
theorem current_congr (hl : Legal h) (hl' : Legal h')
    (hc : ∀ u, h.CommittedWrite u k ↔ h'.CommittedWrite u k)
    (hw : ∀ u, h.CommittedWrite u k → h'.written u k = h.written u k) :
    h.current k = h'.current k := by
  refine snapshotRead_congr (fun u => ?_) fun u _ => hw u
  rw [hc]
  constructor
  · exact fun ⟨_, hu⟩ => ⟨hl'.lt_of_committedWrite hu, hu⟩
  · exact fun ⟨_, hu⟩ => ⟨hl.lt_of_committedWrite ((hc u).mpr hu), hu⟩

/-! ## Events -/

theorem current_began (hl : Legal h) : current (.began h.next :: h) k = h.current k := by
  refine (current_congr hl (.began hl) (fun u => ?_) fun u _ => rfl).symm
  simp only [CommittedWrite, status, written]
  by_cases hu : u = h.next
  · simp [hu, hl.status_next]
  · simp only [hu, if_false]

theorem current_wrote (hl : Legal h) (ha : h.status v = some .active) {k' : K} {value : Option V}
    (hl' : Legal (.wrote v k' value :: h)) : current (.wrote v k' value :: h) k = h.current k := by
  have hne : ∀ u, h.status u = some .committed → u ≠ v := by
    intro u hu heq
    rw [heq, ha] at hu
    cases hu
  refine (current_congr hl hl' (fun u => ?_) fun u hu => ?_).symm
  · simp only [CommittedWrite, status, written]
    refine and_congr_right fun hu => ?_
    simp only [hne u hu, false_and, if_false]
  · simp only [written, hne u hu.1, false_and, if_false]

theorem current_rolledBack (hl : Legal h) (ha : h.status v = some .active) :
    current (.rolledBack v :: h) k = h.current k := by
  refine (current_congr hl (.rolledBack hl ha) (fun u => ?_) fun u _ => rfl).symm
  simp only [CommittedWrite, status, written]
  by_cases hu : u = v
  · simp [hu, ha]
  · simp only [hu, if_false]

/-- Nothing but a commit changes the committed state. -/
theorem Legal.current_append {events : History K V} (hl : Legal (events ++ h))
    (hopen : ∀ e ∈ events, e.isCommitted = false) : (events ++ h).current = h.current := by
  induction events with
  | nil => rfl
  | cons e events ih =>
      have hopen' : ∀ e' ∈ events, e'.isCommitted = false :=
        fun e' he' => hopen e' (List.mem_cons_of_mem e he')
      rw [List.cons_append] at hl ⊢
      cases hl with
      | began hl => exact (funext fun _ => current_began hl).trans (ih hl hopen')
      | wrote hl' ha hsees =>
          exact (funext fun _ => current_wrote hl' ha (.wrote hl' ha hsees)).trans (ih hl' hopen')
      | committed => cases hopen _ List.mem_cons_self
      | rolledBack hl ha => exact (funext fun _ => current_rolledBack hl ha).trans (ih hl hopen')

/-- A committed write and a write of an active transaction to the same key: the active
transaction began later, and after the commit. -/
theorem Legal.committed_before (hl : Legal h) (ha : h.status v = some .active)
    (hw : (h.written v k).isSome) (hu : h.CommittedWrite u k) :
    u < v ∧ (h.before v).CommittedWrite u k ∧ (h.before v).written u k = h.written u k := by
  have hstored : (h.stored v k).isSome := by
    rw [stored, ha, if_neg (by simp)]
    exact hw
  have hstored' : (h.stored u k).isSome := by
    rw [stored, hu.1, if_neg (by simp)]
    exact hu.2
  have hne : u ≠ v := by
    intro heq
    rw [heq] at hu
    rw [hu.1] at ha
    cases ha
  have hsome : (h.status v).isSome := by simp [ha]
  have hlt : u < v := by
    by_contra hle
    have hvu : v < u := lt_of_le_of_ne (not_lt.mp hle) (Ne.symm hne)
    -- the active transaction was active when the later one began
    have hord := hl.ordered hvu hstored hstored'
    have hnext : (h.before u).next = u := hl.next_before (by simp [hu.1])
    have hpos := ((hl.status_isSome v).mp hsome).1
    obtain ⟨s, hs⟩ := Option.isSome_iff_exists.mp
      (((hl.of_suffix (before_suffix h u)).status_isSome v).mpr ⟨hpos, by omega⟩)
    have hfinished := (hl.finished (before_suffix h u) hs fun heq => hord (heq ▸ hs)).1
    rw [ha] at hfinished
    exact hord (hs.trans hfinished.symm)
  have hord := hl.ordered hlt hstored' hstored
  have hnext : (h.before v).next = v := hl.next_before hsome
  have hpos := ((hl.status_isSome u).mp (by simp [hu.1])).1
  obtain ⟨s, hs⟩ := Option.isSome_iff_exists.mp
    (((hl.of_suffix (before_suffix h v)).status_isSome u).mpr ⟨hpos, by omega⟩)
  obtain ⟨hst, hwr⟩ := hl.finished (before_suffix h v) hs fun heq => hord (heq ▸ hs)
  have hcommitted : (h.before v).status u = some .committed := by
    rw [hs, ← hst, hu.1]
  exact ⟨hlt, ⟨hcommitted, hwr k ▸ hu.2⟩, (hwr k).symm⟩

/-- What a transaction that began sees as committed stays committed. -/
theorem Legal.committedWrite_mono (hl : Legal h) (hs : seen <:+ h) (hu : seen.CommittedWrite u k) :
    h.CommittedWrite u k ∧ h.written u k = seen.written u k := by
  obtain ⟨hst, hwr⟩ := hl.finished hs hu.1 (by simp)
  exact ⟨⟨hst, hwr k ▸ hu.2⟩, hwr k⟩

/-- No transaction that committed since an active one began wrote a key that the active
one has written. -/
theorem Legal.current_eq_before (hl : Legal h) (ha : h.status v = some .active)
    (hw : (h.written v k).isSome) : h.current k = (h.before v).current k := by
  refine current_congr hl (hl.of_suffix (before_suffix h v)) (fun u => ⟨fun hu => ?_, fun hu => ?_⟩)
    fun u hu => (hl.committed_before ha hw hu).2.2
  · exact (hl.committed_before ha hw hu).2.1
  · exact (hl.committedWrite_mono (before_suffix h v) hu).1

/-- A commit lays the writes of its transaction over the committed state. -/
theorem current_committed (hl : Legal h) (ha : h.status v = some .active) :
    current (.committed v :: h) k = overlay h.current (h.written v) k := by
  have hl' : Legal (.committed v :: h) := .committed hl ha
  unfold overlay
  cases hw : h.written v k with
  | none =>
      refine (current_congr hl hl' (fun u => ?_) fun u _ => rfl).symm
      simp only [CommittedWrite, status, written]
      by_cases hu : u = v
      · simp [hu, hw]
      · simp only [hu, if_false]
  | some value =>
      have hlat : (History.latest (.committed v :: h) (next (.committed v :: h)) k) = some v := by
        refine latest_eq_some_iff.mpr ⟨⟨hl'.lt_next (s := .committed) (by simp [status]),
          by simp [status], by simp [written, hw]⟩, fun u _ hst hwr => ?_⟩
        by_cases hu : u = v
        · exact hu.le
        · simp only [status, hu, if_false] at hst
          exact (hl.committed_before ha (by simp [hw]) ⟨hst, hwr⟩).1.le
      rw [current, snapshotRead, hlat, Option.bind_some, written, hw]
      rfl

end History
end ToyDB.Mvcc
