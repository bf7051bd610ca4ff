import ToyDB.Mvcc.History
import ToyDB.Mvcc.Spec

/-!
# The engine as the encoding of a history

The engine of a store is determined by its history: the next version, the active
transactions with their snapshots and write records, and the stored versions of every
key. Each transaction operation moves the engine and the history in step.
-/
namespace ToyDB.Mvcc
open ToyDB.Collections ToyDB.Storage

variable {K V : Type} [LinearOrder K]

/-- The engine encodes the history. -/
structure Represents (m : OrderedMap (Key K) (Value V)) (h : History K V) : Prop where
  nextVersion : m.get .nextVersion = if h.next = 1 then none else some (.version h.next)
  txnActive v : m.get (.txnActive v) = if h.status v = some .active then some .empty else none
  txnActiveSnapshot v : m.get (.txnActiveSnapshot v) =
    if (h.status v).isSome ∧ (h.before v).activeSet.Nonempty then
      some (.active (h.before v).activeSet)
    else none
  txnWrite v k : m.get (.txnWrite v k) =
    if h.status v = some .active ∧ (h.written v k).isSome then some .empty else none
  version k v : m.get (.version k v) = (h.stored v k).map .data
  unversioned s : m.get (.unversioned s) = none

theorem represents_empty : Represents (OrderedMap.empty : OrderedMap (Key K) (Value V)) [] where
  nextVersion := rfl
  txnActive _ := rfl
  txnActiveSnapshot _ := rfl
  txnWrite _ _ := rfl
  version _ _ := rfl
  unversioned _ := rfl

namespace Represents
variable {m m' : OrderedMap (Key K) (Value V)} {h : History K V} {u v : ℕ} {k : K}

theorem typed (hr : Represents m h) : Typed m := by
  intro key value hg
  cases key with
  | nextVersion =>
      rw [hr.nextVersion] at hg
      split_ifs at hg
      exact ⟨_, (Option.some.inj hg).symm⟩
  | txnActive v =>
      rw [hr.txnActive] at hg
      split_ifs at hg
      exact (Option.some.inj hg).symm
  | txnActiveSnapshot v =>
      rw [hr.txnActiveSnapshot] at hg
      split_ifs at hg
      exact ⟨_, (Option.some.inj hg).symm⟩
  | txnWrite v k =>
      rw [hr.txnWrite] at hg
      split_ifs at hg
      exact (Option.some.inj hg).symm
  | version k v =>
      rw [hr.version] at hg
      obtain ⟨x, _, rfl⟩ := Option.map_eq_some_iff.mp hg
      exact ⟨x, rfl⟩
  | unversioned s =>
      rw [hr.unversioned] at hg
      cases hg

/-- Engines that encode the same history are equal. -/
theorem unique (hr : Represents m h) (hr' : Represents m' h) : m = m' := by
  refine OrderedMap.ext_get fun key => ?_
  cases key with
  | nextVersion => rw [hr.nextVersion, hr'.nextVersion]
  | txnActive v => rw [hr.txnActive, hr'.txnActive]
  | txnActiveSnapshot v => rw [hr.txnActiveSnapshot, hr'.txnActiveSnapshot]
  | txnWrite v k => rw [hr.txnWrite, hr'.txnWrite]
  | version k v => rw [hr.version, hr'.version]
  | unversioned s => rw [hr.unversioned, hr'.unversioned]

theorem nextOf_eq (hr : Represents m h) : nextOf m = h.next := by
  unfold nextOf
  rw [hr.nextVersion]
  split_ifs with h1
  · exact h1.symm
  · rfl

theorem activeOf_eq (hr : Represents m h) (hl : h.Legal) : activeOf m = h.activeSet := by
  ext v
  rw [mem_activeOf, hr.txnActive, History.mem_activeSet hl]
  split_ifs with hv <;> simp [hv]

theorem snapshotOf_eq (hr : Represents m h) (hl : h.Legal) (v : ℕ) :
    snapshotOf m v = (h.before v).activeSet := by
  unfold snapshotOf
  rw [hr.txnActiveSnapshot]
  cases hv : h.status v with
  | none =>
      rw [hl.before_eq_nil hv]
      rfl
  | some s =>
      simp only [Option.isSome_some, true_and]
      split_ifs with hne
      · rfl
      · exact (Finset.not_nonempty_iff_eq_empty.mp hne).symm

theorem mem_writeRecords (hr : Represents m h) :
    k ∈ writeRecords m v ↔ h.status v = some .active ∧ (h.written v k).isSome := by
  rw [Mvcc.mem_writeRecords, hr.txnWrite]
  split_ifs with hv <;> simp [hv]

/-! ## Steps -/

theorem began (hr : Represents m h) (hl : h.Legal) :
    Represents (replay m (beginOps m)) (.began h.next :: h) := by
  have hget : ∀ key, (replay m (beginOps m)).get key =
      if key = .txnActive h.next then some .empty
      else if key = .txnActiveSnapshot h.next ∧ h.activeSet.Nonempty then some (.active h.activeSet)
      else if key = .nextVersion then some (.version (h.next + 1))
      else m.get key := by
    intro key
    rw [beginOps, hr.nextOf_eq, hr.activeOf_eq hl]
    by_cases hne : h.activeSet.Nonempty
    · simp only [hne, if_true, List.cons_append, List.nil_append, replay_cons, replay_nil, Op.apply,
        OrderedMap.get_insert, and_true]
      split_ifs <;> rfl
    · simp only [hne, if_false, List.nil_append, replay_cons, replay_nil, Op.apply,
        OrderedMap.get_insert, and_false, List.cons_append]
      split_ifs <;> rfl
  have hpos := h.next_pos
  constructor
  · simp [hget, History.next, hpos.ne']
  · intro v
    simp only [hget, Key.txnActive.injEq, reduceCtorEq, if_false, false_and, History.status,
      hr.txnActive]
    split_ifs <;> simp_all
  · intro v
    simp only [hget, Key.txnActiveSnapshot.injEq, reduceCtorEq, if_false, History.status,
      History.before, hr.txnActiveSnapshot]
    by_cases hv : v = h.next
    · simp [hv, hl.status_next]
    · simp [hv]
  · intro v k
    simp only [hget, reduceCtorEq, if_false, false_and, History.status, History.written, hr.txnWrite]
    by_cases hv : v = h.next
    · simp [hv, hl.status_next, hl.not_written hl.status_next]
    · simp [hv]
  · intro k v
    simp only [hget, reduceCtorEq, if_false, false_and, hr.version, hl.stored_began]
  · intro s
    simp only [hget, reduceCtorEq, if_false, false_and, hr.unversioned]

theorem wrote (hr : Represents m h) {t : TransactionState}
    (ha : h.status t.version = some .active) (k : K) (value : Option V) :
    Represents (replay m (t.writeOps k value)) (.wrote t.version k value :: h) := by
  have hget : ∀ key, (replay m (t.writeOps k value)).get key =
      if key = .version k t.version then some (.data value)
      else if key = .txnWrite t.version k then some .empty
      else m.get key := by
    intro key
    simp only [TransactionState.writeOps, replay_cons, replay_nil, Op.apply, OrderedMap.get_insert]
    split_ifs <;> rfl
  constructor
  · simp only [hget, reduceCtorEq, if_false]
    exact hr.nextVersion
  · intro v
    simp only [hget, reduceCtorEq, if_false]
    exact hr.txnActive v
  · intro v
    simp only [hget, reduceCtorEq, if_false]
    exact hr.txnActiveSnapshot v
  · intro v k'
    simp only [hget, reduceCtorEq, if_false, Key.txnWrite.injEq, History.status, History.written,
      hr.txnWrite]
    by_cases hv : v = t.version ∧ k' = k
    · simp [hv.1, hv.2, ha]
    · simp only [hv, if_false]
  · intro k' v
    simp only [hget, reduceCtorEq, if_false, Key.version.injEq, History.stored_wrote ha, hr.version]
    by_cases hv : v = t.version ∧ k' = k
    · simp [hv.1, hv.2]
    · rw [if_neg (fun h => hv ⟨h.2, h.1⟩), if_neg hv]
  · intro s
    simpa only [hget, reduceCtorEq, if_false] using hr.unversioned s

theorem replay_commitOps_get (v : ℕ) (key : Key K) : (replay m (commitOps m v)).get key =
    if key = .txnActive v ∨ ∃ k ∈ writeRecords m v, key = .txnWrite v k then none
    else m.get key := by
  rw [commitOps, replay_append, replay_cons, replay_nil, Op.apply, OrderedMap.get_erase,
    replay_deletes_get, ← ite_or]
  simp only [List.mem_map, eq_comm]

theorem replay_rollbackOps_get (v : ℕ) (key : Key K) : (replay m (rollbackOps m v)).get key =
    if key = .txnActive v ∨ ∃ k ∈ writeRecords m v, key = .txnWrite v k ∨ key = .version k v
    then none else m.get key := by
  have hops : rollbackOps m v = (((writeRecords m v).flatMap fun k =>
      [Key.version k v, Key.txnWrite v k]).map fun key => .delete key) ++ [.delete (.txnActive v)] := by
    simp [rollbackOps, List.map_flatMap]
  rw [hops, replay_append, replay_cons, replay_nil, Op.apply, OrderedMap.get_erase,
    replay_deletes_get, ← ite_or]
  simp only [List.map_id', List.mem_flatMap, List.mem_cons, List.not_mem_nil, or_false,
    or_comm (a := key = Key.version _ _)]

theorem committed (hr : Represents m h) (ha : h.status v = some .active) :
    Represents (replay m (commitOps m v)) (.committed v :: h) := by
  constructor
  · rw [replay_commitOps_get, if_neg (by simp)]
    exact hr.nextVersion
  · intro u
    simp only [replay_commitOps_get, Key.txnActive.injEq, reduceCtorEq, and_false, exists_false,
      or_false, History.status, hr.txnActive]
    by_cases hu : u = v <;> simp [hu]
  · intro u
    simp only [replay_commitOps_get, reduceCtorEq, and_false, exists_false, or_false, if_false,
      History.status, History.before, hr.txnActiveSnapshot]
    by_cases hu : u = v
    · simp [hu, ha]
    · simp only [hu, if_false]
  · intro u k
    simp only [replay_commitOps_get, reduceCtorEq, false_or, Key.txnWrite.injEq, History.status,
      History.written, hr.txnWrite]
    by_cases hu : u = v
    · by_cases hk : k ∈ writeRecords m v
      · simp [hu, hk]
      · have := hr.mem_writeRecords.not.mp hk
        simp only [hu, if_true, this, if_false]
        simp
    · simp [hu]
  · intro k u
    simp only [replay_commitOps_get, reduceCtorEq, and_false, exists_false, or_false, if_false,
      History.stored_committed ha, hr.version]
  · intro s
    simpa [replay_commitOps_get] using hr.unversioned s

theorem rolledBack (hr : Represents m h) (ha : h.status v = some .active) :
    Represents (replay m (rollbackOps m v)) (.rolledBack v :: h) := by
  constructor
  · rw [replay_rollbackOps_get, if_neg (by simp)]
    exact hr.nextVersion
  · intro u
    simp only [replay_rollbackOps_get, Key.txnActive.injEq, reduceCtorEq, and_false, exists_false,
      or_false, History.status, hr.txnActive]
    by_cases hu : u = v <;> simp [hu]
  · intro u
    simp only [replay_rollbackOps_get, reduceCtorEq, and_false, exists_false, or_false, if_false,
      History.status, History.before, hr.txnActiveSnapshot]
    by_cases hu : u = v
    · simp [hu, ha]
    · simp only [hu, if_false]
  · intro u k
    simp only [replay_rollbackOps_get, reduceCtorEq, false_or, or_false, Key.txnWrite.injEq,
      History.status, History.written, hr.txnWrite]
    by_cases hu : u = v
    · by_cases hk : k ∈ writeRecords m v
      · simp [hu, hk]
      · have := hr.mem_writeRecords.not.mp hk
        simp only [hu, if_true, this, if_false]
        simp
    · simp [hu]
  · intro k u
    simp only [replay_rollbackOps_get, reduceCtorEq, false_or, Key.version.injEq,
      History.stored_rolledBack, hr.version]
    by_cases hu : u = v
    · by_cases hk : k ∈ writeRecords m v
      · simp [hu, hk]
      · have hw : h.written v k = none := by
          have := hr.mem_writeRecords.not.mp hk
          simpa [ha] using this
        simp [hu, History.stored, ha, hw]
    · simp [hu]
  · intro s
    simpa [replay_rollbackOps_get] using hr.unversioned s

end Represents
end ToyDB.Mvcc
