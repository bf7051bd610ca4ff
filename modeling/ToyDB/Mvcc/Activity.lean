import ToyDB.Effects.Triple
import ToyDB.Mvcc.Encoding
import ToyDB.Mvcc.Script

/-!
# Active transactions

Whatever is called on an engine, versions are handed out in increasing order, and a
version that was handed out does not become active again after it ended.
-/
namespace ToyDB.Mvcc
open ToyDB.Collections ToyDB.Effects ToyDB.Storage

variable {K V α : Type}

/-- The operation hands out no version below the given one. -/
def OpGrows (n : ℕ) : Op (Key K) (Value V) → Prop
  | .set .nextVersion value => ∃ v, value = .version v ∧ n ≤ v
  | .set (.txnActive v) value => value = .empty ∧ n ≤ v
  | .set key value => value.Fits key
  | .delete key => key ≠ .nextVersion

theorem OpGrows.fits {n : ℕ} {op : Op (Key K) (Value V)} (h : OpGrows n op) : OpFits op := by
  cases op with
  | delete key => trivial
  | set key value =>
      cases key with
      | nextVersion =>
          obtain ⟨v, rfl, _⟩ := h
          exact ⟨v, rfl⟩
      | txnActive v => exact h.1
      | txnActiveSnapshot | txnWrite | version | unversioned => exact h

variable [LinearOrder K] {m m₀ : OrderedMap (Key K) (Value V)}

/-- The transaction of a version is active. -/
def IsActive (m : OrderedMap (Key K) (Value V)) (v : ℕ) : Prop := m.get (.txnActive v) ≠ none

/-- A later engine: no version is handed out again, nor active again. -/
structure Grows (m₀ m : OrderedMap (Key K) (Value V)) : Prop where
  typed : Typed m
  next_le : nextOf m₀ ≤ nextOf m
  active v : v < nextOf m₀ → IsActive m v → IsActive m₀ v

theorem Grows.refl (h : Typed m) : Grows m m := ⟨h, le_rfl, fun _ _ h => h⟩

theorem Grows.apply (h : Grows m₀ m) {op : Op (Key K) (Value V)} (ho : OpGrows (nextOf m₀) op) :
    Grows m₀ (op.apply m) := by
  refine ⟨h.typed.replay (show ∀ o ∈ [op], OpFits o by simpa using ho.fits), ?_, fun v hv ha => ?_⟩
  · cases op with
    | delete key =>
        refine h.next_le.trans (le_of_eq ?_)
        unfold nextOf Op.apply
        rw [OrderedMap.get_erase_of_ne m (Ne.symm ho)]
    | set key value =>
        by_cases hk : key = .nextVersion
        · subst hk
          obtain ⟨v, rfl, hv⟩ := ho
          simpa [nextOf, Op.apply] using hv
        · refine h.next_le.trans (le_of_eq ?_)
          unfold nextOf Op.apply
          rw [OrderedMap.get_insert_of_ne m value (Ne.symm hk)]
  · refine h.active v hv ?_
    unfold IsActive at ha ⊢
    cases op with
    | delete key =>
        rw [Op.apply, OrderedMap.get_erase] at ha
        split_ifs at ha with hk
        · exact absurd rfl ha
        · exact ha
    | set key value =>
        rw [Op.apply, OrderedMap.get_insert] at ha
        split_ifs at ha with hk
        · subst hk
          exact absurd ho.2 (not_le.mpr hv)
        · exact ha

theorem Grows.replay (h : Grows m₀ m) {ops : List (Op (Key K) (Value V))}
    (ho : ∀ op ∈ ops, OpGrows (nextOf m₀) op) : Grows m₀ (replay m ops) := by
  induction ops generalizing m with
  | nil => exact h
  | cons op ops ih =>
      exact ih (h.apply (ho op List.mem_cons_self)) fun op' h' => ho op' (List.mem_cons_of_mem op h')

/-! ## Calls -/

theorem opGrows_beginOps (h : Grows m₀ m) : ∀ op ∈ beginOps m, OpGrows (nextOf m₀) op := by
  intro op hop
  have hle := h.next_le
  simp only [beginOps, List.mem_cons, List.mem_append, List.not_mem_nil, or_false] at hop
  obtain (rfl | hop) | rfl := hop
  · exact ⟨_, rfl, by omega⟩
  · split_ifs at hop with hne
    · obtain rfl := List.mem_singleton.mp hop
      exact ⟨_, rfl⟩
    · cases hop
  · exact ⟨rfl, hle⟩

theorem opGrows_commitOps (v n : ℕ) : ∀ op ∈ commitOps m v, OpGrows n op := by
  intro op hop
  obtain hop | hop := List.mem_append.mp hop
  · obtain ⟨k, _, rfl⟩ := List.mem_map.mp hop
    exact fun h => nomatch h
  · obtain rfl := List.mem_singleton.mp hop
    exact fun h => nomatch h

theorem opGrows_rollbackOps (v n : ℕ) : ∀ op ∈ rollbackOps m v, OpGrows n op := by
  intro op hop
  obtain hop | hop := List.mem_append.mp hop
  · obtain ⟨k, _, hop⟩ := List.mem_flatMap.mp hop
    simp only [List.mem_cons, List.not_mem_nil, or_false] at hop
    obtain rfl | rfl := hop <;> exact fun h => nomatch h
  · obtain rfl := List.mem_singleton.mp hop
    exact fun h => nomatch h

omit [LinearOrder K] in
theorem opGrows_writeOps (t : TransactionState) (k : K) (value : Option V) (n : ℕ) :
    ∀ op ∈ t.writeOps k value, OpGrows n op := by
  intro op hop
  simp only [TransactionState.writeOps, List.mem_cons, List.not_mem_nil, or_false] at hop
  obtain rfl | rfl := hop
  · rfl
  · exact ⟨value, rfl⟩

/-- A program whose operations are known. -/
theorem keeps_of_yields {x : Action K V α}
    (h : ∀ m, Grows m₀ m → Yields x m fun _ ops => ∀ op ∈ ops, OpGrows (nextOf m₀) op) :
    Keeps (Grows m₀) x := by
  refine keeps_iff.mpr fun m hm => ?_
  obtain ⟨hstate, hops⟩ := h m hm
  rw [hstate]
  exact hm.replay hops

theorem keeps_begin : Keeps (Grows m₀) (TransactionState.begin : Action K V _) :=
  keeps_of_yields fun _ hm => (yields_begin hm.typed).mono fun _ _ h => h.2 ▸ opGrows_beginOps hm

theorem keeps_resume (t : TransactionState) : Keeps (Grows m₀) (t.resume : Action K V _) :=
  keeps_of_yields fun _ _ => (yields_resume t).mono fun _ _ h => by
    rw [h.1]
    exact fun _ hop => nomatch hop

theorem keeps_commit (t : TransactionState) : Keeps (Grows m₀) (t.commit : Action K V _) :=
  keeps_of_yields fun _ _ => (yields_commit t).mono fun _ _ h => by
    rw [h.2]
    split_ifs
    · exact fun _ hop => nomatch hop
    · exact opGrows_commitOps _ _

theorem keeps_rollback (t : TransactionState) : Keeps (Grows m₀) (t.rollback : Action K V _) :=
  keeps_of_yields fun _ _ => (yields_rollback t).mono fun _ _ h => by
    rw [h.2]
    split_ifs
    · exact fun _ hop => nomatch hop
    · exact opGrows_rollbackOps _ _

theorem keeps_writeVersion (t : TransactionState) (k : K) (value : Option V) :
    Keeps (Grows m₀) (t.writeVersion k value) :=
  keeps_of_yields fun _ _ => (t.yields_writeVersion k value).mono fun _ _ h => by
    split_ifs at h
    · rw [h.2]
      exact fun _ hop => nomatch hop
    · rw [h.2]
      exact fun _ hop => nomatch hop
    · rw [h.2]
      exact opGrows_writeOps t k value _

/-! ## Scripts -/

section Reads
variable {I : OrderedMap (Key K) (Value V) → Prop}

theorem keeps_decodeData (x : Value V) : Keeps I (decodeData x : Action K V _) := by
  cases x with
  | data value => exact keeps_pure
  | version | active | empty | raw => exact keeps_fail

theorem keeps_firstVisible (t : TransactionState) (found : List (Key K × Value V)) :
    Keeps I (t.firstVisible found) := by
  induction found with
  | nil => exact keeps_pure
  | cons e found ih =>
      obtain ⟨key, x⟩ := e
      cases key with
      | version k v =>
          unfold TransactionState.firstVisible
          split_ifs
          · exact keeps_decodeData x
          · exact ih
      | nextVersion | txnActive | txnActiveSnapshot | txnWrite | unversioned => exact keeps_fail

theorem keeps_get (t : TransactionState) (k : K) : Keeps I (t.get k : Action K V _) :=
  keeps_read.bind fun found => keeps_firstVisible t found.reverse

theorem keeps_visibleVersions (t : TransactionState) (found : List (Key K × Value V)) :
    Keeps I (visibleVersions t found) := by
  induction found with
  | nil => exact keeps_pure
  | cons e found ih =>
      obtain ⟨key, x⟩ := e
      cases key with
      | version k v => exact ih.bind fun _ => keeps_pure
      | nextVersion | txnActive | txnActiveSnapshot | txnWrite | unversioned => exact keeps_fail

theorem keeps_fill (size : ℕ) (versions : List (K × ℕ × Value V)) (buffer : List (K × V)) :
    Keeps I (ScanIterator.fill size versions buffer : Action K V _) := by
  induction versions generalizing buffer with
  | nil => exact keeps_pure
  | cons e versions ih =>
      obtain ⟨key, v, x⟩ := e
      unfold ScanIterator.fill
      split_ifs
      · exact ih buffer
      · refine (keeps_decodeData x).bind fun value => ?_
        cases value with
        | none => exact ih buffer
        | some value =>
            simp only
            split_ifs
            · exact keeps_pure
            · exact ih _

theorem keeps_scanAll (t : TransactionState) (range : K → Bool) :
    Keeps I (Script.scanAll t range : Action K V _) :=
  keeps_read.bind fun found => (keeps_visibleVersions t found).bind fun versions =>
    (keeps_fill _ versions []).bind fun _ => keeps_pure

end Reads

theorem keeps_script (t : TransactionState) (x : Script K V α) : Keeps (Grows m₀) (x.run t) := by
  induction x with
  | done result =>
      cases result with
      | ok a => exact keeps_pure
      | error c => exact keeps_fail
  | get key next ih => exact (keeps_get t key).bind ih
  | scan range next ih => exact (keeps_scanAll t range).bind ih
  | write key value next ih => exact (keeps_writeVersion t key value).bind fun _ => ih

/-! ## Ends of transactions -/

end ToyDB.Mvcc
