import ToyDB.Mvcc.Transaction

/-!
# What the transaction programs do

For each program, its result and its engine operations as functions of the engine it
runs on. The engine must store under each key a value of the key's kind.
-/
namespace ToyDB.Mvcc
open ToyDB.Collections ToyDB.Effects ToyDB.Storage

variable {K V : Type} [LinearOrder K]

/-- The value is of the kind that the code stores under the key. -/
def Value.Fits (value : Value V) : Key K → Prop
  | .nextVersion => ∃ v, value = .version v
  | .txnActive _ | .txnWrite _ _ => value = .empty
  | .txnActiveSnapshot _ => ∃ s, value = .active s
  | .version _ _ => ∃ x, value = .data x
  | .unversioned _ => ∃ x, value = .raw x

/-- Every stored value fits its key. -/
def Typed (m : OrderedMap (Key K) (Value V)) : Prop :=
  ∀ key value, m.get key = some value → value.Fits key

section Typed
variable {m : OrderedMap (Key K) (Value V)}

theorem Typed.insert (h : Typed m) {key : Key K} {value : Value V} (hf : value.Fits key) :
    Typed (m.insert key value) := by
  intro key' value' hg
  rw [OrderedMap.get_insert] at hg
  split_ifs at hg with hk
  · obtain rfl := Option.some.inj hg
    exact hk ▸ hf
  · exact h _ _ hg

theorem Typed.erase (h : Typed m) (key : Key K) : Typed (m.erase key) := by
  intro key' value' hg
  rw [OrderedMap.get_erase] at hg
  split_ifs at hg
  exact h _ _ hg

/-- The operation stores a value that fits its key. -/
def OpFits : Op (Key K) (Value V) → Prop
  | .set key value => value.Fits key
  | .delete _ => True

theorem Typed.replay (h : Typed m) {ops : List (Op (Key K) (Value V))}
    (hops : ∀ op ∈ ops, OpFits op) : Typed (replay m ops) := by
  induction ops generalizing m with
  | nil => exact h
  | cons op ops ih =>
      refine ih ?_ fun op' h' => hops op' (List.mem_cons_of_mem op h')
      have := hops op List.mem_cons_self
      cases op with
      | set key value => exact h.insert this
      | delete key => exact h.erase key

end Typed

/-! ## Beginning -/

def Key.activeVersion : Key K → Option ℕ
  | .txnActive v => some v
  | _ => none

/-- The version that a new transaction gets. -/
def nextOf (m : OrderedMap (Key K) (Value V)) : ℕ :=
  match m.get .nextVersion with
  | some (.version v) => v
  | _ => 1

/-- The active versions of an engine. -/
def activeOf (m : OrderedMap (Key K) (Value V)) : Finset ℕ :=
  ((m.scan Key.isTxnActive).filterMap fun e => e.1.activeVersion).toFinset

/-- The operations of beginning a transaction. -/
def beginOps (m : OrderedMap (Key K) (Value V)) : List (Op (Key K) (Value V)) :=
  .set .nextVersion (.version (nextOf m + 1)) ::
    (if (activeOf m).Nonempty then [.set (.txnActiveSnapshot (nextOf m)) (.active (activeOf m))]
      else []) ++ [.set (.txnActive (nextOf m)) .empty]

section Begin
variable {m : OrderedMap (Key K) (Value V)}

theorem mem_activeOf {v : ℕ} : v ∈ activeOf m ↔ (m.get (.txnActive v)).isSome := by
  rw [activeOf, List.mem_toFinset, List.mem_filterMap]
  constructor
  · rintro ⟨⟨key, value⟩, hmem, hkey⟩
    cases key with
    | txnActive u =>
        obtain rfl := Option.some.inj hkey
        rw [(OrderedMap.mem_scan.mp hmem).1]
        rfl
    | _ => cases hkey
  · intro h
    obtain ⟨value, hv⟩ := Option.isSome_iff_exists.mp h
    exact ⟨(.txnActive v, value), OrderedMap.mem_scan.mpr ⟨hv, rfl⟩, rfl⟩

theorem yields_decodeVersion (h : Typed m) : Yields (decodeVersion (m.get .nextVersion)) m
    fun r ops => r = .ok (nextOf m) ∧ ops = [] := by
  unfold nextOf
  cases hv : m.get .nextVersion with
  | none => exact ⟨rfl, rfl, rfl⟩
  | some value =>
      obtain ⟨v, rfl⟩ := h _ _ hv
      exact ⟨rfl, rfl, rfl⟩

theorem yields_collectActive {l : List (Key K × Value V)} (hl : ∀ e ∈ l, e.1.isTxnActive)
    (acc : Finset ℕ) : Yields (collectActive l acc) m fun r ops => ops = [] ∧
      r = .ok (acc ∪ (l.filterMap fun e => e.1.activeVersion).toFinset) := by
  induction l generalizing acc with
  | nil => exact yields_pure ⟨rfl, by simp⟩
  | cons e l ih =>
      obtain ⟨key, value⟩ := e
      have hkey := hl (key, value) List.mem_cons_self
      cases key with
      | txnActive v =>
          refine (ih (fun e he => hl e (List.mem_cons_of_mem _ he)) (insert v acc)).mono ?_
          rintro _ _ ⟨rfl, rfl⟩
          refine ⟨rfl, congrArg _ ?_⟩
          rw [List.filterMap_cons_some (f := fun e : Key K × Value V => e.1.activeVersion) (b := v) rfl,
            List.toFinset_cons, Finset.insert_union, Finset.union_insert]
      | _ => cases hkey

theorem yields_scanActive : Yields (scanActive : Action K V (Finset ℕ)) m fun r ops =>
    r = .ok (activeOf m) ∧ ops = [] := by
  refine Yields.read yields_scan ((yields_collectActive ?_ ∅).mono ?_)
  · exact fun e he => (OrderedMap.mem_scan (v := e.2).mp he).2
  · rintro _ _ ⟨rfl, rfl⟩
    exact ⟨by rw [Finset.empty_union]; rfl, rfl⟩

theorem activeOf_insert_nextVersion (x : Value V) :
    activeOf (m.insert .nextVersion x) = activeOf m := by
  ext v
  rw [mem_activeOf, mem_activeOf, OrderedMap.get_insert_of_ne _ _ (by simp)]

theorem yields_begin (h : Typed m) : Yields (TransactionState.begin : Action K V _) m fun r ops =>
    r = .ok ⟨nextOf m, false, activeOf m⟩ ∧ ops = beginOps m := by
  refine Yields.read yields_get (Yields.read (yields_decodeVersion h) ?_)
  refine Yields.then yields_set (Yields.read yields_scanActive ?_)
  rw [show replay m [.set .nextVersion (.version (nextOf m + 1))] =
    m.insert .nextVersion (.version (nextOf m + 1)) from rfl, activeOf_insert_nextVersion, beginOps]
  by_cases hne : (activeOf m).Nonempty
  · rw [if_pos hne, if_pos hne]
    exact Yields.then yields_set (Yields.then yields_set (yields_pure ⟨rfl, rfl⟩))
  · rw [if_neg hne, if_neg hne]
    exact Yields.then yields_set (yields_pure ⟨rfl, rfl⟩)

/-- The active set that was recorded for a version. -/
def snapshotOf (m : OrderedMap (Key K) (Value V)) (v : ℕ) : Finset ℕ :=
  match m.get (.txnActiveSnapshot v) with
  | some (.active s) => s
  | _ => ∅

theorem yields_beginReadOnly (h : Typed m) (asOf : Option ℕ) :
    Yields (TransactionState.beginReadOnly asOf : Action K V _) m fun r ops => ops = [] ∧ r =
      match asOf with
      | none => .ok ⟨nextOf m, true, activeOf m⟩
      | some v =>
          if nextOf m ≤ v then .error (.error (.invalidInput s!"version {v} does not exist"))
          else .ok ⟨v, true, snapshotOf m v⟩ := by
  refine Yields.read yields_get (Yields.read (yields_decodeVersion h) ?_)
  cases asOf with
  | none => exact Yields.read yields_scanActive (yields_pure ⟨rfl, rfl⟩)
  | some v =>
      have hdecode : Yields (decodeActive (m.get (.txnActiveSnapshot v))) m fun r ops =>
          r = .ok (snapshotOf m v) ∧ ops = [] := by
        unfold snapshotOf
        cases hv : m.get (.txnActiveSnapshot v) with
        | none => exact ⟨rfl, rfl, rfl⟩
        | some value =>
            obtain ⟨s, rfl⟩ := h _ _ hv
            exact ⟨rfl, rfl, rfl⟩
      by_cases hle : nextOf m ≤ v
      · simp only [hle, if_true]
        exact yields_fail ⟨rfl, rfl⟩
      · simp only [hle, if_false]
        exact Yields.read yields_get (Yields.read hdecode (yields_pure ⟨rfl, rfl⟩))

theorem yields_resume (t : TransactionState) : Yields (t.resume : Action K V _) m fun r ops =>
    ops = [] ∧ r = if t.readOnly ∨ (m.get (.txnActive t.version)).isSome then .ok t
      else .error (.error (.invalidInput s!"no active transaction at version {t.version}")) := by
  unfold TransactionState.resume
  by_cases hro : t.readOnly
  · simp only [hro, if_true, true_or]
    exact yields_pure ⟨rfl, rfl⟩
  · simp only [hro]
    refine Yields.read yields_get ?_
    cases m.get (.txnActive t.version) <;> exact ⟨rfl, rfl, rfl⟩

end Begin

/-! ## Finishing -/

def Key.recordKey : Key K → Option K
  | .txnWrite _ k => some k
  | _ => none

/-- The keys with write records of a version. -/
def writeRecords (m : OrderedMap (Key K) (Value V)) (v : ℕ) : List K :=
  (m.scan (Key.isTxnWrite v)).filterMap fun e => e.1.recordKey

def commitOps (m : OrderedMap (Key K) (Value V)) (v : ℕ) : List (Op (Key K) (Value V)) :=
  ((writeRecords m v).map fun k => .delete (.txnWrite v k)) ++ [.delete (.txnActive v)]

def rollbackOps (m : OrderedMap (Key K) (Value V)) (v : ℕ) : List (Op (Key K) (Value V)) :=
  ((writeRecords m v).flatMap fun k => [.delete (.version k v), .delete (.txnWrite v k)]) ++
    [.delete (.txnActive v)]

section Finish
variable {m : OrderedMap (Key K) (Value V)}

/-- The scanned write records are those of the keys. -/
theorem scan_isTxnWrite (v : ℕ) : (m.scan (Key.isTxnWrite v)).map Prod.fst =
    (writeRecords m v).map (Key.txnWrite v) := by
  have hall : ∀ e ∈ m.scan (Key.isTxnWrite v), e.1.isTxnWrite v :=
    fun e he => (OrderedMap.mem_scan (v := e.2).mp he).2
  rw [writeRecords]
  generalize m.scan (Key.isTxnWrite v) = l at hall ⊢
  induction l with
  | nil => rfl
  | cons e l ih =>
      obtain ⟨key, value⟩ := e
      have hkey := hall (key, value) List.mem_cons_self
      cases key with
      | txnWrite u k =>
          obtain rfl : u = v := by simpa [Key.isTxnWrite] using hkey
          rw [List.map_cons, List.filterMap_cons_some (f := fun e : Key K × Value V => e.1.recordKey)
            (b := k) rfl, List.map_cons, ih fun e he => hall e (List.mem_cons_of_mem _ he)]
      | _ => cases hkey

theorem mem_writeRecords {v : ℕ} {k : K} :
    k ∈ writeRecords m v ↔ (m.get (.txnWrite v k)).isSome := by
  have hmem : k ∈ writeRecords m v ↔ Key.txnWrite v k ∈ (writeRecords m v).map (Key.txnWrite v) := by
    simp
  rw [hmem, ← scan_isTxnWrite, List.mem_map]
  constructor
  · rintro ⟨e, he, hk⟩
    rw [← hk, (OrderedMap.mem_scan (v := e.2).mp he).1]
    rfl
  · intro h
    obtain ⟨value, hv⟩ := Option.isSome_iff_exists.mp h
    exact ⟨(_, value), OrderedMap.mem_scan.mpr ⟨hv, by simp [Key.isTxnWrite]⟩, rfl⟩

theorem yields_commit (t : TransactionState) : Yields (t.commit : Action K V Unit) m fun r ops =>
    r = .ok () ∧ ops = if t.readOnly then [] else commitOps m t.version := by
  unfold TransactionState.commit
  by_cases hro : t.readOnly
  · simp only [hro, if_true]
    exact yields_pure ⟨rfl, rfl⟩
  · simp only [hro]
    refine Yields.read yields_scan ?_
    refine (yields_forM fun e m => yields_delete).then (yields_delete.mono ?_)
    rintro _ _ ⟨rfl, rfl⟩
    refine ⟨rfl, ?_⟩
    have hmap := congrArg (List.map (Op.delete (V := Value V))) (scan_isTxnWrite (m := m) t.version)
    simp only [List.map_map] at hmap
    exact congrArg (· ++ _) hmap

theorem yields_rollbackKeys {v : ℕ} {l : List (Key K × Value V)} (ks : List K)
    (hl : l.map Prod.fst = ks.map (Key.txnWrite v)) :
    Yields (TransactionState.rollbackKeys v l) m fun r ops => ops = [] ∧
      r = .ok (ks.flatMap fun k => [.version k v, .txnWrite v k]) := by
  induction ks generalizing l with
  | nil =>
      obtain rfl := List.map_eq_nil_iff.mp hl
      exact yields_pure ⟨rfl, rfl⟩
  | cons k ks ih =>
      obtain ⟨⟨key, value⟩, l, rfl, rfl, hrest⟩ := List.map_eq_cons_iff.mp hl
      refine yields_bind ((ih hrest).mono ?_)
      rintro _ _ ⟨rfl, rfl⟩
      exact yields_pure ⟨rfl, rfl⟩

theorem yields_rollback (t : TransactionState) :
    Yields (t.rollback : Action K V Unit) m fun r ops =>
      r = .ok () ∧ ops = if t.readOnly then [] else rollbackOps m t.version := by
  unfold TransactionState.rollback
  by_cases hro : t.readOnly
  · simp only [hro, if_true]
    exact yields_pure ⟨rfl, rfl⟩
  · simp only [hro]
    refine Yields.read yields_scan (yields_bind ((yields_rollbackKeys _ (scan_isTxnWrite _)).mono ?_))
    rintro _ _ ⟨rfl, rfl⟩
    refine (yields_forM fun key m => yields_delete).then (yields_delete.mono ?_)
    rintro _ _ ⟨rfl, rfl⟩
    exact ⟨rfl, by simp [rollbackOps, List.map_flatMap]⟩

end Finish

/-! ## Writing and reading -/

namespace TransactionState
variable {m : OrderedMap (Key K) (Value V)} (t : TransactionState)

/-- The key is a visible version. -/
def sees : Key K → Bool
  | .version _ v => t.isVisible v
  | _ => false

omit [LinearOrder K] in
@[simp] theorem sees_version (k : K) (v : ℕ) : t.sees (.version k v) = t.isVisible v := rfl

/-- The latest version of the key is invisible. -/
def conflicts (m : OrderedMap (Key K) (Value V)) (k : K) : Bool :=
  (m.scan (Key.versionsFrom k (t.active.min.untopD (t.version + 1)))).getLast?.any fun e =>
    !t.sees e.1

/-- The operations of an accepted write. -/
def writeOps (k : K) (value : Option V) : List (Op (Key K) (Value V)) :=
  [.set (.txnWrite t.version k) .empty, .set (.version k t.version) (.data value)]

/-- The value that the transaction reads for a key. -/
def view (m : OrderedMap (Key K) (Value V)) (k : K) : Option V :=
  match (m.scan (Key.versionsTo k t.version)).reverse.find? fun e => t.sees e.1 with
  | some (_, .data value) => value
  | _ => none

theorem yields_writeVersion (k : K) (value : Option V) :
    Yields (t.writeVersion k value) m fun r ops =>
      if t.readOnly then r = .error (.error .readOnly) ∧ ops = []
      else if t.conflicts m k then r = .error (.error .serialization) ∧ ops = []
      else r = .ok () ∧ ops = t.writeOps k value := by
  unfold writeVersion
  refine yields_ensure (fun hro => ?_) (fun hro => ?_)
  · simp only [hro, Bool.false_eq_true, if_false]
    refine Yields.read yields_scan ?_
    have hwrite : Yields (do
        Store.set (.txnWrite t.version k) .empty
        Store.set (.version k t.version) (.data value) : Action K V Unit) m fun r ops =>
        r = .ok () ∧ ops = t.writeOps k value := by
      refine Yields.then yields_set (yields_set.mono ?_)
      rintro _ _ ⟨rfl, rfl⟩
      exact ⟨rfl, rfl⟩
    unfold conflicts
    cases hlast : (m.scan (Key.versionsFrom k (t.active.min.untopD (t.version + 1)))).getLast? with
    | none => exact Yields.read (yields_pure ⟨rfl, rfl⟩) (hwrite.mono fun r ops h => by simpa using h)
    | some e =>
        obtain ⟨key, x⟩ := e
        have hkey := (OrderedMap.mem_scan.mp (List.mem_of_getLast? hlast)).2
        cases key with
        | version k' v =>
            refine yields_ensure (fun hvis => ?_) (fun hvis => ?_)
            · exact hwrite.mono fun r ops h => by simpa [hvis] using h
            · simp [hvis]
        | _ => cases hkey
  · simp [hro]

theorem yields_firstVisible {l : List (Key K × Value V)}
    (hl : ∀ e ∈ l, (∃ k v, e.1 = .version k v) ∧ ∃ x, e.2 = .data x) :
    Yields (t.firstVisible l) m fun r ops => ops = [] ∧ r = .ok
      (match l.find? fun e => t.sees e.1 with
      | some (_, .data value) => value
      | _ => none) := by
  induction l with
  | nil => exact yields_pure ⟨rfl, rfl⟩
  | cons e l ih =>
      obtain ⟨key, value⟩ := e
      obtain ⟨⟨k, v, rfl⟩, x, rfl⟩ := hl (key, value) List.mem_cons_self
      unfold firstVisible
      by_cases hv : t.isVisible v
      · rw [if_pos hv, List.find?_cons_of_pos (a := (Key.version k v, Value.data x)) hv]
        exact yields_pure ⟨rfl, rfl⟩
      · rw [if_neg hv, List.find?_cons_of_neg (a := (Key.version k v, Value.data x)) hv]
        exact ih fun e he => hl e (List.mem_cons_of_mem _ he)

theorem yields_get (h : Typed m) (k : K) : Yields (t.get k) m fun r ops =>
    r = .ok (t.view m k) ∧ ops = [] := by
  refine Yields.read yields_scan ((t.yields_firstVisible fun e he => ?_).mono ?_)
  · obtain ⟨key, value⟩ := e
    obtain ⟨hget, hkey⟩ := OrderedMap.mem_scan.mp (List.mem_reverse.mp he)
    cases key with
    | version k' v => exact ⟨⟨k', v, rfl⟩, h _ _ hget⟩
    | _ => cases hkey
  · rintro _ _ ⟨rfl, rfl⟩
    exact ⟨rfl, rfl⟩

end TransactionState
end ToyDB.Mvcc
