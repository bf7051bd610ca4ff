import ToyDB.Mvcc.Run
import ToyDB.Mvcc.Scan

/-!
# Time travel

A transaction as of a version sees, at any later time, the versions that the read-write
transaction of that version saw when it began. So all its reads are the same, by key
and by scan.
-/
namespace ToyDB.Mvcc
open ToyDB.Collections ToyDB.Effects ToyDB.Storage

variable {K V : Type} [LinearOrder K]

section AsOf
variable {w : World K V} {handle : Handle K V} {h : History K V}
  {m : OrderedMap (Key K) (Value V)}

/-- The visible versions are those that had committed when the transaction began, and its own
writes. -/
theorem Handle.Valid.visibleAt (hv : handle.Valid h) (hl : h.Legal) (hr : Represents m h)
    (ha : handle.state.readOnly = false → h.status handle.state.version = some .active)
    (k : K) (u : ℕ) : handle.state.visibleAt m k u =
      if u < handle.state.version then
        if handle.seen.status u = some .committed then (handle.seen.written u k).map .data else none
      else if u = handle.state.version ∧ handle.state.readOnly = false then
        (h.written handle.state.version k).map .data
      else none := by
  unfold TransactionState.visibleAt
  rw [hr.version]
  by_cases hu : u < handle.state.version
  · have hs := congrArg (Option.map (Value.data (V := V))) (hv.stored_visible hl hu k)
    rw [if_pos hu]
    split_ifs at hs ⊢ <;> exact hs
  · rw [if_neg hu]
    by_cases hown : u = handle.state.version ∧ handle.state.readOnly = false
    · obtain ⟨rfl, hro⟩ := hown
      have hvis : handle.state.isVisible handle.state.version = true := by
        rw [hv.isVisible hl, ← hv.next_eq hl hro, (hl.of_suffix hv.suffix).status_next]
        exact ⟨by simp, Or.inr ⟨hro, rfl⟩⟩
      have hstored : h.stored handle.state.version k = h.written handle.state.version k := by
        rw [History.stored, ha hro, if_neg (by simp)]
      rw [if_pos hvis, if_pos ⟨rfl, hro⟩, hstored]
    · rw [if_neg hown, if_neg]
      intro hvis
      obtain hlt | ⟨hro, heq⟩ := ((hv.isVisible hl u).mp hvis).2
      · exact hu hlt
      · exact hown ⟨heq, hro⟩

/-- The handle of a new read-write transaction. -/
theorem World.Valid.began_handle (hw : w.Valid) {t : TransactionState}
    (ht : (TransactionState.begin w.engine).result = .ok t) :
    t = ⟨w.history.next, false, w.history.activeSet⟩ ∧
      (w.call .begin).history = .began w.history.next :: w.history ∧
      ⟨t, w.history⟩ ∈ (w.call .begin).handles := by
  have hr := (yields_begin hw.represents.typed).2.1
  rw [hw.represents.nextOf_eq, hw.represents.activeOf_eq hw.legal, ht] at hr
  obtain rfl := Except.ok.inj hr
  simp [World.call, ht]

/-- The transaction as of the version of a transaction that began. -/
theorem World.Valid.asOf (hw : w.Valid) {w' : World K V} (hw' : Reaches (w.call .begin) w') :
    (TransactionState.beginReadOnly (some w.history.next) w'.engine).result =
        .ok ⟨w.history.next, true, w.history.activeSet⟩ ∧
      Handle.Valid ⟨⟨w.history.next, true, w.history.activeSet⟩, w.history⟩ w'.history := by
  have hv := hw'.valid hw.begin
  have ht := (yields_begin hw.represents.typed).2.1
  obtain ⟨_, hhist, _⟩ := hw.began_handle ht
  have hsuffix : .began w.history.next :: w.history <:+ w'.history := hhist ▸ hw'.extends.1
  have hlt : w.history.next < w'.history.next := History.next_mono hsuffix
  have hbefore : w'.history.before w.history.next = w.history := by
    rw [hv.legal.before_eq hsuffix (Nat.lt_succ_self _)]
    simp [History.before]
  have hr := (yields_beginReadOnly hv.represents.typed (some w.history.next)).2.2
  simp only [hv.represents.nextOf_eq, hv.represents.snapshotOf_eq hv.legal, hbefore] at hr
  rw [if_neg (not_le.mpr hlt)] at hr
  exact ⟨hr, (List.suffix_cons _ _).trans hsuffix, le_rfl, rfl, fun hro => by cases hro⟩

end AsOf

/-- Opened at any time after a transaction began, a transaction as of its version always
reads what that transaction saw when it began: every key, range and prefix. -/
theorem time_travel {w w' : World K V} (hw : Reaches World.empty w) {t : TransactionState}
    (ht : (TransactionState.begin w.engine).result = .ok t) (hw' : Reaches (w.call .begin) w') :
    ∃ s, (TransactionState.beginReadOnly (some t.version) w'.engine).result = .ok s ∧
      (∀ w'', Reaches w' w'' → ∀ k,
        (s.get k w''.engine).result = (t.get k (w.call .begin).engine).result) ∧
      ∀ worlds : List (World K V), (∀ w'' ∈ worlds, Reaches w' w'') → ∀ size,
        (∀ first last, (s.scan first last).nexts size (worlds.map World.engine) =
          (t.scan first last).nexts size (worlds.map fun _ => (w.call .begin).engine)) ∧
        ∀ isUnder, (s.scanPrefix isUnder).nexts size (worlds.map World.engine) =
          (t.scanPrefix isUnder).nexts size (worlds.map fun _ => (w.call .begin).engine) := by
  have hv := hw.valid World.valid_empty
  obtain ⟨rfl, hhist, hmem⟩ := hv.began_handle ht
  have hbegin := hv.begin
  have hown : ∀ k, (w.call .begin).history.written w.history.next k = none := fun k => by
    rw [hhist]
    exact hv.legal.not_written hv.legal.status_next
  have hactive : (w.call .begin).history.status w.history.next = some .active := by
    rw [hhist]
    simp [History.status]
  have hseen : ∀ w'', Reaches w' w'' → ∀ k u,
      TransactionState.visibleAt ⟨w.history.next, true, w.history.activeSet⟩ w''.engine k u =
      TransactionState.visibleAt ⟨w.history.next, false, w.history.activeSet⟩
        (w.call .begin).engine k u := by
    intro w'' hw'' k u
    have hv'' := (hw'.trans hw'').valid hbegin
    rw [(hv.asOf (hw'.trans hw'')).2.visibleAt hv''.legal hv''.represents (fun hro => by cases hro),
      (hbegin.handles _ hmem).visibleAt hbegin.legal hbegin.represents fun _ => hactive]
    simp [hown]
  have hscan : ∀ worlds : List (World K V), (∀ w'' ∈ worlds, Reaches w' w'') → ∀ size p,
      (ScanIterator.new ⟨w.history.next, true, w.history.activeSet⟩ (Key.isVersion p)).nexts size
        (worlds.map World.engine) =
      (ScanIterator.new ⟨w.history.next, false, w.history.activeSet⟩ (Key.isVersion p)).nexts size
        (worlds.map fun _ => (w.call .begin).engine) := by
    intro worlds hworlds size p
    have hstep : ScanIterator.InStep (V := V)
        (ScanIterator.new ⟨w.history.next, true, w.history.activeSet⟩ (Key.isVersion p))
        (ScanIterator.new ⟨w.history.next, false, w.history.activeSet⟩ (Key.isVersion p)) := by
      refine ⟨rfl, rfl, fun range hrange key hk => ?_⟩
      obtain rfl := Option.some.inj hrange
      cases key with
      | version k u => exact ⟨k, u, rfl⟩
      | _ => cases hk
    have heq := ScanIterator.nexts_eq size hstep fun m (hm : m ∈ worlds.map World.engine) => by
        obtain ⟨w'', hin, rfl⟩ := List.mem_map.mp hm
        exact hseen w'' (hworlds w'' hin)
    rw [List.map_map] at heq
    exact heq
  refine ⟨_, (hv.asOf hw').1, fun w'' hw'' k => ?_, fun worlds hworlds size =>
    ⟨fun first last => hscan worlds hworlds size _, fun isUnder => hscan worlds hworlds size _⟩⟩
  have hv'' := (hw'.trans hw'').valid hbegin
  rw [(TransactionState.yields_get _ hv''.represents.typed k).2.1,
    (TransactionState.yields_get _ hbegin.represents.typed k).2.1,
    (hv.asOf (hw'.trans hw'')).2.view_eq hv''.legal hv''.represents (fun hro => by cases hro),
    (hbegin.handles _ hmem).view_eq hbegin.legal hbegin.represents fun _ => hactive]
  simp [Handle.read, hown]

/-! ## A run -/

/-- A transaction writes key 1 and is active when the next one begins. -/
def oneWriter : World ℕ ℕ := World.empty.run [.begin, .write 0 1 (some 5)]

/-- Later, both have finished, and key 1 has two more values. -/
def afterWriters : World ℕ ℕ := (oneWriter.call .begin).run
  [.commit 0, .begin, .write 2 1 (some 7), .commit 2, .write 1 3 (some 8), .rollback 1]

theorem time_travel_two : ∃ s,
    (TransactionState.beginReadOnly (some 2) afterWriters.engine).result = .ok s ∧
      (s.get 1 afterWriters.engine).result =
        (TransactionState.get ⟨2, false, {1}⟩ 1 (oneWriter.call .begin).engine).result := by
  have hw : Reaches World.empty oneWriter := World.AllAllowed.reaches (by decide +kernel)
  have hw' : Reaches (oneWriter.call .begin) afterWriters :=
    World.AllAllowed.reaches (by decide +kernel)
  obtain ⟨s, hs, hget, _⟩ := time_travel hw (t := ⟨2, false, {1}⟩) (by decide +kernel) hw'
  exact ⟨s, hs, hget afterWriters (.refl _) 1⟩

end ToyDB.Mvcc
