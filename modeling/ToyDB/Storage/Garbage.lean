import ToyDB.Storage.BitCask

/-!
# Garbage accounting

The status of a store compares the size of the log file with the size that its live
entries alone would take. Every live entry takes up bytes of its own in the file, whatever
the file holds, so that the difference never underflows; after a compaction the live
entries are all there is.
-/
namespace ToyDB.Storage
open ToyDB.Collections

/-- Engine status. -/
structure Status where
  name : String
  keys : ℕ
  size : ℕ
  diskSize : ℕ
  liveDiskSize : ℕ
  deriving DecidableEq

/-- The on-disk size of garbage data. Unsigned subtraction does not go below zero. -/
def Status.garbageDiskSize (self : Status) : Except Failure ℕ :=
  if self.liveDiskSize ≤ self.diskSize then .ok (self.diskSize - self.liveDiskSize)
  else .error (.panic "attempt to subtract with overflow")

namespace BitCask

def status (self : BitCask) : Status :=
  let keys := self.keydir.entries.length
  let size := (self.keydir.entries.map fun (key, location) => key.length + location.length).sum
  ⟨"bitcask", keys, size, self.log.length, size + 8 * keys⟩

/-- Opens a file, and compacts it if its garbage has a size and a fraction of the whole;
the fraction is a comparison of both sizes. -/
def newMaybeCompact (fraction : ℕ → ℕ → Bool) (garbageMinBytes : ℕ) (file : Bytes) :
    Except Failure BitCask := do
  let engine := new file
  let garbage ← engine.status.garbageDiskSize
  if garbage > 0 ∧ garbage ≥ garbageMinBytes ∧ fraction garbage engine.status.diskSize then
    engine.compact
  else return engine

/-- What changes a store. The tail of the file is cut off before it is opened again. -/
inductive Change where
  | set (key value : Bytes)
  | delete (key : Bytes)
  | compact
  | truncate (length : ℕ)
  | reopen

def change (self : BitCask) : Change → Except Failure BitCask
  | .set key value => .ok (self.set key value)
  | .delete key => .ok (self.delete key)
  | .compact => self.compact
  | .truncate length => .ok (new (self.log.take length))
  | .reopen => .ok (new self.log)

end BitCask

/-! ## What the live entries take up -/

namespace KeyDir

/-- The size of the entry of a value. -/
def entrySize (key : Bytes) (location : ValueLocation) : ℕ := 8 + key.length + location.length

/-- The live entries lie in a file of this size, and take up no more of it. -/
structure Fits (keydir : KeyDir) (size : ℕ) : Prop where
  total_le : keydir.total entrySize ≤ size
  stop_le : ∀ {key location}, keydir.get key = some location → location.stop ≤ size

variable {keydir : KeyDir} {size next : ℕ} {key : Bytes} {location : ValueLocation}

theorem fits_empty (size : ℕ) : Fits OrderedMap.empty size where
  total_le := Nat.zero_le size
  stop_le h := by cases h

theorem Fits.insert (h : Fits keydir size) (hnext : size + entrySize key location ≤ next)
    (hstop : location.stop ≤ next) : Fits (keydir.insert key location) next where
  total_le := by
    have htotal := keydir.total_insert_le key location entrySize
    have hle := h.total_le
    omega
  stop_le {k l} hget := by
    rw [OrderedMap.get_insert] at hget
    split_ifs at hget
    · cases hget
      exact hstop
    · have hle := h.stop_le hget
      omega

theorem Fits.erase (h : Fits keydir size) (key : Bytes) (hnext : size ≤ next) :
    Fits (keydir.erase key) next where
  total_le := ((keydir.total_erase_le key entrySize).trans h.total_le).trans hnext
  stop_le {k l} hget := by
    rw [OrderedMap.get_erase] at hget
    split_ifs at hget
    exact (h.stop_le hget).trans hnext

end KeyDir

namespace Log
open KeyDir
variable {file : Bytes} {offset next : ℕ} {key : Bytes}

theorem length_encodeEntry (key : Bytes) (value : Option Bytes) :
    (encodeEntry key value).length = 8 + key.length + (value.getD []).length := by
  simp only [encodeEntry, List.length_append, Encoding.length_beBytes]

/-- An entry takes up the bytes up to the next one, and lies in the file. -/
theorem readEntry_le {location : Option ValueLocation} (hoffset : offset ≤ file.length)
    (h : readEntry file offset = some (key, location, next)) :
    offset + 8 + key.length + (location.map ValueLocation.length).getD 0 = next ∧
      next ≤ file.length ∧ ∀ l ∈ location, l.stop = next := by
  unfold readEntry at h
  dsimp only at h
  split_ifs at h with h8 hkey hpast hpast
  all_goals
    rw [List.length_drop] at h8 hkey
    cases h
  · rw [Option.any_some, decide_eq_true_eq, not_lt, ValueLocation.stop] at hpast
    dsimp only at hpast
    simp only [List.length_take, List.length_drop, Option.map_some, Option.getD_some,
      Option.mem_def, Option.some.injEq, forall_eq', ValueLocation.stop, and_true]
    omega
  · simp only [List.length_take, List.length_drop, Option.map_none, Option.getD_none,
      Option.mem_def, reduceCtorEq, false_implies, implies_true, and_true]
    omega

/-- Scanning records entries that lie one after the other. -/
theorem scanFrom_fits (steps : ℕ) {keydir : KeyDir} (hoffset : offset ≤ file.length)
    (h : Fits keydir offset) :
    Fits (scanFrom steps file offset keydir).2 (scanFrom steps file offset keydir).1.length := by
  induction steps generalizing offset keydir with
  | zero => exact ⟨h.total_le.trans hoffset, fun hget => (h.stop_le hget).trans hoffset⟩
  | succ steps ih =>
      rw [scanFrom]
      split_ifs with hlt
      · cases hread : readEntry file offset with
        | none =>
            dsimp only
            rw [List.length_take, Nat.min_eq_left hoffset]
            exact h
        | some entry =>
            obtain ⟨key, location, next⟩ := entry
            obtain ⟨hnext, hle, hstop⟩ := readEntry_le hoffset hread
            refine ih hle ?_
            cases location with
            | none =>
                simp only [Option.map_none, Option.getD_none] at hnext
                exact h.erase key (by omega)
            | some location =>
                simp only [Option.map_some, Option.getD_some] at hnext
                refine h.insert ?_ (hstop location rfl).le
                unfold entrySize
                omega
      · exact ⟨h.total_le.trans hoffset, fun hget => (h.stop_le hget).trans hoffset⟩

theorem readValue_of_stop_le {location : ValueLocation} (h : location.stop ≤ file.length) :
    ∃ value, readValue file location = .ok value ∧ value.length = location.length := by
  refine ⟨_, if_pos h, ?_⟩
  unfold ValueLocation.stop at h
  rw [List.length_take, List.length_drop]
  omega

end Log

namespace BitCask
open KeyDir
variable {self : BitCask}

/-- The live entries of the store lie in its file. -/
abbrev Accounted (self : BitCask) : Prop := Fits self.keydir self.log.length

theorem liveDiskSize_status (self : BitCask) :
    self.status.liveDiskSize = self.keydir.total entrySize := by
  change (self.keydir.entries.map _).sum + 8 * self.keydir.entries.length =
    (self.keydir.entries.map _).sum
  induction self.keydir.entries with
  | nil => rfl
  | cons entry entries ih =>
      obtain ⟨key, location⟩ := entry
      rw [List.map_cons, List.map_cons, List.sum_cons, List.sum_cons, List.length_cons, ← ih,
        entrySize]
      dsimp only
      omega

theorem Accounted.live_le (h : self.Accounted) :
    self.status.liveDiskSize ≤ self.status.diskSize :=
  self.liveDiskSize_status.trans_le h.total_le

theorem accounted_new (file : Bytes) : (new file).Accounted :=
  Log.scanFrom_fits file.length (Nat.zero_le _) (fits_empty 0)

theorem Accounted.set (h : self.Accounted) (key value : Bytes) : (self.set key value).Accounted := by
  refine Fits.insert h ?_ ?_
  · change self.log.length + (8 + key.length + value.length) ≤ (self.log ++ _).length
    rw [List.length_append, Log.length_encodeEntry, Option.getD_some]
  · change self.log.length + 8 + key.length + value.length ≤ (self.log ++ _).length
    rw [List.length_append, Log.length_encodeEntry, Option.getD_some]
    omega

theorem Accounted.delete (h : self.Accounted) (key : Bytes) : (self.delete key).Accounted := by
  refine Fits.erase h key ?_
  change self.log.length ≤ (self.log ++ _).length
  rw [List.length_append]
  exact Nat.le_add_right _ _

/-! ## Compaction -/

/-- A store whose live entries are all there is. -/
def Compacted (self : BitCask) : Prop := self.keydir.total entrySize = self.log.length

/-- Copying live entries of new keys adds their sizes. -/
theorem Compacted.set (h : self.Compacted) {key : Bytes} (hkey : self.keydir.get key = none)
    (value : Bytes) : (self.set key value).Compacted := by
  change (self.keydir.insert key _).total entrySize = (self.log ++ _).length
  rw [OrderedMap.total_insert_of_get_none hkey, h, List.length_append, Log.length_encodeEntry]
  rfl

theorem copy_compacted {file : Bytes} {located : List (Bytes × ValueLocation)}
    (hread : ∀ e ∈ located, e.2.stop ≤ file.length)
    (hsorted : located.Pairwise fun a b => a.1 < b.1) {new : BitCask}
    (hnew : ∀ e ∈ located, new.keydir.get e.1 = none) (haccounted : new.Accounted)
    (hcompacted : new.Compacted) :
    ∃ result, located.foldlM (fun (new : BitCask) (key, location) => do
        let value ← Log.readValue file location
        let (location, log) := Log.writeEntry new.log key (some value)
        return (⟨log, new.keydir.insert key location⟩ : BitCask)) new =
          (.ok result : Except Failure BitCask) ∧ result.Accounted ∧ result.Compacted := by
  induction located generalizing new with
  | nil => exact ⟨new, rfl, haccounted, hcompacted⟩
  | cons entry located ih =>
      obtain ⟨key, location⟩ := entry
      obtain ⟨hstop, hread⟩ := List.forall_mem_cons.mp hread
      obtain ⟨hnone, hnew⟩ := List.forall_mem_cons.mp hnew
      obtain ⟨hlt, hsorted⟩ := List.pairwise_cons.mp hsorted
      obtain ⟨value, hvalue, -⟩ := Log.readValue_of_stop_le hstop
      have hrest : ∀ e ∈ located, (new.set key value).keydir.get e.1 = none := by
        intro e he
        exact (OrderedMap.get_insert_of_ne _ _ (hlt e he).ne').trans (hnew e he)
      obtain ⟨result, hresult, hdone⟩ :=
        ih hread hsorted hrest (haccounted.set key value) (hcompacted.set hnone value)
      refine ⟨result, ?_, hdone⟩
      rw [List.foldlM_cons]
      simp only [hvalue]
      exact hresult

/-- Compaction succeeds, and leaves only what is live. -/
theorem Accounted.compact (h : self.Accounted) :
    ∃ new, self.compact = .ok new ∧ new.Accounted ∧ new.Compacted := by
  refine copy_compacted (fun e he => ?_) self.keydir.sorted (fun _ _ => rfl) (fits_empty 0) rfl
  exact h.stop_le (OrderedMap.get_eq_some_iff.mpr he)

/-! ## Runs -/

theorem Accounted.change (h : self.Accounted) (change : Change) :
    ∃ next, self.change change = .ok next ∧ next.Accounted := by
  cases change with
  | set key value => exact ⟨_, rfl, h.set key value⟩
  | delete key => exact ⟨_, rfl, h.delete key⟩
  | compact =>
      obtain ⟨next, hcompact, hnext, -⟩ := h.compact
      exact ⟨next, hcompact, hnext⟩
  | truncate length => exact ⟨_, rfl, accounted_new _⟩
  | reopen => exact ⟨_, rfl, accounted_new _⟩

theorem Accounted.run (h : self.Accounted) (changes : List Change) :
    ∃ next, changes.foldlM BitCask.change self = .ok next ∧ next.Accounted := by
  induction changes generalizing self with
  | nil => exact ⟨self, rfl, h⟩
  | cons change changes ih =>
      obtain ⟨middle, hmiddle, hle⟩ := h.change change
      obtain ⟨next, hnext, hdone⟩ := ih hle
      refine ⟨next, ?_, hdone⟩
      rw [List.foldlM_cons, hmiddle]
      exact hnext

/-- However a store is opened and changed, its live data is no larger than its file, so that
the size of its garbage is defined; a compaction makes the two equal. -/
theorem run_garbage (file : Bytes) (changes : List Change) :
    ∃ self, changes.foldlM change (new file) = .ok self ∧
      self.status.liveDiskSize ≤ self.status.diskSize ∧
      self.status.garbageDiskSize = .ok (self.status.diskSize - self.status.liveDiskSize) ∧
      ∃ compacted, self.compact = .ok compacted ∧
        compacted.status.liveDiskSize = compacted.status.diskSize := by
  obtain ⟨self, hrun, h⟩ := (accounted_new file).run changes
  obtain ⟨compacted, hcompact, -, hsize⟩ := h.compact
  exact ⟨self, hrun, h.live_le, if_pos h.live_le, compacted, hcompact,
    compacted.liveDiskSize_status.trans hsize⟩

/-- Opening with a compaction never fails on the size of the garbage. -/
theorem newMaybeCompact_ok (fraction : ℕ → ℕ → Bool) (garbageMinBytes : ℕ) (file : Bytes) :
    ∃ self, newMaybeCompact fraction garbageMinBytes file = .ok self ∧ self.Accounted := by
  have h := accounted_new file
  obtain ⟨compacted, hcompact, hcompacted, -⟩ := h.compact
  have hgarbage : (new file).status.garbageDiskSize =
      pure ((new file).status.diskSize - (new file).status.liveDiskSize) := if_pos h.live_le
  unfold newMaybeCompact
  dsimp only
  rw [hgarbage, pure_bind]
  split_ifs
  · exact ⟨compacted, hcompact, hcompacted⟩
  · exact ⟨new file, rfl, h⟩

end BitCask
end ToyDB.Storage
