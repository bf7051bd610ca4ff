import ToyDB.Storage.TornTail

/-!
# Crashes and compaction

A crash loses any suffix of what was written to the log file since it was last synced;
completed renames persist. Compaction writes all live entries into a new file, which is
never synced before it replaces the log.
-/
namespace ToyDB.Storage
open ToyDB.Collections ToyDB.Encoding

/-- A store on disk, with what it held at the last completed flush and the keys written
since. -/
structure Disk where
  store : BitCask
  /-- The bytes of the log file that have been synced. -/
  synced : ℕ
  /-- The bytes that a compaction wrote into the log file and no flush has synced since. -/
  compacted : ℕ
  flushed : Bytes → Except Failure (Option Bytes)
  touched : List Bytes

/-- What happens to a store. A crash keeps a number of bytes of the log, and the store is
reopened; compaction on opening is a compaction right after it. -/
inductive DiskEvent where
  | write (e : Entry)
  | flush
  | compact
  | crash (kept : ℕ)

namespace Disk

/-- A new store. -/
def init : Disk := ⟨BitCask.new [], 0, 0, fun _ => .ok none, []⟩

/-- The state after an event. A crash keeps the synced bytes, and no more than there are. -/
def step (s : Disk) : DiskEvent → Option Disk
  | .write e => some { s with
      store := (s.store.execute e.command).2
      touched := e.key :: s.touched }
  | .flush => some { s with
      synced := s.store.log.length
      compacted := 0
      flushed := s.store.get
      touched := [] }
  | .compact => s.store.compact.toOption.map fun store => { s with
      store := store
      synced := 0
      compacted := store.log.length }
  | .crash kept =>
      if s.synced ≤ kept ∧ kept ≤ s.store.log.length then
        some { s with store := BitCask.new (s.store.log.take kept) }
      else none

/-- The states that a new store reaches by events that satisfy a condition. -/
inductive Reachable (Allowed : Disk → DiskEvent → Prop) : Disk → Prop where
  | init : Reachable Allowed init
  | step {s s' : Disk} {event : DiskEvent} : Reachable Allowed s → Allowed s event →
      s.step event = some s' → Reachable Allowed s'

/-- Every write before the last completed flush is still there, unless its key was
written again. -/
def Preserved (s : Disk) : Prop := ∀ key ∉ s.touched, s.store.get key = s.flushed key

/-- Crashes keep what a compaction wrote, and sizes fit into their fields. -/
def Keeps (s : Disk) : DiskEvent → Prop
  | .write e => e.Sized
  | .crash kept => s.compacted ≤ kept
  | _ => True

/-- The log starts with entries that no allowed crash can cut and that give what was
flushed, and goes on with entries of keys written since. -/
structure Secure (s : Disk) (base later : List Entry) : Prop where
  sized : ∀ e ∈ base ++ later, e.Sized
  store_eq : s.store = BitCask.ofEntries (base ++ later)
  kept : (Log.encodeAll base).length ≤ max s.synced s.compacted
  flushed key : key ∉ s.touched → s.flushed key = .ok ((Log.replayEntries base).get key)
  later_touched : ∀ e ∈ later, e.key ∈ s.touched

/-- Entries of other keys leave a key alone. -/
theorem get_replay_append {base later : List Entry} {key : Bytes}
    (h : ∀ e ∈ later, e.key ≠ key) :
    (Log.replayEntries (base ++ later)).get key = (Log.replayEntries base).get key := by
  induction later using List.reverseRecOn with
  | nil => rw [List.append_nil]
  | append_singleton later e ih =>
      have ih := ih fun e' he => h e' (List.mem_append_left _ he)
      have hne : key ≠ e.key := Ne.symm (h e (by simp))
      obtain ⟨k, value⟩ := e
      rw [← List.append_assoc, Log.replayEntries_append_singleton, ← ih]
      cases value with
      | none => exact OrderedMap.get_erase_of_ne _ hne
      | some value => exact OrderedMap.get_insert_of_ne _ value hne

theorem Secure.preserved {s : Disk} {base later : List Entry} (h : s.Secure base later) :
    s.Preserved := by
  intro key hkey
  rw [h.flushed key hkey, h.store_eq, BitCask.get_ofEntries, get_replay_append]
  intro e he heq
  exact hkey (heq ▸ h.later_touched e he)

theorem secure_init : init.Secure [] [] where
  sized := by simp
  store_eq := rfl
  kept := Nat.zero_le _
  flushed _ _ := rfl
  later_touched := by simp

/-! ## Events -/

section
variable {s s' : Disk} {base later : List Entry}

theorem Secure.write (h : s.Secure base later) {e : Entry} (he : e.Sized)
    (hs : s.step (.write e) = some s') : s'.Secure base (later ++ [e]) := by
  cases hs
  refine ⟨?_, ?_, h.kept, fun key hkey => h.flushed key fun hmem => hkey ?_, ?_⟩
  · rw [← List.append_assoc]
    exact List.forall_mem_append.mpr ⟨h.sized, List.forall_mem_singleton.mpr he⟩
  · have hwrite := BitCask.runCommands_writes (base ++ later) [e]
    rw [List.append_assoc] at hwrite
    rw [← hwrite, ← h.store_eq]
    rfl
  · exact List.mem_cons_of_mem _ hmem
  · intro e' he'
    obtain he' | he' := List.mem_append.mp he'
    · exact List.mem_cons_of_mem _ (h.later_touched e' he')
    · rw [List.mem_singleton.mp he']
      exact List.mem_cons_self

theorem Secure.flush (h : s.Secure base later) (hs : s.step .flush = some s') :
    s'.Secure (base ++ later) [] := by
  cases hs
  refine ⟨?_, ?_, ?_, fun key _ => ?_, by simp⟩
  · rw [List.append_nil]
    exact h.sized
  · rw [List.append_nil]
    exact h.store_eq
  · refine le_max_of_le_left ?_
    rw [h.store_eq]
    exact le_rfl
  · change s.store.get key = _
    rw [h.store_eq, BitCask.get_ofEntries]

theorem Secure.compact (h : s.Secure base later) (hs : s.step .compact = some s') :
    s'.Secure (Memory.live (Log.replayEntries (base ++ later))) [] := by
  have hcompact := BitCask.compact_ofEntries (base ++ later)
  rw [step, h.store_eq, hcompact] at hs
  cases hs
  refine ⟨?_, ?_, ?_, fun key hkey => ?_, by simp⟩
  · rw [List.append_nil]
    exact BitCask.sized_live h.sized
  · rw [List.append_nil]
  · exact le_max_right _ _
  · rw [BitCask.replay_live, get_replay_append]
    · exact h.flushed key hkey
    · exact fun e he heq => hkey (heq ▸ h.later_touched e he)

/-- A crash that keeps the secure entries cuts the later ones. -/
theorem Secure.crash (h : s.Secure base later) {kept : ℕ} (hk : s.compacted ≤ kept)
    (hs : s.step (.crash kept) = some s') : ∃ later', s'.Secure base later' := by
  rw [step] at hs
  split_ifs at hs with hbounds
  cases hs
  obtain ⟨p, tail, hp, ht, htake, hi⟩ := BitCask.take_encodeAll h.sized kept
  have hbase : base.length ≤ p := by
    by_contra hlt
    have hlt := not_le.mp hlt
    have hle := (hi (base.length - 1) (by rw [List.length_append]; omega)).mpr (by
      rw [Nat.sub_add_cancel (by omega), List.take_left]
      exact h.kept.trans (max_le hbounds.1 hk))
    omega
  have hsplit : (base ++ later).take p = base ++ later.take (p - base.length) := by
    rw [List.take_append, List.take_of_length_le hbase]
  have hsized : ∀ e ∈ base ++ later.take (p - base.length), e.Sized := fun e he =>
    h.sized e (List.mem_of_mem_take (hsplit ▸ he))
  refine ⟨later.take (p - base.length), hsized, ?_, h.kept, h.flushed, ?_⟩
  · change BitCask.new (s.store.log.take kept) = _
    rw [h.store_eq]
    change BitCask.new ((Log.encodeAll (base ++ later)).take kept) = _
    rw [htake, hsplit, BitCask.new_encodeAll hsized ht]
  · exact fun e he => h.later_touched e (List.mem_of_mem_take he)

theorem Secure.step (h : s.Secure base later) {event : DiskEvent} (ha : s.Keeps event)
    (hs : s.step event = some s') : ∃ base' later', s'.Secure base' later' := by
  cases event with
  | write e => exact ⟨_, _, h.write ha hs⟩
  | flush => exact ⟨_, _, h.flush hs⟩
  | compact => exact ⟨_, _, h.compact hs⟩
  | crash kept => exact ⟨_, h.crash ha hs⟩

end

/-- As long as crashes keep what compactions wrote, no flushed write is lost. -/
theorem preserved_of_keeps (s : Disk) (h : Reachable Keeps s) : s.Preserved := by
  have hsecure : ∃ base later, s.Secure base later := by
    induction h with
    | init => exact ⟨_, _, secure_init⟩
    | step _ ha hs ih =>
        obtain ⟨base, later, ih⟩ := ih
        exact ih.step ha hs
  obtain ⟨base, later, hsecure⟩ := hsecure
  exact hsecure.preserved

/-- The state after events, if they are possible. -/
def run (s : Disk) : List DiskEvent → Option Disk
  | [] => some s
  | event :: events => (s.step event).bind fun s => s.run events

/-- Events that satisfy the condition lead to reachable states. -/
theorem reachable_run {Allowed : Disk → DiskEvent → Prop} {s s' : Disk} {events : List DiskEvent}
    (h : Reachable Allowed s) (ha : ∀ s, ∀ event ∈ events, Allowed s event)
    (hr : s.run events = some s') : Reachable Allowed s' := by
  induction events generalizing s with
  | nil =>
      cases hr
      exact h
  | cons event events ih =>
      obtain ⟨t, ht, hr⟩ := Option.bind_eq_some_iff.mp hr
      exact ih (h.step (ha s event List.mem_cons_self) ht)
        (fun s event' he => ha s event' (List.mem_cons_of_mem _ he)) hr

/-- A flushed write survives a compaction and a crash that keeps the compacted file. -/
theorem preserved_of_keeps_crash : ∃ s s', Reachable Keeps s ∧
    s.step (.crash s.compacted) = some s' ∧ (s.flushed [1]).toOption = some (some [2]) ∧
    (s'.store.get [1]).toOption = some (some [2]) := by
  have hrun : (init.run [.write ⟨[1], some [2]⟩, .flush, .compact]).map
      (fun s => ((s.flushed [1]).toOption, s.touched,
        decide (s.synced ≤ s.compacted ∧ s.compacted ≤ s.store.log.length))) =
      some (some (some [2]), [], true) := by decide +kernel
  obtain ⟨s, hs, hv⟩ := Option.map_eq_some_iff.mp hrun
  obtain ⟨hflushed, htouched, hbounds⟩ : (s.flushed [1]).toOption = some (some [2]) ∧
      s.touched = [] ∧ s.synced ≤ s.compacted ∧ s.compacted ≤ s.store.log.length := by
    simpa using hv
  have hreach : Reachable Keeps s := by
    refine reachable_run .init (fun s event he => ?_) hs
    simp only [List.mem_cons, List.not_mem_nil, or_false] at he
    obtain rfl | rfl | rfl := he
    · exact ⟨by decide, by decide⟩
    · trivial
    · trivial
  have hcrash : s.step (.crash s.compacted) =
      some { s with store := BitCask.new (s.store.log.take s.compacted) } := if_pos hbounds
  have hkept := preserved_of_keeps _ (hreach.step (show Keeps s (.crash _) from le_rfl) hcrash)
  refine ⟨s, _, hreach, hcrash, hflushed, ?_⟩
  rw [hkept [1] (by rw [htouched]; exact List.not_mem_nil)]
  exact hflushed

/-- A flushed write is lost in a crash after a compaction. -/
theorem not_preserved : ¬ ∀ s, Reachable (fun _ event => ∀ e, event = .write e → e.Sized) s →
    s.Preserved := by
  intro h
  have hrun : (init.run [.write ⟨[1], some [2]⟩, .flush, .compact, .crash 0]).map
      (fun s => ((s.store.get [1]).toOption, (s.flushed [1]).toOption, s.touched)) =
        some (some none, some (some [2]), []) := by decide +kernel
  obtain ⟨s, hs, hv⟩ := Option.map_eq_some_iff.mp hrun
  obtain ⟨hget, hflushed, htouched⟩ : (s.store.get [1]).toOption = some none ∧
      (s.flushed [1]).toOption = some (some [2]) ∧ s.touched = [] := by simpa using hv
  have hsized : ∀ e, DiskEvent.write ⟨[1], some [2]⟩ = .write e → e.Sized := by
    rintro e ⟨⟩
    exact ⟨by decide, by decide⟩
  have hreach := @reachable_run (fun _ event => ∀ e, event = .write e → e.Sized) _ _ _
    .init (by simpa using fun _ : Disk => hsized) hs
  have hkey := h s hreach [1] (by rw [htouched]; exact List.not_mem_nil)
  rw [hkey, hflushed] at hget
  cases hget

end Disk
end ToyDB.Storage
