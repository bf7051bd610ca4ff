import ToyDB.Storage.LogFile

/-!
# BitCask refines the in-memory engine

A BitCask store is always an opened log of entries, and its map is what replaying them
gives. Every command keeps this and answers like the map.
-/
namespace ToyDB.Storage
open ToyDB.Collections ToyDB.Encoding

/-- The store with a log of the entries. -/
def BitCask.ofEntries (es : List Entry) : BitCask :=
  ⟨Log.encodeAll es, Log.dirFrom 0 es OrderedMap.empty⟩

/-- The live entries of a map. -/
def Memory.live (m : Memory) : List Entry := m.entries.map fun e => ⟨e.1, some e.2⟩

/-- The sizes of keys and values that a command writes are below 2 GiB. -/
def Command.Sized : Command → Prop
  | .set key value => key.length < 2 ^ 31 ∧ value.length < 2 ^ 31
  | .delete key => key.length < 2 ^ 31
  | _ => True

namespace BitCask
variable {es : List Entry}

/-- Reopening a log finds its complete entries again. -/
theorem new_encodeAll (hs : ∀ e ∈ es, e.Sized) {tail : Bytes} (ht : Log.Torn tail) :
    new (Log.encodeAll es ++ tail) = ofEntries es := by
  rw [new, Log.buildKeydir_encodeAll hs ht, ofEntries]

theorem set_ofEntries (es : List Entry) (key value : Bytes) :
    (ofEntries es).set key value = ofEntries (es ++ [⟨key, some value⟩]) := by
  rw [ofEntries, ofEntries, Log.encodeAll_append, Log.encodeAll_singleton, Log.dirFrom_append,
    Nat.zero_add]
  rfl

theorem delete_ofEntries (es : List Entry) (key : Bytes) :
    (ofEntries es).delete key = ofEntries (es ++ [⟨key, none⟩]) := by
  rw [ofEntries, ofEntries, Log.encodeAll_append, Log.encodeAll_singleton, Log.dirFrom_append,
    Nat.zero_add]
  rfl

theorem get_ofEntries (es : List Entry) (key : Bytes) :
    (ofEntries es).get key = .ok ((Log.replayEntries es).get key) := by
  have hl := Log.locates_replay es key
  unfold get ofEntries
  cases hd : (Log.dirFrom 0 es OrderedMap.empty).get key with
  | none =>
      rw [hd] at hl
      rw [Option.map_eq_none_iff.mp hl.symm]
  | some location =>
      rw [hd] at hl
      obtain ⟨value, hv, hread⟩ := Option.map_eq_some_iff.mp hl.symm
      simp only [← hread, hv]
      rfl

theorem scan_ofEntries (es : List Entry) (range : Range) :
    (ofEntries es).scan range = Memory.scan (Log.replayEntries es) range := by
  have hmap := OrderedMap.map_scan_eq (Log.locates_replay es) range.contains
  have hitems := congrArg
    (List.map fun (e : Bytes × Except Failure Bytes) => e.2.map fun value => (e.1, value)) hmap
  rw [List.map_map, List.map_map] at hitems
  exact congrArg (fun items => range.check.map fun () => items) hitems

/-! ## Compaction -/

theorem apply_live (m : Memory) (es : List Entry) (h : ∀ e ∈ es, ∃ v, e.value = some v) (k : Bytes) :
    (es.foldl Entry.apply m).get k =
      ((es.reverse.find? fun e => e.key = k).bind Entry.value).or (m.get k) := by
  induction es using List.reverseRecOn with
  | nil => rfl
  | append_singleton es e ih =>
      obtain ⟨v, hv⟩ := h e (by simp)
      have ih := ih fun e' he => h e' (by simp [he])
      rw [List.foldl_concat, List.reverse_append, List.reverse_singleton, List.singleton_append,
        List.find?_cons, Entry.apply, hv]
      simp only [OrderedMap.get_insert]
      by_cases hk : e.key = k
      · simp [hk, hv]
      · simp [hk, Ne.symm hk, ih]

/-- Replaying the live entries of a map gives the map. -/
theorem replay_live (m : Memory) : Log.replayEntries m.live = m := by
  refine OrderedMap.ext_get fun k => ?_
  have hval : ∀ e ∈ m.live, ∃ v, e.value = some v := by
    intro e he
    obtain ⟨p, -, rfl⟩ := List.mem_map.mp he
    exact ⟨p.2, rfl⟩
  rw [Log.replayEntries, apply_live OrderedMap.empty m.live hval]
  simp only [OrderedMap.get_empty, Option.or_none]
  cases hf : m.live.reverse.find? fun e => e.key = k with
  | none =>
      have hnone := List.find?_eq_none.mp hf
      rw [Option.bind_none, eq_comm, OrderedMap.get_eq_none_iff]
      intro v hv
      have hmem : Entry.mk k (some v) ∈ m.live.reverse :=
        List.mem_reverse.mpr (List.mem_map.mpr ⟨(k, v), hv, rfl⟩)
      simpa using hnone _ hmem
  | some e =>
      have hk : e.key = k := by simpa using List.find?_some hf
      obtain ⟨p, hp, rfl⟩ := List.mem_map.mp (List.mem_reverse.mp (List.mem_of_find?_eq_some hf))
      obtain rfl : p.1 = k := hk
      exact (OrderedMap.get_eq_some_iff.mpr hp).symm

/-- Copying located values appends them as entries. -/
theorem compact_fold {file : Bytes} {located : List (Bytes × ValueLocation)}
    {entries : List (Bytes × Bytes)}
    (h : (located.map fun e => (e.1, Log.readValue file e.2)) = entries.map fun e => (e.1, .ok e.2))
    (es : List Entry) :
    located.foldlM (fun (new : BitCask) (key, location) => do
        let value ← Log.readValue file location
        let (location, log) := Log.writeEntry new.log key (some value)
        return (⟨log, new.keydir.insert key location⟩ : BitCask)) (ofEntries es) =
      (.ok (ofEntries (es ++ entries.map fun e => ⟨e.1, some e.2⟩)) : Except Failure BitCask) := by
  induction located generalizing entries es with
  | nil =>
      obtain rfl : entries = [] := List.map_eq_nil_iff.mp h.symm
      rw [List.map_nil, List.append_nil]
      rfl
  | cons e located ih =>
      obtain ⟨f, entries, rfl⟩ : ∃ f fs, entries = f :: fs := by
        cases entries with
        | nil => cases h
        | cons f fs => exact ⟨f, fs, rfl⟩
      obtain ⟨key, location⟩ := e
      rw [List.map_cons, List.map_cons, List.cons.injEq, Prod.mk.injEq] at h
      obtain ⟨⟨hkey, hread⟩, h⟩ := h
      obtain rfl : key = f.1 := hkey
      have hset := set_ofEntries es f.1 f.2
      rw [List.foldlM_cons]
      simp only [hread]
      change List.foldlM _ ((ofEntries es).set f.1 f.2) located = _
      rw [hset, ih h, List.append_assoc]
      rfl

theorem compact_ofEntries (es : List Entry) :
    (ofEntries es).compact = .ok (ofEntries (Memory.live (Log.replayEntries es))) := by
  have hmap := OrderedMap.map_scan_eq (Log.locates_replay es) fun _ => true
  rw [OrderedMap.scan_true, OrderedMap.scan_true] at hmap
  exact compact_fold hmap []

/-- What a log contains was written to it. -/
theorem mem_replay {k v : Bytes} (h : (Log.replayEntries es).get k = some v) :
    ⟨k, some v⟩ ∈ es := by
  induction es using List.reverseRecOn with
  | nil => cases h
  | append_singleton es e ih =>
      obtain ⟨key, value⟩ := e
      rw [Log.replayEntries_append_singleton] at h
      rw [List.mem_append, List.mem_singleton]
      cases value with
      | none =>
          change (OrderedMap.erase _ key).get k = _ at h
          rw [OrderedMap.get_erase] at h
          split_ifs at h
          exact Or.inl (ih h)
      | some value =>
          change (OrderedMap.insert _ key value).get k = _ at h
          rw [OrderedMap.get_insert] at h
          split_ifs at h with hk
          · rw [hk, Option.some.inj h]
            exact Or.inr rfl
          · exact Or.inl (ih h)

theorem sized_live (hs : ∀ e ∈ es, e.Sized) : ∀ e ∈ Memory.live (Log.replayEntries es), e.Sized := by
  intro e he
  obtain ⟨p, hp, rfl⟩ := List.mem_map.mp he
  exact hs _ (mem_replay (OrderedMap.get_eq_some_iff.mpr hp))

/-! ## Refinement -/

/-- Every command answers like the map, and leaves a log of entries for the new map. -/
theorem execute_ofEntries (hs : ∀ e ∈ es, e.Sized) {command : Command} (hc : command.Sized) :
    ∃ es', (∀ e ∈ es', e.Sized) ∧
      (ofEntries es).execute command =
        ((Memory.execute (Log.replayEntries es) command).1, ofEntries es') ∧
      (Memory.execute (Log.replayEntries es) command).2 = Log.replayEntries es' := by
  have hsnoc : ∀ {e : Entry}, e.Sized → ∀ e' ∈ es ++ [e], e'.Sized := fun he =>
    List.forall_mem_append.mpr ⟨hs, List.forall_mem_singleton.mpr he⟩
  cases command with
  | set key value =>
      have hsized : Entry.Sized ⟨key, some value⟩ := ⟨lt_trans hc.1 (by decide), hc.2⟩
      refine ⟨es ++ [⟨key, some value⟩], hsnoc hsized, ?_, ?_⟩
      · rw [execute, set_ofEntries]
        rfl
      · rw [Log.replayEntries_append_singleton]
        rfl
  | delete key =>
      have hsized : Entry.Sized ⟨key, none⟩ :=
        ⟨lt_trans hc (by decide), show 0 < 2 ^ 31 by decide⟩
      refine ⟨es ++ [⟨key, none⟩], hsnoc hsized, ?_, ?_⟩
      · rw [execute, delete_ofEntries]
        rfl
      · rw [Log.replayEntries_append_singleton]
        rfl
  | get key =>
      refine ⟨es, hs, ?_, rfl⟩
      rw [execute, get_ofEntries]
      rfl
  | scan range reverse =>
      refine ⟨es, hs, ?_, rfl⟩
      rw [execute, scan_ofEntries]
      rfl
  | scanPrefix start reverse =>
      refine ⟨es, hs, ?_, rfl⟩
      rw [execute, scan_ofEntries]
      rfl
  | compact =>
      refine ⟨_, sized_live hs, ?_, (replay_live _).symm⟩
      simp only [execute, compact_ofEntries]
      rfl
  | reopen =>
      refine ⟨es, hs, ?_, rfl⟩
      have hnew := new_encodeAll hs Log.torn_nil
      rw [List.append_nil] at hnew
      exact congrArg (Prod.mk _) hnew

theorem run_ofEntries (hs : ∀ e ∈ es, e.Sized) {commands : List Command}
    (hc : ∀ command ∈ commands, command.Sized) :
    (runCommands execute (ofEntries es) commands).1 =
      (runCommands Memory.execute (Log.replayEntries es) commands).1 := by
  induction commands generalizing es with
  | nil => rfl
  | cons command commands ih =>
      obtain ⟨es', hs', he, hm⟩ := execute_ofEntries hs (hc command List.mem_cons_self)
      have ih := ih hs' fun command hmem => hc command (List.mem_cons_of_mem _ hmem)
      simp only [runCommands, he, hm, ih]

/-- A new BitCask store answers every sequence of commands like a new in-memory engine. -/
theorem refines_memory (commands : List Command) (hc : ∀ command ∈ commands, command.Sized) :
    (runCommands execute (new []) commands).1 =
      (runCommands Memory.execute OrderedMap.empty commands).1 :=
  run_ofEntries (List.forall_mem_nil Entry.Sized) hc

/-- A value survives a compaction and a reopening. -/
theorem refines_memory_compacted :
    (∀ command ∈ [Command.set [1] [2], .set [1] [3], .compact, .reopen, .get [1]], command.Sized) ∧
      (runCommands execute (new []) [.set [1] [2], .set [1] [3], .compact, .reopen, .get [1]]).1 =
        (runCommands Memory.execute OrderedMap.empty
          [.set [1] [2], .set [1] [3], .compact, .reopen, .get [1]]).1 := by
  have hc : ∀ command ∈ [Command.set [1] [2], .set [1] [3], .compact, .reopen, .get [1]],
      command.Sized := by simp [Command.Sized]
  exact ⟨hc, refines_memory _ hc⟩

end BitCask
end ToyDB.Storage
