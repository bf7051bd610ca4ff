import ToyDB.Storage.Refinement

/-!
# Recovery of a truncated log

A log file that is cut at any byte opens as the store of the operations whose entries lie
within the kept bytes. Values have to be shorter than the format can express: a longer
one is read back as a tombstone followed by other entries.
-/
namespace ToyDB.Storage
open ToyDB.Collections ToyDB.Encoding

/-- The operation that writes an entry. -/
def Entry.command (e : Entry) : Command :=
  match e.value with
  | some value => .set e.key value
  | none => .delete e.key

namespace BitCask
variable {es : List Entry}

/-- The store after operations on a new store. -/
def after (ops : List Entry) : BitCask := (runCommands execute (new []) (ops.map Entry.command)).2

theorem runCommands_writes (es ops : List Entry) :
    (runCommands execute (ofEntries es) (ops.map Entry.command)).2 = ofEntries (es ++ ops) := by
  induction ops generalizing es with
  | nil => rw [List.append_nil]; rfl
  | cons e ops ih =>
      have hstep : ((ofEntries es).execute e.command).2 = ofEntries (es ++ [e]) := by
        obtain ⟨key, value⟩ := e
        cases value with
        | none => exact delete_ofEntries es key
        | some value => exact set_ofEntries es key value
      have ih := ih (es ++ [e])
      rw [List.append_assoc] at ih
      change (runCommands execute ((ofEntries es).execute e.command).2 _).2 = _
      rw [hstep, ih]
      rfl

theorem after_eq (ops : List Entry) : after ops = ofEntries ops := runCommands_writes [] ops

theorem memory_writes (m : Memory) (ops : List Entry) :
    (runCommands Memory.execute m (ops.map Entry.command)).2 = ops.foldl Entry.apply m := by
  induction ops generalizing m with
  | nil => rfl
  | cons e ops ih =>
      have hstep : (Memory.execute m e.command).2 = e.apply m := by
        obtain ⟨key, value⟩ := e
        cases value <;> rfl
      change (runCommands Memory.execute (Memory.execute m e.command).2 _).2 = _
      rw [hstep, ih, List.foldl_cons]

/-! ## Truncation -/

/-- A prefix of a file of entries consists of complete entries and a torn one. -/
theorem take_encodeAll (hs : ∀ e ∈ es, e.Sized) (n : ℕ) :
    ∃ p tail, p ≤ es.length ∧ Log.Torn tail ∧
      (Log.encodeAll es).take n = Log.encodeAll (es.take p) ++ tail ∧
      ∀ i < es.length, i < p ↔ (Log.encodeAll (es.take (i + 1))).length ≤ n := by
  induction es generalizing n with
  | nil => exact ⟨0, [], le_rfl, Log.torn_nil, by simp, by simp⟩
  | cons e es ih =>
      have hcons : ∀ es, Log.encodeAll (e :: es) = e.encode ++ Log.encodeAll es := fun _ => rfl
      by_cases hn : e.encode.length ≤ n
      · obtain ⟨p, tail, hp, ht, htake, hi⟩ :=
          ih (fun e' he => hs e' (List.mem_cons_of_mem e he)) (n - e.encode.length)
        refine ⟨p + 1, tail, Nat.succ_le_succ hp, ht, ?_, fun i hlt => ?_⟩
        · rw [hcons, List.take_append, List.take_of_length_le hn, htake, List.take_succ_cons, hcons,
            List.append_assoc]
        · cases i with
          | zero => simpa [hcons] using hn
          | succ i =>
              have hi := hi i (Nat.lt_of_succ_lt_succ hlt)
              rw [List.take_succ_cons, hcons, List.length_append, Nat.succ_lt_succ_iff, hi]
              omega
      · have hlt : n < e.encode.length := not_le.mp hn
        refine ⟨0, e.encode.take n, Nat.zero_le _, ?_, ?_, fun i _ => ?_⟩
        · refine ⟨e, hs e List.mem_cons_self, List.take_prefix n _, ?_⟩
          rw [List.length_take]
          omega
        · rw [hcons, List.take_append_of_le_length hlt.le]
          rfl
        · rw [List.take_succ_cons, hcons, List.length_append]
          omega

/-- Reopening a truncated log gives the store of the operations whose entries lie within
the kept bytes, so it goes on like that store and like its map. -/
theorem torn_tail (ops : List Entry) (hs : ∀ e ∈ ops, e.Sized) (n : ℕ) :
    ∃ p ≤ ops.length,
      (∀ i < ops.length, i < p ↔ (after (ops.take (i + 1))).log.length ≤ n) ∧
      new ((after ops).log.take n) = after (ops.take p) ∧
      (∀ commands, runCommands execute (new ((after ops).log.take n)) commands =
        runCommands execute (after (ops.take p)) commands) ∧
      ∀ commands, (∀ command ∈ commands, command.Sized) →
        (runCommands execute (new ((after ops).log.take n)) commands).1 =
          (runCommands Memory.execute
            ((runCommands Memory.execute OrderedMap.empty ((ops.take p).map Entry.command)).2)
            commands).1 := by
  obtain ⟨p, tail, hp, ht, htake, hi⟩ := take_encodeAll hs n
  have hsp : ∀ e ∈ ops.take p, e.Sized := fun e he => hs e (List.mem_of_mem_take he)
  have hnew : new ((after ops).log.take n) = after (ops.take p) := by
    rw [after_eq, after_eq]
    change new ((Log.encodeAll ops).take n) = _
    rw [htake, new_encodeAll hsp ht]
  refine ⟨p, hp, fun i hlt => ?_, hnew, fun commands => by rw [hnew], fun commands hc => ?_⟩
  · rw [after_eq]
    exact hi i hlt
  · rw [hnew, after_eq, run_ofEntries hsp hc, memory_writes]
    rfl

/-- A log of two operations that is cut in the second one. -/
theorem torn_tail_three :
    (∀ e ∈ [Entry.mk [1] (some [2]), ⟨[3], some [4, 5]⟩], e.Sized) ∧
      ∃ p ≤ 2, new ((after [⟨[1], some [2]⟩, ⟨[3], some [4, 5]⟩]).log.take 15) =
        after ([⟨[1], some [2]⟩, ⟨[3], some [4, 5]⟩].take p) := by
  have hs : ∀ e ∈ [Entry.mk [1] (some [2]), ⟨[3], some [4, 5]⟩], e.Sized := by
    simp [Entry.Sized]
  obtain ⟨p, hp, -, hnew, -⟩ := torn_tail _ hs 15
  exact ⟨hs, p, hp, hnew⟩

/-! ## Oversized values -/

/-- The length of a value of 2 GiB is read as negative. -/
theorem readEntry_oversized {e : Entry} (hk : e.key.length < 2 ^ 32)
    (hv : 2 ^ 31 ≤ Log.valueField e.value) (start x : Bytes) :
    Log.readEntry (start ++ (e.encode ++ x)) start.length =
      some (e.key, none, start.length + 8 + e.key.length) := by
  obtain ⟨hkey, hvalue, hrest⟩ := Log.readLengths e hk x
  have hlen := Log.length_encode e
  unfold Log.readEntry
  simp only [List.drop_left, hkey, hvalue, hrest, if_neg (not_lt.mpr hv), List.take_left]
  rw [if_neg (by rw [List.length_append]; omega), if_neg (by rw [List.length_append]; omega)]
  rfl

/-- An entry whose key is longer than the rest of the file is not read. -/
theorem readEntry_past_end {start rest : Bytes} (h8 : 8 ≤ rest.length)
    (hkey : rest.length < 8 + ofBeBytes (rest.take 4)) :
    Log.readEntry (start ++ rest) start.length = none := by
  unfold Log.readEntry
  simp only [List.drop_left]
  rw [if_neg (not_lt.mpr h8), if_pos hkey]

/-- Scanning goes over complete entries. -/
theorem scanFrom_append (hs : ∀ e ∈ es, e.Sized) (start rest : Bytes) (keydir : KeyDir) (steps : ℕ) :
    Log.scanFrom (es.length + steps) (start ++ (Log.encodeAll es ++ rest)) start.length keydir =
      Log.scanFrom steps (start ++ Log.encodeAll es ++ rest) (start ++ Log.encodeAll es).length
        (Log.dirFrom start.length es keydir) := by
  induction es generalizing start keydir with
  | nil => simp [Log.dirFrom]
  | cons e es ih =>
      have h8 := Log.eight_le_length_encode e
      have hcons : Log.encodeAll (e :: es) = e.encode ++ Log.encodeAll es := rfl
      have hread := Log.readEntry_encode (hs e List.mem_cons_self) start (Log.encodeAll es ++ rest)
      have ih := ih (fun e' he => hs e' (List.mem_cons_of_mem e he)) (start ++ e.encode)
        (Log.record keydir e.key (e.location start.length))
      rw [List.length_cons, Nat.add_right_comm, Log.scanFrom, hcons, List.append_assoc,
        if_pos (by simp only [List.length_append]; omega), hread]
      simp only [List.length_append, List.append_assoc, Log.dirFrom] at ih ⊢
      exact ih

/-- A value of 2 GiB that starts with four bytes of ones. -/
theorem new_oversized {key value : Bytes} (hs : ∀ e ∈ es, e.Sized) (hk : key.length < 2 ^ 32)
    (hlen : value.length = 2 ^ 31) (hones : ofBeBytes (value.take 4) = 2 ^ 32 - 1) :
    (new (Log.encodeAll (es ++ [⟨key, some value⟩]))).keydir =
      (Log.dirFrom 0 es OrderedMap.empty).erase key := by
  have hfield : Log.valueField (some value) = 2 ^ 31 := by
    rw [Log.valueField, hlen, Nat.mod_eq_of_lt (by decide)]
  have hread := readEntry_oversized (e := ⟨key, some value⟩) hk (le_of_eq hfield.symm)
    (Log.encodeAll es) []
  rw [List.append_nil] at hread
  have hsplit : ∃ head : Bytes, (Entry.mk key (some value)).encode = head ++ value ∧
      head.length = 8 + key.length := by
    refine ⟨beBytes 4 (key.length % 2 ^ 32) ++ beBytes 4 (Log.valueField (some value)) ++ key, ?_, ?_⟩
    · rw [Log.encode_eq]
      simp only [List.append_assoc, Option.getD_some]
    · simp only [List.length_append, length_beBytes]
  obtain ⟨head, hhead, hheadlen⟩ := hsplit
  have hpast := @readEntry_past_end (Log.encodeAll es ++ head) value (by omega)
    (by rw [hones]; omega)
  have hes := Log.length_le_encodeAll es
  have hsteps : ∃ n, (Log.encodeAll es ++ (Entry.mk key (some value)).encode).length =
      es.length + (n + 2) := by
    refine ⟨(Log.encodeAll es).length - es.length + (8 + key.length + 2 ^ 31 - 2), ?_⟩
    rw [List.length_append, hhead, List.length_append, hheadlen, hlen]
    omega
  obtain ⟨n, hn⟩ := hsteps
  have hscan := scanFrom_append hs [] (Entry.mk key (some value)).encode OrderedMap.empty (n + 2)
  rw [List.nil_append, List.nil_append, List.length_nil] at hscan
  rw [new, Log.buildKeydir, Log.encodeAll_append, Log.encodeAll_singleton, hn, hscan, Log.scanFrom,
    if_pos (by rw [List.length_append, hhead, List.length_append]; omega), hread]
  simp only [Log.record]
  have hoffset : (Log.encodeAll es).length + 8 + key.length = (Log.encodeAll es ++ head).length := by
    rw [List.length_append, hheadlen, Nat.add_assoc]
  rw [hhead, ← List.append_assoc, hoffset, Log.scanFrom,
    if_pos (by rw [@List.length_append _ (Log.encodeAll es ++ head)]; omega), hpast]

/-- Four bytes of ones, and as many others as wanted. -/
theorem exists_value (n : ℕ) : ∃ value : Bytes, value.length = n + 4 ∧
    ofBeBytes (value.take 4) = 2 ^ 32 - 1 := by
  refine ⟨[0xff, 0xff, 0xff, 0xff] ++ List.replicate n 0, ?_, ?_⟩
  · rw [List.length_append, List.length_replicate, Nat.add_comm]
    rfl
  · change ofBeBytes [0xff, 0xff, 0xff, 0xff] = _
    decide +kernel

theorem get_of_none {self : BitCask} {key : Bytes} (h : self.keydir.get key = none) :
    self.get key = .ok none := by
  rw [get, h]

theorem get_of_some {self : BitCask} {key : Bytes} {location : ValueLocation}
    (h : self.keydir.get key = some location) :
    self.get key = (Log.readValue self.log location).map some := by
  rw [get, h]

theorem ne_none_of_map {x : Except Failure Bytes} {o : Option Bytes} (h : x.map some = .ok o) :
    o ≠ none := by
  cases x with
  | error e => cases h
  | ok v =>
      rw [← Except.ok.inj h]
      exact Option.some_ne_none v

/-- After a value of 2 GiB, the reopened store is not the map after any prefix of the
operations, although nothing was cut off. -/
theorem not_torn_tail : ¬ ∀ (ops : List Entry) (n : ℕ), ∃ p, ∀ key,
    (new ((after ops).log.take n)).get key = .ok ((Log.replayEntries (ops.take p)).get key) := by
  intro h
  obtain ⟨value, hvalue, hones⟩ := exists_value 2147483644
  have hlen : value.length = 2 ^ 31 := by omega
  have hs : ∀ e ∈ [Entry.mk [1] (some [1]), ⟨[2], some [2]⟩], e.Sized := by simp [Entry.Sized]
  have hnew := new_oversized hs (show [1].length < 2 ^ 32 by decide) hlen hones
  obtain ⟨p, hp⟩ := h ([⟨[1], some [1]⟩, ⟨[2], some [2]⟩] ++ [⟨[1], some value⟩])
    (Log.encodeAll ([⟨[1], some [1]⟩, ⟨[2], some [2]⟩] ++ [⟨[1], some value⟩])).length
  rw [after_eq] at hp
  have htake : ∀ es : List Entry, (ofEntries es).log.take (Log.encodeAll es).length =
      Log.encodeAll es := fun es => List.take_length
  rw [htake] at hp
  have hd1 : ((Log.dirFrom 0 [⟨[1], some [1]⟩, ⟨[2], some [2]⟩] OrderedMap.empty).erase [1]).get [1] =
      none := OrderedMap.get_erase_self _ _
  have hd2 : ((Log.dirFrom 0 [⟨[1], some [1]⟩, ⟨[2], some [2]⟩] OrderedMap.empty).erase [1]).get [2] =
      some ⟨19, 1⟩ := by
    rw [OrderedMap.get_erase_of_ne _ (by decide)]
    decide +kernel
  rw [← hnew] at hd1 hd2
  have hnone := Except.ok.inj ((get_of_none hd1).symm.trans (hp [1]))
  have hsome := ne_none_of_map ((get_of_some hd2).symm.trans (hp [2]))
  -- The map lacks key 1 only before the first operation, where it also lacks key 2.
  match p with
  | 0 => exact hsome rfl
  | 1 =>
      change none = (OrderedMap.insert OrderedMap.empty [1] [1]).get [1] at hnone
      rw [OrderedMap.get_insert_self] at hnone
      cases hnone
  | 2 =>
      change none = ((OrderedMap.insert OrderedMap.empty [1] [1]).insert [2] [2]).get [1] at hnone
      rw [OrderedMap.get_insert_of_ne _ _ (by decide), OrderedMap.get_insert_self] at hnone
      cases hnone
  | _ + 3 =>
      rw [List.take_of_length_le (by simp), Log.replayEntries_append_singleton] at hnone
      change none = (OrderedMap.insert _ [1] value).get [1] at hnone
      rw [OrderedMap.get_insert_self] at hnone
      cases hnone

end BitCask
end ToyDB.Storage
