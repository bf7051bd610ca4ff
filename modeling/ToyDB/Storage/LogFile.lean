import ToyDB.Storage.BitCask

/-!
# The log as a list of entries

A log file is the concatenation of its entries. Scanning it finds them again, and cuts
off what is left of an entry that was not written completely. The keydir locates the
values that replaying the entries gives.
-/
namespace ToyDB.Storage
open ToyDB.Collections ToyDB.Encoding

/-- A log entry: a key with its value, or a tombstone. -/
structure Entry where
  key : Bytes
  value : Option Bytes
  deriving DecidableEq

namespace Entry

def encode (e : Entry) : Bytes := Log.encodeEntry e.key e.value

/-- The lengths fit into their fields. -/
def Sized (e : Entry) : Prop := e.key.length < 2 ^ 32 ∧ (e.value.getD []).length < 2 ^ 31

/-- The location of the value of an entry at an offset. -/
def location (e : Entry) (offset : ℕ) : Option ValueLocation :=
  e.value.map fun value => ⟨offset + 8 + e.key.length, value.length⟩

def apply (m : Memory) (e : Entry) : Memory :=
  match e.value with
  | some value => m.insert e.key value
  | none => m.erase e.key

end Entry

namespace Log

/-- The file with the entries. -/
def encodeAll (es : List Entry) : Bytes := es.flatMap Entry.encode

/-- The keydir of entries from an offset on. -/
def dirFrom : ℕ → List Entry → KeyDir → KeyDir
  | _, [], keydir => keydir
  | offset, e :: es, keydir =>
      dirFrom (offset + e.encode.length) es (record keydir e.key (e.location offset))

/-- What is left of an entry that was cut off. -/
def Torn (tail : Bytes) : Prop :=
  ∃ e : Entry, e.Sized ∧ tail <+: e.encode ∧ tail.length < e.encode.length

/-- The map that the entries describe. -/
def replayEntries (es : List Entry) : Memory := es.foldl Entry.apply OrderedMap.empty

@[simp] theorem encodeAll_nil : encodeAll [] = [] := rfl

@[simp] theorem encodeAll_append (es es' : List Entry) :
    encodeAll (es ++ es') = encodeAll es ++ encodeAll es' := List.flatMap_append

@[simp] theorem encodeAll_singleton (e : Entry) : encodeAll [e] = e.encode := by simp [encodeAll]

@[simp] theorem replayEntries_append_singleton (es : List Entry) (e : Entry) :
    replayEntries (es ++ [e]) = e.apply (replayEntries es) := List.foldl_concat ..

theorem dirFrom_append (es es' : List Entry) (offset : ℕ) (keydir : KeyDir) :
    dirFrom offset (es ++ es') keydir =
      dirFrom (offset + (encodeAll es).length) es' (dirFrom offset es keydir) := by
  induction es generalizing offset keydir with
  | nil => rfl
  | cons e es ih =>
      rw [List.cons_append, dirFrom, ih, dirFrom]
      congr 1
      simp [encodeAll, Nat.add_assoc]

/-! ## Reading entries -/

/-- The encoded value length: the length of a value, or one that is read as negative. -/
def valueField (value : Option Bytes) : ℕ :=
  match value with
  | some value => value.length % 2 ^ 32
  | none => 2 ^ 32 - 1

theorem encode_eq (e : Entry) : e.encode =
    beBytes 4 (e.key.length % 2 ^ 32) ++ (beBytes 4 (valueField e.value) ++
      (e.key ++ e.value.getD [])) := by
  simp only [Entry.encode, encodeEntry, List.append_assoc]
  rfl

theorem length_encode (e : Entry) :
    e.encode.length = 8 + e.key.length + (e.value.getD []).length := by
  rw [encode_eq]
  simp only [List.length_append, length_beBytes]
  omega

theorem valueField_lt (value : Option Bytes) : valueField value < 256 ^ 4 := by
  unfold valueField
  split <;> omega

/-- The lengths of an entry are read back. -/
theorem readLengths (e : Entry) (hk : e.key.length < 2 ^ 32) (x : Bytes) :
    ofBeBytes ((e.encode ++ x).take 4) = e.key.length ∧
      ofBeBytes (((e.encode ++ x).drop 4).take 4) = valueField e.value ∧
      (e.encode ++ x).drop 8 = e.key ++ (e.value.getD [] ++ x) := by
  have hmod : e.key.length % 2 ^ 32 = e.key.length := Nat.mod_eq_of_lt hk
  rw [encode_eq, hmod]
  simp only [List.append_assoc]
  have h4 : (beBytes 4 e.key.length).length = 4 := length_beBytes 4 _
  have h4' : (beBytes 4 (valueField e.value)).length = 4 := length_beBytes 4 _
  refine ⟨?_, ?_, ?_⟩
  · rw [List.take_left' h4, ofBeBytes_beBytes (show _ < 256 ^ 4 by omega)]
  · rw [List.drop_left' h4, List.take_left' h4', ofBeBytes_beBytes (valueField_lt _)]
  · rw [show 8 = 4 + 4 from rfl, ← List.drop_drop, List.drop_left' h4, List.drop_left' h4']

theorem location_of_sized {e : Entry} (h : e.Sized) (offset : ℕ) :
    (if valueField e.value < 2 ^ 31 then
        some (ValueLocation.mk (offset + 8 + e.key.length) (valueField e.value))
      else none) = e.location offset := by
  obtain ⟨-, hv⟩ := h
  unfold Entry.location valueField
  cases hval : e.value with
  | none => rfl
  | some value =>
      rw [hval] at hv
      have hv : value.length < 2 ^ 31 := hv
      have hmod : value.length % 2 ^ 32 = value.length := Nat.mod_eq_of_lt (by omega)
      simp only [hmod, if_pos hv, Option.map_some]

/-- A complete entry is read. -/
theorem readEntry_encode {e : Entry} (h : e.Sized) (start x : Bytes) :
    readEntry (start ++ (e.encode ++ x)) start.length =
      some (e.key, e.location start.length, start.length + e.encode.length) := by
  obtain ⟨hk, hv, hrest⟩ := readLengths e h.1 x
  have hlen := length_encode e
  unfold readEntry
  simp only [List.drop_left, hk, hv, hrest, location_of_sized h, List.take_left]
  rw [if_neg (by rw [List.length_append]; omega), if_neg (by rw [List.length_append]; omega),
    if_neg]
  · rw [hlen]
    cases hval : e.value <;> simp [Entry.location, hval] <;> omega
  · cases hval : e.value with
    | none => simp [Entry.location, hval]
    | some value =>
        have hlen' : e.encode.length = 8 + e.key.length + value.length := by simpa [hval] using hlen
        simp only [Entry.location, hval, Option.map_some, Option.any_some, decide_eq_true_eq,
          ValueLocation.stop, List.length_append, hlen']
        omega

/-- An entry that was cut off is not read. -/
theorem readEntry_torn {tail : Bytes} (h : Torn tail) (start : Bytes) :
    readEntry (start ++ tail) start.length = none := by
  obtain ⟨e, hs, ⟨x, hx⟩, hlt⟩ := h
  have hlen := length_encode e
  unfold readEntry
  simp only [List.drop_left]
  by_cases h8 : tail.length < 8
  · rw [if_pos h8]
  · rw [if_neg h8]
    obtain ⟨hk, hv, -⟩ := readLengths e hs.1 []
    rw [List.append_nil, ← hx] at hk hv
    have hk' : ofBeBytes (tail.take 4) = e.key.length := by
      rwa [List.take_append_of_le_length (by omega)] at hk
    have hv' : ofBeBytes ((tail.drop 4).take 4) = valueField e.value := by
      rwa [List.drop_append_of_le_length (by omega),
        List.take_append_of_le_length (by rw [List.length_drop]; omega)] at hv
    rw [hk', hv', location_of_sized hs]
    by_cases hkey : tail.length < 8 + e.key.length
    · rw [if_pos hkey]
    · rw [if_neg hkey, if_pos]
      cases hval : e.value with
      | none =>
          rw [hval] at hlen
          simp only [Option.getD_none, List.length_nil] at hlen
          omega
      | some value =>
          rw [hval] at hlen
          simp only [Option.getD_some] at hlen
          simp only [Entry.location, hval, Option.map_some, Option.any_some, decide_eq_true_eq,
            ValueLocation.stop, List.length_append]
          omega

/-! ## Scanning -/

theorem eight_le_length_encode (e : Entry) : 8 ≤ e.encode.length := by
  rw [length_encode]
  omega

theorem length_le_encodeAll (es : List Entry) : es.length ≤ (encodeAll es).length := by
  induction es with
  | nil => rfl
  | cons e es ih =>
      have h8 := eight_le_length_encode e
      rw [encodeAll, List.flatMap_cons, List.length_append, List.length_cons]
      change es.length + 1 ≤ e.encode.length + (encodeAll es).length
      omega

/-- Scanning finds the entries, and cuts off what is left of another one. -/
theorem scanFrom_encodeAll {es : List Entry} (hs : ∀ e ∈ es, e.Sized) {tail : Bytes}
    (ht : Torn tail) (start : Bytes) (keydir : KeyDir) {steps : ℕ}
    (hsteps : es.length + tail.length ≤ steps) :
    scanFrom steps (start ++ (encodeAll es ++ tail)) start.length keydir =
      (start ++ encodeAll es, dirFrom start.length es keydir) := by
  induction es generalizing start keydir steps with
  | nil =>
      rw [encodeAll_nil, List.nil_append, List.append_nil, dirFrom]
      by_cases hnil : tail = []
      · subst hnil
        rw [List.append_nil]
        cases steps with
        | zero => rfl
        | succ steps => rw [scanFrom, if_neg (lt_irrefl _)]
      · have hpos : 0 < tail.length := List.length_pos_iff.mpr hnil
        obtain ⟨steps, rfl⟩ : ∃ n, steps = n + 1 := ⟨steps - 1, by
          rw [List.length_nil] at hsteps; omega⟩
        rw [scanFrom, if_pos (by rw [List.length_append]; omega), readEntry_torn ht]
        simp
  | cons e es ih =>
      have h8 := eight_le_length_encode e
      obtain ⟨steps, rfl⟩ : ∃ n, steps = n + 1 := ⟨steps - 1, by
        rw [List.length_cons] at hsteps; omega⟩
      have hcons : encodeAll (e :: es) = e.encode ++ encodeAll es := rfl
      rw [hcons, List.append_assoc, scanFrom, if_pos (by simp only [List.length_append]; omega),
        readEntry_encode (hs e List.mem_cons_self)]
      have hnext := ih (fun e' he => hs e' (List.mem_cons_of_mem e he)) (start ++ e.encode)
        (record keydir e.key (e.location start.length))
        (show es.length + tail.length ≤ steps by rw [List.length_cons] at hsteps; omega)
      rw [List.length_append, List.append_assoc] at hnext
      simp only [hnext, List.append_assoc, dirFrom]

theorem torn_nil : Torn [] :=
  ⟨⟨[], none⟩, ⟨by decide, by decide⟩, List.nil_prefix, by rw [length_encode]; decide⟩

/-- Opening a file of entries keeps the complete ones. -/
theorem buildKeydir_encodeAll {es : List Entry} (hs : ∀ e ∈ es, e.Sized) {tail : Bytes}
    (ht : Torn tail) :
    buildKeydir (encodeAll es ++ tail) = (encodeAll es, dirFrom 0 es OrderedMap.empty) := by
  refine scanFrom_encodeAll hs ht [] OrderedMap.empty ?_
  have hle := length_le_encodeAll es
  rw [List.length_append]
  omega

/-! ## Locations -/

/-- The keydir locates the values of the map in the file. -/
def Locates (file : Bytes) (keydir : KeyDir) (m : Memory) : Prop :=
  ∀ k, (keydir.get k).map (readValue file) = (m.get k).map .ok

/-- What is read is still there after appending. -/
theorem readValue_append {file : Bytes} {location : ValueLocation} {value : Bytes}
    (h : readValue file location = .ok value) (x : Bytes) :
    readValue (file ++ x) location = .ok value := by
  unfold readValue at h ⊢
  split_ifs at h with hle
  have hlen : location.offset + location.length ≤ file.length := hle
  rw [if_pos (by rw [List.length_append]; omega), List.drop_append_of_le_length (by omega),
    List.take_append_of_le_length (by rw [List.length_drop]; omega)]
  exact h

theorem readValue_encode (file : Bytes) (key value : Bytes) :
    readValue (file ++ (Entry.mk key (some value)).encode) ⟨file.length + 8 + key.length, value.length⟩ =
      .ok value := by
  have hlen := length_encode ⟨key, some value⟩
  simp only [Option.getD_some] at hlen
  unfold readValue
  rw [if_pos (by simp only [ValueLocation.stop, List.length_append, hlen]; omega)]
  have henc : (Entry.mk key (some value)).encode =
      (beBytes 4 (key.length % 2 ^ 32) ++ beBytes 4 (valueField (some value)) ++ key) ++ value := by
    rw [encode_eq]
    simp only [List.append_assoc, Option.getD_some]
  have hstart : (beBytes 4 (key.length % 2 ^ 32) ++ beBytes 4 (valueField (some value)) ++
      key).length = 8 + key.length := by
    simp only [List.length_append, length_beBytes]
  have hoffset : (file ++ (beBytes 4 (key.length % 2 ^ 32) ++ beBytes 4 (valueField (some value)) ++
      key)).length = file.length + 8 + key.length := by
    rw [List.length_append, hstart, Nat.add_assoc]
  rw [henc, ← List.append_assoc, List.drop_left' hoffset, List.take_length]

theorem Locates.record {file : Bytes} {keydir : KeyDir} {m : Memory} (h : Locates file keydir m)
    (e : Entry) :
    Locates (file ++ e.encode) (Log.record keydir e.key (e.location file.length)) (e.apply m) := by
  have hold : ∀ k, (keydir.get k).map (readValue (file ++ e.encode)) = (m.get k).map .ok := by
    intro k
    have hk := h k
    cases hd : keydir.get k with
    | none =>
        rw [hd] at hk
        exact hk
    | some location =>
        rw [hd] at hk
        cases hm : m.get k with
        | none =>
            rw [hm] at hk
            cases hk
        | some value =>
            rw [hm] at hk
            exact congrArg some (readValue_append (Option.some.inj hk) _)
  intro k
  obtain ⟨key, value⟩ := e
  cases value with
  | none =>
      change ((keydir.erase key).get k).map _ = ((OrderedMap.erase m key).get k).map _
      rw [OrderedMap.get_erase, OrderedMap.get_erase]
      split_ifs
      · rfl
      · exact hold k
  | some value =>
      change ((keydir.insert key _).get k).map _ = ((OrderedMap.insert m key value).get k).map _
      rw [OrderedMap.get_insert, OrderedMap.get_insert]
      split_ifs
      · exact congrArg some (readValue_encode file key value)
      · exact hold k

/-- The keydir of a log locates the values of the replayed map. -/
theorem locates_replay (es : List Entry) :
    Locates (encodeAll es) (dirFrom 0 es OrderedMap.empty) (replayEntries es) := by
  induction es using List.reverseRecOn with
  | nil => exact fun _ => rfl
  | append_singleton es e ih =>
      rw [encodeAll_append, encodeAll_singleton, dirFrom_append, replayEntries_append_singleton,
        Nat.zero_add]
      exact ih.record e

end Log
end ToyDB.Storage
