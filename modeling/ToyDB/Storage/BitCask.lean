import ToyDB.Collections.OrderedMap
import ToyDB.Encoding.BigEndian

/-!
# BitCask and the in-memory engine

BitCask appends entries to a log file and keeps the location of each live value in
memory. A file is its bytes; locks, file names and I/O failures other than reading past
the end are left out. The in-memory engine is an ordered map. Both are driven by the same
commands.
-/
namespace ToyDB.Storage
open ToyDB.Collections ToyDB.Encoding

/-- Bytes are ordered as numbers, and byte strings lexicographically. -/
scoped instance byteOrder : LinearOrder UInt8 where
  le_refl := UInt8.le_refl
  le_trans _ _ _ := UInt8.le_trans
  le_antisymm _ _ := UInt8.le_antisymm
  le_total := UInt8.le_total
  lt_iff_le_not_ge _ _ := by rw [UInt8.not_le]; exact ⟨fun h => ⟨UInt8.le_of_lt h, h⟩, And.right⟩
  toDecidableLE := inferInstance

/-! ## Ranges -/

/-- The end of a range. -/
inductive Bound where
  | included (key : Bytes)
  | excluded (key : Bytes)
  | unbounded
  deriving DecidableEq

/-- A range of keys. -/
structure Range where
  start : Bound
  stop : Bound
  deriving DecidableEq

namespace Range

/-- The key is in the range. -/
def contains (range : Range) (key : Bytes) : Bool :=
  (match range.start with
    | .included k => decide (k ≤ key)
    | .excluded k => decide (k < key)
    | .unbounded => true) &&
  (match range.stop with
    | .included k => decide (key ≤ k)
    | .excluded k => decide (key < k)
    | .unbounded => true)

/-- Maps reject a range whose start is behind its end. -/
def check (range : Range) : Except Failure Unit :=
  match range.start, range.stop with
  | .excluded a, .excluded b =>
      if a = b then .error (.panic "range start and end are equal and excluded in BTreeMap")
      else if b < a then .error (.panic "range start is greater than range end in BTreeMap")
      else .ok ()
  | .included a, .included b | .included a, .excluded b | .excluded a, .included b =>
      if b < a then .error (.panic "range start is greater than range end in BTreeMap") else .ok ()
  | _, _ => .ok ()

end Range

/-- The position of the last element that satisfies the predicate. -/
def rposition {α : Type} (p : α → Bool) : List α → Option ℕ
  | [] => none
  | a :: l =>
      match rposition p l with
      | some i => some (i + 1)
      | none => if p a then some 0 else none

/-- The byte can be incremented. -/
def notHighest (b : UInt8) : Bool := b ≠ 0xff

/-- The range of the keys under a prefix. -/
def prefixRange (bytes : Bytes) : Range where
  start := .included bytes
  stop :=
    match rposition notHighest bytes with
    | some i => .excluded (bytes.take i ++ [bytes.getD i 0 + 1])
    | none => .unbounded

/-! ## The log -/

/-- The location of a value in the log file. -/
structure ValueLocation where
  offset : ℕ
  length : ℕ
  deriving DecidableEq

def ValueLocation.stop (self : ValueLocation) : ℕ := self.offset + self.length

/-- The locations of the values. -/
abbrev KeyDir := OrderedMap Bytes ValueLocation

namespace Log

/-- The bytes of an entry: the lengths of the key and the value, which have 32 bits, the
key and the value. A tombstone has a negative length. -/
def encodeEntry (key : Bytes) (value : Option Bytes) : Bytes :=
  beBytes 4 (key.length % 2 ^ 32) ++
    beBytes 4 (match value with
      | some value => value.length % 2 ^ 32
      | none => 2 ^ 32 - 1) ++
    key ++ value.getD []

/-- Appends an entry, and returns the location of its value. -/
def writeEntry (file : Bytes) (key : Bytes) (value : Option Bytes) : ValueLocation × Bytes :=
  (⟨file.length + 8 + key.length, (value.getD []).length⟩, file ++ encodeEntry key value)

def readValue (file : Bytes) (location : ValueLocation) : Except Failure Bytes :=
  if location.stop ≤ file.length then .ok ((file.drop location.offset).take location.length)
  else .error (.error (.io "failed to fill whole buffer"))

/-- Reads the entry at an offset: its key, the location of its value, and the offset of
the next entry. An entry that extends beyond the end of the file is not read. -/
def readEntry (file : Bytes) (offset : ℕ) : Option (Bytes × Option ValueLocation × ℕ) :=
  let rest := file.drop offset
  if rest.length < 8 then none
  else
    let keyLen := ofBeBytes (rest.take 4)
    let valueLen := ofBeBytes ((rest.drop 4).take 4)
    let location :=
      if valueLen < 2 ^ 31 then some (ValueLocation.mk (offset + 8 + keyLen) valueLen) else none
    if rest.length < 8 + keyLen then none
    else if location.any fun location => file.length < location.stop then none
    else some ((rest.drop 8).take keyLen, location,
      offset + 8 + keyLen + (location.map ValueLocation.length).getD 0)

/-- Records an entry in the keydir. -/
def record (keydir : KeyDir) (key : Bytes) : Option ValueLocation → KeyDir
  | some location => keydir.insert key location
  | none => keydir.erase key

/-- Scans the file from an offset. An incomplete entry at the end is cut off. -/
def scanFrom : ℕ → Bytes → ℕ → KeyDir → Bytes × KeyDir
  | 0, file, _, keydir => (file, keydir)
  | steps + 1, file, offset, keydir =>
      if offset < file.length then
        match readEntry file offset with
        | some (key, location, next) => scanFrom steps file next (record keydir key location)
        | none => (file.take offset, keydir)
      else (file, keydir)

/-- Builds the keydir by scanning the log file. Every entry has at least eight bytes, so
the length of the file bounds the number of entries. -/
def buildKeydir (file : Bytes) : Bytes × KeyDir := scanFrom file.length file 0 OrderedMap.empty

end Log

/-! ## Engines -/

structure BitCask where
  log : Bytes
  keydir : KeyDir

namespace BitCask

/-- Opens a file. -/
def new (file : Bytes) : BitCask := ⟨(Log.buildKeydir file).1, (Log.buildKeydir file).2⟩

def set (self : BitCask) (key value : Bytes) : BitCask :=
  let (location, log) := Log.writeEntry self.log key (some value)
  ⟨log, self.keydir.insert key location⟩

def delete (self : BitCask) (key : Bytes) : BitCask :=
  let (_, log) := Log.writeEntry self.log key none
  ⟨log, self.keydir.erase key⟩

def get (self : BitCask) (key : Bytes) : Except Failure (Option Bytes) :=
  match self.keydir.get key with
  | none => .ok none
  | some location => (Log.readValue self.log location).map some

/-- The items of a scan in a range. -/
def scan (self : BitCask) (range : Range) : Except Failure (List (Except Failure (Bytes × Bytes))) :=
  range.check.map fun () => ((self.keydir.scan range.contains).map fun (key, location) =>
    (Log.readValue self.log location).map fun value => (key, value))

/-- Writes the live entries into a new log. -/
def compact (self : BitCask) : Except Failure BitCask :=
  self.keydir.entries.foldlM (fun new (key, location) => do
    let value ← Log.readValue self.log location
    let (location, log) := Log.writeEntry new.log key (some value)
    return ⟨log, new.keydir.insert key location⟩) ⟨[], OrderedMap.empty⟩

end BitCask

/-- The in-memory engine. -/
abbrev Memory := OrderedMap Bytes Bytes

/-- The items of a scan in a range. -/
def Memory.scan (self : Memory) (range : Range) :
    Except Failure (List (Except Failure (Bytes × Bytes))) :=
  range.check.map fun () => ((OrderedMap.scan self range.contains).map fun (key, value) => .ok (key, value))

/-! ## Commands -/

/-- What an engine is asked to do. A scan goes forward or in reverse. -/
inductive Command where
  | set (key value : Bytes)
  | delete (key : Bytes)
  | get (key : Bytes)
  | scan (range : Range) (reverse : Bool)
  | scanPrefix (start : Bytes) (reverse : Bool)
  | compact
  | reopen

inductive Answer where
  | done
  | value (value : Option Bytes)
  | items (items : List (Except Failure (Bytes × Bytes)))

/-- The items in the direction of the scan. -/
def Answer.ofScan (reverse : Bool) (items : List (Except Failure (Bytes × Bytes))) : Answer :=
  .items (if reverse then items.reverse else items)

def BitCask.execute (self : BitCask) : Command → Except Failure Answer × BitCask
  | .set key value => (.ok .done, self.set key value)
  | .delete key => (.ok .done, self.delete key)
  | .get key => ((self.get key).map .value, self)
  | .scan range reverse => ((self.scan range).map (.ofScan reverse), self)
  | .scanPrefix start reverse => ((self.scan (prefixRange start)).map (.ofScan reverse), self)
  | .compact =>
      match self.compact with
      | .ok new => (.ok .done, new)
      | .error e => (.error e, self)
  | .reopen => (.ok .done, new self.log)

/-- Compaction and reopening do nothing in memory. -/
def Memory.execute (self : Memory) : Command → Except Failure Answer × Memory
  | .set key value => (.ok .done, self.insert key value)
  | .delete key => (.ok .done, self.erase key)
  | .get key => (.ok (.value (self.get key)), self)
  | .scan range reverse => ((self.scan range).map (.ofScan reverse), self)
  | .scanPrefix start reverse => ((self.scan (prefixRange start)).map (.ofScan reverse), self)
  | .compact | .reopen => (.ok .done, self)

/-- The answers to a sequence of commands, and the state after it. -/
def runCommands {σ : Type} (execute : σ → Command → Except Failure Answer × σ) :
    σ → List Command → List (Except Failure Answer) × σ
  | s, [] => ([], s)
  | s, command :: commands =>
      let (answer, s) := execute s command
      let (answers, s) := runCommands execute s commands
      (answer :: answers, s)

end ToyDB.Storage
