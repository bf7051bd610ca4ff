import ToyDB.Encoding.ByteOrder
import ToyDB.Encoding.Prefixes
import ToyDB.Mvcc.Transaction

/-!
# The engine keys of transactions

The programs order and scan structured keys; the code orders and scans encoded ones. Both
agree: the keys are ordered like their encodings, and each scan covers the keys whose
encodings are in the range that the code scans.
-/
namespace ToyDB.Mvcc
open ToyDB.Encoding ToyDB.Keycode ToyDB.Storage

/-! ## The order of keys -/

namespace Key

/-- The key that an encoded key is read as. -/
def of : MvccKey → Key Bytes
  | .nextVersion => .nextVersion
  | .txnActive v => .txnActive v.toNat
  | .txnActiveSnapshot v => .txnActiveSnapshot v.toNat
  | .txnWrite v key => .txnWrite v.toNat key
  | .version key v => .version key v.toNat
  | .unversioned key => .unversioned key

theorem lt_iff_rank {a b : Key Bytes} : a < b ↔ a.rank < b.rank := Iff.rfl

theorem le_iff_rank {a b : Key Bytes} : a ≤ b ↔ a.rank ≤ b.rank := Iff.rfl

theorem of_lt_iff {a b : MvccKey} : of a < of b ↔ a.cmp b = .lt := by
  cases a <;> cases b <;> simp [of, lt_iff_rank, rank, Prod.Lex.toLex_lt_toLex, MvccKey.cmp,
    MvccKey.variant, cmpU64, compare_lt_iff_lt, cmpList_eq_lt, Ordering.then_eq_lt]

/-- Keys are ordered like their encodings. -/
theorem lt_iff_encoded {a b : MvccKey} : of a < of b ↔ a.serialize < b.serialize := by
  rw [of_lt_iff, ← (keys_keepOrder.1 a b trivial trivial).1, cmpList_eq_lt]

theorem le_iff_encoded {a b : MvccKey} : of a ≤ of b ↔ a.serialize ≤ b.serialize := by
  rw [← not_lt, ← not_lt, lt_iff_encoded]

end Key

/-! ## Scans -/

/-- The range of encoded keys holds the encodings of the keys that satisfy the predicate. -/
def Covers (range : Range) (p : Key Bytes → Bool) : Prop :=
  ∀ k : MvccKey, range.contains k.serialize = true ↔ p (.of k) = true

/-- The highest version. -/
def maxVersion : UInt64 := 0xffffffffffffffff

theorem le_maxVersion (v : UInt64) : v.toNat ≤ maxVersion.toNat := by
  have := v.toNat_lt
  change v.toNat ≤ 2 ^ 64 - 1
  omega

/-- The active transactions: the keys under a prefix. -/
theorem covers_txnActive :
    Covers (prefixRange MvccKeyPrefix.txnActive.serialize) Key.isTxnActive := by
  intro k
  rw [mem_prefixRange, MvccKeyPrefix.serialize_prefix_iff]
  cases k <;> simp [MvccKeyPrefix.Groups, Key.of, Key.isTxnActive]

/-- The write records of a transaction: the keys under a prefix. -/
theorem covers_txnWrite (v : UInt64) :
    Covers (prefixRange (MvccKeyPrefix.txnWrite v).serialize) (Key.isTxnWrite v.toNat) := by
  intro k
  rw [mem_prefixRange, MvccKeyPrefix.serialize_prefix_iff]
  cases k <;> simp [MvccKeyPrefix.Groups, Key.of, Key.isTxnWrite, UInt64.toNat_inj, eq_comm]

/-- The versions of a key from one to another. -/
theorem between_versions {key : Bytes} {u v : ℕ} {k : Key Bytes} :
    .version key u ≤ k ∧ k ≤ .version key v ↔ ∃ w, k = .version key w ∧ u ≤ w ∧ w ≤ v := by
  cases k with
  | version key' w =>
      rw [Key.version_le_iff, Key.version_le_iff]
      constructor
      · intro ⟨hfrom, hto⟩
        obtain hlt | ⟨rfl, hu⟩ := hfrom
        · obtain hgt | ⟨rfl, -⟩ := hto
          · exact absurd hlt hgt.asymm
          · exact absurd hlt (lt_irrefl _)
        · obtain hgt | ⟨-, hv⟩ := hto
          · exact absurd hgt (lt_irrefl _)
          · exact ⟨w, rfl, hu, hv⟩
      · intro ⟨w', heq, hu, hv⟩
        obtain ⟨rfl, rfl⟩ := Key.version.inj heq
        exact ⟨Or.inr ⟨rfl, hu⟩, Or.inr ⟨rfl, hv⟩⟩
  | nextVersion | txnActive | txnActiveSnapshot | txnWrite | unversioned =>
      simp [Key.le_iff_rank, Key.rank, Prod.Lex.toLex_le_toLex]

/-- The range of the versions of a key from one to another. -/
def versionRange (key : Bytes) (first last : UInt64) : Range where
  start := .included (MvccKey.version key first).serialize
  stop := .included (MvccKey.version key last).serialize

theorem mem_versionRange {key : Bytes} {first last : UInt64} {k : MvccKey} :
    (versionRange key first last).contains k.serialize = true ↔
      ∃ w, Key.of k = .version key w ∧ first.toNat ≤ w ∧ w ≤ last.toNat := by
  rw [← between_versions, versionRange, Range.contains]
  simp only [Bool.and_eq_true, decide_eq_true_eq, ← Key.le_iff_encoded]
  rfl

/-- The range in which a write looks for a conflict. -/
theorem covers_versionsFrom (key : Bytes) (first : UInt64) :
    Covers (versionRange key first maxVersion) (Key.versionsFrom key first.toNat) := by
  intro k
  rw [mem_versionRange]
  cases k with
  | version key' v =>
      have := le_maxVersion v
      simp [Key.of, Key.versionsFrom, this]
  | nextVersion | txnActive | txnActiveSnapshot | txnWrite | unversioned =>
      simp [Key.of, Key.versionsFrom]

/-- The range in which a read looks for a value. -/
theorem covers_versionsTo (key : Bytes) (last : UInt64) :
    Covers (versionRange key 0 last) (Key.versionsTo key last.toNat) := by
  intro k
  rw [mem_versionRange]
  cases k with
  | version key' v => simp [Key.of, Key.versionsTo]
  | nextVersion | txnActive | txnActiveSnapshot | txnWrite | unversioned =>
      simp [Key.of, Key.versionsTo]

/-- The range of the versions of the keys under a prefix. -/
theorem covers_scanPrefix (p : Bytes) : Covers (scanPrefix p) (Key.isVersion p.isPrefixOf) := by
  intro k
  rw [mem_scanPrefix]
  cases k with
  | version key v => simp [Key.of, Key.isVersion]
  | nextVersion | txnActive | txnActiveSnapshot | txnWrite | unversioned =>
      simp [Key.of, Key.isVersion]

/-- The start of the range that a scan of a key range runs over. -/
def scanStart : Bound Bytes → Storage.Bound
  | .excluded key => .excluded (MvccKey.version key maxVersion).serialize
  | .included key => .included (MvccKey.version key 0).serialize
  | .unbounded => .included (MvccKey.version [] 0).serialize

/-- The end of the range that a scan of a key range runs over. -/
def scanEnd : Bound Bytes → Storage.Bound
  | .excluded key => .excluded (MvccKey.version key 0).serialize
  | .included key => .included (MvccKey.version key maxVersion).serialize
  | .unbounded => .excluded MvccKeyPrefix.unversioned.serialize

theorem version_zero_le {key key' : Bytes} {v : UInt64} :
    Key.of (.version key 0) ≤ .of (.version key' v) ↔ key ≤ key' := by
  rw [Key.of, Key.of, Key.version_le_iff, le_iff_lt_or_eq (a := key)]
  simp

theorem version_le_max {key key' : Bytes} {v : UInt64} :
    Key.of (.version key' v) ≤ .of (.version key maxVersion) ↔ key' ≤ key := by
  rw [Key.of, Key.of, Key.version_le_iff, le_iff_lt_or_eq (a := key')]
  simp [le_maxVersion]

theorem version_lt_zero {key key' : Bytes} {v : UInt64} :
    Key.of (.version key' v) < .of (.version key 0) ↔ key' < key := by
  rw [← not_le, version_zero_le, not_le]

theorem max_lt_version {key key' : Bytes} {v : UInt64} :
    Key.of (.version key maxVersion) < .of (.version key' v) ↔ key < key' := by
  rw [← not_le, version_le_max, not_le]

/-- A scan starts behind all keys that are no versions, but for unversioned ones. -/
theorem mem_scanStart {first : Bound Bytes} {k : MvccKey} :
    (Range.mk (scanStart first) .unbounded).contains k.serialize = true ↔
      match k with
      | .version key _ => first.startsAt key = true
      | .unversioned _ => True
      | _ => False := by
  cases k with
  | version key v =>
      cases first with
      | included =>
          simp [scanStart, Range.contains, Bound.startsAt, ← Key.le_iff_encoded, version_zero_le]
      | excluded =>
          simp [scanStart, Range.contains, Bound.startsAt, ← Key.lt_iff_encoded, max_lt_version]
      | unbounded =>
          have hnil : [] ≤ key := not_lt.mp (List.not_lt_nil key)
          simp [scanStart, Range.contains, Bound.startsAt, ← Key.le_iff_encoded, version_zero_le,
            hnil]
  | nextVersion | txnActive | txnActiveSnapshot | txnWrite | unversioned =>
      cases first <;> simp [scanStart, Range.contains, ← Key.le_iff_encoded, ← Key.lt_iff_encoded,
        Key.of, Key.lt_iff_rank, Key.le_iff_rank, Key.rank, Prod.Lex.toLex_le_toLex,
        Prod.Lex.toLex_lt_toLex]

/-- A scan ends before the unversioned keys. -/
theorem mem_scanEnd {last : Bound Bytes} {k : MvccKey} :
    (Range.mk .unbounded (scanEnd last)).contains k.serialize = true ↔
      match k with
      | .version key _ => last.endsAt key = true
      | .unversioned _ => False
      | _ => True := by
  cases last with
  | unbounded =>
      cases k <;> simp [scanEnd, Range.contains, Bound.endsAt, MvccKey.serialize,
        MvccKeyPrefix.serialize, MvccKeyPrefix.content, MvccKeyPrefix.variant, MvccKey.variant,
        serializeVariant, List.cons_lt_cons_iff]
  | included key | excluded key =>
      cases k with
      | version =>
          simp [scanEnd, Range.contains, Bound.endsAt, ← Key.le_iff_encoded, ← Key.lt_iff_encoded,
            version_le_max, version_lt_zero]
      | nextVersion | txnActive | txnActiveSnapshot | txnWrite | unversioned =>
          simp [scanEnd, Range.contains, ← Key.le_iff_encoded, ← Key.lt_iff_encoded,
            Key.of, Key.lt_iff_rank, Key.le_iff_rank, Key.rank, Prod.Lex.toLex_le_toLex,
            Prod.Lex.toLex_lt_toLex]

theorem contains_iff {r : Range} {key : Bytes} : r.contains key = true ↔
    (Range.mk r.start .unbounded).contains key = true ∧
      (Range.mk .unbounded r.stop).contains key = true := by
  simp [Range.contains]

theorem covers_scan (first last : Bound Bytes) :
    Covers ⟨scanStart first, scanEnd last⟩
      (Key.isVersion fun key => first.startsAt key && last.endsAt key) := by
  intro k
  rw [contains_iff, mem_scanStart, mem_scanEnd]
  cases k <;> simp [Key.of, Key.isVersion]

theorem contains_of_le {start : Storage.Bound} {key key' : Bytes} (hle : key ≤ key')
    (h : (Range.mk start .unbounded).contains key = true) :
    (Range.mk start .unbounded).contains key' = true := by
  cases start with
  | included first =>
      have hfirst : first ≤ key := by simpa [Range.contains] using h
      simpa [Range.contains] using hfirst.trans hle
  | excluded first =>
      have hfirst : first < key := by simpa [Range.contains] using h
      simpa [Range.contains] using hfirst.trans_le hle
  | unbounded => rfl

/-- What remains of a scan, from a key in its range on. -/
theorem Covers.remainder {range : Range} {p : Key Bytes → Bool} (h : Covers range p)
    {next : MvccKey} (hnext : p (.of next) = true) :
    Covers { range with start := .included next.serialize } fun key => .of next ≤ key ∧ p key := by
  have hstart := (contains_iff.mp ((h next).mpr hnext)).1
  intro k
  rw [contains_iff, decide_eq_true_eq, ← h k, contains_iff (r := range), Key.le_iff_encoded]
  have hfrom : (Range.mk (.included next.serialize) .unbounded).contains k.serialize = true ↔
      next.serialize ≤ k.serialize := by simp [Range.contains]
  rw [hfrom]
  constructor
  · intro ⟨hle, hstop⟩
    exact ⟨hle, contains_of_le hle hstart, hstop⟩
  · intro ⟨hle, _, hstop⟩
    exact ⟨hle, hstop⟩

end ToyDB.Mvcc
