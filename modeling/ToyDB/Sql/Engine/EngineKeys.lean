import ToyDB.Encoding.ByteOrder
import ToyDB.Encoding.Prefixes

/-!
# The engine keys of tables

Without floats, the keys of tables, index entries and rows are ordered like their
encodings. Each scan covers the keys under one encoded prefix.
-/
namespace ToyDB.Sql
open ToyDB.Encoding ToyDB.Keycode ToyDB.Storage

theorem cmpStr_eq_lt {s t : String} : cmpStr s t = .lt ↔ s < t := by
  rw [cmpStr, cmpList_eq_lt, asBytes_lt]

theorem cmpStr_eq_eq {s t : String} : cmpStr s t = .eq ↔ s = t := by
  have hbytes : cmpList (asBytes s) (asBytes t) = .eq ↔ asBytes s = asBytes t :=
    Std.LawfulEqCmp.compare_eq_iff_eq
  rw [cmpStr, hbytes]
  constructor
  · intro h
    have hs := fromUTF8_asBytes s
    rw [h, fromUTF8_asBytes] at hs
    exact (Option.some.inj hs).symm
  · exact congrArg asBytes

theorem Value.lt_iff_rank {a b : Value} : a < b ↔ a.rank < b.rank := Iff.rfl

theorem Value.cmpFields_eq_lt {a b : Value} : a.cmpFields b = .lt ↔ a < b := by
  have hbool : ∀ p q : Bool, p < q ↔ p.toNat < q.toNat := by decide
  cases a <;> cases b <;> simp [Value.lt_iff_rank, Value.rank, Value.cmpFields, Value.variant,
    Prod.Lex.toLex_lt_toLex, compare_lt_iff_lt, cmpStr_eq_lt, F64.totalCmp, hbool]

namespace Key

theorem lt_iff_rank {a b : Key} : a < b ↔ a.rank < b.rank := Iff.rfl

theorem cmp_eq_lt {a b : Key} : a.cmp b = .lt ↔ a < b := by
  cases a <;> cases b <;> simp [lt_iff_rank, rank, cmp, variant, Prod.Lex.toLex_lt_toLex,
    compare_lt_iff_lt, Ordering.then_eq_lt, cmpStr_eq_lt, cmpStr_eq_eq, Value.cmpFields_eq_lt]

/-- Keys are ordered like their encodings. -/
theorem lt_iff_encoded {a b : Key} (ha : a.NoFloat) (hb : b.NoFloat) :
    a < b ↔ a.serialize < b.serialize := by
  rw [← cmp_eq_lt, ← (keys_keepOrder.2.2 a b ha hb).1, cmpList_eq_lt]

end Key

/-! ## Scans -/

/-- The range of the versions under the encoded prefix holds the versions of the keys that
satisfy the predicate. -/
def Covers (q : KeyPrefix) (p : Key → Bool) : Prop := ∀ (k : Key) (v : UInt64),
  (scanPrefix q.serialize).contains (MvccKey.version k.serialize v).serialize = true ↔ p k = true

/-- The scan of the tables. -/
theorem covers_table : Covers .table Key.isTable := by
  intro k v
  rw [mem_scanPrefix_sql]
  cases k <;> simp [KeyPrefix.Groups, Key.isTable]

/-- The scan of a table's rows. -/
theorem covers_row (name : String) : Covers (.row name) (Key.isRowOf name) := by
  intro k v
  rw [mem_scanPrefix_sql]
  cases k <;> simp [KeyPrefix.Groups, Key.isRowOf, eq_comm]

/-- The scan of a column's index entries. -/
theorem covers_index (name column : String) :
    Covers (.index name column) (Key.isIndexOf name column) := by
  intro k v
  rw [mem_scanPrefix_sql]
  cases k <;> simp [KeyPrefix.Groups, Key.isIndexOf, @eq_comm _ name, @eq_comm _ column]

end ToyDB.Sql
