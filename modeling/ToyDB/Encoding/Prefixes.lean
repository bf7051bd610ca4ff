import ToyDB.Encoding.Keys
import ToyDB.Storage.BitCask

/-!
# Prefix scans

The range of a key prefix holds exactly the byte strings that start with it. The encoded
key prefixes are prefixes of the encoded keys of their groups only, also where the terminator
of a byte string is cut off to scan all keys under it.
-/
namespace ToyDB.Keycode
open ToyDB.Encoding ToyDB.Storage

/-! ## Ranges -/

/-- The key is below the end of the range of the prefix. -/
def BelowEnd (p k : Bytes) : Prop :=
  ∀ i, rposition notHighest p = some i → k < p.take i ++ [p.getD i 0 + 1]

theorem contains_prefixRange {p k : Bytes} :
    (prefixRange p).contains k = true ↔ p ≤ k ∧ BelowEnd p k := by
  unfold Range.contains prefixRange BelowEnd
  cases rposition notHighest p <;> simp

/-- The bytes above a byte, unless it is the highest one. -/
theorem lt_add_one_iff {b c : UInt8} (h : b ≠ 0xff) : c < b + 1 ↔ c ≤ b := by
  have hb : b.toNat ≠ 255 := fun hb => h (UInt8.toNat_inj.mp hb)
  have := b.toNat_lt
  rw [UInt8.lt_iff_toNat_lt, UInt8.le_iff_toNat_le, UInt8.toNat_add, UInt8.toNat_one]
  omega

theorem le_highest (c : UInt8) : c ≤ 0xff := by
  have := c.toNat_lt
  rw [UInt8.le_iff_toNat_le]
  change c.toNat ≤ 255
  omega

theorem belowEnd_of_none {p k : Bytes} (h : rposition notHighest p = none) :
    BelowEnd p k := by
  intro i hi
  rw [h] at hi
  cases hi

theorem belowEnd_cons {b c : UInt8} {p k : Bytes} :
    BelowEnd (b :: p) (c :: k) ↔ c < b ∨ c = b ∧ BelowEnd p k ∨
      rposition notHighest p = none ∧ c ≤ b := by
  cases hp : rposition notHighest p with
  | some j =>
      have hcons : rposition notHighest (b :: p) = some (j + 1) := by
        rw [rposition, hp]
      simp [BelowEnd, hcons, hp, List.cons_lt_cons_iff]
  | none =>
      have hright : (c < b ∨ c = b ∧ BelowEnd p k ∨ True ∧ c ≤ b) ↔ c ≤ b := by
        simp only [belowEnd_of_none hp, and_true, true_and]
        constructor
        · intro h
          obtain h | rfl | h := h
          · exact h.le
          · exact le_rfl
          · exact h
        · exact fun h => Or.inr (Or.inr h)
      rw [eq_self, hright]
      unfold BelowEnd
      rw [rposition, hp]
      by_cases hb : b = 0xff
      · subst hb
        simp [notHighest, le_highest]
      · simp [notHighest, hb, List.cons_lt_cons_iff, lt_add_one_iff]

/-- The range of a prefix holds the keys that start with it. -/
theorem mem_prefixRange {p k : Bytes} : (prefixRange p).contains k = true ↔ p <+: k := by
  rw [contains_prefixRange]
  induction p generalizing k with
  | nil =>
      have hle : ([] : Bytes) ≤ k := not_lt.mp (List.not_lt_nil k)
      simp [hle, BelowEnd, rposition]
  | cons b p ih =>
      cases k with
      | nil => simp
      | cons c k =>
          have hcons : b :: p ≤ c :: k ↔ b < c ∨ b = c ∧ p ≤ k := by
            rw [← not_lt, ← not_lt, List.cons_lt_cons_iff, not_or, not_and, not_lt]
            constructor
            · intro ⟨hle, hnot⟩
              obtain hlt | rfl := lt_or_eq_of_le hle
              · exact Or.inl hlt
              · exact Or.inr ⟨rfl, hnot rfl⟩
            · intro h
              obtain hlt | ⟨rfl, hnot⟩ := h
              · exact ⟨hlt.le, fun heq => absurd heq hlt.ne'⟩
              · exact ⟨le_rfl, fun _ => hnot⟩
          rw [List.cons_prefix_cons, belowEnd_cons, ← ih, hcons]
          constructor
          · intro ⟨hle, hend⟩
            obtain hlt | ⟨rfl, hle⟩ := hle
            · obtain hgt | ⟨rfl, _⟩ | ⟨_, hge⟩ := hend
              · exact absurd hgt hlt.asymm
              · exact absurd hlt (lt_irrefl _)
              · exact absurd hlt (not_lt.mpr hge)
            · obtain hgt | ⟨_, hend⟩ | ⟨hnone, _⟩ := hend
              · exact absurd hgt (lt_irrefl _)
              · exact ⟨rfl, hle, hend⟩
              · exact ⟨rfl, hle, belowEnd_of_none hnone⟩
          · intro ⟨heq, hle, hend⟩
            exact ⟨Or.inr ⟨heq, hle⟩, Or.inr (Or.inl ⟨heq.symm, hend⟩)⟩

/-! ## Key prefixes -/

section
variable {α : Type} {encode : α → Bytes} {r : Reader α} {Good : α → Prop} {a b : α} {x y : Bytes}

/-- An encoded value in front determines the value. -/
theorem prefix_append_iff (h : Decodes encode r Good) (ha : Good a) (hb : Good b) :
    encode a ++ x <+: encode b ++ y ↔ a = b ∧ x <+: y := by
  constructor
  · intro ⟨z, hz⟩
    have hread := h.roundTrip a ha (x ++ z)
    rw [← List.append_assoc, hz, h.roundTrip b hb y] at hread
    obtain ⟨rfl, hy⟩ := Prod.mk.inj (Except.ok.inj hread)
    exact ⟨rfl, z, hy.symm⟩
  · intro ⟨heq, hxy⟩
    rw [heq]
    exact (List.prefix_append_right_inj _).mpr hxy

theorem prefix_iff (h : Decodes encode r Good) (ha : Good a) (hb : Good b) :
    encode a <+: encode b ++ y ↔ a = b := by
  have := prefix_append_iff (x := []) (y := y) h ha hb
  simpa using this

end

/-- A prefix of MVCC keys. -/
inductive MvccKeyPrefix where
  | nextVersion
  | txnActive
  | txnActiveSnapshot
  | txnWrite (version : UInt64)
  | version (key : Bytes)
  | unversioned

namespace MvccKeyPrefix

def variant : MvccKeyPrefix → ℕ
  | nextVersion => 0
  | txnActive => 1
  | txnActiveSnapshot => 2
  | txnWrite _ => 3
  | version _ => 4
  | unversioned => 5

def content : MvccKeyPrefix → Bytes
  | nextVersion | txnActive | txnActiveSnapshot | unversioned => []
  | txnWrite v => serializeU64 v
  | version key => serializeBytes key

def serialize (k : MvccKeyPrefix) : Bytes := serializeVariant k.variant ++ k.content

/-- The keys of the group that the prefix stands for. -/
def Groups : MvccKeyPrefix → MvccKey → Prop
  | nextVersion, .nextVersion => True
  | txnActive, .txnActive _ => True
  | txnActiveSnapshot, .txnActiveSnapshot _ => True
  | txnWrite v, .txnWrite w _ => v = w
  | version key, .version key' _ => key = key'
  | unversioned, .unversioned _ => True
  | _, _ => False

theorem variant_lt (k : MvccKeyPrefix) : k.variant < 6 := by
  cases k <;> simp [variant]

/-- A prefix is one of exactly the keys of its group. -/
theorem serialize_prefix_iff (q : MvccKeyPrefix) (k : MvccKey) :
    q.serialize <+: k.serialize ↔ q.Groups k := by
  rw [serialize, MvccKey.serialize,
    prefix_append_iff (decodes_variant (by decide)) q.variant_lt k.variant_lt]
  cases q <;> cases k <;> simp [variant, MvccKey.variant, content, MvccKey.content, Groups]
  case txnWrite.txnWrite v w key => exact prefix_iff decodes_u64 trivial trivial
  case version.version key key' w => exact prefix_iff decodes_bytes trivial trivial

end MvccKeyPrefix

/-! ## Scans of key prefixes -/

/-- The range of the versions of all keys under a prefix: the encoded prefix without the
terminator of its byte string. -/
def scanPrefix (bytes : Bytes) : Range :=
  let encoded := (MvccKeyPrefix.version bytes).serialize
  prefixRange (encoded.take (encoded.length - 2))

/-- An escaped byte string, without its terminator. -/
def escape (v : Bytes) : Bytes := v.flatMap fun byte => if byte = 0x00 then [0x00, 0xff] else [byte]

theorem scanPrefix_eq (p : Bytes) : scanPrefix p = prefixRange (4 :: escape p) := by
  have hencoded : (MvccKeyPrefix.version p).serialize = (4 :: escape p) ++ [0x00, 0x00] := rfl
  have hlength : (4 :: escape p ++ [0x00, 0x00]).length - 2 = (4 :: escape p).length := by simp
  unfold scanPrefix
  simp only [hencoded, hlength]
  exact congrArg prefixRange List.take_left

/-- What an escaped byte string is followed by does not change what it starts with. -/
theorem escape_prefix_iff {p k x : Bytes} : escape p <+: serializeBytes k ++ x ↔ p <+: k := by
  induction p generalizing k with
  | nil => simp [escape]
  | cons b p ih =>
      have hescape : escape (b :: p) = (if b = 0x00 then [0x00, 0xff] else [b]) ++ escape p := rfl
      rw [hescape]
      cases k with
      | nil =>
          by_cases hb : b = 0x00
          · simp [hb, serializeBytes]
          · simp [hb, serializeBytes]
      | cons c k =>
          rw [serializeBytes_cons, List.cons_prefix_cons, ← ih]
          by_cases hb : b = 0x00
          · by_cases hc : c = 0x00
            · simp [hb, hc]
            · simp [hb, hc, Ne.symm hc]
          · by_cases hc : c = 0x00
            · simp [hb, hc]
            · simp [hb, hc]

/-- The range of a prefix scan holds the versions of the keys under the prefix only. -/
theorem mem_scanPrefix (p : Bytes) (k : MvccKey) :
    (scanPrefix p).contains k.serialize = true ↔ ∃ key v, k = .version key v ∧ p <+: key := by
  rw [scanPrefix_eq, mem_prefixRange]
  cases k with
  | version key v =>
      change 4 :: escape p <+: 4 :: (serializeBytes key ++ serializeU64 v) ↔ _
      rw [List.cons_prefix_cons, escape_prefix_iff]
      simp
  | nextVersion | txnActive | txnActiveSnapshot | txnWrite | unversioned =>
      simp [MvccKey.serialize, serializeVariant, MvccKey.variant]

end ToyDB.Keycode

namespace ToyDB.Sql
open ToyDB.Encoding ToyDB.Keycode

/-- A prefix of keys of the SQL engine. -/
inductive KeyPrefix where
  | table
  | index (table column : String)
  | row (table : String)

namespace KeyPrefix

def variant : KeyPrefix → ℕ
  | table => 0
  | index _ _ => 1
  | row _ => 2

def content : KeyPrefix → Bytes
  | table => []
  | index name column => serializeStr name ++ serializeStr column
  | row name => serializeStr name

def serialize (k : KeyPrefix) : Bytes := serializeVariant k.variant ++ k.content

/-- The keys of the group that the prefix stands for. -/
def Groups : KeyPrefix → Key → Prop
  | table, .table _ => True
  | index name column, .index name' column' _ => name = name' ∧ column = column'
  | row name, .row name' _ => name = name'
  | _, _ => False

theorem variant_lt (k : KeyPrefix) : k.variant < 3 := by
  cases k <;> simp [variant]

/-- A prefix is one of exactly the keys of its group. -/
theorem serialize_prefix_iff (q : KeyPrefix) (k : Key) :
    q.serialize <+: k.serialize ↔ q.Groups k := by
  rw [serialize, Key.serialize,
    prefix_append_iff (decodes_variant (by decide)) q.variant_lt k.variant_lt]
  cases q <;> cases k <;> simp [variant, Key.variant, content, Key.content, Groups]
  case index.index name column name' column' value =>
    rw [prefix_append_iff decodes_str trivial trivial, prefix_iff decodes_str trivial trivial]
  case row.row name name' id => exact prefix_iff decodes_str trivial trivial

end KeyPrefix
end ToyDB.Sql

namespace ToyDB.Keycode
open ToyDB.Encoding ToyDB.Storage

/-- Prefix scans hit exactly their groups. -/
theorem prefix_scans :
    (∀ p k : Bytes, (prefixRange p).contains k = true ↔ p <+: k) ∧
      (∀ (p : Bytes) (k : MvccKey), (scanPrefix p).contains k.serialize = true ↔
        ∃ key v, k = .version key v ∧ p <+: key) ∧
      (∀ (q : MvccKeyPrefix) (k : MvccKey), q.serialize <+: k.serialize ↔ q.Groups k) ∧
      ∀ (q : Sql.KeyPrefix) (k : Sql.Key), q.serialize <+: k.serialize ↔ q.Groups k :=
  ⟨fun _ _ => mem_prefixRange, mem_scanPrefix, MvccKeyPrefix.serialize_prefix_iff,
    Sql.KeyPrefix.serialize_prefix_iff⟩

/-- A scan of the versions of the keys of a table, which are encoded twice. -/
theorem mem_scanPrefix_sql (q : Sql.KeyPrefix) (k : Sql.Key) (v : UInt64) :
    (scanPrefix q.serialize).contains (MvccKey.version k.serialize v).serialize = true ↔
      q.Groups k := by
  rw [mem_scanPrefix, ← Sql.KeyPrefix.serialize_prefix_iff]
  constructor
  · intro ⟨key, w, heq, hprefix⟩
    obtain ⟨rfl, -⟩ := MvccKey.version.inj heq
    exact hprefix
  · intro hprefix
    exact ⟨_, v, rfl, hprefix⟩

end ToyDB.Keycode
