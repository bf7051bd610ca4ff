import ToyDB.Encoding.Keycode
import ToyDB.Sql.Engine.Local

/-!
# The keys of the store

The key types of the MVCC layer, the Raft log and the SQL engine, as they are encoded:
versions and indexes are 64-bit numbers, and the SQL keys are part of MVCC keys as byte
strings. Keys are ordered like their encodings, and read back as they were written.
-/
namespace ToyDB.Keycode
open ToyDB.Encoding

/-! ## Key types -/

/-- An MVCC key. -/
inductive MvccKey where
  | nextVersion
  | txnActive (version : UInt64)
  | txnActiveSnapshot (version : UInt64)
  | txnWrite (version : UInt64) (key : Bytes)
  | version (key : Bytes) (version : UInt64)
  | unversioned (key : Bytes)

/-- A key of the Raft log. -/
inductive LogKey where
  | entry (index : UInt64)
  | termVote
  | commitIndex

/-! ## Serialization -/

/-- Versions and indexes compare as numbers. -/
def cmpU64 (a b : UInt64) : Ordering := compare a.toNat b.toNat

/-- Strings compare by their bytes. -/
def cmpStr (a b : String) : Ordering := cmpList (asBytes a) (asBytes b)

namespace MvccKey

def variant : MvccKey → ℕ
  | nextVersion => 0
  | txnActive _ => 1
  | txnActiveSnapshot _ => 2
  | txnWrite _ _ => 3
  | version _ _ => 4
  | unversioned _ => 5

def content : MvccKey → Bytes
  | nextVersion => []
  | txnActive v => serializeU64 v
  | txnActiveSnapshot v => serializeU64 v
  | txnWrite v key => serializeU64 v ++ serializeBytes key
  | version key v => serializeBytes key ++ serializeU64 v
  | unversioned key => serializeBytes key

def serialize (k : MvccKey) : Bytes := serializeVariant k.variant ++ k.content

def deserialize : Reader MvccKey := do
  match ← deserializeVariant 6 with
  | 0 => return nextVersion
  | 1 => return txnActive (← deserializeU64)
  | 2 => return txnActiveSnapshot (← deserializeU64)
  | 3 => do
      let v ← nextElement 0 "tuple variant Key::TxnWrite with 2 elements" deserializeU64
      let key ← nextElement 1 "tuple variant Key::TxnWrite with 2 elements" deserializeBytes
      return txnWrite v key
  | 4 => do
      let key ← nextElement 0 "tuple variant Key::Version with 2 elements" deserializeBytes
      let v ← nextElement 1 "tuple variant Key::Version with 2 elements" deserializeU64
      return version key v
  | _ => return unversioned (← deserializeBytes)

/-- The variants first, then the fields in order. -/
def cmp : MvccKey → MvccKey → Ordering
  | txnActive v, txnActive w => cmpU64 v w
  | txnActiveSnapshot v, txnActiveSnapshot w => cmpU64 v w
  | txnWrite v k, txnWrite w l => (cmpU64 v w).then (cmpList k l)
  | version k v, version l w => (cmpList k l).then (cmpU64 v w)
  | unversioned k, unversioned l => cmpList k l
  | a, b => compare a.variant b.variant

theorem variant_lt (k : MvccKey) : k.variant < 6 := by
  cases k <;> simp [variant]

theorem ordered : OrderedCode serialize cmp fun _ => True := by
  refine OrderedCode.enum (fun a b ha hb => ordered_variant a b (by omega) (by omega)) variant_lt
    (fun a b h => ?_) (fun a b _ _ h x y => ?_)
  · cases a <;> cases b <;> first | rfl | exact absurd rfl h
  · cases a <;> cases b <;> try (simp [variant] at h; done)
    case nextVersion.nextVersion => rfl
    case txnActive.txnActive v w => exact ordered_u64 v w trivial trivial x y
    case txnActiveSnapshot.txnActiveSnapshot v w => exact ordered_u64 v w trivial trivial x y
    case txnWrite.txnWrite v k w l =>
      exact (ordered_u64.append ordered_bytes) (v, k) (w, l) ⟨trivial, trivial⟩ ⟨trivial, trivial⟩ x y
    case version.version k v l w =>
      exact (ordered_bytes.append ordered_u64) (k, v) (l, w) ⟨trivial, trivial⟩ ⟨trivial, trivial⟩ x y
    case unversioned.unversioned k l => exact ordered_bytes k l trivial trivial x y

theorem decodes : Decodes serialize deserialize fun _ => True where
  roundTrip k _ x := by
    rw [serialize, List.append_assoc, deserialize,
      run_bind_ok ((decodes_variant (by decide)).roundTrip _ k.variant_lt _)]
    cases k with
    | nextVersion => rfl
    | txnActive v => exact run_bind_ok (decodes_u64.roundTrip v trivial x)
    | txnActiveSnapshot v => exact run_bind_ok (decodes_u64.roundTrip v trivial x)
    | txnWrite v k =>
        have hv := (decodes_element decodes_u64 serializeU64_ne_nil 0
          "tuple variant Key::TxnWrite with 2 elements").roundTrip v trivial (serializeBytes k ++ x)
        have hk := (decodes_element decodes_bytes serializeBytes_ne_nil 1
          "tuple variant Key::TxnWrite with 2 elements").roundTrip k trivial x
        rw [content, List.append_assoc]
        exact (run_bind_ok hv).trans (run_bind_ok hk)
    | version k v =>
        have hk := (decodes_element decodes_bytes serializeBytes_ne_nil 0
          "tuple variant Key::Version with 2 elements").roundTrip k trivial (serializeU64 v ++ x)
        have hv := (decodes_element decodes_u64 serializeU64_ne_nil 1
          "tuple variant Key::Version with 2 elements").roundTrip v trivial x
        rw [content, List.append_assoc]
        exact (run_bind_ok hk).trans (run_bind_ok hv)
    | unversioned k => exact run_bind_ok (decodes_bytes.roundTrip k trivial x)
  canonical {k s x} h _ := by
    obtain ⟨i, t, hi, hk⟩ := run_bind_eq_ok.mp h
    have hlt := Keycode.variant_lt hi
    rw [(decodes_variant (by decide)).canonical hi hlt]
    match i, hlt with
    | 0, _ =>
        cases hk
        rfl
    | 1, _ =>
        obtain ⟨v, y, hv, hk⟩ := run_bind_eq_ok.mp hk
        cases hk
        rw [decodes_u64.canonical hv trivial]
        rfl
    | 2, _ =>
        obtain ⟨v, y, hv, hk⟩ := run_bind_eq_ok.mp hk
        cases hk
        rw [decodes_u64.canonical hv trivial]
        rfl
    | 3, _ =>
        obtain ⟨v, y, hv, hk⟩ := run_bind_eq_ok.mp hk
        obtain ⟨l, z, hl, hk⟩ := run_bind_eq_ok.mp hk
        cases hk
        rw [(decodes_element decodes_u64 serializeU64_ne_nil _ _).canonical hv trivial,
          (decodes_element decodes_bytes serializeBytes_ne_nil _ _).canonical hl trivial]
        simp [serialize, content, variant]
    | 4, _ =>
        obtain ⟨l, z, hl, hk⟩ := run_bind_eq_ok.mp hk
        obtain ⟨v, y, hv, hk⟩ := run_bind_eq_ok.mp hk
        cases hk
        rw [(decodes_element decodes_bytes serializeBytes_ne_nil _ _).canonical hl trivial,
          (decodes_element decodes_u64 serializeU64_ne_nil _ _).canonical hv trivial]
        simp [serialize, content, variant]
    | 5, _ =>
        obtain ⟨l, z, hl, hk⟩ := run_bind_eq_ok.mp hk
        cases hk
        rw [decodes_bytes.canonical hl trivial]
        rfl

theorem avoids : Avoids deserialize IsPanic := by
  refine (avoids_variant 6).bind fun i => ?_
  match i with
  | 0 => exact avoids_pure
  | 1 => exact avoids_u64.bind fun _ => avoids_pure
  | 2 => exact avoids_u64.bind fun _ => avoids_pure
  | 3 => exact (avoids_element avoids_u64 _ _).bind fun _ =>
      (avoids_element avoids_bytes _ _).bind fun _ => avoids_pure
  | 4 => exact (avoids_element avoids_bytes _ _).bind fun _ =>
      (avoids_element avoids_u64 _ _).bind fun _ => avoids_pure
  | _ + 5 => exact avoids_bytes.bind fun _ => avoids_pure

end MvccKey

namespace LogKey

def variant : LogKey → ℕ
  | entry _ => 0
  | termVote => 1
  | commitIndex => 2

def content : LogKey → Bytes
  | entry index => serializeU64 index
  | termVote | commitIndex => []

def serialize (k : LogKey) : Bytes := serializeVariant k.variant ++ k.content

def deserialize : Reader LogKey := do
  match ← deserializeVariant 3 with
  | 0 => return entry (← deserializeU64)
  | 1 => return termVote
  | _ => return commitIndex

def cmp : LogKey → LogKey → Ordering
  | entry i, entry j => cmpU64 i j
  | a, b => compare a.variant b.variant

theorem variant_lt (k : LogKey) : k.variant < 3 := by
  cases k <;> simp [variant]

theorem ordered : OrderedCode serialize cmp fun _ => True := by
  refine OrderedCode.enum (fun a b ha hb => ordered_variant a b (by omega) (by omega)) variant_lt
    (fun a b h => ?_) (fun a b _ _ h x y => ?_)
  · cases a <;> cases b <;> first | rfl | exact absurd rfl h
  · cases a <;> cases b <;> try (simp [variant] at h; done)
    case entry.entry i j => exact ordered_u64 i j trivial trivial x y
    case termVote.termVote => rfl
    case commitIndex.commitIndex => rfl

theorem decodes : Decodes serialize deserialize fun _ => True where
  roundTrip k _ x := by
    rw [serialize, List.append_assoc, deserialize,
      run_bind_ok ((decodes_variant (by decide)).roundTrip _ k.variant_lt _)]
    cases k with
    | entry i => exact run_bind_ok (decodes_u64.roundTrip i trivial x)
    | termVote => rfl
    | commitIndex => rfl
  canonical {k s x} h _ := by
    obtain ⟨i, t, hi, hk⟩ := run_bind_eq_ok.mp h
    have hlt := Keycode.variant_lt hi
    rw [(decodes_variant (by decide)).canonical hi hlt]
    match i, hlt with
    | 0, _ =>
        obtain ⟨v, y, hv, hk⟩ := run_bind_eq_ok.mp hk
        cases hk
        rw [decodes_u64.canonical hv trivial]
        rfl
    | 1, _ =>
        cases hk
        rfl
    | 2, _ =>
        cases hk
        rfl

theorem avoids : Avoids deserialize IsPanic := by
  refine (avoids_variant 3).bind fun i => ?_
  match i with
  | 0 => exact avoids_u64.bind fun _ => avoids_pure
  | 1 => exact avoids_pure
  | _ + 2 => exact avoids_pure

end LogKey

end ToyDB.Keycode

namespace ToyDB.Sql
open ToyDB.Encoding ToyDB.Keycode

namespace Value

def variant : Value → ℕ
  | null => 0
  | boolean _ => 1
  | integer _ => 2
  | float _ => 3
  | string _ => 4

/-- Floats are normalized when they are serialized. -/
def content : Value → Bytes
  | null => []
  | boolean b => serializeBool b
  | integer i => serializeI64 i
  | float f => serializeF64 f.serialize
  | string s => serializeStr s

def serialize (v : Value) : Bytes := serializeVariant v.variant ++ v.content

def deserialize : Reader Value := do
  match ← deserializeVariant 5 with
  | 0 => return null
  | 1 => return boolean (← deserializeBool)
  | 2 => return integer (← deserializeI64)
  | 3 => return float (← deserializeF64)
  | _ => return string (← deserializeString)

/-- The order of the fields of a value, by its variant first; not the order of the code. -/
def cmpFields : Value → Value → Ordering
  | boolean a, boolean b => compare a b
  | integer a, integer b => compare a.toInt b.toInt
  | float a, float b => a.totalCmp b
  | string a, string b => cmpStr a b
  | a, b => compare a.variant b.variant

def NoFloat : Value → Prop
  | float _ => False
  | _ => True

theorem variant_lt (v : Value) : v.variant < 5 := by
  cases v <;> simp [variant]

theorem serialize_ne_nil (v : Value) : v.serialize ≠ [] := List.cons_ne_nil _ _

theorem ordered : OrderedCode serialize cmpFields NoFloat := by
  refine OrderedCode.enum (fun a b ha hb => ordered_variant a b (by omega) (by omega)) variant_lt
    (fun a b h => ?_) (fun a b ha hb h x y => ?_)
  · cases a <;> cases b <;> first | rfl | exact absurd rfl h
  · cases a <;> cases b <;> try (simp [variant] at h; done)
    case null.null => rfl
    case boolean.boolean a b => exact ordered_bool a b trivial trivial x y
    case integer.integer a b => exact ordered_i64 a b trivial trivial x y
    case float.float => exact ha.elim
    case string.string a b => exact ordered_str a b trivial trivial x y

theorem decodes : Decodes serialize deserialize NoFloat where
  roundTrip v hv x := by
    rw [serialize, List.append_assoc, deserialize,
      run_bind_ok ((decodes_variant (by decide)).roundTrip _ v.variant_lt _)]
    cases v with
    | null => rfl
    | boolean b => exact run_bind_ok (decodes_bool.roundTrip b trivial x)
    | integer i => exact run_bind_ok (decodes_i64.roundTrip i trivial x)
    | float f => exact hv.elim
    | string s => exact run_bind_ok (decodes_str.roundTrip s trivial x)
  canonical {v s x} h hv := by
    obtain ⟨i, t, hi, hk⟩ := run_bind_eq_ok.mp h
    have hlt := Keycode.variant_lt hi
    rw [(decodes_variant (by decide)).canonical hi hlt]
    match i, hlt with
    | 0, _ =>
        cases hk
        rfl
    | 1, _ =>
        obtain ⟨b, y, hb, hk⟩ := run_bind_eq_ok.mp hk
        cases hk
        rw [decodes_bool.canonical hb trivial]
        rfl
    | 2, _ =>
        obtain ⟨b, y, hb, hk⟩ := run_bind_eq_ok.mp hk
        cases hk
        rw [decodes_i64.canonical hb trivial]
        rfl
    | 3, _ =>
        obtain ⟨f, y, -, hk⟩ := run_bind_eq_ok.mp hk
        cases hk
        exact hv.elim
    | 4, _ =>
        obtain ⟨b, y, hb, hk⟩ := run_bind_eq_ok.mp hk
        cases hk
        rw [decodes_str.canonical hb trivial]
        rfl

theorem avoids : Avoids deserialize IsPanic := by
  refine (avoids_variant 5).bind fun i => ?_
  match i with
  | 0 => exact avoids_pure
  | 1 => exact avoids_bool.bind fun _ => avoids_pure
  | 2 => exact avoids_i64.bind fun _ => avoids_pure
  | 3 => exact avoids_f64.bind fun _ => avoids_pure
  | _ + 4 => exact avoids_str.bind fun _ => avoids_pure

end Value

namespace Key

def variant : Key → ℕ
  | table _ => 0
  | index _ _ _ => 1
  | row _ _ => 2

def content : Key → Bytes
  | table name => serializeStr name
  | index name column value => serializeStr name ++ (serializeStr column ++ value.serialize)
  | row name id => serializeStr name ++ id.serialize

def serialize (k : Key) : Bytes := serializeVariant k.variant ++ k.content

def deserialize : Reader Key := do
  match ← deserializeVariant 3 with
  | 0 => return table (← deserializeString)
  | 1 => do
      let name ← nextElement 0 "tuple variant Key::Index with 3 elements" deserializeString
      let column ← nextElement 1 "tuple variant Key::Index with 3 elements" deserializeString
      let value ← nextElement 2 "tuple variant Key::Index with 3 elements" Value.deserialize
      return index name column value
  | _ => do
      let name ← nextElement 0 "tuple variant Key::Row with 2 elements" deserializeString
      let id ← nextElement 1 "tuple variant Key::Row with 2 elements" Value.deserialize
      return row name id

def cmp : Key → Key → Ordering
  | table s, table t => cmpStr s t
  | index s c v, index t d w => (cmpStr s t).then ((cmpStr c d).then (v.cmpFields w))
  | row s v, row t w => (cmpStr s t).then (v.cmpFields w)
  | a, b => compare a.variant b.variant

/-- The key holds no float. -/
def NoFloat : Key → Prop
  | table _ => True
  | index _ _ value => value.NoFloat
  | row _ id => id.NoFloat

theorem variant_lt (k : Key) : k.variant < 3 := by
  cases k <;> simp [variant]

theorem ordered : OrderedCode serialize cmp NoFloat := by
  refine OrderedCode.enum (fun a b ha hb => ordered_variant a b (by omega) (by omega)) variant_lt
    (fun a b h => ?_) (fun a b ha hb h x y => ?_)
  · cases a <;> cases b <;> first | rfl | exact absurd rfl h
  · cases a <;> cases b <;> try (simp [variant] at h; done)
    case table.table s t => exact ordered_str s t trivial trivial x y
    case index.index s c v t d w =>
      exact (ordered_str.append (ordered_str.append Value.ordered)) (s, c, v) (t, d, w)
        ⟨trivial, trivial, ha⟩ ⟨trivial, trivial, hb⟩ x y
    case row.row s v t w =>
      exact (ordered_str.append Value.ordered) (s, v) (t, w) ⟨trivial, ha⟩ ⟨trivial, hb⟩ x y

theorem decodes : Decodes serialize deserialize NoFloat where
  roundTrip k hf x := by
    rw [serialize, List.append_assoc, deserialize,
      run_bind_ok ((decodes_variant (by decide)).roundTrip _ k.variant_lt _)]
    cases k with
    | table s => exact run_bind_ok (decodes_str.roundTrip s trivial x)
    | index s c v =>
        have hs := (decodes_element decodes_str serializeStr_ne_nil 0
          "tuple variant Key::Index with 3 elements").roundTrip s trivial
            (serializeStr c ++ (v.serialize ++ x))
        have hc := (decodes_element decodes_str serializeStr_ne_nil 1
          "tuple variant Key::Index with 3 elements").roundTrip c trivial (v.serialize ++ x)
        have hv := (decodes_element Value.decodes Value.serialize_ne_nil 2
          "tuple variant Key::Index with 3 elements").roundTrip v hf x
        rw [content, List.append_assoc, List.append_assoc]
        exact (run_bind_ok hs).trans ((run_bind_ok hc).trans (run_bind_ok hv))
    | row s v =>
        have hs := (decodes_element decodes_str serializeStr_ne_nil 0
          "tuple variant Key::Row with 2 elements").roundTrip s trivial (v.serialize ++ x)
        have hv := (decodes_element Value.decodes Value.serialize_ne_nil 1
          "tuple variant Key::Row with 2 elements").roundTrip v hf x
        rw [content, List.append_assoc]
        exact (run_bind_ok hs).trans (run_bind_ok hv)
  canonical {k s x} h hf := by
    obtain ⟨i, t, hi, hk⟩ := run_bind_eq_ok.mp h
    have hlt := Keycode.variant_lt hi
    rw [(decodes_variant (by decide)).canonical hi hlt]
    match i, hlt with
    | 0, _ =>
        obtain ⟨n, y, hn, hk⟩ := run_bind_eq_ok.mp hk
        cases hk
        rw [decodes_str.canonical hn trivial]
        rfl
    | 1, _ =>
        obtain ⟨n, y, hn, hk⟩ := run_bind_eq_ok.mp hk
        obtain ⟨c, z, hc, hk⟩ := run_bind_eq_ok.mp hk
        obtain ⟨v, w, hv, hk⟩ := run_bind_eq_ok.mp hk
        cases hk
        rw [(decodes_element decodes_str serializeStr_ne_nil _ _).canonical hn trivial,
          (decodes_element decodes_str serializeStr_ne_nil _ _).canonical hc trivial,
          (decodes_element Value.decodes Value.serialize_ne_nil _ _).canonical hv hf]
        simp [serialize, content, variant]
    | 2, _ =>
        obtain ⟨n, y, hn, hk⟩ := run_bind_eq_ok.mp hk
        obtain ⟨v, w, hv, hk⟩ := run_bind_eq_ok.mp hk
        cases hk
        rw [(decodes_element decodes_str serializeStr_ne_nil _ _).canonical hn trivial,
          (decodes_element Value.decodes Value.serialize_ne_nil _ _).canonical hv hf]
        simp [serialize, content, variant]

theorem avoids : Avoids deserialize IsPanic := by
  refine (avoids_variant 3).bind fun i => ?_
  match i with
  | 0 => exact avoids_str.bind fun _ => avoids_pure
  | 1 => exact (avoids_element avoids_str _ _).bind fun _ =>
      (avoids_element avoids_str _ _).bind fun _ =>
        (avoids_element Value.avoids _ _).bind fun _ => avoids_pure
  | _ + 2 => exact (avoids_element avoids_str _ _).bind fun _ =>
      (avoids_element Value.avoids _ _).bind fun _ => avoids_pure

end Key
end ToyDB.Sql

namespace ToyDB.Keycode
open ToyDB.Encoding

/-! ## The encoding of keys -/

section
variable {α : Type} {encode : α → Bytes} {r : Reader α} {cmp : α → α → Ordering} {Good : α → Prop}

/-- Encoded keys compare like the keys, and none is a proper prefix of another. -/
def KeepsOrder (encode : α → Bytes) (cmp : α → α → Ordering) (Good : α → Prop) : Prop :=
  ∀ a b, Good a → Good b → cmpList (encode a) (encode b) = cmp a b ∧
    ∀ z, encode b = encode a ++ z → z = []

/-- Keys are read back as they were written. Any other input is an error, or the
serialization of the key that it is read as; no input panics. -/
def IsCanonical (encode : α → Bytes) (r : Reader α) (Good : α → Prop) : Prop :=
  (∀ k, Good k → deserialize r (encode k) = .ok k) ∧
    ∀ input, (∃ e, deserialize r input = .error (.error e)) ∨
      ∃ k, deserialize r input = .ok k ∧ (Good k → encode k = input)

theorem keepsOrder (h : OrderedCode encode cmp Good) : KeepsOrder encode cmp Good :=
  fun _ _ ha hb => ⟨h.compare ha hb, fun _ hz => h.not_prefix ha hb hz⟩

theorem isCanonical (h : Decodes encode r Good) (ha : Avoids r IsPanic) :
    IsCanonical encode r Good := by
  constructor
  · intro k hk
    have hr := h.roundTrip k hk []
    rw [List.append_nil] at hr
    rw [deserialize, hr]
    rfl
  · intro input
    cases hr : r.run input with
    | error e =>
        cases e with
        | panic message => exact absurd ⟨message, rfl⟩ (ha input _ hr)
        | error e =>
            refine Or.inl ⟨e, ?_⟩
            rw [deserialize, hr]
            rfl
    | ok p =>
        obtain ⟨k, rest⟩ := p
        cases rest with
        | nil =>
            refine Or.inr ⟨k, ?_, fun hk => ?_⟩
            · rw [deserialize, hr]
              rfl
            · rw [h.canonical hr hk, List.append_nil]
        | cons b rest =>
            rw [deserialize, hr]
            exact Or.inl ⟨_, rfl⟩

end

/-- The encoding of the store's keys keeps their order, and is prefix free. -/
theorem keys_keepOrder :
    KeepsOrder MvccKey.serialize MvccKey.cmp (fun _ => True) ∧
      KeepsOrder LogKey.serialize LogKey.cmp (fun _ => True) ∧
      KeepsOrder Sql.Key.serialize Sql.Key.cmp Sql.Key.NoFloat :=
  ⟨keepsOrder MvccKey.ordered, keepsOrder LogKey.ordered, keepsOrder Sql.Key.ordered⟩

/-- The encoding of the store's keys is canonical. -/
theorem keys_canonical :
    IsCanonical MvccKey.serialize MvccKey.deserialize (fun _ => True) ∧
      IsCanonical LogKey.serialize LogKey.deserialize (fun _ => True) ∧
      IsCanonical Sql.Key.serialize Sql.Key.deserialize Sql.Key.NoFloat :=
  ⟨isCanonical MvccKey.decodes MvccKey.avoids, isCanonical LogKey.decodes LogKey.avoids,
    isCanonical Sql.Key.decodes Sql.Key.avoids⟩

/-- A string with a zero byte, followed by a negative integer. -/
example : (Sql.Key.row "a\x00" (.integer (-1))).serialize =
    [2, 0x61, 0, 0xff, 0, 0, 2, 0x7f, 0xff, 0xff, 0xff, 0xff, 0xff, 0xff, 0xff] := by
  decide +kernel

end ToyDB.Keycode
