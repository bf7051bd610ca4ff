import ToyDB.Encoding.BigEndian
import ToyDB.Sql.Types.Value

/-!
# Keycode

The order-preserving encoding of keys. The serializer writes the parts of a key one after
the other, and the deserializer reads them back; neither is self-describing.
-/
namespace ToyDB.Keycode
open ToyDB.Encoding

/-! ## Numbers -/

/-- Flips the sign bit of the first byte. -/
def flipSign : Bytes → Bytes
  | [] => []
  | b :: bytes => (b ^^^ 0x80) :: bytes

/-! ## Serializer -/

def serializeBool (v : Bool) : Bytes := [if v then 1 else 0]

def serializeI64 (v : Int64) : Bytes := flipSign (beBytes 8 v.toUInt64.toNat)

def serializeU64 (v : UInt64) : Bytes := beBytes 8 v.toNat

def serializeF64 (v : Sql.F64) : Bytes :=
  let bytes := beBytes 8 v.bits.toNat
  if v.isSignNegative then bytes.map fun b => ~~~b else flipSign bytes

/-- Byte strings escape zeros, and end with two of them. -/
def serializeBytes (v : Bytes) : Bytes :=
  (v.flatMap fun byte => if byte = 0x00 then [0x00, 0xff] else [byte]) ++ [0x00, 0x00]

/-- The UTF-8 encoding of a string. -/
def asBytes (v : String) : Bytes := v.toByteArray.data.toList

def serializeStr (v : String) : Bytes := serializeBytes (asBytes v)

/-- The index of an enum variant. -/
def serializeVariant (index : ℕ) : Bytes := [UInt8.ofNat index]

/-! ## Deserializer -/

/-- A part of a deserializer. -/
abbrev Reader (α : Type) := Encoding.Reader UInt8 Failure α

def errdata {α : Type} (message : String) : Reader α :=
  fun _ => .error (.error (.invalidData message))

def panics {α : Type} (message : String) : Reader α := fun _ => .error (.panic message)

/-- Bytes in a message. -/
def debug (bytes : Bytes) : String :=
  "[" ++ ", ".intercalate (bytes.map fun b => String.ofList (Nat.toDigits 16 b.toNat)) ++ "]"

def takeBytes (len : ℕ) : Reader Bytes := fun input =>
  if input.length < len then
    errdata s!"insufficient bytes, expected {len} bytes for {debug input}" input
  else .ok (input.take len, input.drop len)

/-- The first byte, as the code accesses it. -/
def firstByte : Bytes → Reader UInt8
  | [] => panics "index out of bounds"
  | b :: _ => return b

def takeByte : Reader UInt8 := do
  let bytes ← takeBytes 1
  firstByte bytes

/-- Decodes a byte string up to its end. -/
def decodeNextBytes : Reader Bytes
  | [] => errdata "unexpected end of input" []
  | b :: input =>
      if b = 0x00 then
        match input with
        | c :: input =>
            if c = 0x00 then .ok ([], input)
            else if c = 0xff then do
              let (decoded, rest) ← decodeNextBytes input
              return (0x00 :: decoded, rest)
            else errdata "invalid escape sequence" input
        | [] => errdata "invalid escape sequence" []
      else do
        let (decoded, rest) ← decodeNextBytes input
        return (b :: decoded, rest)

def deserializeBool : Reader Bool := do
  let b ← takeByte
  if b = 0x00 then return false
  else if b = 0x01 then return true
  else errdata s!"invalid boolean value {b}"

def deserializeI64 : Reader Int64 := do
  let bytes ← takeBytes 8
  return (UInt64.ofNat (ofBeBytes (flipSign bytes))).toInt64

def deserializeU64 : Reader UInt64 := do
  let bytes ← takeBytes 8
  return UInt64.ofNat (ofBeBytes bytes)

def deserializeF64 : Reader Sql.F64 := do
  let bytes ← takeBytes 8
  let sign := (← firstByte bytes) >>> 7
  if sign = 0 then return ⟨BitVec.ofNat 64 (ofBeBytes (bytes.map fun b => ~~~b))⟩
  else if sign = 1 then return ⟨BitVec.ofNat 64 (ofBeBytes (flipSign bytes))⟩
  else panics "bits can only be 0 or 1"

def deserializeBytes : Reader Bytes := decodeNextBytes

def deserializeString : Reader String := do
  let bytes ← decodeNextBytes
  match String.fromUTF8? ⟨⟨bytes⟩⟩ with
  | some s => return s
  | none => errdata "invalid utf-8 sequence"

/-- The index of a variant of an enum with the given number of them. -/
def deserializeVariant (count : ℕ) : Reader ℕ := do
  let index ← takeByte
  if index.toNat < count then return index.toNat
  else errdata s!"invalid value: integer `{index}`, expected variant index 0 <= i < {count}"

/-- A field of a tuple variant; the input may end before it. -/
def nextElement {α : Type} (index : ℕ) (expected : String) (r : Reader α) : Reader α := fun input =>
  if input = [] then errdata s!"invalid length {index}, expected {expected}" input else r input

/-- Deserializes a whole input. -/
def deserialize {α : Type} (r : Reader α) (input : Bytes) : Except Failure α := do
  let (t, rest) ← r.run input
  if rest = [] then return t
  else .error (.error (.invalidData
    s!"unexpected trailing bytes {debug rest} at end of key {debug input}"))

/-! ## Signed numbers -/

theorem xor_sign (b : UInt8) : b ^^^ 0x80 = b + 0x80 := by
  have h : ∀ v : BitVec 8, v ^^^ 0x80#8 = v + 0x80#8 := by decide
  exact UInt8.toBitVec_inj.mp (h b.toBitVec)

@[simp] theorem flipSign_flipSign (bytes : Bytes) : flipSign (flipSign bytes) = bytes := by
  cases bytes with
  | nil => rfl
  | cons b bytes => rw [flipSign, flipSign, UInt8.xor_assoc, UInt8.xor_self, UInt8.xor_zero]

@[simp] theorem length_flipSign (bytes : Bytes) : (flipSign bytes).length = bytes.length := by
  cases bytes <;> rfl

/-- Flipping the sign bit makes the order of signed numbers that of unsigned ones. -/
theorem serializeI64_eq (v : Int64) : serializeI64 v = beBytes 8 (v.toInt + 2 ^ 63).toNat := by
  have hle := v.le_toInt
  have hlt := v.toInt_lt
  have hu : (v.toUInt64.toNat : ℤ) = v.toInt % 2 ^ 64 := by
    have h : v.toInt = (v.toUInt64.toNat : ℤ).bmod (2 ^ 64) := BitVec.toInt_eq_toNat_bmod v.toBitVec
    have hn : v.toUInt64.toNat < 2 ^ 64 := v.toUInt64.toNat_lt
    have hmod := Int.bmod_emod (x := v.toUInt64.toNat) (m := 2 ^ 64)
    rw [← h] at hmod
    omega
  have hn := v.toUInt64.toNat_lt
  change (UInt8.ofNat (v.toUInt64.toNat / 256 ^ 7) ^^^ 0x80) :: beBytes 7 _ =
    UInt8.ofNat ((v.toInt + 2 ^ 63).toNat / 256 ^ 7) :: beBytes 7 _
  have hhead : UInt8.ofNat (v.toUInt64.toNat / 256 ^ 7) ^^^ 0x80 =
      UInt8.ofNat ((v.toInt + 2 ^ 63).toNat / 256 ^ 7) := by
    rw [xor_sign, ← UInt8.toNat_inj, UInt8.toNat_add, UInt8.toNat_ofNat', UInt8.toNat_ofNat']
    change (_ + 128) % 256 = _
    omega
  have htail : v.toUInt64.toNat % 256 ^ 7 = (v.toInt + 2 ^ 63).toNat % 256 ^ 7 := by omega
  rw [hhead, htail]

/-! ## The order of the parts -/

theorem ordered_bool : OrderedCode serializeBool compare fun _ => True := by
  intro a b _ _ x y
  rw [serializeBool, serializeBool, List.singleton_append, List.singleton_append, cmpList_cons]
  cases a <;> cases b <;> rfl

theorem ordered_u64 :
    OrderedCode serializeU64 (fun a b => compare a.toNat b.toNat) fun _ => True :=
  fun a b _ _ => (ordered_beBytes 8).comap (f := UInt64.toNat) a b a.toNat_lt b.toNat_lt

theorem ordered_i64 :
    OrderedCode serializeI64 (fun a b => compare a.toInt b.toInt) fun _ => True := by
  intro a b _ _ x y
  have hale := a.le_toInt
  have hble := b.le_toInt
  have ha := a.toInt_lt
  have hb := b.toInt_lt
  rw [serializeI64_eq, serializeI64_eq,
    ordered_beBytes 8 _ _ (show _ < 256 ^ 8 by omega) (show _ < 256 ^ 8 by omega)]
  congr 1
  change compare _ _ = compare a.toInt b.toInt
  rcases lt_trichotomy a.toInt b.toInt with h | h | h
  · rw [compare_lt_iff_lt.mpr h, compare_lt_iff_lt]
    omega
  · rw [h, compare_eq_iff_eq.mpr rfl, compare_eq_iff_eq.mpr rfl]
  · rw [compare_gt_iff_gt.mpr h, compare_gt_iff_gt]
    omega

theorem serializeBytes_cons (c : UInt8) (v : Bytes) : serializeBytes (c :: v) =
    if c = 0x00 then 0x00 :: 0xff :: serializeBytes v else c :: serializeBytes v := by
  unfold serializeBytes
  rw [List.flatMap_cons]
  split_ifs <;> rfl

/-- The end of a byte string compares as less than any further byte. -/
theorem cmp_end_cons (c : UInt8) (v x y : Bytes) :
    cmpList (serializeBytes [] ++ x) (serializeBytes (c :: v) ++ y) = .lt := by
  rw [serializeBytes_cons]
  change cmpList (0x00 :: 0x00 :: x) _ = _
  by_cases hc : c = 0x00
  · rw [if_pos hc]
    rfl
  · have hlt : compare 0x00 c = .lt := by
      rw [compare_uint8, compare_lt_iff_lt]
      exact Nat.pos_of_ne_zero fun h => hc (UInt8.toNat_inj.mp h)
    rw [if_neg hc, List.cons_append, cmpList_cons, hlt]
    rfl

theorem cmp_cons_end (c : UInt8) (v x y : Bytes) :
    cmpList (serializeBytes (c :: v) ++ x) (serializeBytes [] ++ y) = .gt := by
  rw [serializeBytes_cons]
  change cmpList _ (0x00 :: 0x00 :: y) = _
  by_cases hc : c = 0x00
  · rw [if_pos hc]
    rfl
  · have hgt : compare c 0x00 = .gt := by
      rw [compare_uint8, compare_gt_iff_gt]
      exact Nat.pos_of_ne_zero fun h => hc (UInt8.toNat_inj.mp h)
    rw [if_neg hc, List.cons_append, cmpList_cons, hgt]
    rfl

/-- Different bytes decide the comparison, escaped or not. -/
theorem cmp_cons_cons (c d : UInt8) (v w x y : Bytes) :
    cmpList (serializeBytes (c :: v) ++ x) (serializeBytes (d :: w) ++ y) =
      (compare c d).then (cmpList (serializeBytes v ++ x) (serializeBytes w ++ y)) := by
  rw [serializeBytes_cons, serializeBytes_cons]
  by_cases hc : c = 0x00
  · by_cases hd : d = 0x00
    · subst hc hd
      rw [if_pos rfl, if_pos rfl]
      change cmpList (0x00 :: 0xff :: (serializeBytes v ++ x))
        (0x00 :: 0xff :: (serializeBytes w ++ y)) = _
      rw [cmpList_cons, cmpList_cons]
      rfl
    · have hlt : compare c d = .lt := by
        rw [hc, compare_uint8, compare_lt_iff_lt]
        exact Nat.pos_of_ne_zero fun h => hd (UInt8.toNat_inj.mp h)
      rw [if_pos hc, if_neg hd, hlt, List.cons_append, List.cons_append, List.cons_append,
        cmpList_cons, ← hc, hlt]
      rfl
  · by_cases hd : d = 0x00
    · have hgt : compare c d = .gt := by
        rw [hd, compare_uint8, compare_gt_iff_gt]
        exact Nat.pos_of_ne_zero fun h => hc (UInt8.toNat_inj.mp h)
      rw [if_neg hc, if_pos hd, hgt, List.cons_append, List.cons_append, cmpList_cons, ← hd, hgt]
      rfl
    · rw [if_neg hc, if_neg hd, List.cons_append, List.cons_append, cmpList_cons]

theorem ordered_bytes : OrderedCode serializeBytes cmpList fun _ => True := by
  intro a
  induction a with
  | nil =>
      intro b _ _ x y
      cases b with
      | nil => rfl
      | cons d w =>
          rw [cmp_end_cons]
          rfl
  | cons c v ih =>
      intro b _ _ x y
      cases b with
      | nil =>
          rw [cmp_cons_end]
          rfl
      | cons d w =>
          rw [cmp_cons_cons, cmpList_cons, ih w trivial trivial, Ordering.then_assoc]

theorem ordered_str :
    OrderedCode serializeStr (fun a b => cmpList (asBytes a) (asBytes b)) fun _ => True :=
  ordered_bytes.comap (f := asBytes)

/-- The variant comes first. -/
theorem ordered_variant :
    OrderedCode serializeVariant compare fun index => index < 256 := by
  intro a b ha hb x y
  rw [serializeVariant, serializeVariant, List.singleton_append, List.singleton_append,
    cmpList_cons, compare_uint8, UInt8.toNat_ofNat', UInt8.toNat_ofNat', Nat.mod_eq_of_lt ha,
    Nat.mod_eq_of_lt hb]

theorem serializeU64_ne_nil (v : UInt64) : serializeU64 v ≠ [] := List.cons_ne_nil _ _

theorem serializeBytes_ne_nil (v : Bytes) : serializeBytes v ≠ [] :=
  fun h => List.cons_ne_nil _ _ (List.append_eq_nil_iff.mp h).2

theorem serializeStr_ne_nil (v : String) : serializeStr v ≠ [] := serializeBytes_ne_nil _

/-! ## Reading the parts -/

/-- Panics are what readers have to avoid. -/
def IsPanic (e : Failure) : Prop := ∃ message, e = .panic message

theorem takeBytes_eq_ok {len : ℕ} {s l x : Bytes} :
    (takeBytes len).run s = .ok (l, x) ↔ s = l ++ x ∧ l.length = len := by
  change (if s.length < len then _ else Except.ok (s.take len, s.drop len)) = _ ↔ _
  by_cases h : s.length < len
  · rw [if_pos h]
    refine ⟨fun he => (by cases he), fun ⟨hs, hl⟩ => absurd h ?_⟩
    rw [hs, List.length_append, hl]
    omega
  · rw [if_neg h, Except.ok.injEq, Prod.mk.injEq]
    constructor
    · rintro ⟨rfl, rfl⟩
      exact ⟨(List.take_append_drop len s).symm, List.length_take_of_le (not_lt.mp h)⟩
    · rintro ⟨rfl, rfl⟩
      exact ⟨List.take_left, List.drop_left⟩

theorem avoids_errdata {α : Type} (message : String) :
    Avoids (errdata message : Reader α) IsPanic := by
  rintro s e h ⟨m, rfl⟩
  cases h

theorem avoids_takeBytes (len : ℕ) : Avoids (takeBytes len) IsPanic := by
  rintro s e h ⟨m, rfl⟩
  change (if s.length < len then _ else Except.ok (s.take len, s.drop len)) = _ at h
  split_ifs at h
  cases h

theorem decodes_u64 : Decodes serializeU64 deserializeU64 fun _ => True where
  roundTrip v _ x := by
    rw [deserializeU64, serializeU64,
      run_bind_ok (takeBytes_eq_ok.mpr ⟨rfl, length_beBytes 8 v.toNat⟩), run_pure_ok,
      ofBeBytes_beBytes v.toNat_lt, UInt64.ofNat_toNat]
  canonical {v s x} h _ := by
    obtain ⟨l, y, hl, hv⟩ := run_bind_eq_ok.mp h
    obtain ⟨rfl, hlen⟩ := takeBytes_eq_ok.mp hl
    obtain ⟨rfl, rfl⟩ : UInt64.ofNat (ofBeBytes l) = v ∧ y = x := by cases hv; exact ⟨rfl, rfl⟩
    have hlt := ofBeBytes_lt l
    rw [hlen] at hlt
    rw [serializeU64, UInt64.toNat_ofNat_of_lt' hlt, ← hlen, beBytes_ofBeBytes]

theorem decodes_i64 : Decodes serializeI64 deserializeI64 fun _ => True where
  roundTrip v _ x := by
    have hlen : (serializeI64 v).length = 8 := by
      rw [serializeI64, length_flipSign, length_beBytes]
    rw [deserializeI64, run_bind_ok (takeBytes_eq_ok.mpr ⟨rfl, hlen⟩), run_pure_ok, serializeI64,
      flipSign_flipSign, ofBeBytes_beBytes v.toUInt64.toNat_lt, UInt64.ofNat_toNat]
    rfl
  canonical {v s x} h _ := by
    obtain ⟨l, y, hl, hv⟩ := run_bind_eq_ok.mp h
    obtain ⟨rfl, hlen⟩ := takeBytes_eq_ok.mp hl
    obtain ⟨rfl, rfl⟩ : (UInt64.ofNat (ofBeBytes (flipSign l))).toInt64 = v ∧ y = x := by
      cases hv; exact ⟨rfl, rfl⟩
    have hflip : (flipSign l).length = 8 := by rw [length_flipSign, hlen]
    have hlt := ofBeBytes_lt (flipSign l)
    rw [hflip] at hlt
    have hn : (UInt64.ofNat (ofBeBytes (flipSign l))).toInt64.toUInt64.toNat =
        ofBeBytes (flipSign l) := UInt64.toNat_ofNat_of_lt' hlt
    have hb := beBytes_ofBeBytes (flipSign l)
    rw [hflip] at hb
    rw [serializeI64, hn, hb, flipSign_flipSign]

theorem takeByte_eq_ok {b : UInt8} {s x : Bytes} : takeByte.run s = .ok (b, x) ↔ s = b :: x := by
  rw [takeByte, run_bind_eq_ok]
  constructor
  · rintro ⟨l, y, hl, hb⟩
    obtain ⟨rfl, hlen⟩ := takeBytes_eq_ok.mp hl
    obtain ⟨c, rfl⟩ := List.length_eq_one_iff.mp hlen
    cases hb
    rfl
  · rintro rfl
    exact ⟨[b], x, takeBytes_eq_ok.mpr ⟨rfl, rfl⟩, rfl⟩

theorem decodes_bool : Decodes serializeBool deserializeBool fun _ => True where
  roundTrip v _ x := by
    rw [deserializeBool, serializeBool, List.singleton_append, run_bind_ok (takeByte_eq_ok.mpr rfl)]
    cases v <;> rfl
  canonical {v s x} h _ := by
    obtain ⟨b, y, hb, hv⟩ := run_bind_eq_ok.mp h
    obtain rfl := takeByte_eq_ok.mp hb
    split_ifs at hv with h0 h1
    · cases hv
      rw [h0]
      rfl
    · cases hv
      rw [h1]
      rfl
    · cases hv

theorem decode_escape (s : Bytes) : decodeNextBytes (0x00 :: 0xff :: s) =
    (decodeNextBytes s).map fun p => (0x00 :: p.1, p.2) := by
  change (decodeNextBytes s >>= fun p => _) = _
  cases decodeNextBytes s <;> rfl

theorem decode_invalid {c : UInt8} (h0 : c ≠ 0x00) (h1 : c ≠ 0xff) (s : Bytes) :
    decodeNextBytes (0x00 :: c :: s) = errdata "invalid escape sequence" s := by
  change (if c = 0x00 then _ else if c = 0xff then _ else _) = _
  rw [if_neg h0, if_neg h1]

theorem decode_byte {b : UInt8} (h : b ≠ 0x00) (s : Bytes) :
    decodeNextBytes (b :: s) = (decodeNextBytes s).map fun p => (b :: p.1, p.2) := by
  rw [decodeNextBytes.eq_def]
  change (if b = 0x00 then _ else decodeNextBytes s >>= fun p => _) = _
  rw [if_neg h]
  cases decodeNextBytes s <;> rfl

theorem map_eq_ok {α β : Type} {x : Except Failure α} {f : α → β} {b : β} :
    x.map f = .ok b ↔ ∃ a, x = .ok a ∧ f a = b := by
  cases x with
  | error e => exact ⟨fun h => (by cases h), fun ⟨_, h, _⟩ => (by cases h)⟩
  | ok a => exact ⟨fun h => ⟨a, rfl, Except.ok.inj h⟩, fun ⟨a', h, hf⟩ => (by cases h; exact congrArg _ hf)⟩

theorem map_eq_error {α β : Type} {x : Except Failure α} {f : α → β} {e : Failure}
    (h : x.map f = .error e) : x = .error e := by
  cases x with
  | error e' =>
      cases h
      rfl
  | ok a => cases h

theorem decodeNextBytes_serializeBytes (v x : Bytes) :
    decodeNextBytes (serializeBytes v ++ x) = .ok (v, x) := by
  induction v with
  | nil => rfl
  | cons c v ih =>
      rw [serializeBytes_cons]
      by_cases hc : c = 0x00
      · rw [if_pos hc, List.cons_append, List.cons_append, decode_escape, ih, hc]
        rfl
      · rw [if_neg hc, List.cons_append, decode_byte hc, ih]
        rfl

theorem eq_serializeBytes {s v x : Bytes} (h : decodeNextBytes s = .ok (v, x)) :
    s = serializeBytes v ++ x := by
  induction s using decodeNextBytes.induct generalizing v with
  | case1 => cases h
  | case2 s =>
      cases h
      rfl
  | case3 s _ ih =>
      rw [decode_escape, map_eq_ok] at h
      obtain ⟨p, hp, h⟩ := h
      cases h
      rw [serializeBytes_cons, if_pos rfl, ih hp]
      rfl
  | case4 c s h0 h1 =>
      rw [decode_invalid h0 h1] at h
      cases h
  | case5 => cases h
  | case6 b s hb ih =>
      rw [decode_byte hb, map_eq_ok] at h
      obtain ⟨p, hp, h⟩ := h
      cases h
      rw [serializeBytes_cons, if_neg hb, ih hp]
      rfl

theorem decodes_bytes : Decodes serializeBytes deserializeBytes fun _ => True where
  roundTrip v _ x := decodeNextBytes_serializeBytes v x
  canonical h _ := eq_serializeBytes h

theorem fromUTF8_asBytes (v : String) : String.fromUTF8? ⟨⟨asBytes v⟩⟩ = some v :=
  dif_pos v.isValidUTF8

theorem asBytes_of_fromUTF8 {bytes : Bytes} {v : String}
    (h : String.fromUTF8? ⟨⟨bytes⟩⟩ = some v) : asBytes v = bytes := by
  unfold String.fromUTF8? at h
  split_ifs at h with hb
  cases h
  rfl

theorem decodes_str : Decodes serializeStr deserializeString fun _ => True where
  roundTrip v _ x := by
    rw [deserializeString, serializeStr,
      run_bind_ok (r := decodeNextBytes) (decodeNextBytes_serializeBytes (asBytes v) x)]
    simp only [fromUTF8_asBytes]
    rfl
  canonical {v s x} h _ := by
    obtain ⟨bytes, y, hb, hv⟩ := run_bind_eq_ok.mp h
    cases hu : String.fromUTF8? ⟨⟨bytes⟩⟩ with
    | none =>
        simp only [hu] at hv
        cases hv
    | some w =>
        simp only [hu] at hv
        cases hv
        rw [serializeStr, asBytes_of_fromUTF8 hu]
        exact eq_serializeBytes hb

theorem decodes_variant {count : ℕ} (hc : count ≤ 256) :
    Decodes serializeVariant (deserializeVariant count) fun index => index < count where
  roundTrip index hi x := by
    have hn : (UInt8.ofNat index).toNat = index := UInt8.toNat_ofNat_of_lt' (hi.trans_le hc)
    rw [deserializeVariant, serializeVariant, List.singleton_append,
      run_bind_ok (takeByte_eq_ok.mpr rfl), hn, if_pos hi]
    rfl
  canonical {index s x} h _ := by
    obtain ⟨b, y, hb, hv⟩ := run_bind_eq_ok.mp h
    obtain rfl := takeByte_eq_ok.mp hb
    split_ifs at hv
    · cases hv
      rw [serializeVariant, UInt8.ofNat_toNat]
      rfl
    · cases hv

/-- What is read as a variant index is one. -/
theorem variant_lt {count index : ℕ} {s x : Bytes}
    (h : (deserializeVariant count).run s = .ok (index, x)) : index < count := by
  obtain ⟨b, y, -, hv⟩ := run_bind_eq_ok.mp h
  split_ifs at hv with hlt
  · cases hv
    exact hlt
  · cases hv

/-- No encoded field is empty, so a field is read unless the input ends before it. -/
theorem decodes_element {α : Type} {encode : α → Bytes} {r : Reader α} {Good : α → Prop}
    (h : Decodes encode r Good) (hne : ∀ a, encode a ≠ []) (index : ℕ) (expected : String) :
    Decodes encode (nextElement index expected r) Good where
  roundTrip a ha x := by
    have hnil : encode a ++ x ≠ [] := fun h0 => hne a (List.append_eq_nil_iff.mp h0).1
    change (if encode a ++ x = [] then _ else _) = _
    rw [if_neg hnil]
    exact h.roundTrip a ha x
  canonical {a s x} hr ha := by
    change (if s = [] then _ else _) = _ at hr
    split_ifs at hr
    · cases hr
    · exact h.canonical hr ha

/-! ## Readers do not panic -/

theorem avoids_takeByte : Avoids takeByte IsPanic := by
  intro s e h
  rw [takeByte, StateT.run_bind] at h
  cases hs : (takeBytes 1).run s with
  | error e' =>
      rw [hs] at h
      cases h
      exact avoids_takeBytes 1 s e hs
  | ok p =>
      obtain ⟨-, hlen⟩ := takeBytes_eq_ok.mp hs
      obtain ⟨b, hb⟩ := List.length_eq_one_iff.mp hlen
      rw [hs] at h
      change (firstByte p.1).run p.2 = _ at h
      rw [hb] at h
      cases h

theorem avoids_bool : Avoids deserializeBool IsPanic := by
  refine avoids_takeByte.bind fun b => ?_
  split_ifs
  · exact avoids_pure
  · exact avoids_pure
  · exact avoids_errdata _

theorem avoids_u64 : Avoids deserializeU64 IsPanic :=
  (avoids_takeBytes 8).bind fun _ => avoids_pure

theorem avoids_i64 : Avoids deserializeI64 IsPanic :=
  (avoids_takeBytes 8).bind fun _ => avoids_pure

/-- The sign bit is zero or one. -/
theorem shift_sign (b : UInt8) : b >>> 7 = 0 ∨ b >>> 7 = 1 := by
  have h : ∀ v : BitVec 8, v >>> 7 = 0#8 ∨ v >>> 7 = 1#8 := by decide
  exact (h b.toBitVec).imp UInt8.toBitVec_inj.mp UInt8.toBitVec_inj.mp

theorem avoids_f64 : Avoids deserializeF64 IsPanic := by
  intro s e h
  rw [deserializeF64, StateT.run_bind] at h
  cases hs : (takeBytes 8).run s with
  | error e' =>
      rw [hs] at h
      cases h
      exact avoids_takeBytes 8 s e hs
  | ok p =>
      obtain ⟨-, hlen⟩ := takeBytes_eq_ok.mp hs
      obtain ⟨b, l, hb⟩ := List.exists_cons_of_length_eq_add_one hlen
      obtain ⟨bytes, rest⟩ := p
      obtain rfl : bytes = b :: l := hb
      rw [hs] at h
      change (if b >>> 7 = 0 then pure _ else if b >>> 7 = 1 then pure _ else panics _ : Reader _).run
        rest = _ at h
      obtain hsign | hsign := shift_sign b
      · rw [if_pos hsign] at h
        cases h
      · rw [if_neg (by rw [hsign]; decide), if_pos hsign] at h
        cases h

theorem avoids_bytes : Avoids deserializeBytes IsPanic := by
  intro s
  induction s using decodeNextBytes.induct with
  | case1 =>
      rintro e h ⟨m, rfl⟩
      cases h
  | case2 s =>
      intro e h
      cases h
  | case3 s _ ih =>
      intro e h
      change decodeNextBytes _ = _ at h
      rw [decode_escape] at h
      exact ih e (map_eq_error h)
  | case4 c s h0 h1 =>
      intro e h
      change decodeNextBytes _ = _ at h
      rw [decode_invalid h0 h1] at h
      exact avoids_errdata _ s e h
  | case5 =>
      rintro e h ⟨m, rfl⟩
      cases h
  | case6 b s hb ih =>
      intro e h
      change decodeNextBytes _ = _ at h
      rw [decode_byte hb] at h
      exact ih e (map_eq_error h)

theorem avoids_str : Avoids deserializeString IsPanic := by
  refine avoids_bytes.bind fun bytes => ?_
  split
  · exact avoids_pure
  · exact avoids_errdata _

theorem avoids_variant (count : ℕ) : Avoids (deserializeVariant count) IsPanic := by
  refine avoids_takeByte.bind fun b => ?_
  split_ifs
  · exact avoids_pure
  · exact avoids_errdata _

theorem avoids_element {α : Type} {r : Reader α} (h : Avoids r IsPanic) (index : ℕ)
    (expected : String) : Avoids (nextElement index expected r) IsPanic := by
  intro s e he
  change (if s = [] then _ else _) = _ at he
  split_ifs at he
  · exact avoids_errdata _ s e he
  · exact h s e he

end ToyDB.Keycode
