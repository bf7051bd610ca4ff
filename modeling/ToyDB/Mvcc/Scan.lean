import ToyDB.Mvcc.Spec

/-!
# Scans in lockstep

A scan depends on the engine only through the visible versions of its transaction. Two
scans whose transactions see the same versions, each on its own engines, emit the same
entries call by call.
-/
namespace ToyDB.Mvcc
open ToyDB.Collections ToyDB.Effects ToyDB.Storage

variable {K V : Type} [LinearOrder K]

/-- The stored value of a version, if it is visible. -/
def TransactionState.visibleAt (t : TransactionState) (m : OrderedMap (Key K) (Value V)) (k : K)
    (u : ℕ) : Option (Value V) :=
  if t.isVisible u then m.get (.version k u) else none

def Key.userVersion : Key K → Option (K × ℕ)
  | .version k u => some (k, u)
  | _ => none

/-- The visible versions among scanned entries. -/
def TransactionState.versionsIn (t : TransactionState) (found : List (Key K × Value V)) :
    List (K × ℕ × Value V) :=
  found.filterMap fun e =>
    (e.1.userVersion.filter fun x => t.isVisible x.2).map fun x => (x.1, x.2, e.2)

section Versions
variable {m m' : OrderedMap (Key K) (Value V)} {t t' : TransactionState} {range : Key K → Bool}

theorem yields_visibleVersions {found : List (Key K × Value V)}
    (h : ∀ e ∈ found, ∃ k u, e.1 = .version k u) : Yields (visibleVersions t found) m
      fun r ops => r = .ok (t.versionsIn found) ∧ ops = [] := by
  induction found with
  | nil => exact yields_pure ⟨rfl, rfl⟩
  | cons e found ih =>
      obtain ⟨key, value⟩ := e
      obtain ⟨k, u, rfl⟩ := h (key, value) List.mem_cons_self
      refine Yields.read (ih fun e he => h e (List.mem_cons_of_mem _ he)) (yields_pure ⟨?_, rfl⟩)
      unfold TransactionState.versionsIn
      by_cases hu : t.isVisible u
      · rw [if_pos hu, List.filterMap_cons_some (b := (k, u, value)) (by simp [Key.userVersion, hu])]
      · rw [if_neg hu, List.filterMap_cons_none (by simp [Key.userVersion, hu])]

theorem mem_versionsIn {k : K} {u : ℕ} {value : Value V} :
    (k, u, value) ∈ t.versionsIn (m.scan range) ↔
      t.visibleAt m k u = some value ∧ range (.version k u) = true := by
  unfold TransactionState.versionsIn TransactionState.visibleAt
  rw [List.mem_filterMap]
  constructor
  · rintro ⟨⟨key, x⟩, hmem, hkey⟩
    obtain ⟨hget, hr⟩ := OrderedMap.mem_scan.mp hmem
    cases key with
    | version k' u' =>
        obtain ⟨y, hy, he⟩ := Option.map_eq_some_iff.mp hkey
        obtain ⟨hy, hvis⟩ := Option.filter_eq_some_iff.mp hy
        obtain rfl := Option.some.inj hy
        cases he
        exact ⟨by rw [if_pos hvis]; exact hget, hr⟩
    | _ => simp [Key.userVersion] at hkey
  · rintro ⟨hget, hr⟩
    split_ifs at hget with hvis
    exact ⟨(.version k u, value), OrderedMap.mem_scan.mpr ⟨hget, hr⟩, by simp [Key.userVersion, hvis]⟩

theorem versionsIn_sorted : (t.versionsIn (m.scan range)).Pairwise fun a b =>
    Key.version a.1 a.2.1 < Key.version b.1 b.2.1 := by
  refine List.Pairwise.filterMap _ (fun a b hab x hx y hy => ?_) (m.scan_sorted range)
  obtain ⟨x', hx', rfl⟩ := Option.map_eq_some_iff.mp hx
  obtain ⟨y', hy', rfl⟩ := Option.map_eq_some_iff.mp hy
  have hkey : ∀ {key : Key K} {z : K × ℕ}, key.userVersion = some z → key = .version z.1 z.2 := by
    intro key z hz
    cases key with
    | version k u => exact (Option.some.inj hz) ▸ rfl
    | _ => cases hz
  rw [hkey (Option.filter_eq_some_iff.mp hx').1, hkey (Option.filter_eq_some_iff.mp hy').1] at hab
  exact hab

/-- Visible versions in key order are determined by which they are. -/
theorem eq_of_mem_iff {versions versions' : List (K × ℕ × Value V)}
    (hs : versions.Pairwise fun a b => Key.version a.1 a.2.1 < Key.version b.1 b.2.1)
    (hs' : versions'.Pairwise fun a b => Key.version a.1 a.2.1 < Key.version b.1 b.2.1)
    (h : ∀ e, e ∈ versions ↔ e ∈ versions') : versions = versions' := by
  have hnodup : ∀ {l : List (K × ℕ × Value V)},
      (l.Pairwise fun a b => Key.version a.1 a.2.1 < Key.version b.1 b.2.1) → l.Nodup :=
    fun hl => hl.imp fun h he => by rw [he] at h; exact lt_irrefl _ h
  have hperm := (List.perm_ext_iff_of_nodup (hnodup hs) (hnodup hs')).mpr h
  exact hperm.eq_of_pairwise (fun a b _ _ h₁ h₂ => absurd h₁ h₂.asymm) hs hs'

/-- The visible versions in a range are determined by what is visible there. -/
theorem versionsIn_congr
    (h : ∀ k u, range (.version k u) = true → t.visibleAt m k u = t'.visibleAt m' k u) :
    t.versionsIn (m.scan range) = t'.versionsIn (m'.scan range) := by
  refine eq_of_mem_iff versionsIn_sorted versionsIn_sorted ?_
  rintro ⟨k, u, value⟩
  rw [mem_versionsIn, mem_versionsIn]
  exact and_congr_left fun hr => by rw [h k u hr]

/-- The visible versions in a range are determined by what is visible. -/
theorem versionsIn_eq (h : ∀ k u, t.visibleAt m k u = t'.visibleAt m' k u) :
    t.versionsIn (m.scan range) = t'.versionsIn (m'.scan range) :=
  versionsIn_congr fun k u _ => h k u

end Versions

/-! ## Lockstep -/

/-- Two reads, each on its engine, fail alike or return related results. -/
def Agrees {α β : Type} (x : Action K V α) (m : OrderedMap (Key K) (Value V)) (y : Action K V β)
    (m' : OrderedMap (Key K) (Value V)) (R : α → β → Prop) : Prop :=
  (x m).state = m ∧ (y m').state = m' ∧
    match (x m).result, (y m').result with
    | .ok a, .ok b => R a b
    | .error c, .error c' => c = c'
    | _, _ => False

section Agrees
variable {m m' : OrderedMap (Key K) (Value V)} {α β γ δ : Type} {R : α → β → Prop}
  {x : Action K V α} {y : Action K V β}

theorem agrees_pure {a : α} {b : β} (h : R a b) :
    Agrees (pure a : Action K V α) m (pure b) m' R := ⟨rfl, rfl, h⟩

theorem agrees_bind {f : α → Action K V γ} {g : β → Action K V δ} {R' : γ → δ → Prop}
    (h : Agrees x m y m' R) (hf : ∀ a b, R a b → Agrees (f a) m (g b) m' R') :
    Agrees (x >>= f) m (y >>= g) m' R' := by
  change Agrees (Program.bind x f) m (Program.bind y g) m' R'
  obtain ⟨hx, hy, hr⟩ := h
  unfold Agrees Program.bind
  cases hxm : x m with
  | mk r s es =>
      cases hym : y m' with
      | mk r' s' es' =>
          rw [hxm] at hx hr
          rw [hym] at hy hr
          simp only at hx hy hr
          subst hx hy
          cases r with
          | ok a =>
              cases r' with
              | ok b => exact hf a b hr
              | error c => exact hr.elim
          | error c =>
              cases r' with
              | ok b => exact hr.elim
              | error c' => exact ⟨rfl, rfl, hr⟩

/-- Reads with known results. -/
theorem agrees_of_yields {a : α} {b : β} (hx : Yields x m fun r ops => r = .ok a ∧ ops = [])
    (hy : Yields y m' fun r ops => r = .ok b ∧ ops = []) (h : R a b) : Agrees x m y m' R := by
  obtain ⟨hs, hr, hops⟩ := hx
  obtain ⟨hs', hr', hops'⟩ := hy
  unfold Agrees
  rw [hs, hs', hr, hr', hops, hops']
  exact ⟨rfl, rfl, h⟩

end Agrees

namespace ScanIterator
variable {m m' : OrderedMap (Key K) (Value V)} {it it' : ScanIterator K V}

/-- The scans differ only in their transactions, and remain in versions of user keys. -/
structure InStep (it it' : ScanIterator K V) : Prop where
  buffer : it.buffer = it'.buffer
  remainder : it.remainder = it'.remainder
  versions : ∀ range ∈ it.remainder, ∀ key, range key = true → ∃ k u, key = .version k u

/-- The results of calls of `next`, each on its engine. -/
def nexts (size : ℕ) : ScanIterator K V → List (OrderedMap (Key K) (Value V)) →
    List (Except Failure (Option (K × V)))
  | _, [] => []
  | it, m :: ms =>
      match (it.next size m).result with
      | .ok (entry, it') => .ok entry :: nexts size it' ms
      | .error c => [.error c]

/-- Filling a buffer reads only what it is given. -/
theorem agrees_fill (size : ℕ) (versions : List (K × ℕ × Value V)) (buffer : List (K × V)) :
    Agrees (fill size versions buffer) m (fill size versions buffer) m' Eq := by
  induction versions generalizing buffer with
  | nil => exact agrees_pure rfl
  | cons e versions ih =>
      obtain ⟨k, u, value⟩ := e
      have hdecode : Agrees (decodeData value : Action K V (Option V)) m (decodeData value) m' Eq := by
        cases value <;> exact ⟨rfl, rfl, rfl⟩
      unfold fill
      split_ifs with hnext
      · exact ih buffer
      · refine agrees_bind hdecode ?_
        rintro x _ rfl
        cases x with
        | none => exact ih buffer
        | some x =>
            simp only
            split_ifs
            · exact agrees_pure rfl
            · exact ih _

theorem agrees_fillBuffer (size : ℕ) (h : InStep it it')
    (hv : ∀ k u, it.txn.visibleAt m k u = it'.txn.visibleAt m' k u) :
    Agrees (it.fillBuffer size) m (it'.fillBuffer size) m' fun a b =>
      InStep a b ∧ a.txn = it.txn ∧ b.txn = it'.txn := by
  unfold fillBuffer
  rw [← h.buffer, ← h.remainder]
  split_ifs
  · exact agrees_pure ⟨h, rfl, rfl⟩
  · cases hrem : it.remainder with
    | none => exact agrees_pure ⟨h, rfl, rfl⟩
    | some range =>
        have hrange := h.versions range hrem
        have hkeys : ∀ {m : OrderedMap (Key K) (Value V)}, ∀ e ∈ m.scan range,
            ∃ k u, e.1 = .version k u := fun e he =>
          hrange e.1 (OrderedMap.mem_scan (v := e.2).mp he).2
        simp only
        refine agrees_bind (agrees_of_yields yields_scan yields_scan
          (R := fun a b => a = m.scan range ∧ b = m'.scan range) ⟨rfl, rfl⟩) ?_
        rintro _ _ ⟨rfl, rfl⟩
        refine agrees_bind (agrees_of_yields (yields_visibleVersions hkeys)
          (yields_visibleVersions hkeys) (R := Eq) (versionsIn_eq hv)) ?_
        rintro versions _ rfl
        refine agrees_bind (agrees_fill size versions it.buffer) ?_
        rintro ⟨buffer, next⟩ _ rfl
        refine agrees_pure ⟨⟨rfl, rfl, fun range' hr key hk => ?_⟩, rfl, rfl⟩
        obtain ⟨⟨k, u⟩, _, rfl⟩ := Option.map_eq_some_iff.mp hr
        exact hrange key (by simpa using (by simpa using hk : _ ∧ _).2)

theorem agrees_next (size : ℕ) (h : InStep it it')
    (hv : ∀ k u, it.txn.visibleAt m k u = it'.txn.visibleAt m' k u) :
    Agrees (it.next size) m (it'.next size) m' fun a b =>
      a.1 = b.1 ∧ InStep a.2 b.2 ∧ a.2.txn = it.txn ∧ b.2.txn = it'.txn := by
  have hemit : ∀ a b : ScanIterator K V, InStep a b ∧ a.txn = it.txn ∧ b.txn = it'.txn →
      Agrees (pure (a.buffer.head?, { a with buffer := a.buffer.tail })) m
        (pure (b.buffer.head?, { b with buffer := b.buffer.tail })) m' fun a b =>
          a.1 = b.1 ∧ InStep a.2 b.2 ∧ a.2.txn = it.txn ∧ b.2.txn = it'.txn := by
    rintro a b ⟨hab, ha, hb⟩
    exact agrees_pure ⟨by rw [hab.buffer], ⟨by rw [hab.buffer], hab.remainder, hab.versions⟩, ha, hb⟩
  unfold ScanIterator.next
  rw [← h.buffer]
  dsimp only
  split_ifs
  · exact agrees_bind (agrees_fillBuffer size h hv) hemit
  · exact agrees_bind (agrees_pure ⟨h, rfl, rfl⟩) hemit

/-- Scans of transactions that see the same versions emit the same, call by call. -/
theorem nexts_eq (size : ℕ) (h : InStep it it') {ms : List (OrderedMap (Key K) (Value V))}
    (hv : ∀ m ∈ ms, ∀ k u, it.txn.visibleAt m k u = it'.txn.visibleAt m' k u) :
    it.nexts size ms = it'.nexts size (ms.map fun _ => m') := by
  induction ms generalizing it it' with
  | nil => rfl
  | cons m ms ih =>
      obtain ⟨_, _, hr⟩ := agrees_next size h (hv m List.mem_cons_self)
      unfold nexts
      cases hx : (it.next size m).result with
      | error c =>
          cases hy : (it'.next size m').result with
          | error c' =>
              rw [hx, hy] at hr
              simp only [List.map_cons, hy, hr]
          | ok b =>
              rw [hx, hy] at hr
              exact hr.elim
      | ok a =>
          cases hy : (it'.next size m').result with
          | error c' =>
              rw [hx, hy] at hr
              exact hr.elim
          | ok b =>
              rw [hx, hy] at hr
              obtain ⟨he, hab, ha, hb⟩ := hr
              simp only [List.map_cons, hy, he]
              rw [ih hab fun m' hm k u => by
                rw [ha, hb]
                exact hv m' (List.mem_cons_of_mem _ hm) k u]

end ScanIterator
end ToyDB.Mvcc
