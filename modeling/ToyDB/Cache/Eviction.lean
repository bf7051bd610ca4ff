import Mathlib
import ToyDB.Cache.Cache

/-!
# Eviction policies

The reference keeps a log of what happened to the keys, newest first: every use of a key
under LRU, every insertion of an absent key under FIFO. The keys it holds are read off the
log. The cache holds the same keys after every sequence of lookups and insertions, and
answers every lookup as the reference does.
-/
namespace ToyDB.ClientCache
variable {K V : Type} [LinearOrder K] {key : K} {l log : List K} {n : ℕ}

/-! ## The reference -/

/-- Each key once, where it stands first. -/
def distinct : List K → List K
  | [] => []
  | key :: log => key :: (distinct log).filter (· ≠ key)

/-- The keys held after what the log says. -/
def EvictType.held (ty : EvictType) (n : ℕ) (log : List K) : List K :=
  match ty with
  | lru => (distinct log).take n
  | fifo => log.take n

structure Reference (K : Type) where
  log : List K
  hits : ℕ
  misses : ℕ

namespace Reference

def hit (ty : EvictType) (n : ℕ) (r : Reference K) (keys : List K) : List K :=
  keys.filter (ty.held n r.log).contains

def missed (ty : EvictType) (n : ℕ) (r : Reference K) (keys : List K) : List K :=
  keys.filter fun key => !(ty.held n r.log).contains key

/-- A lookup uses the keys that are held, in the order of the visit. -/
def lookup (ty : EvictType) (n : ℕ) (r : Reference K) (keys : List K) : Reference K where
  log := if ty = .lru then (r.hit ty n keys).reverse ++ r.log else r.log
  hits := r.hits + (r.hit ty n keys).length
  misses := r.misses + (r.missed ty n keys).length

def insert (ty : EvictType) (n : ℕ) (r : Reference K) (key : K) : Reference K :=
  if ty = .fifo ∧ (ty.held n r.log).contains key = true then r else { r with log := key :: r.log }

end Reference

/-- A lookup of keys, or an insertion. -/
inductive Call (K V : Type) where
  | filterUncached (keys : List K)
  | insert (key : K) (value : V)

namespace Call

def operation : Call K V → Operation K V
  | filterUncached keys => .filterUncached keys
  | insert key value => .insert key value

/-- What the call returns. -/
def answer (ty : EvictType) (n : ℕ) (r : Reference K) : Call K V → List K
  | filterUncached keys => r.missed ty n keys
  | insert _ _ => []

def after (ty : EvictType) (n : ℕ) (r : Reference K) : Call K V → Reference K
  | filterUncached keys => r.lookup ty n keys
  | insert key _ => r.insert ty n key

end Call

/-- What each call returns, and the reference after all of them. -/
def Reference.run (ty : EvictType) (n : ℕ) : List (Call K V) → Reference K →
    List (List K) × Reference K
  | [], r => ([], r)
  | call :: calls, r =>
      let (answers, r') := Reference.run ty n calls (call.after ty n r)
      (call.answer ty n r :: answers, r')

/-! ## The list of the cache -/

theorem distinct_nodup (log : List K) : (distinct log).Nodup := by
  induction log with
  | nil => exact List.nodup_nil
  | cons a log ih => exact List.nodup_cons.mpr ⟨by simp, ih.filter _⟩

theorem distinct_cons (key : K) (log : List K) :
    distinct (key :: log) = key :: (distinct log).erase key := by
  rw [distinct, (distinct_nodup log).erase_eq_filter]
  simp [bne, Bool.beq_eq_decide_eq]

omit [LinearOrder K] in
/-- The oldest key goes only when there are too many. -/
theorem evicted_take (hn : 1 ≤ n) (key : K) (l : List K) :
    (if n < (key :: l.take n).length then (key :: l.take n).dropLast else key :: l.take n) =
      (key :: l).take n := by
  obtain ⟨m, rfl⟩ : ∃ m, n = m + 1 := ⟨n - 1, by omega⟩
  rw [List.take_succ_cons, List.length_cons, List.length_take]
  split_ifs with hlength
  · rw [List.dropLast_eq_take, List.length_cons, List.length_take, Nat.add_sub_cancel,
      Nat.min_eq_left (by omega), List.take_succ_cons, List.take_take,
      Nat.min_eq_left (Nat.le_succ m)]
  · rw [List.take_of_length_le (by omega), List.take_of_length_le (by omega)]

theorem take_erase_of_mem (h : key ∈ l.take (n + 1)) :
    (l.take (n + 1)).erase key = (l.erase key).take n := by
  induction l generalizing n with
  | nil => simp at h
  | cons a l ih =>
      rw [List.take_succ_cons] at h ⊢
      by_cases ha : a = key
      · rw [ha, List.erase_cons_head, List.erase_cons_head]
      · rw [List.erase_cons_tail (by simpa using ha), List.erase_cons_tail (by simpa using ha)]
        have hl : key ∈ l.take n := (List.mem_cons.mp h).resolve_left fun heq => ha heq.symm
        cases n with
        | zero => simp at hl
        | succ n => rw [ih hl, List.take_succ_cons]

theorem take_erase_of_notMem (h : key ∉ l.take n) : (l.erase key).take n = l.take n := by
  induction l generalizing n with
  | nil => simp
  | cons a l ih =>
      cases n with
      | zero => rfl
      | succ n =>
          rw [List.take_succ_cons, List.mem_cons, not_or] at h
          rw [List.erase_cons_tail (by simpa using Ne.symm h.1), List.take_succ_cons,
            List.take_succ_cons, ih h.2]

/-- The list of the cache follows the log. -/
theorem touched_held (ty : EvictType) (hn : 1 ≤ n) (h : key ∈ ty.held n log) :
    touched ty key (ty.held n log) =
      ty.held n (if ty = .lru then key :: log else log) := by
  obtain ⟨m, rfl⟩ : ∃ m, n = m + 1 := ⟨n - 1, by omega⟩
  unfold touched
  cases ty with
  | fifo => rfl
  | lru =>
      simp only [EvictType.held, if_pos] at h ⊢
      rw [distinct_cons, List.take_succ_cons, take_erase_of_mem h]

/-- A use of a key that is held leaves the same keys. -/
theorem mem_held_touched (ty : EvictType) (hn : 1 ≤ n) (h : key ∈ ty.held n log) (k : K) :
    k ∈ ty.held n (if ty = .lru then key :: log else log) ↔ k ∈ ty.held n log := by
  rw [← touched_held ty hn h, touched]
  split_ifs with hty
  · constructor
    · intro hk
      obtain rfl | hk := List.mem_cons.mp hk
      · exact h
      · exact List.mem_of_mem_erase hk
    · intro hk
      by_cases heq : k = key
      · exact List.mem_cons.mpr (.inl heq)
      · exact List.mem_cons_of_mem _ ((List.mem_erase_of_ne heq).mpr hk)
  · exact Iff.rfl

theorem inserted_held (ty : EvictType) (hn : 1 ≤ n) (key : K) (log : List K) :
    inserted ty n key (ty.held n log) = ty.held n
      (if ty = .fifo ∧ key ∈ ty.held n log then log else key :: log) := by
  unfold inserted
  by_cases hkey : key ∈ ty.held n log
  · rw [if_pos hkey, touched_held ty hn hkey]
    cases ty with
    | lru => simp
    | fifo => simp [hkey]
  · have hnew : ¬ (ty = .fifo ∧ key ∈ ty.held n log) := fun h => hkey h.2
    rw [if_neg hkey, if_neg hnew]
    cases ty with
    | fifo => exact evicted_take hn key log
    | lru =>
        obtain ⟨m, rfl⟩ : ∃ m, n = m + 1 := ⟨n - 1, by omega⟩
        unfold EvictType.held at hkey ⊢
        dsimp only at hkey ⊢
        rw [evicted_take hn, distinct_cons, List.take_succ_cons, List.take_succ_cons,
          take_erase_of_notMem fun h => hkey ((List.take_sublist_take_left (by omega)).subset h)]

/-! ## Lookups key by key -/

namespace Reference
variable {ty : EvictType} {r : Reference K} {keys : List K}

/-- The reference after a use of one key. -/
def touch (ty : EvictType) (r : Reference K) (key : K) : Reference K :=
  ⟨if ty = .lru then key :: r.log else r.log, r.hits + 1, r.misses⟩

def miss (r : Reference K) : Reference K := { r with misses := r.misses + 1 }

theorem touch_hit (hn : 1 ≤ n) (h : key ∈ ty.held n r.log) :
    (r.touch ty key).hit ty n keys = r.hit ty n keys := by
  unfold hit touch
  exact List.filter_congr fun key' _ => by
    rw [List.contains_eq_mem, List.contains_eq_mem, decide_eq_decide, mem_held_touched ty hn h]

theorem touch_missed (hn : 1 ≤ n) (h : key ∈ ty.held n r.log) :
    (r.touch ty key).missed ty n keys = r.missed ty n keys := by
  unfold missed touch
  exact List.filter_congr fun key' _ => by
    simp only [List.contains_eq_mem, mem_held_touched ty hn h]

theorem lookup_held (hn : 1 ≤ n) (h : key ∈ ty.held n r.log) :
    r.lookup ty n (key :: keys) = (r.touch ty key).lookup ty n keys ∧
      r.missed ty n (key :: keys) = (r.touch ty key).missed ty n keys := by
  have hhit : r.hit ty n (key :: keys) = key :: r.hit ty n keys := by simp [hit, h]
  have hmissed : r.missed ty n (key :: keys) = r.missed ty n keys := by simp [missed, h]
  rw [touch_missed hn h, hmissed]
  unfold lookup
  rw [touch_hit hn h, touch_missed hn h, hhit, hmissed, List.length_cons]
  unfold touch
  split_ifs
  · simp [Nat.add_assoc, Nat.add_comm 1]
  · simp [Nat.add_assoc, Nat.add_comm 1]

theorem lookup_missed (h : key ∉ ty.held n r.log) :
    r.lookup ty n (key :: keys) = r.miss.lookup ty n keys ∧
      r.missed ty n (key :: keys) = key :: r.miss.missed ty n keys := by
  have hhit : r.hit ty n (key :: keys) = r.miss.hit ty n keys :=
    List.filter_cons_of_neg (by simpa using h)
  have hmissed : r.missed ty n (key :: keys) = key :: r.miss.missed ty n keys :=
    List.filter_cons_of_pos (by simpa using h)
  refine ⟨?_, hmissed⟩
  unfold lookup
  rw [hhit, hmissed, List.length_cons]
  simp [miss, Nat.add_assoc, Nat.add_comm 1]

end Reference

/-! ## Agreement -/

/-- The cache holds what the reference holds, the most recent first; its counters started at
the given values. -/
structure Follows (ty : EvictType) (n : ℕ) (hits misses : UInt64) (r : Reference K)
    (s : State K V) : Prop where
  holds : s.cache.Holds (ty.held n r.log)
  hits : s.hits = hits + UInt64.ofNat r.hits
  misses : s.misses = misses + UInt64.ofNat r.misses
  enabled : s.enabled = true
  evictType : s.evictType = ty
  maxSize : s.maxSize = n

namespace Follows
variable {ty : EvictType} {hits misses : UInt64} {r : Reference K} {s : State K V}

theorem touch (h : Follows ty n hits misses r s) (hn : 1 ≤ n) (hkey : key ∈ ty.held n r.log)
    {cache : Cache K V} (hcache : cache.Holds (touched ty key (ty.held n r.log))) :
    Follows ty n hits misses (r.touch ty key) { s with hits := s.hits + 1, cache := cache } where
  holds := by
    rw [touched_held ty hn hkey] at hcache
    exact hcache
  hits := by
    unfold Reference.touch
    dsimp only
    rw [h.hits, UInt64.ofNat_add, UInt64.add_assoc]
    rfl
  misses := h.misses
  enabled := h.enabled
  evictType := h.evictType
  maxSize := h.maxSize

theorem miss (h : Follows ty n hits misses r s) :
    Follows ty n hits misses r.miss { s with misses := s.misses + 1 } where
  holds := h.holds
  hits := h.hits
  misses := by
    unfold Reference.miss
    dsimp only
    rw [h.misses, UInt64.ofNat_add, UInt64.add_assoc]
    rfl
  enabled := h.enabled
  evictType := h.evictType
  maxSize := h.maxSize

theorem lookups (h : Follows ty n hits misses r s) (hn : 1 ≤ n) (keys uncached : List K) :
    ∃ s', ClientCache.lookups keys uncached s = .ok (uncached ++ r.missed ty n keys, s') ∧
      Follows ty n hits misses (r.lookup ty n keys) s' := by
  induction keys generalizing uncached r s with
  | nil => exact ⟨s, by simp [ClientCache.lookups, Reference.missed],
      by simpa [Reference.lookup, Reference.hit, Reference.missed] using h⟩
  | cons key keys ih =>
      unfold ClientCache.lookups
      by_cases hkey : key ∈ ty.held n r.log
      · obtain ⟨cache, hlookup, hcache⟩ := lookup_hit h.holds hkey uncached
        rw [h.evictType] at hcache
        rw [hlookup, (Reference.lookup_held hn hkey).1, (Reference.lookup_held hn hkey).2]
        exact ih (h.touch hn hkey hcache) uncached
      · rw [lookup_miss h.holds hkey, (Reference.lookup_missed hkey).1,
          (Reference.lookup_missed hkey).2]
        obtain ⟨s', hrun, hs'⟩ := ih h.miss (uncached ++ [key])
        exact ⟨s', hrun.trans (by rw [List.append_assoc, List.singleton_append]), hs'⟩

theorem insert (h : Follows ty n hits misses r s) (hn : 1 ≤ n) (key : K) (value : V) :
    ∃ s', ClientCache.insert key value s = .ok s' ∧
      Follows ty n hits misses (r.insert ty n key) s' := by
  obtain ⟨cache, hinsert, hcache⟩ := insert_spec h.holds h.enabled key value
  rw [h.evictType, h.maxSize, inserted_held ty hn] at hcache
  refine ⟨_, hinsert, ?_⟩
  simp only [Reference.insert, List.contains_iff_mem]
  split_ifs at hcache ⊢
  · exact ⟨hcache, h.hits, h.misses, h.enabled, h.evictType, h.maxSize⟩
  · exact ⟨hcache, h.hits, h.misses, h.enabled, h.evictType, h.maxSize⟩

theorem call (h : Follows ty n hits misses r s) (hn : 1 ≤ n) (call : Call K V) :
    ∃ s', call.operation.run s = .ok (call.answer ty n r, s') ∧
      Follows ty n hits misses (call.after ty n r) s' := by
  cases call with
  | filterUncached keys =>
      obtain ⟨s', hrun, hs'⟩ := h.lookups hn keys []
      refine ⟨s', ?_, hs'⟩
      change filterUncached keys s = _
      unfold filterUncached
      rw [if_pos h.enabled]
      exact hrun
  | insert key value =>
      obtain ⟨s', hrun, hs'⟩ := h.insert hn key value
      refine ⟨s', ?_, hs'⟩
      change (ClientCache.insert key value s >>= _) = _
      rw [hrun]
      rfl

end Follows

/-- An enabled empty cache with its settings. -/
def State.enabledWith (ty : EvictType) (n : ℕ) (hits misses : UInt64) : State K V :=
  ⟨true, Cache.new, hits, misses, ty, n⟩

/-- Lookups and insertions hold, return and count what the reference says. -/
theorem run_follows (ty : EvictType) (n : ℕ) (hn : 1 ≤ n) (hits misses : UInt64)
    (calls : List (Call K V)) :
    ∃ s, run (calls.map Call.operation) (State.enabledWith ty n hits misses) =
        .ok ((Reference.run ty n calls ⟨[], 0, 0⟩).1, s) ∧
      (∀ key, (s.cache.entries.get key).isSome = true ↔
        key ∈ ty.held n (Reference.run ty n calls ⟨[], 0, 0⟩).2.log) ∧
      s.hits = hits + UInt64.ofNat (Reference.run ty n calls ⟨[], 0, 0⟩).2.hits ∧
      s.misses = misses + UInt64.ofNat (Reference.run ty n calls ⟨[], 0, 0⟩).2.misses := by
  have hruns : ∀ (r : Reference K) (s : State K V), Follows ty n hits misses r s →
      ∃ s', run (calls.map Call.operation) s = .ok ((Reference.run ty n calls r).1, s') ∧
        Follows ty n hits misses (Reference.run ty n calls r).2 s' := by
    induction calls with
    | nil => exact fun r s h => ⟨s, rfl, h⟩
    | cons call calls ih =>
        intro r s h
        obtain ⟨s₁, hcall, h₁⟩ := h.call hn call
        obtain ⟨s₂, hcalls, h₂⟩ := ih _ s₁ h₁
        refine ⟨s₂, ?_, h₂⟩
        rw [List.map_cons, run, hcall]
        change (run (calls.map Call.operation) s₁ >>= _) = _
        rw [hcalls]
        rfl
  have hempty : (Cache.new : Cache K V).Holds (ty.held n []) := by
    cases ty with
    | lru => simpa [EvictType.held, distinct] using Cache.Holds.empty
    | fifo => simpa [EvictType.held] using Cache.Holds.empty
  obtain ⟨s, hrun, h⟩ := hruns ⟨[], 0, 0⟩ (State.enabledWith ty n hits misses)
    ⟨hempty, by simp [State.enabledWith], by simp [State.enabledWith], rfl, rfl, rfl⟩
  exact ⟨s, hrun, h.holds.has_iff, h.hits, h.misses⟩

theorem run_follows_lru : ∃ s, run [.insert 1 (), .insert 2 (), .filterUncached [1],
      .insert 3 (), .filterUncached [1, 2]] (State.enabledWith .lru 2 0 0) =
        .ok ([[], [], [], [], [2]], s) ∧
      (∀ key : ℕ, (s.cache.entries.get key).isSome = true ↔ key ∈ [1, 3]) ∧
      s.hits = 2 ∧ s.misses = 1 :=
  run_follows .lru 2 (by decide) 0 0 [.insert 1 (), .insert 2 (), .filterUncached [1],
    .insert 3 (), .filterUncached [1, 2]]

end ToyDB.ClientCache
