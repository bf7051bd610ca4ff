import ToyDB.Collections.LinkedList
import ToyDB.Collections.OrderedMap
import ToyDB.Error

/-!
# The client cache

A map of entries that are also a doubly linked list, with the most recently used entry at
its head. The cache and its settings are one state; its operations are taken one after the
other. Keys are of any ordered type.
-/
namespace ToyDB.ClientCache
open ToyDB.Collections

inductive EvictType where
  | lru
  | fifo
  deriving DecidableEq

structure CacheEntry (K V : Type) where
  value : V
  prev : Option K
  next : Option K

structure Cache (K V : Type) [LinearOrder K] where
  entries : OrderedMap K (CacheEntry K V)
  /-- The end of the most recently used entries. -/
  head : Option K
  /-- The end of the least recently used entries. -/
  tail : Option K

def expect {α : Type} (message : String) : Option α → Except Failure α
  | some a => .ok a
  | none => .error (.panic message)

def unwrap {α : Type} (value : Option α) : Except Failure α :=
  expect "called `Option::unwrap()` on a `None` value" value

namespace Cache
variable {K V : Type} [LinearOrder K]

def new : Cache K V := ⟨OrderedMap.empty, none, none⟩

/-- Changes the entry of a key, which has to exist. -/
def modify (self : Cache K V) (key : K) (f : CacheEntry K V → CacheEntry K V) :
    Except Failure (Cache K V) := do
  let entry ← unwrap (self.entries.get key)
  return { self with entries := self.entries.insert key (f entry) }

/-- Takes an entry out of the list; it stays in the map. -/
def detach (self : Cache K V) (key : K) : Except Failure (Cache K V) := do
  let entry ← expect "key must exist" (self.entries.get key)
  let self ← (match entry.prev with
    | some p => self.modify p fun e => { e with next := entry.next }
    | none => return { self with head := entry.next })
  match entry.next with
  | some n => self.modify n fun e => { e with prev := entry.prev }
  | none => return { self with tail := entry.prev }

/-- Puts an entry of the map in front of the list. -/
def attachToFront (self : Cache K V) (key : K) : Except Failure (Cache K V) := do
  let oldHead := self.head
  let self ← self.modify key fun e => { e with prev := none, next := oldHead }
  let self ← (match oldHead with
    | some old => self.modify old fun e => { e with prev := some key }
    | none => return { self with tail := some key })
  return { self with head := some key }

def popTail (self : Cache K V) : Except Failure (Option K × Cache K V) := do
  match self.tail with
  | none => return (none, self)
  | some key =>
      let self ← self.detach key
      return (some key, self)

end Cache

/-- The cache with its settings and counters. -/
structure State (K V : Type) [LinearOrder K] where
  enabled : Bool
  cache : Cache K V
  hits : UInt64
  misses : UInt64
  evictType : EvictType
  maxSize : ℕ

variable {K V : Type} [LinearOrder K]

def State.initial : State K V := ⟨false, Cache.new, 0, 0, .lru, 5000⟩

/-- Moves an entry to the front. -/
def Cache.moveToFront (self : Cache K V) (key : K) : Except Failure (Cache K V) := do
  (← self.detach key).attachToFront key

/-- One key of a lookup: a hit is counted and moved to the front, a miss is counted and
returned. -/
def lookup (key : K) (uncached : List K) (s : State K V) : Except Failure (List K × State K V) := do
  if (s.cache.entries.get key).isSome then
    let s := { s with hits := s.hits + 1 }
    if s.evictType = .lru then
      return (uncached, { s with cache := ← s.cache.moveToFront key })
    else return (uncached, s)
  else return (uncached ++ [key], { s with misses := s.misses + 1 })

def lookups : List K → List K → State K V → Except Failure (List K × State K V)
  | [], uncached, s => .ok (uncached, s)
  | key :: keys, uncached, s => do
      let (uncached, s) ← lookup key uncached s
      lookups keys uncached s

/-- The keys that are not in the cache, among the given ones in the order in which they
are visited. -/
def filterUncached (keys : List K) (s : State K V) : Except Failure (List K × State K V) :=
  if s.enabled then lookups keys [] s else .ok (keys, s)

/-- Removes the last entry if there are too many. -/
def evict (maxSize : ℕ) (cache : Cache K V) : Except Failure (Cache K V) := do
  if maxSize < cache.entries.entries.length then
    match ← cache.popTail with
    | (none, cache) => return cache
    | (some victim, cache) => return { cache with entries := cache.entries.erase victim }
  else return cache

def insert (key : K) (value : V) (s : State K V) : Except Failure (State K V) := do
  if s.enabled = false then
    return s
  else if (s.cache.entries.get key).isSome then
    let cache ← s.cache.modify key fun e => { e with value := value }
    if s.evictType = .lru then
      return { s with cache := ← cache.moveToFront key }
    else return { s with cache := cache }
  else
    let cache := { s.cache with entries := s.cache.entries.insert key ⟨value, none, none⟩ }
    let cache ← cache.attachToFront key
    return { s with cache := ← evict s.maxSize cache }

inductive Operation (K V : Type) where
  | enable
  | setEviction (ty : EvictType)
  | setMaxSize (size : ℕ)
  | filterUncached (keys : List K)
  | resetStats
  | insert (key : K) (value : V)

/-- The keys that an operation returns, and the state after it. -/
def Operation.run : Operation K V → State K V → Except Failure (List K × State K V)
  | enable, s => .ok ([], { s with enabled := true })
  | setEviction ty, s => .ok ([], { s with evictType := ty })
  | setMaxSize size, s => .ok ([], { s with maxSize := size })
  | filterUncached keys, s => ClientCache.filterUncached keys s
  | resetStats, s => .ok ([], { s with hits := 0, misses := 0 })
  | insert key value, s => do
      let s ← ClientCache.insert key value s
      return ([], s)

/-- Runs operations one after the other, and returns what each returned. -/
def run : List (Operation K V) → State K V → Except Failure (List (List K) × State K V)
  | [], s => .ok ([], s)
  | op :: ops, s => do
      let (keys, s) ← op.run s
      let (outputs, s) ← run ops s
      return (keys :: outputs, s)

/-! ## The linked list -/

namespace Cache

def nextOf (c : Cache K V) (key : K) : Option K := (c.entries.get key).bind CacheEntry.next

def prevOf (c : Cache K V) (key : K) : Option K := (c.entries.get key).bind CacheEntry.prev

def has (c : Cache K V) (key : K) : Bool := (c.entries.get key).isSome

/-- The pointers of the entries link the list. -/
def Links (c : Cache K V) (l : List K) : Prop := Linked c.nextOf c.prevOf c.head c.tail l

/-- The list holds the keys of the map. -/
structure Holds (c : Cache K V) (l : List K) : Prop where
  links : c.Links l
  has_iff (key : K) : c.has key = true ↔ key ∈ l

variable {c : Cache K V} {key : K} {l before behind : List K}

theorem modify_ok {entry : CacheEntry K V} (h : c.entries.get key = some entry)
    (f : CacheEntry K V → CacheEntry K V) :
    c.modify key f = .ok { c with entries := c.entries.insert key (f entry) } := by
  unfold modify
  rw [h]
  rfl

theorem nextOf_insert (entries : OrderedMap K (CacheEntry K V)) (entry : CacheEntry K V)
    (head tail : Option K) (a : K) : nextOf ⟨entries.insert key entry, head, tail⟩ a =
      if a = key then entry.next else (entries.get a).bind CacheEntry.next := by
  rw [nextOf, OrderedMap.get_insert]
  split_ifs <;> rfl

theorem prevOf_insert (entries : OrderedMap K (CacheEntry K V)) (entry : CacheEntry K V)
    (head tail : Option K) (a : K) : prevOf ⟨entries.insert key entry, head, tail⟩ a =
      if a = key then entry.prev else (entries.get a).bind CacheEntry.prev := by
  rw [prevOf, OrderedMap.get_insert]
  split_ifs <;> rfl

theorem has_insert (entries : OrderedMap K (CacheEntry K V)) (entry : CacheEntry K V)
    (head tail : Option K) (a : K) : has ⟨entries.insert key entry, head, tail⟩ a =
      if a = key then true else (entries.get a).isSome := by
  rw [has, OrderedMap.get_insert]
  split_ifs <;> rfl

/-- Setting the forward pointer of a key, or the head. -/
theorem setNext {p : Option K} (hp : ∀ k, p = some k → c.has k = true) (n : Option K) :
    ∃ c', (match p with
        | some p => c.modify p fun e => { e with next := n }
        | none => pure { c with head := n }) = .ok c' ∧
      (∀ a, c'.nextOf a = if p = some a then n else c.nextOf a) ∧ (∀ a, c'.prevOf a = c.prevOf a) ∧
      c'.head = (if p = none then n else c.head) ∧ c'.tail = c.tail ∧ ∀ a, c'.has a = c.has a := by
  cases p with
  | none => exact ⟨_, rfl, fun _ => rfl, fun _ => rfl, rfl, rfl, fun _ => rfl⟩
  | some p =>
      obtain ⟨entry, hentry⟩ := Option.isSome_iff_exists.mp (hp p rfl)
      refine ⟨_, modify_ok hentry _, fun a => ?_, fun a => ?_, rfl, rfl, fun a => ?_⟩
      · rw [nextOf_insert]
        simp only [Option.some.injEq, eq_comm (a := p)]
        rfl
      · rw [prevOf_insert]
        split_ifs with ha
        · rw [prevOf, ha, hentry]
          rfl
        · rfl
      · rw [has_insert]
        split_ifs with ha
        · rw [has, ha, hentry]
          rfl
        · rfl

/-- Setting the backward pointer of a key, or the tail. -/
theorem setPrev {n : Option K} (hn : ∀ k, n = some k → c.has k = true) (p : Option K) :
    ∃ c', (match n with
        | some n => c.modify n fun e => { e with prev := p }
        | none => pure { c with tail := p }) = .ok c' ∧
      (∀ a, c'.prevOf a = if n = some a then p else c.prevOf a) ∧ (∀ a, c'.nextOf a = c.nextOf a) ∧
      c'.tail = (if n = none then p else c.tail) ∧ c'.head = c.head ∧ ∀ a, c'.has a = c.has a := by
  cases n with
  | none => exact ⟨_, rfl, fun _ => rfl, fun _ => rfl, rfl, rfl, fun _ => rfl⟩
  | some n =>
      obtain ⟨entry, hentry⟩ := Option.isSome_iff_exists.mp (hn n rfl)
      refine ⟨_, modify_ok hentry _, fun a => ?_, fun a => ?_, rfl, rfl, fun a => ?_⟩
      · rw [prevOf_insert]
        simp only [Option.some.injEq, eq_comm (a := n)]
        rfl
      · rw [nextOf_insert]
        split_ifs with ha
        · rw [nextOf, ha, hentry]
          rfl
        · rfl
      · rw [has_insert]
        split_ifs with ha
        · rw [has, ha, hentry]
          rfl
        · rfl

/-- Detaching takes the key out of the list. -/
theorem detach_spec (h : c.Links (before ++ key :: behind))
    (hhas : ∀ k ∈ before ++ key :: behind, c.has k = true) : ∃ c', c.detach key = .ok c' ∧
      c'.Links (before ++ behind) ∧ ∀ a, c'.has a = c.has a := by
  obtain ⟨entry, hentry⟩ := Option.isSome_iff_exists.mp (hhas key (by simp))
  obtain ⟨hprev, hnext⟩ := h.links before key behind rfl
  have hprev : entry.prev = before.getLast? := by rw [← hprev, prevOf, hentry]; rfl
  have hnext : entry.next = behind.head? := by rw [← hnext, nextOf, hentry]; rfl
  obtain ⟨c₁, hc₁, hnext₁, hprev₁, hhead₁, htail₁, hhas₁⟩ := setNext (c := c) (p := entry.prev)
    (fun k hk => hhas k (by
      have := List.mem_of_getLast? (hprev ▸ hk)
      simp [this])) entry.next
  obtain ⟨c₂, hc₂, hprev₂, hnext₂, htail₂, hhead₂, hhas₂⟩ := setPrev (c := c₁) (n := entry.next)
    (fun k hk => (hhas₁ k).trans (hhas k (by
      have := List.mem_of_mem_head? (hnext ▸ hk)
      simp [this]))) entry.prev
  refine ⟨c₂, ?_, ?_, fun a => (hhas₂ a).trans (hhas₁ a)⟩
  · unfold detach
    rw [hentry]
    change Except.bind _ _ = _
    change Except.bind (match entry.prev with
      | some p => c.modify p fun e => { e with next := entry.next }
      | none => pure { c with head := entry.next }) _ = _
    rw [hc₁]
    exact hc₂
  · refine Linked.detach h (fun a _ => ?_) (fun a _ => ?_) ?_ ?_
    · rw [hnext₂, hnext₁, hprev, hnext]
    · rw [hprev₂, hprev₁, hprev, hnext]
    · rw [hhead₂, hhead₁, hprev, hnext]
      simp only [List.getLast?_eq_none_iff]
    · rw [htail₂, htail₁, hprev, hnext]
      simp only [List.head?_eq_none_iff]

/-- Attaching puts the key in front of the list. -/
theorem attachToFront_spec (h : c.Links l) (hhas : ∀ k ∈ l, c.has k = true)
    (hkey : c.has key = true) (hl : key ∉ l) : ∃ c', c.attachToFront key = .ok c' ∧
      c'.Links (key :: l) ∧ ∀ a, c'.has a = c.has a := by
  obtain ⟨entry, hentry⟩ := Option.isSome_iff_exists.mp hkey
  have hhead : ∀ k, c.head = some k → k ∈ l := fun k hk =>
    List.mem_of_mem_head? (h.head_eq ▸ hk)
  obtain ⟨c₁, hc₁⟩ : ∃ c₁, c₁ = (⟨c.entries.insert key ⟨entry.value, none, c.head⟩, c.head,
    c.tail⟩ : Cache K V) := ⟨_, rfl⟩
  have hhas₁ : ∀ a, c₁.has a = c.has a := by
    intro a
    rw [hc₁, has_insert]
    split_ifs with ha
    · rw [ha, hkey]
    · rfl
  obtain ⟨c₂, hc₂, hprev₂, hnext₂, htail₂, hhead₂, hhas₂⟩ := setPrev (c := c₁) (n := c.head)
    (fun k hk => (hhas₁ k).trans (hhas k (hhead k hk))) (some key)
  refine ⟨{ c₂ with head := some key }, ?_, ?_, fun a => (hhas₂ a).trans (hhas₁ a)⟩
  · unfold attachToFront
    dsimp only
    rw [modify_ok hentry, ← hc₁]
    change ((match c.head with
      | some old => c₁.modify old fun e => { e with prev := some key }
      | none => pure { c₁ with tail := some key }) >>= _) = _
    rw [hc₂]
    rfl
  · have hnext₁ : ∀ a, c₁.nextOf a = if a = key then c.head else c.nextOf a := by
      intro a
      rw [hc₁, nextOf_insert]
      rfl
    have hprev₁ : ∀ a, c₁.prevOf a = if a = key then none else c.prevOf a := by
      intro a
      rw [hc₁, prevOf_insert]
      rfl
    refine Linked.attach h hl (fun a => (hnext₂ a).trans (hnext₁ a)) (fun a => ?_) rfl ?_
    · refine (hprev₂ a).trans ?_
      rw [hprev₁]
      by_cases ha : a = key
      · have hne : c.head ≠ some a := fun hk => hl (ha ▸ hhead a hk)
        rw [if_neg hne]
        simp [ha]
      · simp [ha]
    · exact htail₂.trans (by rw [hc₁])

namespace Holds

theorem empty : (Cache.new : Cache K V).Holds [] where
  links := .nil
  has_iff key := by simp [has, Cache.new]

theorem nodup (h : c.Holds l) : l.Nodup := h.links.nodup

theorem length (h : c.Holds l) : c.entries.entries.length = l.length := by
  have hperm : c.entries.keys.Perm l := (List.perm_ext_iff_of_nodup c.entries.keys_nodup
    h.nodup).mpr fun key => OrderedMap.mem_keys.trans (h.has_iff key)
  rw [← hperm.length_eq, OrderedMap.keys, List.length_map]

/-- Another value of a key changes no pointer. -/
theorem modify_value (h : c.Holds l) (hkey : key ∈ l) (value : V) :
    ∃ c', c.modify key (fun e => { e with value := value }) = .ok c' ∧ c'.Holds l := by
  obtain ⟨entry, hentry⟩ := Option.isSome_iff_exists.mp ((h.has_iff key).mpr hkey)
  have hnext : nextOf ⟨c.entries.insert key { entry with value := value }, c.head, c.tail⟩
      = c.nextOf := by
    funext a
    rw [nextOf_insert]
    split_ifs with ha
    · rw [nextOf, ha, hentry]
      rfl
    · rfl
  have hprev : prevOf ⟨c.entries.insert key { entry with value := value }, c.head, c.tail⟩
      = c.prevOf := by
    funext a
    rw [prevOf_insert]
    split_ifs with ha
    · rw [prevOf, ha, hentry]
      rfl
    · rfl
  refine ⟨_, modify_ok hentry _, ?_, fun a => ?_⟩
  · rw [Links, hnext, hprev]
    exact h.links
  · rw [has_insert]
    split_ifs with ha
    · simp [ha, hkey]
    · exact h.has_iff a

theorem moveToFront (h : c.Holds l) (hkey : key ∈ l) :
    ∃ c', c.moveToFront key = .ok c' ∧ c'.Holds (key :: l.erase key) := by
  obtain ⟨before, behind, hbefore, hl, herase⟩ := List.exists_erase_eq hkey
  have hnodup := h.nodup
  have hlinks := h.links
  rw [hl] at hnodup hlinks
  obtain ⟨c₁, hc₁, hlinks₁, hhas₁⟩ := detach_spec hlinks fun k hk =>
    (h.has_iff k).mpr (hl ▸ hk)
  have hnot : key ∉ before ++ behind := (List.nodup_middle.mp hnodup).notMem
  obtain ⟨c₂, hc₂, hlinks₂, hhas₂⟩ := attachToFront_spec hlinks₁
    (fun k hk => (hhas₁ k).trans ((h.has_iff k).mpr (hl ▸ by
      rw [List.mem_append] at hk
      simp only [List.mem_append, List.mem_cons]
      tauto)))
    ((hhas₁ key).trans ((h.has_iff key).mpr hkey)) hnot
  rw [herase]
  refine ⟨c₂, ?_, hlinks₂, fun a => ?_⟩
  · unfold Cache.moveToFront
    rw [hc₁]
    exact hc₂
  · rw [hhas₂, hhas₁, h.has_iff, hl]
    simp only [List.mem_append, List.mem_cons]
    tauto

/-- A new key is put in front. -/
theorem attach_new (h : c.Holds l) (hkey : key ∉ l) (value : V) :
    ∃ c', ({ c with entries := c.entries.insert key ⟨value, none, none⟩ } : Cache K V).attachToFront
      key = .ok c' ∧ c'.Holds (key :: l) := by
  have hhas : ∀ a, has ⟨c.entries.insert key ⟨value, none, none⟩, c.head, c.tail⟩ a = true ↔
      a ∈ key :: l := by
    intro a
    rw [has_insert, List.mem_cons]
    split_ifs with ha
    · simp [ha]
    · simp only [ha, false_or]
      exact h.has_iff a
  -- the pointers of the listed keys are as before
  have hlinks : Links ⟨c.entries.insert key ⟨value, none, none⟩, c.head, c.tail⟩ l := by
    refine h.links.congr (fun a ha => ?_) fun a ha => ?_
    · rw [nextOf_insert, if_neg (ne_of_mem_of_not_mem ha hkey)]
      rfl
    · rw [prevOf_insert, if_neg (ne_of_mem_of_not_mem ha hkey)]
      rfl
  obtain ⟨c', hc', hlinks', hhas'⟩ := attachToFront_spec hlinks
    (fun k hk => (hhas k).mpr (List.mem_cons_of_mem _ hk)) ((hhas key).mpr List.mem_cons_self) hkey
  exact ⟨c', hc', hlinks', fun a => by rw [hhas', hhas]⟩

/-- The last key goes if there are too many. -/
theorem evict (h : c.Holds l) (n : ℕ) :
    ∃ c', evict n c = .ok c' ∧ c'.Holds (if n < l.length then l.dropLast else l) := by
  unfold ClientCache.evict
  rw [h.length]
  split_ifs with hn
  · obtain ⟨before, key, hl⟩ : ∃ before key, l = before ++ [key] :=
      (List.eq_nil_or_concat' l).resolve_left (by intro hl; simp [hl] at hn)
    have hlinks := h.links
    rw [hl] at hlinks
    have htail : c.tail = some key := by rw [hlinks.tail_eq]; simp
    obtain ⟨c₁, hc₁, hlinks₁, hhas₁⟩ := detach_spec hlinks fun k hk =>
      (h.has_iff k).mpr (hl ▸ hk)
    rw [List.append_nil] at hlinks₁
    have hnot : key ∉ before := by
      have hnodup := hlinks.nodup
      rw [List.nodup_append] at hnodup
      exact fun hmem => hnodup.2.2 key hmem key List.mem_cons_self rfl
    refine ⟨{ c₁ with entries := c₁.entries.erase key }, ?_, ?_, fun a => ?_⟩
    · unfold popTail
      rw [htail]
      dsimp only
      rw [hc₁]
      rfl
    · rw [hl, List.dropLast_concat]
      refine hlinks₁.congr (fun a ha => ?_) fun a ha => ?_
      · rw [nextOf, OrderedMap.get_erase_of_ne _ (ne_of_mem_of_not_mem ha hnot)]
        rfl
      · rw [prevOf, OrderedMap.get_erase_of_ne _ (ne_of_mem_of_not_mem ha hnot)]
        rfl
    · rw [hl, List.dropLast_concat, has, OrderedMap.get_erase]
      split_ifs with ha
      · simpa [ha] using hnot
      · change c₁.has a = true ↔ _
        rw [hhas₁, h.has_iff, hl]
        simp [ha]
  · exact ⟨c, rfl, h⟩

end Holds
end Cache

/-! ## Runs -/

variable {s : State K V} {key : K} {l : List K}

/-- The list after a use of one of its keys. -/
def touched (ty : EvictType) (key : K) (l : List K) : List K :=
  if ty = .lru then key :: l.erase key else l

/-- The list after the insertion of a key. -/
def inserted (ty : EvictType) (maxSize : ℕ) (key : K) (l : List K) : List K :=
  if key ∈ l then touched ty key l
  else if maxSize < (key :: l).length then (key :: l).dropLast
  else key :: l

/-- A hit is counted, and is a use of the key. -/
theorem lookup_hit (h : s.cache.Holds l) (hkey : key ∈ l) (uncached : List K) : ∃ cache,
    lookup key uncached s = .ok (uncached, { s with hits := s.hits + 1, cache := cache }) ∧
      cache.Holds (touched s.evictType key l) := by
  have hhas := (h.has_iff key).mpr hkey
  unfold Cache.has at hhas
  unfold lookup touched
  rw [if_pos hhas]
  dsimp only
  by_cases hty : s.evictType = .lru
  · obtain ⟨cache, hcache, hl⟩ := h.moveToFront hkey
    refine ⟨cache, ?_, ?_⟩
    · rw [if_pos hty, hcache]
      rfl
    · rw [if_pos hty]
      exact hl
  · refine ⟨s.cache, ?_, ?_⟩
    · rw [if_neg hty]
      rfl
    · rw [if_neg hty]
      exact h

theorem lookup_miss (h : s.cache.Holds l) (hkey : key ∉ l) (uncached : List K) :
    lookup key uncached s = .ok (uncached ++ [key], { s with misses := s.misses + 1 }) := by
  have hhas := mt (h.has_iff key).mp hkey
  unfold Cache.has at hhas
  unfold lookup
  rw [if_neg hhas]
  rfl

/-- What an insertion does. -/
theorem insert_spec (h : s.cache.Holds l) (henabled : s.enabled = true) (key : K) (value : V) :
    ∃ cache, insert key value s = .ok { s with cache := cache } ∧
      cache.Holds (inserted s.evictType s.maxSize key l) := by
  have hhas := h.has_iff key
  unfold Cache.has at hhas
  unfold insert inserted touched
  rw [if_neg (by simp [henabled])]
  by_cases hkey : key ∈ l
  · rw [if_pos (hhas.mpr hkey), if_pos hkey]
    obtain ⟨c₁, hc₁, hl₁⟩ := h.modify_value hkey value
    rw [hc₁]
    by_cases hty : s.evictType = .lru
    · obtain ⟨cache, hcache, hl⟩ := hl₁.moveToFront hkey
      refine ⟨cache, ?_, ?_⟩
      · change (if s.evictType = .lru then _ else _) = _
        rw [if_pos hty, hcache]
        rfl
      · rw [if_pos hty]
        exact hl
    · refine ⟨c₁, ?_, ?_⟩
      · change (if s.evictType = .lru then _ else _) = _
        rw [if_neg hty]
        rfl
      · rw [if_neg hty]
        exact hl₁
  · rw [if_neg (hkey ∘ hhas.mp), if_neg hkey]
    obtain ⟨c₁, hc₁, hl₁⟩ := h.attach_new hkey value
    obtain ⟨cache, hcache, hl⟩ := hl₁.evict s.maxSize
    refine ⟨cache, ?_, hl⟩
    dsimp only
    rw [hc₁]
    change (evict s.maxSize c₁ >>= _) = _
    rw [hcache]
    rfl

/-- The keys of the map are linked in both directions. -/
structure Consistent (c : Cache K V) : Prop where
  visits : ∃ l : List K, l.Nodup ∧ (∀ key, (c.entries.get key).isSome = true ↔ key ∈ l) ∧
    Visits c.nextOf c.head l ∧ c.tail = l.getLast? ∧ Visits c.prevOf c.tail l.reverse
  head_none : c.head = none ↔ c.entries.entries = []
  tail_none : c.tail = none ↔ c.entries.entries = []

theorem Cache.Holds.consistent {c : Cache K V} (h : c.Holds l) : Consistent c where
  visits := ⟨l, h.nodup, h.has_iff, h.links.visits_next, h.links.tail_eq, h.links.visits_prev⟩
  head_none := by
    rw [h.links.head_eq, List.head?_eq_none_iff, ← List.length_eq_zero_iff, ← h.length,
      List.length_eq_zero_iff]
  tail_none := by
    rw [h.links.tail_eq, List.getLast?_eq_none_iff, ← List.length_eq_zero_iff, ← h.length,
      List.length_eq_zero_iff]

theorem lookups_holds (keys uncached : List K) (h : s.cache.Holds l) :
    ∃ p l', lookups keys uncached s = .ok p ∧ p.2.cache.Holds l' := by
  induction keys generalizing uncached s l with
  | nil => exact ⟨(uncached, s), l, rfl, h⟩
  | cons key keys ih =>
      unfold lookups
      by_cases hkey : key ∈ l
      · obtain ⟨cache, hlookup, hcache⟩ := lookup_hit h hkey uncached
        rw [hlookup]
        exact ih _ hcache
      · rw [lookup_miss h hkey]
        exact ih _ h

theorem Operation.run_holds (op : Operation K V) (h : s.cache.Holds l) :
    ∃ p l', op.run s = .ok p ∧ p.2.cache.Holds l' := by
  cases op with
  | enable => exact ⟨_, l, rfl, h⟩
  | setEviction ty => exact ⟨_, l, rfl, h⟩
  | setMaxSize size => exact ⟨_, l, rfl, h⟩
  | resetStats => exact ⟨_, l, rfl, h⟩
  | filterUncached keys =>
      change ∃ p l', ClientCache.filterUncached keys s = .ok p ∧ _
      unfold ClientCache.filterUncached
      split_ifs with henabled
      · exact lookups_holds keys [] h
      · exact ⟨_, l, rfl, h⟩
  | insert key value =>
      by_cases henabled : s.enabled = true
      · obtain ⟨cache, hinsert, hcache⟩ := insert_spec h henabled key value
        refine ⟨([], { s with cache := cache }), _, ?_, hcache⟩
        change (ClientCache.insert key value s >>= _) = _
        rw [hinsert]
        rfl
      · refine ⟨([], s), l, ?_, h⟩
        change (ClientCache.insert key value s >>= _) = _
        unfold ClientCache.insert
        rw [if_pos (by simpa using henabled)]
        rfl

theorem run_holds (ops : List (Operation K V)) (h : s.cache.Holds l) :
    ∃ p l', run ops s = .ok p ∧ p.2.cache.Holds l' := by
  induction ops generalizing s l with
  | nil => exact ⟨_, l, rfl, h⟩
  | cons op ops ih =>
      obtain ⟨⟨keys, s₁⟩, l₁, hop, h₁⟩ := op.run_holds h
      obtain ⟨⟨outputs, s₂⟩, l₂, hops, h₂⟩ := ih h₁
      refine ⟨(keys :: outputs, s₂), l₂, ?_, h₂⟩
      unfold run
      rw [hop]
      change (run ops s₁ >>= _) = _
      rw [hops]
      rfl

/-- Every sequence of operations succeeds and leaves a consistent list. -/
theorem run_consistent (ops : List (Operation K V)) :
    ∃ outputs s, run ops (State.initial : State K V) = .ok (outputs, s) ∧ Consistent s.cache := by
  obtain ⟨⟨outputs, s⟩, l, hrun, h⟩ := run_holds ops
    (show (State.initial : State K V).cache.Holds [] from Cache.Holds.empty)
  exact ⟨outputs, s, hrun, h.consistent⟩

end ToyDB.ClientCache
