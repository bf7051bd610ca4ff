import ToyDB.Cache.Cache

/-!
# The capacity of the cache

An insertion removes at most one entry, so it keeps the number of entries within the
maximum size just if this was kept before. It is kept as long as the maximum size is never
set below the number of entries.
-/
namespace ToyDB.ClientCache
open ToyDB.Collections

variable {K V : Type} [LinearOrder K] {s : State K V} {key : K} {l : List K}

/-- The number of cached entries. -/
def State.occupancy (s : State K V) : ℕ := s.cache.entries.entries.length

/-- The entries fit into a maximum size that the operation sets. -/
def Operation.LeavesRoom (s : State K V) : Operation K V → Prop
  | setMaxSize size => s.occupancy ≤ size
  | _ => True

instance (op : Operation K V) : Decidable (op.LeavesRoom s) := by
  cases op <;> unfold Operation.LeavesRoom <;> infer_instance

/-- If the operation was an insertion, the entries fit into the maximum size. -/
def Operation.Fits (s : State K V) : Operation K V → Prop
  | insert _ _ => s.occupancy ≤ s.maxSize
  | _ => True

instance (op : Operation K V) : Decidable (op.Fits s) := by
  cases op <;> unfold Operation.Fits <;> infer_instance

/-- Whenever the maximum size is set, the entries fit into it. -/
def LeavesRoom : List (Operation K V) → State K V → Prop
  | [], _ => True
  | op :: ops, s => op.LeavesRoom s ∧
      match op.run s with
      | .ok p => LeavesRoom ops p.2
      | .error _ => True

/-- After every insertion, the entries fit into the maximum size. -/
def FitsAfterInserts : List (Operation K V) → State K V → Prop
  | [], _ => True
  | op :: ops, s =>
      match op.run s with
      | .ok p => op.Fits p.2 ∧ FitsAfterInserts ops p.2
      | .error _ => False

instance LeavesRoom.decide : (ops : List (Operation K V)) → (s : State K V) →
    Decidable (LeavesRoom ops s)
  | [], _ => isTrue trivial
  | op :: ops, s => by
      unfold LeavesRoom
      have := fun s => LeavesRoom.decide ops s
      cases op.run s <;> infer_instance

instance FitsAfterInserts.decide : (ops : List (Operation K V)) → (s : State K V) →
    Decidable (FitsAfterInserts ops s)
  | [], _ => isTrue trivial
  | op :: ops, s => by
      unfold FitsAfterInserts
      have := fun s => FitsAfterInserts.decide ops s
      cases op.run s <;> infer_instance

theorem length_touched (ty : EvictType) (h : key ∈ l) : (touched ty key l).length = l.length := by
  unfold touched
  split_ifs
  · rw [List.length_cons, List.length_erase_of_mem h]
    have := List.length_pos_of_mem h
    omega
  · rfl

/-- An insertion keeps to the maximum size if and only if it was kept to before. -/
theorem length_inserted_le_iff (ty : EvictType) (n : ℕ) (key : K) (l : List K) :
    (inserted ty n key l).length ≤ n ↔ l.length ≤ n := by
  unfold inserted
  split_ifs with hkey hlt
  · rw [length_touched ty hkey]
  · rw [List.length_dropLast, List.length_cons]
    omega
  · rw [List.length_cons] at hlt ⊢
    omega

/-- The entries are linked and fit into the maximum size. -/
structure Within (s : State K V) : Prop where
  linked : ∃ l, s.cache.Holds l
  fits : s.occupancy ≤ s.maxSize

theorem insert_fits_iff (h : ∃ l, s.cache.Holds l) (henabled : s.enabled = true) (value : V) :
    ∃ s', insert key value s = .ok s' ∧ (∃ l, s'.cache.Holds l) ∧
      (s'.occupancy ≤ s'.maxSize ↔ s.occupancy ≤ s.maxSize) := by
  obtain ⟨l, hl⟩ := h
  obtain ⟨cache, hinsert, hcache⟩ := insert_spec hl henabled key value
  refine ⟨_, hinsert, ⟨_, hcache⟩, ?_⟩
  change cache.entries.entries.length ≤ s.maxSize ↔ s.cache.entries.entries.length ≤ s.maxSize
  rw [hcache.length, hl.length]
  exact length_inserted_le_iff _ _ _ _

theorem lookups_within (keys : List K) : ∀ (uncached : List K) {s : State K V}, Within s →
    ∃ p, lookups keys uncached s = .ok p ∧ Within p.2 := by
  induction keys with
  | nil => exact fun uncached s h => ⟨(uncached, s), rfl, h⟩
  | cons key keys ih =>
      intro uncached s h
      obtain ⟨l, hl⟩ := h.linked
      have hfits : s.cache.entries.entries.length ≤ s.maxSize := h.fits
      unfold lookups
      by_cases hkey : key ∈ l
      · obtain ⟨cache, hlookup, hcache⟩ := lookup_hit hl hkey uncached
        rw [hlookup]
        refine ih uncached ⟨⟨_, hcache⟩, ?_⟩
        change cache.entries.entries.length ≤ s.maxSize
        rw [hcache.length, length_touched _ hkey, ← hl.length]
        exact hfits
      · rw [lookup_miss hl hkey]
        exact ih _ ⟨⟨l, hl⟩, hfits⟩

/-- An operation that leaves room keeps the entries within the maximum size. -/
theorem Operation.run_within (op : Operation K V) (h : Within s) (hroom : op.LeavesRoom s) :
    ∃ p, op.run s = .ok p ∧ Within p.2 := by
  cases op with
  | enable => exact ⟨_, rfl, h.linked, h.fits⟩
  | setEviction ty => exact ⟨_, rfl, h.linked, h.fits⟩
  | setMaxSize size => exact ⟨_, rfl, h.linked, hroom⟩
  | resetStats => exact ⟨_, rfl, h.linked, h.fits⟩
  | filterUncached keys =>
      change ∃ p, ClientCache.filterUncached keys s = .ok p ∧ _
      unfold ClientCache.filterUncached
      split_ifs with henabled
      · exact lookups_within keys [] h
      · exact ⟨_, rfl, h⟩
  | insert key value =>
      by_cases henabled : s.enabled = true
      · obtain ⟨s', hinsert, hlinked, hfits⟩ := insert_fits_iff h.linked henabled value
        refine ⟨([], s'), ?_, hlinked, hfits.mpr h.fits⟩
        change (ClientCache.insert key value s >>= _) = _
        rw [hinsert]
        rfl
      · refine ⟨([], s), ?_, h⟩
        change (ClientCache.insert key value s >>= _) = _
        unfold ClientCache.insert
        rw [if_pos (by simpa using henabled)]
        rfl

theorem fits_of_within (ops : List (Operation K V)) : ∀ {s : State K V}, Within s →
    LeavesRoom ops s → FitsAfterInserts ops s := by
  induction ops with
  | nil => exact fun _ _ => trivial
  | cons op ops ih =>
      intro s h hroom
      obtain ⟨p, hp, hwithin⟩ := op.run_within h hroom.1
      have hrest := hroom.2
      unfold FitsAfterInserts
      rw [hp] at hrest ⊢
      refine ⟨?_, ih hwithin hrest⟩
      cases op with
      | insert key value => exact hwithin.fits
      | _ => trivial

/-- If the maximum size is never set below the number of entries, they fit into it after
every insertion. -/
theorem fitsAfterInserts (ops : List (Operation K V))
    (h : LeavesRoom ops (State.initial : State K V)) :
    FitsAfterInserts ops (State.initial : State K V) :=
  fits_of_within ops ⟨⟨[], Cache.Holds.empty⟩, Nat.zero_le _⟩ h

/-- A maximum size that shrinks to the number of entries. -/
theorem fitsAfterInserts_shrunk : FitsAfterInserts
    [.enable, .setMaxSize 3, .insert 1 (), .insert 2 (), .setMaxSize 2, .insert 3 ()]
    (State.initial : State ℕ Unit) :=
  fitsAfterInserts _ (by decide +kernel)

/-- A maximum size that shrinks further. -/
theorem not_fitsAfterInserts : ¬ FitsAfterInserts
    [.enable, .setMaxSize 3, .insert 1 (), .insert 2 (), .setMaxSize 1, .insert 3 ()]
    (State.initial : State ℕ Unit) := by decide +kernel

end ToyDB.ClientCache
