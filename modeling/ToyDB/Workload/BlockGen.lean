import Mathlib.Algebra.Group.Nat.Even
import Mathlib.Data.Finset.Insert
import Mathlib.Data.List.Range
import Mathlib.Data.List.Nodup
import Mathlib.Tactic.Common

/-!
# The block generator of the read workload

Keys are drawn in blocks, alternately fresh and reused ones. A fresh block takes keys that
were never used, a reused block samples from those that were. The sampling is a parameter:
it draws an index below a length, uniformly or by a Zipf distribution.
-/
namespace ToyDB.Workload

/-- Samples an index below a length, with the random number generator after it. -/
abbrev SampleIdx (Rng : Type) := Rng → ℕ → ℕ × Rng

structure BlockGen (Rng : Type) where
  batch : ℕ
  blockSize : ℕ
  rng : Rng
  freshKeys : List ℕ
  freshIdx : ℕ
  usedKeys : List ℕ
  blockRemaining : ℕ
  isFreshBlock : Bool

/-- The generator on the shuffled keys. -/
def generate {Rng : Type} (rng : Rng) (freshKeys : List ℕ) (batch blockSize : ℕ) : BlockGen Rng where
  batch := batch
  blockSize := blockSize
  rng := rng
  freshKeys := freshKeys
  freshIdx := 0
  usedKeys := []
  blockRemaining := blockSize
  isFreshBlock := true

/-- A key, and the kind of the block in which it was drawn. -/
structure Draw where
  fresh : Bool
  key : ℕ
  deriving DecidableEq

namespace BlockGen
variable {Rng : Type} (sampleIdx : SampleIdx Rng)

/-- Samples a used key. -/
def sampleKey (self : BlockGen Rng) : Except String (ℕ × BlockGen Rng) :=
  if self.usedKeys = [] then .error "cannot sample empty range"
  else
    let (i, rng) := sampleIdx self.rng self.usedKeys.length
    match self.usedKeys[i]? with
    | some id => .ok (id, { self with rng := rng })
    | none => .error "index out of bounds"

/-- Draws a key: a fresh block takes the next unused key, if there is one. -/
def drawKey (self : BlockGen Rng) : Except String (ℕ × BlockGen Rng) :=
  if self.isFreshBlock then
    match self.freshKeys[self.freshIdx]? with
    | some id =>
        .ok (id, { self with freshIdx := self.freshIdx + 1, usedKeys := self.usedKeys ++ [id] })
    | none => self.sampleKey sampleIdx
  else self.sampleKey sampleIdx

/-- Draws keys one after the other. -/
def drawKeys : ℕ → BlockGen Rng → Except String (List Draw × BlockGen Rng)
  | 0, self => .ok ([], self)
  | n + 1, self => do
      let (id, next) ← self.drawKey sampleIdx
      let (draws, next) ← drawKeys n next
      return (⟨self.isFreshBlock, id⟩ :: draws, next)

/-- Starts the next block if the current one is drawn. -/
def startBlock (self : BlockGen Rng) : BlockGen Rng :=
  if self.blockRemaining = 0 then
    { self with isFreshBlock := !self.isFreshBlock, blockRemaining := self.blockSize }
  else self

/-- Draws a batch, at most to the end of the block; the keys are returned as a set. -/
def next (self : BlockGen Rng) : Except String ((Finset ℕ × List Draw) × BlockGen Rng) := do
  let self := self.startBlock
  let n := min self.batch self.blockRemaining
  let (draws, self) ← drawKeys sampleIdx n
    { self with blockRemaining := self.blockRemaining - n }
  let ids := draws.foldl (fun ids draw => insert draw.key ids) ∅
  return ((ids, draws), self)

/-- Calls the generator; each call returns a set and the draws that made it. -/
def nexts : ℕ → BlockGen Rng → Except String (List (Finset ℕ × List Draw) × BlockGen Rng)
  | 0, self => .ok ([], self)
  | n + 1, self => do
      let (item, self) ← self.next sampleIdx
      let (items, self) ← nexts n self
      return (item :: items, self)

/-! ## What the blocks promise -/

/-- What is promised of the keys drawn so far, of which the shuffled keys are the fresh ones. -/
structure Honours (blockSize : ℕ) (freshKeys : List ℕ) (draws : List Draw) : Prop where
  /-- Blocks of this size alternate. -/
  block : ∀ {d draw}, draws[d]? = some draw → (draw.fresh = true ↔ Even (d / blockSize))
  /-- While keys are unused, a fresh block draws a key that was not drawn before. -/
  unused : ∀ {d draw}, draws[d]? = some draw → draw.fresh = true →
    (∃ key ∈ freshKeys, key ∉ (draws.take d).map Draw.key) →
    draw.key ∈ freshKeys ∧ draw.key ∉ (draws.take d).map Draw.key
  /-- Otherwise a key is drawn again. -/
  reused : ∀ {d draw}, draws[d]? = some draw →
    (draw.fresh = false ∨ ∀ key ∈ freshKeys, key ∈ (draws.take d).map Draw.key) →
    draw.key ∈ (draws.take d).map Draw.key

/-- The generator after these draws, in a block of which these many draws of the current
batch and `blockRemaining` more are left. -/
structure After (draws : List Draw) (pending : ℕ) (gen : BlockGen Rng) : Prop where
  honours : Honours gen.blockSize gen.freshKeys draws
  used : gen.usedKeys = gen.freshKeys.take gen.freshIdx
  idx_le : gen.freshIdx ≤ gen.freshKeys.length
  drawn : ∀ key, key ∈ draws.map Draw.key ↔ key ∈ gen.usedKeys
  nodup : gen.freshKeys.Nodup
  nonempty : gen.freshKeys ≠ []
  left_le : pending + gen.blockRemaining ≤ gen.blockSize
  block : ∃ b, draws.length + (pending + gen.blockRemaining) = gen.blockSize * (b + 1) ∧
    (gen.isFreshBlock = true ↔ Even b)

theorem Honours.append {blockSize : ℕ} {freshKeys : List ℕ} {draws : List Draw} {draw : Draw}
    (h : Honours blockSize freshKeys draws)
    (hblock : draw.fresh = true ↔ Even (draws.length / blockSize))
    (hunused : draw.fresh = true → (∃ key ∈ freshKeys, key ∉ draws.map Draw.key) →
      draw.key ∈ freshKeys ∧ draw.key ∉ draws.map Draw.key)
    (hreused : (draw.fresh = false ∨ ∀ key ∈ freshKeys, key ∈ draws.map Draw.key) →
      draw.key ∈ draws.map Draw.key) : Honours blockSize freshKeys (draws ++ [draw]) := by
  have hcases : ∀ {d x}, (draws ++ [draw])[d]? = some x →
      draws[d]? = some x ∧ (draws ++ [draw]).take d = draws.take d ∨
        d = draws.length ∧ x = draw ∧ (draws ++ [draw]).take d = draws := by
    intro d x hx
    have hd := (List.getElem?_eq_some_iff.mp hx).1
    rw [List.length_append, List.length_singleton] at hd
    by_cases hlt : d < draws.length
    · left
      rw [List.getElem?_append_left hlt] at hx
      exact ⟨hx, List.take_append_of_le_length hlt.le⟩
    · right
      obtain rfl : d = draws.length := by omega
      rw [List.getElem?_concat_length] at hx
      exact ⟨rfl, (Option.some.inj hx).symm, List.take_left⟩
  constructor
  · intro d x hx
    obtain ⟨hx, -⟩ | ⟨rfl, rfl, -⟩ := hcases hx
    · exact h.block hx
    · exact hblock
  · intro d x hx
    obtain ⟨hx, htake⟩ | ⟨rfl, rfl, htake⟩ := hcases hx
    · rw [htake]
      exact h.unused hx
    · rw [htake]
      exact hunused
  · intro d x hx
    obtain ⟨hx, htake⟩ | ⟨rfl, rfl, htake⟩ := hcases hx
    · rw [htake]
      exact h.reused hx
    · rw [htake]
      exact hreused

/-! ## A draw -/

section Draws
variable {sampleIdx : SampleIdx Rng} {draws : List Draw} {pending : ℕ} {self : BlockGen Rng}

/-- The current draw belongs to the current block. -/
theorem After.even_iff (h : After draws (pending + 1) self) :
    self.isFreshBlock = true ↔ Even (draws.length / self.blockSize) := by
  obtain ⟨b, hlength, hfresh⟩ := h.block
  have hleft := h.left_le
  have hdiv : draws.length / self.blockSize = b := by
    rw [Nat.mul_add, Nat.mul_one] at hlength
    refine Nat.div_eq_of_lt_le ?_ ?_
    · rw [Nat.mul_comm]
      omega
    · rw [Nat.mul_comm, Nat.mul_add, Nat.mul_one]
      omega
  rw [hdiv]
  exact hfresh

/-- The generator after a draw that leaves the block alone. -/
theorem After.append {key : ℕ} {next : BlockGen Rng} (h : After draws (pending + 1) self)
    (hfresh : next.isFreshBlock = self.isFreshBlock) (hsize : next.blockSize = self.blockSize)
    (hremaining : next.blockRemaining = self.blockRemaining)
    (hkeys : next.freshKeys = self.freshKeys)
    (hused : next.usedKeys = next.freshKeys.take next.freshIdx)
    (hle : next.freshIdx ≤ next.freshKeys.length)
    (hmem : ∀ k, k ∈ next.usedKeys ↔ k ∈ self.usedKeys ∨ k = key)
    (hunused : self.isFreshBlock = true → (∃ k ∈ self.freshKeys, k ∉ self.usedKeys) →
      key ∈ self.freshKeys ∧ key ∉ self.usedKeys)
    (hreused : (self.isFreshBlock = false ∨ ∀ k ∈ self.freshKeys, k ∈ self.usedKeys) →
      key ∈ self.usedKeys) :
    After (draws ++ [⟨self.isFreshBlock, key⟩]) pending next where
  honours := by
    rw [hsize, hkeys]
    refine h.honours.append h.even_iff ?_ ?_
    · simp only [h.drawn]
      exact hunused
    · simp only [h.drawn]
      exact hreused
  used := hused
  idx_le := hle
  drawn k := by
    rw [List.map_append, List.mem_append, h.drawn, hmem]
    simp
  nodup := hkeys ▸ h.nodup
  nonempty := hkeys ▸ h.nonempty
  left_le := by
    have hleft := h.left_le
    omega
  block := by
    obtain ⟨b, hlength, heven⟩ := h.block
    refine ⟨b, ?_, by rw [hfresh, heven]⟩
    rw [hsize, ← hlength, List.length_append, List.length_singleton, hremaining]
    omega

/-- A sampled key was drawn before. -/
theorem After.sampleKey (h : After draws (pending + 1) self)
    (hsample : ∀ rng len, 0 < len → (sampleIdx rng len).1 < len)
    (hblock : self.isFreshBlock = true → ∀ k ∈ self.freshKeys, k ∈ self.usedKeys)
    (hne : self.usedKeys ≠ []) :
    ∃ key next, self.sampleKey sampleIdx = .ok (key, next) ∧
      next.freshKeys = self.freshKeys ∧ next.batch = self.batch ∧
      next.blockSize = self.blockSize ∧
      After (draws ++ [⟨self.isFreshBlock, key⟩]) pending next := by
  have hlt := hsample self.rng self.usedKeys.length (List.length_pos_iff.mpr hne)
  have hget := List.getElem?_eq_getElem hlt
  have hmem := List.mem_of_getElem? hget
  refine ⟨_, { self with rng := (sampleIdx self.rng self.usedKeys.length).2 }, ?_, rfl, rfl, rfl,
    h.append rfl rfl rfl rfl h.used h.idx_le ?_ ?_ fun _ => hmem⟩
  · unfold BlockGen.sampleKey
    rw [if_neg hne]
    simp only [hget]
  · intro k
    constructor
    · exact .inl
    · rintro (hk | rfl)
      · exact hk
      · exact hmem
  · rintro hfresh ⟨k, hk, hnot⟩
    exact absurd (hblock hfresh k hk) hnot

theorem After.drawKey (h : After draws (pending + 1) self)
    (hsample : ∀ rng len, 0 < len → (sampleIdx rng len).1 < len)
    (hdrawn : self.isFreshBlock = false → self.usedKeys ≠ []) :
    ∃ key next, self.drawKey sampleIdx = .ok (key, next) ∧
      next.freshKeys = self.freshKeys ∧ next.batch = self.batch ∧
      next.blockSize = self.blockSize ∧
      After (draws ++ [⟨self.isFreshBlock, key⟩]) pending next := by
  unfold BlockGen.drawKey
  by_cases hfresh : self.isFreshBlock = true
  · rw [if_pos hfresh]
    cases hget : self.freshKeys[self.freshIdx]? with
    | none =>
        have hall : self.usedKeys = self.freshKeys := by
          rw [h.used, List.take_of_length_le (List.getElem?_eq_none_iff.mp hget)]
        exact h.sampleKey hsample (fun _ k hk => hall ▸ hk) (hall ▸ h.nonempty)
    | some id =>
        obtain ⟨hlt, hid⟩ := List.getElem?_eq_some_iff.mp hget
        -- the next key is beyond the used ones
        have hnot : id ∉ self.usedKeys := by
          rw [h.used, List.mem_take_iff_getElem]
          rintro ⟨i, hi, heq⟩
          have hi' : i = self.freshIdx := h.nodup.getElem_inj_iff.mp (heq.trans hid.symm)
          omega
        refine ⟨id, _, rfl, rfl, rfl, rfl, h.append rfl rfl rfl rfl ?_ hlt ?_ ?_ ?_⟩
        · rw [h.used, List.take_add_one, hget]
          rfl
        · intro k
          rw [List.mem_append, List.mem_singleton]
        · exact fun _ _ => ⟨List.mem_of_getElem? hget, hnot⟩
        · rintro (hreused | hall)
          · rw [hfresh] at hreused
            cases hreused
          · exact absurd (hall id (List.mem_of_getElem? hget)) hnot
  · rw [if_neg hfresh]
    exact h.sampleKey hsample (fun h => absurd h hfresh)
      (hdrawn (Bool.eq_false_iff.mpr hfresh))

/-- Before a reused block, keys were drawn. -/
theorem After.used_ne_nil (h : After draws (pending + 1) self) (hreused : self.isFreshBlock = false) :
    self.usedKeys ≠ [] := by
  obtain ⟨b, hlength, heven⟩ := h.block
  have hleft := h.left_le
  have hb : b ≠ 0 := by
    rintro rfl
    rw [heven.mpr ⟨0, rfl⟩] at hreused
    cases hreused
  obtain ⟨c, rfl⟩ := Nat.exists_eq_succ_of_ne_zero hb
  have hpos : 0 < draws.length := by
    rw [Nat.mul_add, Nat.mul_one, Nat.mul_succ] at hlength
    omega
  have hmem := (h.drawn _).mp (List.mem_map_of_mem (List.getElem_mem hpos))
  exact List.ne_nil_of_mem hmem

theorem After.drawKeys (hsample : ∀ rng len, 0 < len → (sampleIdx rng len).1 < len)
    (h : After draws pending self) :
    ∃ new next, BlockGen.drawKeys sampleIdx pending self = .ok (new, next) ∧
      new.length = pending ∧ next.freshKeys = self.freshKeys ∧ next.batch = self.batch ∧
      next.blockSize = self.blockSize ∧ After (draws ++ new) 0 next := by
  induction pending generalizing draws self with
  | zero =>
      refine ⟨[], self, rfl, rfl, rfl, rfl, rfl, ?_⟩
      rw [List.append_nil]
      exact h
  | succ pending ih =>
      obtain ⟨key, next, hdraw, hkeys, hbatch, hsize, hafter⟩ :=
        h.drawKey hsample h.used_ne_nil
      obtain ⟨new, last, hdraws, hlength, hkeys', hbatch', hsize', hafter'⟩ := ih hafter
      refine ⟨⟨self.isFreshBlock, key⟩ :: new, last, ?_, by rw [List.length_cons, hlength],
        hkeys'.trans hkeys, hbatch'.trans hbatch, hsize'.trans hsize, ?_⟩
      · rw [BlockGen.drawKeys, hdraw]
        change (BlockGen.drawKeys sampleIdx pending next >>= _) = _
        rw [hdraws]
        rfl
      · rw [List.append_assoc, List.singleton_append] at hafter'
        exact hafter'

end Draws

/-! ## Calls -/

section Calls
variable {sampleIdx : SampleIdx Rng} {draws : List Draw} {self : BlockGen Rng}

/-- What is left of a block that is not drawn. -/
theorem After.remaining_eq (h : After draws 0 self) (hpos : 0 < self.blockRemaining) :
    self.blockRemaining = self.blockSize - draws.length % self.blockSize := by
  obtain ⟨b, hlength, -⟩ := h.block
  have hleft := h.left_le
  rw [Nat.mul_add, Nat.mul_one] at hlength
  have hsplit : draws.length =
      self.blockSize - self.blockRemaining + self.blockSize * b := by omega
  rw [hsplit, Nat.add_mul_mod_self_left, Nat.mod_eq_of_lt (by omega)]
  omega

theorem After.startBlock (h : After draws 0 self) (hsize : 0 < self.blockSize) :
    After draws 0 self.startBlock ∧ 0 < self.startBlock.blockRemaining := by
  unfold BlockGen.startBlock
  split_ifs with hremaining
  · obtain ⟨b, hlength, heven⟩ := h.block
    refine ⟨⟨h.honours, h.used, h.idx_le, h.drawn, h.nodup, h.nonempty, ?_, b + 1, ?_, ?_⟩, hsize⟩
    · exact (Nat.zero_add _).le
    · rw [hremaining] at hlength
      rw [Nat.mul_succ, ← hlength]
      simp
    · rw [Nat.even_add_one, ← heven]
      simp
  · exact ⟨h, Nat.pos_of_ne_zero hremaining⟩

theorem mem_foldl_insert (new : List Draw) (ids : Finset ℕ) (key : ℕ) :
    key ∈ new.foldl (fun ids draw => insert draw.key ids) ids ↔
      key ∈ ids ∨ key ∈ new.map Draw.key := by
  induction new generalizing ids with
  | nil => simp
  | cons draw new ih =>
      rw [List.foldl_cons, ih, Finset.mem_insert, List.map_cons, List.mem_cons]
      tauto

theorem After.next (hsample : ∀ rng len, 0 < len → (sampleIdx rng len).1 < len)
    (h : After draws 0 self) (hsize : 0 < self.blockSize) :
    ∃ ids new next, self.next sampleIdx = .ok ((ids, new), next) ∧
      new.length = min self.batch (self.blockSize - draws.length % self.blockSize) ∧
      next.freshKeys = self.freshKeys ∧ next.batch = self.batch ∧
      next.blockSize = self.blockSize ∧ After (draws ++ new) 0 next ∧
      ∀ key, key ∈ ids ↔ key ∈ new.map Draw.key := by
  obtain ⟨hstart, hpos⟩ := h.startBlock hsize
  have hremaining := hstart.remaining_eq hpos
  have hframe : self.startBlock.freshKeys = self.freshKeys ∧ self.startBlock.batch = self.batch ∧
      self.startBlock.blockSize = self.blockSize := by
    unfold BlockGen.startBlock
    split_ifs <;> exact ⟨rfl, rfl, rfl⟩
  obtain ⟨hkeys, hbatch, hblock⟩ := hframe
  set gen := self.startBlock with hgen
  have hle : min gen.batch gen.blockRemaining ≤ gen.blockRemaining := Nat.min_le_right _ _
  have hbatched : After draws (min gen.batch gen.blockRemaining)
      { gen with blockRemaining := gen.blockRemaining - min gen.batch gen.blockRemaining } := by
    refine ⟨hstart.honours, hstart.used, hstart.idx_le, hstart.drawn, hstart.nodup,
      hstart.nonempty, ?_, ?_⟩
    · have hleft := hstart.left_le
      dsimp only
      omega
    · obtain ⟨b, hlength, heven⟩ := hstart.block
      refine ⟨b, ?_, heven⟩
      dsimp only
      omega
  obtain ⟨new, next, hdraws, hlength, hkeys', hbatch', hblock', hafter⟩ :=
    hbatched.drawKeys hsample
  refine ⟨new.foldl (fun ids draw => insert draw.key ids) ∅, new, next, ?_, ?_,
    hkeys'.trans hkeys, hbatch'.trans hbatch, hblock'.trans hblock,
    hafter, fun key => ?_⟩
  · unfold BlockGen.next
    rw [← hgen]
    change (BlockGen.drawKeys sampleIdx (min gen.batch gen.blockRemaining) _ >>= _) = _
    rw [hdraws]
    rfl
  · rw [hlength, hremaining, hbatch, hblock]
  · rw [mem_foldl_insert]
    simp

theorem After.nexts (hsample : ∀ rng len, 0 < len → (sampleIdx rng len).1 < len) (n : ℕ) :
    ∀ {draws : List Draw} {self : BlockGen Rng}, After draws 0 self → 0 < self.blockSize →
    ∃ items gen, self.nexts sampleIdx n = .ok (items, gen) ∧ items.length = n ∧
      (∀ k item, items[k]? = some item → item.2.length = min self.batch (self.blockSize -
        (draws ++ (items.take k).flatMap Prod.snd).length % self.blockSize)) ∧
      gen.freshKeys = self.freshKeys ∧ gen.blockSize = self.blockSize ∧
      After (draws ++ items.flatMap Prod.snd) 0 gen ∧
      ∀ item ∈ items, ∀ key, key ∈ item.1 ↔ key ∈ item.2.map Draw.key := by
  induction n with
  | zero =>
      intro draws self h _
      refine ⟨[], self, rfl, rfl, by simp, rfl, rfl, ?_, by simp⟩
      rw [List.flatMap_nil, List.append_nil]
      exact h
  | succ n ih =>
      intro draws self h hsize
      obtain ⟨ids, new, next, hnext, hnew, hkeys, hbatch, hblock, hafter, hids⟩ :=
        h.next hsample hsize
      obtain ⟨items, gen, hnexts, hlength, hcounts, hkeys', hblock', hafter', hitems⟩ :=
        ih hafter (hblock ▸ hsize)
      refine ⟨(ids, new) :: items, gen, ?_, by rw [List.length_cons, hlength], ?_,
        hkeys'.trans hkeys, hblock'.trans hblock, ?_, ?_⟩
      · rw [BlockGen.nexts, hnext]
        change (BlockGen.nexts sampleIdx n next >>= _) = _
        rw [hnexts]
        rfl
      · intro k item hitem
        cases k with
        | zero =>
            obtain rfl := Option.some.inj hitem
            rw [List.take_zero, List.flatMap_nil, List.append_nil]
            exact hnew
        | succ k =>
            rw [List.take_succ_cons, List.flatMap_cons, ← List.append_assoc, ← hbatch, ← hblock]
            exact hcounts k item hitem
      · rw [List.flatMap_cons, ← List.append_assoc]
        exact hafter'
      · intro item hitem
        rcases List.mem_cons.mp hitem with rfl | hitem
        · exact hids
        · exact hitems item hitem

/-- The generator starts in a fresh block. -/
theorem after_generate (rng : Rng) {freshKeys : List ℕ} (batch blockSize : ℕ)
    (hnodup : freshKeys.Nodup) (hne : freshKeys ≠ []) :
    After [] 0 (generate rng freshKeys batch blockSize) where
  honours := by constructor <;> simp
  used := rfl
  idx_le := Nat.zero_le _
  drawn _ := by simp [generate]
  nodup := hnodup
  nonempty := hne
  left_le := (Nat.zero_add _).le
  block := ⟨0, by simp [generate], by simp [generate]⟩

variable (sampleIdx) in
/-- However often the generator is called, it never fails, and its draws honour the blocks. A
call draws a whole batch, or what is left of its block. -/
theorem nexts_generate (rng : Rng) {rows batch blockSize : ℕ} {freshKeys : List ℕ}
    (hsample : ∀ rng len, 0 < len → (sampleIdx rng len).1 < len)
    (hkeys : freshKeys.Perm (List.range' 1 rows)) (hrows : 0 < rows) (hbatch : 0 < batch)
    (hsize : 0 < blockSize) (n : ℕ) : ∃ items gen,
      (generate rng freshKeys batch blockSize).nexts sampleIdx n = .ok (items, gen) ∧
      items.length = n ∧
      (∀ k item, items[k]? = some item → 0 < item.2.length ∧ item.2.length =
        min batch (blockSize - ((items.take k).flatMap Prod.snd).length % blockSize)) ∧
      Honours blockSize freshKeys (items.flatMap Prod.snd) ∧
      gen.usedKeys = freshKeys.take gen.freshIdx ∧
      (∀ key, key ∈ gen.usedKeys ↔ key ∈ (items.flatMap Prod.snd).map Draw.key) ∧
      ∀ item ∈ items, ∀ key, key ∈ item.1 ↔ key ∈ item.2.map Draw.key := by
  have hnodup : freshKeys.Nodup := hkeys.nodup_iff.mpr (List.nodup_range' 1)
  have hne : freshKeys ≠ [] := by
    intro hnil
    have hlength := hkeys.length_eq
    rw [hnil, List.length_range', List.length_nil] at hlength
    omega
  obtain ⟨items, gen, hnexts, hlength, hcounts, hfresh, hblock, hafter, hitems⟩ :=
    After.nexts hsample n (after_generate rng batch blockSize hnodup hne) hsize
  simp only [List.nil_append] at hafter hcounts
  have hhonours := hafter.honours
  rw [hfresh, hblock] at hhonours
  refine ⟨items, gen, hnexts, hlength, fun k item hitem => ?_, hhonours, ?_,
    fun key => (hafter.drawn key).symm, hitems⟩
  · have hcount : item.2.length =
        min batch (blockSize - ((items.take k).flatMap Prod.snd).length % blockSize) :=
      hcounts k item hitem
    have hmod := Nat.mod_lt ((items.take k).flatMap Prod.snd).length hsize
    exact ⟨by omega, hcount⟩
  · rw [hafter.used, hfresh]
    rfl

/-- Three keys in batches of two and blocks of four: the first block runs out of keys. -/
theorem nexts_generate_three : ∃ items gen,
    (generate 0 [2, 3, 1] 2 4).nexts (fun rng len => (rng % len, rng + 1)) 5 = .ok (items, gen) ∧
      items.length = 5 ∧
      (∀ k item, items[k]? = some item → 0 < item.2.length ∧ item.2.length =
        min 2 (4 - ((items.take k).flatMap Prod.snd).length % 4)) ∧
      Honours 4 [2, 3, 1] (items.flatMap Prod.snd) ∧
      gen.usedKeys = [2, 3, 1].take gen.freshIdx ∧
      (∀ key, key ∈ gen.usedKeys ↔ key ∈ (items.flatMap Prod.snd).map Draw.key) ∧
      ∀ item ∈ items, ∀ key, key ∈ item.1 ↔ key ∈ item.2.map Draw.key :=
  nexts_generate (fun rng len => (rng % len, rng + 1)) 0 (fun rng _ h => Nat.mod_lt rng h)
    (by decide : [2, 3, 1].Perm (List.range' 1 3)) (by decide) (by decide) (by decide) 5

end Calls

end BlockGen
end ToyDB.Workload
