import ToyDB.Mvcc.Scan
import ToyDB.Mvcc.Script

/-!
# Scans emit what the transaction reads

A scan keeps, of the visible versions of each key in its range, the last one, and drops it
if it is a deletion. What it emits is what single reads of all keys would give.
-/
namespace ToyDB.Mvcc
open ToyDB.Collections ToyDB.Effects ToyDB.Storage

variable {K V : Type} [LinearOrder K]

/-- What a scan emits of its visible versions: the last one of each key, if it is live. -/
def emitted : List (K × ℕ × Value V) → List (K × V)
  | [] => []
  | (key, _, value) :: rest =>
      if rest.head?.any fun next => next.1 = key then emitted rest
      else
        match value with
        | .data (some x) => (key, x) :: emitted rest
        | _ => emitted rest

section Emitted
variable {m : OrderedMap (Key K) (Value V)} {versions : List (K × ℕ × Value V)}

theorem yields_fill {size : ℕ} {buffer : List (K × V)}
    (hdata : ∀ e ∈ versions, ∃ x, e.2.2 = .data x) (hsize : buffer.length + versions.length < size) :
    Yields (ScanIterator.fill size versions buffer) m fun r ops =>
      r = .ok (buffer ++ emitted versions, none) ∧ ops = [] := by
  induction versions generalizing buffer with
  | nil => exact yields_pure ⟨by simp [emitted], rfl⟩
  | cons e rest ih =>
      obtain ⟨key, v, value⟩ := e
      obtain ⟨x, rfl⟩ := hdata (key, v, value) List.mem_cons_self
      have hrest : ∀ e ∈ rest, ∃ x, e.2.2 = .data x := fun e he =>
        hdata e (List.mem_cons_of_mem _ he)
      rw [List.length_cons] at hsize
      unfold ScanIterator.fill emitted
      split_ifs with hnext
      · exact ih hrest (by omega)
      · refine Yields.read (yields_pure ⟨rfl, rfl⟩) ?_
        cases x with
        | none => exact ih hrest (by omega)
        | some x =>
            simp only
            rw [if_neg (by rw [List.length_append, List.length_singleton]; omega)]
            refine (ih hrest (by rw [List.length_append, List.length_singleton]; omega)).mono ?_
            intro r ops h
            rw [List.append_assoc] at h
            exact h

/-- The versions of one key come one after the other, in increasing order. -/
def VersionsSorted (versions : List (K × ℕ × Value V)) : Prop :=
  versions.Pairwise fun a b => Key.version a.1 a.2.1 < Key.version b.1 b.2.1

theorem version_lt_iff {k k' : K} {u v : ℕ} :
    Key.version k u < Key.version k' v ↔ k < k' ∨ k = k' ∧ u < v := by
  rw [← not_le, Key.version_le_iff, not_or, not_lt, not_and_or, not_le]
  constructor
  · intro ⟨hle, h⟩
    obtain hlt | heq := lt_or_eq_of_le hle
    · exact Or.inl hlt
    · exact Or.inr ⟨heq, h.resolve_left fun hne => hne heq.symm⟩
  · intro h
    obtain hlt | ⟨rfl, hlt⟩ := h
    · exact ⟨hlt.le, Or.inl hlt.ne'⟩
    · exact ⟨le_rfl, Or.inr hlt⟩

/-- The head of the rest has the key exactly if some version in the rest has it. -/
theorem head_any_iff {key : K} {v : ℕ} {value : Value V} {rest : List (K × ℕ × Value V)}
    (hs : VersionsSorted ((key, v, value) :: rest)) :
    (rest.head?.any fun next => next.1 = key) = true ↔ ∃ u y, (key, u, y) ∈ rest := by
  cases rest with
  | nil => simp
  | cons e rest =>
      obtain ⟨k', u, y⟩ := e
      simp only [List.head?_cons, Option.any_some, decide_eq_true_eq]
      constructor
      · intro heq
        exact ⟨u, y, heq ▸ List.mem_cons_self⟩
      · intro ⟨u', y', hmem⟩
        obtain ⟨hhead, htail⟩ := List.pairwise_cons.mp hs
        have hle : key ≤ k' := by
          obtain hlt | ⟨heq, _⟩ := version_lt_iff.mp (hhead _ List.mem_cons_self)
          · exact hlt.le
          · exact heq.le
        obtain heq | hmem := List.mem_cons.mp hmem
        · exact (Prod.mk.inj heq).1.symm
        · have hlt := (List.pairwise_cons.mp htail).1 _ hmem
          obtain hlt | ⟨heq, _⟩ := version_lt_iff.mp hlt
          · exact absurd hlt (not_lt.mpr hle)
          · exact heq

theorem mem_emitted (hs : VersionsSorted versions) {k : K} {x : V} :
    (k, x) ∈ emitted versions ↔ ∃ u, (k, u, .data (some x)) ∈ versions ∧
      ∀ u' y, (k, u', y) ∈ versions → u' ≤ u := by
  induction versions with
  | nil => simp [emitted]
  | cons e rest ih =>
      obtain ⟨key, v, value⟩ := e
      obtain ⟨hhead, htail⟩ := List.pairwise_cons.mp hs
      have hlt : ∀ u y, (key, u, y) ∈ rest → v < u := by
        intro u y hmem
        obtain hlt | ⟨_, hlt⟩ := version_lt_iff.mp (hhead _ hmem)
        · exact absurd hlt (lt_irrefl _)
        · exact hlt
      have hother : k ≠ key → ((k, x) ∈ emitted rest ↔ ∃ u,
          (k, u, .data (some x)) ∈ (key, v, value) :: rest ∧
            ∀ u' y, (k, u', y) ∈ (key, v, value) :: rest → u' ≤ u) := by
        intro hne
        simp only [List.mem_cons, Prod.mk.injEq, hne, false_and, false_or]
        exact ih htail
      unfold emitted
      split_ifs with hnext
      · obtain ⟨u, y, hmem⟩ := (head_any_iff hs).mp hnext
        by_cases hk : k = key
        · subst hk
          -- this version is below the later ones of the key
          rw [ih htail]
          constructor
          · intro ⟨w, hw, hmax⟩
            refine ⟨w, List.mem_cons_of_mem _ hw, fun u' y' hu' => ?_⟩
            obtain heq | hu' := List.mem_cons.mp hu'
            · have := hlt w _ hw
              have := (Prod.mk.inj (Prod.mk.inj heq).2).1
              omega
            · exact hmax u' y' hu'
          · intro ⟨w, hw, hmax⟩
            obtain heq | hw := List.mem_cons.mp hw
            · have := hlt u y hmem
              have := hmax u y (List.mem_cons_of_mem _ hmem)
              have := (Prod.mk.inj (Prod.mk.inj heq).2).1
              omega
            · exact ⟨w, hw, fun u' y' hu' => hmax u' y' (List.mem_cons_of_mem _ hu')⟩
        · exact hother hk
      · have hnone : ∀ u y, (key, u, y) ∉ rest := fun u y hmem =>
          hnext ((head_any_iff hs).mpr ⟨u, y, hmem⟩)
        by_cases hk : k = key
        · subst hk
          have hrest : (k, x) ∉ emitted rest := fun hmem => by
            obtain ⟨u, hu, _⟩ := (ih htail).mp hmem
            exact hnone u _ hu
          have hiff : (∃ u, (k, u, .data (some x)) ∈ (k, v, value) :: rest ∧
              ∀ u' y, (k, u', y) ∈ (k, v, value) :: rest → u' ≤ u) ↔ value = .data (some x) := by
            constructor
            · intro ⟨u, hu, _⟩
              obtain heq | hu := List.mem_cons.mp hu
              · exact (Prod.mk.inj (Prod.mk.inj heq).2).2.symm
              · exact absurd hu (hnone u _)
            · intro hvalue
              refine ⟨v, hvalue ▸ List.mem_cons_self, fun u' y' hu' => ?_⟩
              obtain heq | hu' := List.mem_cons.mp hu'
              · exact (Prod.mk.inj (Prod.mk.inj heq).2).1.le
              · exact absurd hu' (hnone u' y')
          rw [hiff]
          split
          · next y => simp [hrest, eq_comm]
          · next hne =>
              refine iff_of_false hrest fun heq => hne x heq
        · rw [← hother hk]
          split
          · simp [hk]
          · exact Iff.rfl

theorem emitted_sorted (hs : VersionsSorted versions) :
    (emitted versions).Pairwise fun a b => a.1 < b.1 := by
  induction versions with
  | nil => exact List.Pairwise.nil
  | cons e rest ih =>
      obtain ⟨key, v, value⟩ := e
      obtain ⟨hhead, htail⟩ := List.pairwise_cons.mp hs
      unfold emitted
      split_ifs with hnext
      · exact ih htail
      · split
        · next x =>
            refine List.pairwise_cons.mpr ⟨fun p hp => ?_, ih htail⟩
            obtain ⟨u, hu, _⟩ := (mem_emitted htail (k := p.1) (x := p.2)).mp hp
            obtain hlt | ⟨heq, _⟩ := version_lt_iff.mp (hhead _ hu)
            · exact hlt
            · exact absurd ((head_any_iff hs).mpr ⟨u, _, heq.symm ▸ hu⟩) hnext
        · exact ih htail

end Emitted

/-! ## The view -/

namespace TransactionState
variable {m : OrderedMap (Key K) (Value V)} {t : TransactionState}

/-- A live value in the view is the highest visible version of its key. -/
theorem view_eq_some_iff (h : Typed m) {k : K} {x : V} : t.view m k = some x ↔
    ∃ u, t.visibleAt m k u = some (.data (some x)) ∧
      ∀ u', (t.visibleAt m k u').isSome → u' ≤ u := by
  have hle : ∀ {u}, t.isVisible u = true → u ≤ t.version := by
    intro u hu
    unfold isVisible at hu
    split_ifs at hu
    · exact (by simpa using hu : u < t.version).le
    · simpa using hu
  have hp : ∀ u, (Key.versionsTo k t.version (.version k u) && t.sees (.version k u)) = true ↔
      t.isVisible u = true := by
    intro u
    simp only [Key.versionsTo, true_and, sees_version, Bool.and_eq_true, decide_eq_true_eq,
      and_iff_right_iff_imp]
    exact hle
  have hvis : ∀ {u} {y : Value V}, t.visibleAt m k u = some y ↔
      t.isVisible u = true ∧ m.get (.version k u) = some y := by
    intro u y
    unfold visibleAt
    split_ifs with hu <;> simp [hu]
  unfold view
  rw [OrderedMap.find_reverse_scan]
  constructor
  · intro hx
    cases hl : (m.scan fun key => Key.versionsTo k t.version key && t.sees key).getLast? with
    | none =>
        rw [hl] at hx
        cases hx
    | some e =>
        obtain ⟨key, value⟩ := e
        obtain ⟨⟨hget, hpk⟩, hmax⟩ := OrderedMap.getLast_scan.mp hl
        cases key with
        | version k' u =>
            have hk : k' = k := by
              simp only [Key.versionsTo, Bool.and_eq_true, decide_eq_true_eq] at hpk
              exact hpk.1.1
            subst hk
            obtain ⟨y, rfl⟩ := h _ _ hget
            rw [hl] at hx
            obtain rfl : y = some x := hx
            refine ⟨u, hvis.mpr ⟨(hp u).mp hpk, hget⟩, fun u' hu' => ?_⟩
            obtain ⟨y, hy⟩ := Option.isSome_iff_exists.mp hu'
            obtain ⟨hu, hg⟩ := hvis.mp hy
            have := hmax (.version k' u') (by rw [hg]; rfl) ((hp u').mpr hu)
            rw [Key.version_le_iff] at this
            obtain hlt | ⟨_, hle⟩ := this
            · exact absurd hlt (lt_irrefl _)
            · exact hle
        | nextVersion | txnActive | txnActiveSnapshot | txnWrite | unversioned => cases hpk
  · intro ⟨u, hu, hmax⟩
    obtain ⟨hvu, hget⟩ := hvis.mp hu
    have hl : (m.scan fun key => Key.versionsTo k t.version key && t.sees key).getLast? =
        some (.version k u, .data (some x)) := by
      refine OrderedMap.getLast_scan.mpr ⟨⟨hget, (hp u).mpr hvu⟩, fun key hkey hpk => ?_⟩
      cases key with
      | version k' u' =>
          have hk : k' = k := by
            simp only [Key.versionsTo, Bool.and_eq_true, decide_eq_true_eq] at hpk
            exact hpk.1.1
          subst hk
          rw [Key.version_le_iff]
          obtain ⟨y, hy⟩ := Option.isSome_iff_exists.mp hkey
          exact Or.inr ⟨rfl, hmax u' (by rw [hvis.mpr ⟨(hp u').mp hpk, hy⟩]; rfl)⟩
      | nextVersion | txnActive | txnActiveSnapshot | txnWrite | unversioned => cases hpk
    rw [hl]

end TransactionState

/-- A scan returns the entries of the view in its range, in key order. -/
theorem yields_scanAll {m : OrderedMap (Key K) (Value V)} {t : TransactionState} (h : Typed m)
    {view : OrderedMap K V} (hv : ∀ k, view.get k = t.view m k) (range : K → Bool) :
    Yields (Script.scanAll t range) m fun r ops => r = .ok (view.scan range) ∧ ops = [] := by
  have hkeys : ∀ e ∈ m.scan (Key.isVersion range), ∃ k u, e.1 = .version k u := by
    intro e he
    have hp := (OrderedMap.mem_scan (v := e.2).mp he).2
    cases hkey : e.1 with
    | version k u => exact ⟨k, u, rfl⟩
    | nextVersion | txnActive | txnActiveSnapshot | txnWrite | unversioned =>
        rw [hkey] at hp
        cases hp
  have hsorted : VersionsSorted (t.versionsIn (m.scan (Key.isVersion range))) := versionsIn_sorted
  have hdata : ∀ e ∈ t.versionsIn (m.scan (Key.isVersion range)), ∃ x, e.2.2 = .data x := by
    intro ⟨k, u, value⟩ he
    have hvis := (mem_versionsIn.mp he).1
    unfold TransactionState.visibleAt at hvis
    split_ifs at hvis
    exact h _ _ hvis
  have hscan : view.scan range = emitted (t.versionsIn (m.scan (Key.isVersion range))) := by
    refine OrderedMap.scan_eq (emitted_sorted hsorted) fun k x => ?_
    rw [mem_emitted hsorted, hv, TransactionState.view_eq_some_iff h]
    simp only [mem_versionsIn, Key.isVersion]
    constructor
    · intro ⟨u, ⟨hu, hr⟩, hmax⟩
      refine ⟨⟨u, hu, fun u' hu' => ?_⟩, hr⟩
      obtain ⟨y, hy⟩ := Option.isSome_iff_exists.mp hu'
      exact hmax u' y ⟨hy, hr⟩
    · intro ⟨⟨u, hu, hmax⟩, hr⟩
      exact ⟨u, ⟨hu, hr⟩, fun u' y hy => hmax u' (by rw [hy.1]; rfl)⟩
  have hlength : (t.versionsIn (m.scan (Key.isVersion range))).length ≤
      (m.scan (Key.isVersion range)).length := List.length_filterMap_le _ _
  refine Yields.read yields_scan (Yields.read (yields_visibleVersions hkeys)
    (Yields.read (yields_fill hdata ?_) ?_))
  · rw [List.length_nil]
    omega
  · rw [hscan]
    exact yields_pure ⟨by simp, rfl⟩

end ToyDB.Mvcc
