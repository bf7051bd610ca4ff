import ToyDB.Mvcc.Encoding

/-!
# What transactions see

A transaction is a handle with the history it sees: the history when it began. On the
encoding of any later history, its reads are its own writes over the committed state it
sees, and its writes conflict exactly if some stored version is invisible.
-/
namespace ToyDB.Mvcc
open ToyDB.Collections ToyDB.Storage

variable {K V : Type} [LinearOrder K]

/-- A transaction, with the history when it began. -/
structure Handle (K V : Type) where
  state : TransactionState
  seen : History K V
  deriving DecidableEq

/-- What the transaction reads for a key: its own latest write of it, or else the value
written by the highest transaction below its version that had committed when it began. -/
def Handle.read (handle : Handle K V) (h : History K V) (k : K) : Option V :=
  match if handle.state.readOnly then none else h.written handle.state.version k with
  | some value => value
  | none => handle.seen.snapshotRead handle.state.version k

/-- The state of a handle is determined by the history it sees, and a read-write
transaction is one that began with that history. -/
structure Handle.Valid (handle : Handle K V) (h : History K V) : Prop where
  suffix : handle.seen <:+ h
  version_le : handle.state.version ≤ handle.seen.next
  active : handle.state.active = handle.seen.activeSet
  began : handle.state.readOnly = false →
    h.before handle.state.version = handle.seen ∧ (h.status handle.state.version).isSome

namespace Handle.Valid
variable {m : OrderedMap (Key K) (Value V)} {handle : Handle K V} {h : History K V}
  {e : Event K V} {u : ℕ}

/-- A handle stays valid when the history grows. -/
theorem cons (hv : handle.Valid h) (hl : History.Legal (e :: h)) : handle.Valid (e :: h) := by
  have hs : h <:+ e :: h := List.suffix_cons e h
  refine ⟨hv.suffix.trans hs, hv.version_le, hv.active, fun hro => ?_⟩
  obtain ⟨hb, hst⟩ := hv.began hro
  have hlt := ((hl.of_suffix hs).status_isSome _).mp hst
  refine ⟨by rw [hl.before_eq hs hlt.2, hb], (hl.status_isSome _).mpr ⟨hlt.1, ?_⟩⟩
  exact hlt.2.trans_le (History.next_mono hs)

theorem isVisible (hv : handle.Valid h) (hl : h.Legal) (u : ℕ) :
    handle.state.isVisible u = true ↔ handle.seen.status u ≠ some .active ∧
      (u < handle.state.version ∨ handle.state.readOnly = false ∧ u = handle.state.version) := by
  unfold TransactionState.isVisible
  simp only [hv.active, History.mem_activeSet (hl.of_suffix hv.suffix)]
  by_cases ha : handle.seen.status u = some .active
  · simp [ha]
  · cases hro : handle.state.readOnly with
    | true => simp [ha]
    | false =>
        simp [ha]
        omega

theorem sees_iff (hv : handle.Valid h) (hl : h.Legal) (hro : handle.state.readOnly = false) :
    handle.state.isVisible u = true ↔ handle.seen.Sees handle.state.version u := by
  rw [hv.isVisible hl, History.Sees, le_iff_lt_or_eq]
  simp only [hro, true_and]
  tauto

theorem next_eq (hv : handle.Valid h) (hl : h.Legal) (hro : handle.state.readOnly = false) :
    handle.seen.next = handle.state.version := by
  obtain ⟨hb, hst⟩ := hv.began hro
  rw [← hb, hl.next_before hst]

/-! ## Conflicts -/

/-- The highest stored version of a key. -/
theorem getLast_versions (hr : Represents m h) {p : Key K → Bool} {k : K}
    (hp : ∀ key, p key = true → ∃ v, key = .version k v) {key : Key K} {x : Value V} :
    (m.scan p).getLast? = some (key, x) ↔ ∃ v value, key = .version k v ∧ x = .data value ∧
      h.stored v k = some value ∧ p (.version k v) = true ∧
        ∀ u, (h.stored u k).isSome → p (.version k u) = true → u ≤ v := by
  rw [OrderedMap.getLast_scan]
  constructor
  · rintro ⟨⟨hg, hpk⟩, hmax⟩
    obtain ⟨v, rfl⟩ := hp key hpk
    rw [hr.version] at hg
    obtain ⟨value, hs, rfl⟩ := Option.map_eq_some_iff.mp hg
    refine ⟨v, value, rfl, rfl, hs, hpk, fun u hu hpu => ?_⟩
    have hle := hmax (.version k u) (by rw [hr.version, Option.isSome_map]; exact hu) hpu
    simpa [Key.version_le_iff] using hle
  · rintro ⟨v, value, rfl, rfl, hs, hpv, hmax⟩
    refine ⟨⟨by rw [hr.version, hs]; rfl, hpv⟩, fun key' hg hpk => ?_⟩
    obtain ⟨u, rfl⟩ := hp key' hpk
    rw [hr.version, Option.isSome_map] at hg
    exact Key.version_le_iff.mpr (Or.inr ⟨rfl, hmax u hg hpk⟩)

/-- Versions below the first concurrent one are visible. -/
theorem visible_below (hv : handle.Valid h) (hl : h.Legal) (hro : handle.state.readOnly = false)
    (hu : u < handle.state.active.min.untopD (handle.state.version + 1)) :
    handle.state.isVisible u = true := by
  rw [hv.isVisible hl]
  have hls := hl.of_suffix hv.suffix
  cases hmin : handle.state.active.min with
  | top =>
      have hempty := Finset.min_eq_top.mp hmin
      rw [hmin, WithTop.untopD_top] at hu
      refine ⟨fun ha => ?_, by simp only [hro, true_and]; omega⟩
      have := (History.mem_activeSet hls).mpr ha
      rw [← hv.active, hempty] at this
      simp at this
  | coe first =>
      rw [hmin, WithTop.untopD_coe] at hu
      have hfirst := Finset.mem_of_min hmin
      rw [hv.active, History.mem_activeSet hls] at hfirst
      have hlt := hls.lt_next hfirst
      rw [hv.next_eq hl hro] at hlt
      refine ⟨fun ha => ?_, Or.inl (hu.trans hlt)⟩
      have hmem := (History.mem_activeSet hls).mpr ha
      rw [← hv.active] at hmem
      exact absurd (Finset.min_le_of_eq hmem hmin) (not_le.mpr hu)

/-- The check of the highest version from the first concurrent one on is complete: a write
conflicts exactly if any stored version of the key is invisible. -/
theorem conflicts_iff (hv : handle.Valid h) (hl : h.Legal) (hr : Represents m h)
    (hro : handle.state.readOnly = false) (k : K) : handle.state.conflicts m k = true ↔
      ∃ u, (h.stored u k).isSome ∧ handle.state.isVisible u = false := by
  obtain ⟨hb, hst⟩ := hv.began hro
  have hp : ∀ first key, Key.versionsFrom k first key = true → ∃ v, key = .version k v := by
    intro first key hk
    cases key with
    | version k' v =>
        simp only [Key.versionsFrom, decide_eq_true_eq] at hk
        exact ⟨v, by rw [hk.1]⟩
    | _ => cases hk
  unfold TransactionState.conflicts
  constructor
  · intro hc
    obtain ⟨⟨key, x⟩, hlast, hsees⟩ := Option.any_eq_true _ _ |>.mp hc
    obtain ⟨v, value, rfl, rfl, hs, _, _⟩ := (getLast_versions hr (hp _)).mp hlast
    exact ⟨v, by simp [hs], by simpa using hsees⟩
  · rintro ⟨u, hu, hvis⟩
    have hfirst : handle.state.active.min.untopD (handle.state.version + 1) ≤ u := by
      by_contra hlt
      rw [hv.visible_below hl hro (not_le.mp hlt)] at hvis
      cases hvis
    cases hlast : (m.scan (Key.versionsFrom k
        (handle.state.active.min.untopD (handle.state.version + 1)))).getLast? with
    | none =>
        have := OrderedMap.getLast_scan_none.mp hlast (.version k u) (by simp [Key.versionsFrom, hfirst])
        rw [hr.version, Option.map_eq_none_iff] at this
        simp [this] at hu
    | some e =>
        obtain ⟨v, value, hkey, _, hs, hpv, hmax⟩ := (getLast_versions hr (hp _)).mp hlast
        simp only [Option.any_some, hkey, TransactionState.sees_version, Bool.not_eq_true']
        by_contra hsees
        have hall : ∀ u', (h.stored u' k).isSome → u' ≤ v := by
          intro u' hu'
          by_cases hle : handle.state.active.min.untopD (handle.state.version + 1) ≤ u'
          · exact hmax u' hu' (by simp [Key.versionsFrom, hle])
          · simp only [Key.versionsFrom, true_and, decide_eq_true_eq] at hpv
            omega
        have hseesv := (hv.sees_iff hl hro (u := v)).mp (by simpa using hsees)
        rw [← hb] at hseesv
        have := hl.sees_all hst (by simp [hs]) hall hseesv hu
        rw [hb, ← hv.sees_iff hl hro, hvis] at this
        cases this

/-! ## Reads -/

/-- Apart from the own writes, the visible stored versions are the committed ones of the
history that the transaction sees. -/
theorem stored_visible (hv : handle.Valid h) (hl : h.Legal) (hu : u < handle.state.version) (k : K) :
    (if handle.state.isVisible u = true then h.stored u k else none) =
      if handle.seen.status u = some .committed then handle.seen.written u k else none := by
  have hlt := hu.trans_le hv.version_le
  by_cases ha : handle.seen.status u = some .active
  · have hvis : ¬ handle.state.isVisible u = true := fun h => ((hv.isVisible hl u).mp h).1 ha
    rw [if_neg hvis, if_neg (by simp [ha])]
  · rw [if_pos ((hv.isVisible hl u).mpr ⟨ha, Or.inl hu⟩), hl.stored_of_seen hv.suffix hlt ha]

theorem view_eq (hv : handle.Valid h) (hl : h.Legal) (hr : Represents m h)
    (ha : handle.state.readOnly = false → h.status handle.state.version = some .active) (k : K) :
    handle.state.view m k = handle.read h k := by
  have hp : ∀ key, (Key.versionsTo k handle.state.version key && handle.state.sees key) = true →
      ∃ v, key = .version k v := by
    intro key hk
    cases key with
    | version k' v =>
        simp only [Key.versionsTo, Bool.and_eq_true, decide_eq_true_eq] at hk
        exact ⟨v, by rw [hk.1.1]⟩
    | _ => cases hk
  have hpv : ∀ v, (Key.versionsTo k handle.state.version (.version k v) &&
      handle.state.sees (.version k v)) = true ↔ handle.state.isVisible v = true := by
    intro v
    simp only [Key.versionsTo, true_and, TransactionState.sees_version, Bool.and_eq_true,
      decide_eq_true_eq, and_iff_right_iff_imp]
    intro hvis
    have := ((hv.isVisible hl v).mp hvis).2
    omega
  unfold TransactionState.view Handle.read
  rw [OrderedMap.find_reverse_scan]
  cases hown : if handle.state.readOnly then none else h.written handle.state.version k with
  | some value =>
      have hro : handle.state.readOnly = false := by
        by_contra hro
        rw [if_pos (by simpa using hro)] at hown
        cases hown
      rw [if_neg (by simp [hro])] at hown
      have hvis : handle.state.isVisible handle.state.version = true := by
        rw [hv.isVisible hl, ← hv.next_eq hl hro, (hl.of_suffix hv.suffix).status_next]
        exact ⟨by simp, Or.inr ⟨hro, rfl⟩⟩
      have hs : h.stored handle.state.version k = some value := by
        rw [History.stored, ha hro, if_neg (by simp), hown]
      have hlast : (m.scan fun key => Key.versionsTo k handle.state.version key &&
          handle.state.sees key).getLast? = some (.version k handle.state.version, .data value) :=
        (getLast_versions hr hp).mpr ⟨_, _, rfl, rfl, hs, (hpv _).mpr hvis, fun u _ hu => by
          have := ((hv.isVisible hl u).mp ((hpv u).mp hu)).2
          omega⟩
      rw [hlast]
  | none =>
      have hstored : ∀ u, handle.state.isVisible u = true → h.stored u k =
          if u < handle.state.version ∧ handle.seen.status u = some .committed then
            handle.seen.written u k else none := by
        intro u hvis
        rcases ((hv.isVisible hl u).mp hvis).2 with hlt | ⟨hro, rfl⟩
        · have := hv.stored_visible hl hlt k
          simpa only [hvis, if_true, hlt, true_and] using this
        · rw [hro] at hown
          simp only [lt_irrefl, false_and, if_false, History.stored, ha hro]
          simpa using hown
      have hvis : ∀ u, u < handle.state.version → handle.seen.status u = some .committed →
          handle.state.isVisible u = true := fun u hlt hc =>
        (hv.isVisible hl u).mpr ⟨by simp [hc], Or.inl hlt⟩
      cases hlat : handle.seen.latest handle.state.version k with
      | none =>
          have hnone := History.latest_eq_none_iff.mp hlat
          have hlast : (m.scan fun key => Key.versionsTo k handle.state.version key &&
              handle.state.sees key).getLast? = none := by
            rw [OrderedMap.getLast_scan_none]
            intro key hk
            obtain ⟨u, rfl⟩ := hp key hk
            rw [hr.version, hstored u ((hpv u).mp hk)]
            split_ifs with hu
            · rw [hnone u hu.1 hu.2]
              rfl
            · rfl
          rw [hlast, History.snapshotRead, hlat]
          rfl
      | some u =>
          obtain ⟨⟨hu, hc, hw⟩, hmax⟩ := History.latest_eq_some_iff.mp hlat
          obtain ⟨value, hval⟩ := Option.isSome_iff_exists.mp hw
          have hlast : (m.scan fun key => Key.versionsTo k handle.state.version key &&
              handle.state.sees key).getLast? = some (.version k u, .data value) :=
            (getLast_versions hr hp).mpr ⟨u, value, rfl, rfl, by rw [hstored u (hvis u hu hc), if_pos ⟨hu, hc⟩, hval],
              (hpv u).mpr (hvis u hu hc), fun u' hs' hp' => by
                rw [hstored u' ((hpv u').mp hp')] at hs'
                split_ifs at hs' with hu'
                · exact hmax u' hu'.1 hu'.2 hs'
                · cases hs'⟩
          rw [hlast, History.snapshotRead, hlat, Option.bind_some, hval]
          rfl

end Handle.Valid
end ToyDB.Mvcc
