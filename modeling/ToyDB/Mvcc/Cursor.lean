import ToyDB.Mvcc.Isolation
import ToyDB.Mvcc.ScanView
import ToyDB.Mvcc.TimeTravel

/-!
# Scans batch by batch

A scan pulls its entries from the engine in batches, and other transactions run between
them. It resumes at the first version that it has not looked at, so with the versions of the
keys that are left it returns what single reads gave when it began.
-/
namespace ToyDB.Mvcc
open ToyDB.Collections ToyDB.Effects ToyDB.Storage

variable {K V : Type} [LinearOrder K]

/-! ## Filling the buffer -/

section Fill
variable {m : OrderedMap (Key K) (Value V)} {t : TransactionState} {range : Key K → Bool}
  {versions : List (K × ℕ × Value V)} {key : K} {v size : ℕ} {value : Value V}

theorem emitted_of_next (h : (versions.head?.any fun next => next.1 = key) = true) :
    emitted ((key, v, value) :: versions) = emitted versions := by
  simp [emitted, h]

theorem emitted_deleted (h : ¬ (versions.head?.any fun next => next.1 = key) = true) :
    emitted ((key, v, .data none) :: versions) = emitted versions := by
  simp [emitted, h]

theorem emitted_live {x : V} (h : ¬ (versions.head?.any fun next => next.1 = key) = true) :
    emitted ((key, v, .data (some x)) :: versions) = (key, x) :: emitted versions := by
  simp [emitted, h]

/-- The versions that a batch leaves, from the first one that it did not look at. -/
def rest (versions : List (K × ℕ × Value V)) (next : Option (K × ℕ)) : List (K × ℕ × Value V) :=
  match next with
  | some n => versions.filter fun e => Key.version n.1 n.2 ≤ Key.version e.1 e.2.1
  | none => []

theorem rest_cons {n : K × ℕ} (h : Key.version key v < Key.version n.1 n.2) :
    rest ((key, v, value) :: versions) (some n) = rest versions (some n) := by
  simp [rest, h]

theorem rest_of_sorted {e : K × ℕ × Value V} (hs : VersionsSorted (e :: versions)) :
    rest (e :: versions) (some (e.1, e.2.1)) = e :: versions := by
  refine List.filter_eq_self.mpr fun e' he' => ?_
  obtain rfl | he' := List.mem_cons.mp he'
  · exact decide_eq_true le_rfl
  · exact decide_eq_true ((List.pairwise_cons.mp hs).1 _ he').le

/-- A batch of the entries to emit. -/
structure Batch (size : ℕ) (versions : List (K × ℕ × Value V)) (buffer batch : List (K × V))
    (next : Option (K × ℕ)) : Prop where
  emitted : emitted versions = batch ++ emitted (rest versions next)
  full : next.isSome = true → (buffer ++ batch).length = size
  past : ∀ n ∈ next, ∀ e ∈ batch, e.1 < n.1
  left : ∀ n ∈ next, ∃ y, (n.1, n.2, y) ∈ versions

/-- A version that is not the last of its key, or deletes it, adds nothing. -/
theorem Batch.skip {buffer batch : List (K × V)} {next : Option (K × ℕ)}
    (h : Batch size versions buffer batch next) (hs : VersionsSorted ((key, v, value) :: versions))
    (heq : Mvcc.emitted ((key, v, value) :: versions) = Mvcc.emitted versions) :
    Batch size ((key, v, value) :: versions) buffer batch next := by
  refine ⟨?_, h.full, h.past, fun n hn => ?_⟩
  · rw [heq, h.emitted]
    cases next with
    | none => rfl
    | some n =>
        obtain ⟨y, hmem⟩ := h.left n rfl
        have hlt := (List.pairwise_cons.mp hs).1 _ hmem
        rw [rest_cons hlt]
  · obtain ⟨y, hmem⟩ := h.left n hn
    exact ⟨y, List.mem_cons_of_mem _ hmem⟩

/-- A live value that is the last one of its key. -/
theorem Batch.push {buffer batch : List (K × V)} {next : Option (K × ℕ)} {x : V}
    (h : Batch size versions (buffer ++ [(key, x)]) batch next)
    (hs : VersionsSorted ((key, v, value) :: versions))
    (hlast : ¬ (versions.head?.any fun next => next.1 = key) = true)
    (heq : Mvcc.emitted ((key, v, value) :: versions) = (key, x) :: Mvcc.emitted versions) :
    Batch size ((key, v, value) :: versions) buffer ((key, x) :: batch) next := by
  have hafter : ∀ n ∈ next, key < n.1 ∧ Key.version key v < Key.version n.1 n.2 := by
    intro n hn
    obtain ⟨y, hmem⟩ := h.left n hn
    have hlt := (List.pairwise_cons.mp hs).1 _ hmem
    obtain hkey | ⟨hkey, -⟩ := version_lt_iff.mp hlt
    · exact ⟨hkey, hlt⟩
    · obtain rfl : key = n.1 := hkey
      exact absurd ((head_any_iff hs).mpr ⟨n.2, y, hmem⟩) hlast
  refine ⟨?_, fun hn => ?_, ?_, ?_⟩
  · rw [heq, h.emitted, List.cons_append]
    cases next with
    | none => rfl
    | some n =>
        rw [rest_cons (hafter n rfl).2]
  · rw [← h.full hn, List.append_assoc, List.singleton_append]
  · intro n hn e he
    obtain rfl | he := List.mem_cons.mp he
    · exact (hafter n hn).1
    · exact h.past n hn e he
  · intro n hn
    obtain ⟨y, hmem⟩ := h.left n hn
    exact ⟨y, List.mem_cons_of_mem _ hmem⟩

/-- Nothing is looked at. -/
theorem Batch.stop {buffer : List (K × V)} (hsize : buffer.length = size)
    (hs : VersionsSorted versions) :
    Batch size versions buffer [] (versions.head?.map fun next => (next.1, next.2.1)) := by
  cases versions with
  | nil => exact ⟨rfl, fun h => absurd h (by simp), fun _ h => absurd h (by simp),
      fun _ h => absurd h (by simp)⟩
  | cons e versions =>
      refine ⟨?_, fun _ => ?_, ?_, ?_⟩
      · rw [List.head?_cons, Option.map_some, rest_of_sorted hs, List.nil_append]
      · rw [List.append_nil, hsize]
      · intro n _ e he
        cases he
      · intro n hn
        obtain rfl := Option.some.inj hn
        exact ⟨e.2.2, List.mem_cons_self⟩

theorem yields_fill_batch {buffer : List (K × V)} (hdata : ∀ e ∈ versions, ∃ x, e.2.2 = .data x)
    (hs : VersionsSorted versions) (hsize : buffer.length < size) :
    ∃ batch next, Yields (ScanIterator.fill size versions buffer) m
      (fun r ops => r = .ok (buffer ++ batch, next) ∧ ops = []) ∧
      Batch size versions buffer batch next := by
  induction versions generalizing buffer with
  | nil =>
      refine ⟨[], none, yields_pure ⟨by rw [List.append_nil], rfl⟩, rfl, ?_, ?_, ?_⟩
      · exact fun h => absurd h (by simp)
      · exact fun n h => absurd h (by simp)
      · exact fun n h => absurd h (by simp)
  | cons e versions ih =>
      obtain ⟨key, v, value⟩ := e
      obtain ⟨x, rfl⟩ := hdata (key, v, value) List.mem_cons_self
      have hdata' : ∀ e ∈ versions, ∃ x, e.2.2 = .data x := fun e he =>
        hdata e (List.mem_cons_of_mem _ he)
      have hs' : VersionsSorted versions := (List.pairwise_cons.mp hs).2
      by_cases hnext : (versions.head?.any fun next => next.1 = key) = true
      · obtain ⟨batch, next, hfill, hbatch⟩ := ih hdata' hs' hsize
        refine ⟨batch, next, ?_, hbatch.skip hs ?_⟩
        · unfold ScanIterator.fill
          rwa [if_pos hnext]
        · exact emitted_of_next hnext
      · cases x with
        | none =>
            obtain ⟨batch, next, hfill, hbatch⟩ := ih hdata' hs' hsize
            refine ⟨batch, next, ?_, hbatch.skip hs ?_⟩
            · unfold ScanIterator.fill
              rw [if_neg hnext]
              exact Yields.read (yields_pure ⟨rfl, rfl⟩) hfill
            · exact emitted_deleted hnext
        | some x =>
            have heq : Mvcc.emitted ((key, v, .data (some x)) :: versions) =
                (key, x) :: Mvcc.emitted versions := emitted_live hnext
            have hlength : (buffer ++ [(key, x)]).length = buffer.length + 1 := by
              rw [List.length_append, List.length_singleton]
            by_cases hfull : (buffer ++ [(key, x)]).length = size
            · refine ⟨[(key, x)], versions.head?.map fun next => (next.1, next.2.1), ?_,
                (Batch.stop hfull hs').push hs hnext heq⟩
              unfold ScanIterator.fill
              rw [if_neg hnext]
              refine Yields.read (yields_pure ⟨rfl, rfl⟩) ?_
              simp only [if_pos hfull]
              exact yields_pure ⟨rfl, rfl⟩
            · obtain ⟨batch, next, hfill, hbatch⟩ := ih hdata' hs'
                (show (buffer ++ [(key, x)]).length < size by omega)
              refine ⟨(key, x) :: batch, next, ?_, hbatch.push hs hnext heq⟩
              unfold ScanIterator.fill
              rw [if_neg hnext]
              refine Yields.read (yields_pure ⟨rfl, rfl⟩) ?_
              simp only [if_neg hfull]
              refine hfill.mono fun r ops h => ?_
              rw [List.append_assoc] at h
              exact h

/-- The range from a version on. -/
theorem versionsIn_resumed {k : K} {u : ℕ} :
    t.versionsIn (m.scan fun key => Key.version k u ≤ key ∧ range key = true) =
      rest (t.versionsIn (m.scan range)) (some (k, u)) := by
  refine eq_of_mem_iff versionsIn_sorted (versionsIn_sorted.filter _) ?_
  rintro ⟨k', u', y⟩
  rw [mem_versionsIn, rest, List.mem_filter, mem_versionsIn]
  simp only [decide_eq_true_eq]
  tauto

end Fill

/-! ## The iterator -/

namespace ScanIterator
variable {m m₀ : OrderedMap (Key K) (Value V)} {it : ScanIterator K V} {found entries : List (K × V)}
  {size : ℕ}

/-- The entries that the remaining range has. -/
def remaining (m₀ : OrderedMap (Key K) (Value V)) (it : ScanIterator K V) : List (K × V) :=
  match it.remainder with
  | some range => emitted (it.txn.versionsIn (m₀.scan range))
  | none => []

/-- After the entries that it returned, the iterator has those in its buffer and those in the
range that remains, where the keys of the former are not. -/
structure Tracks (m₀ : OrderedMap (Key K) (Value V)) (entries found : List (K × V))
    (it : ScanIterator K V) : Prop where
  entries : entries = found ++ it.buffer ++ it.remaining m₀
  versions : ∀ range ∈ it.remainder, ∀ key, range key = true → ∃ k u, key = .version k u
  past : ∀ range ∈ it.remainder, ∀ e ∈ found ++ it.buffer, ∀ u, range (.version e.1 u) = false

/-- The next batch, when the buffer is empty and the keys that are left are as they were. -/
theorem Tracks.fillBuffer (h : it.Tracks m₀ entries found) (hbuffer : it.buffer = [])
    (hsize : 0 < size) (htyped : Typed m)
    (hsame : ∀ k, (∀ e ∈ found, e.1 ≠ k) → ∀ u, it.txn.visibleAt m k u = it.txn.visibleAt m₀ k u) :
    ∃ it' : ScanIterator K V, Yields (it.fillBuffer size) m (fun r ops => r = .ok it' ∧ ops = []) ∧
      it'.txn = it.txn ∧ it'.Tracks m₀ entries found ∧ (it'.buffer = [] → it'.remainder = none) := by
  unfold ScanIterator.fillBuffer
  rw [if_neg (by rw [hbuffer, List.length_nil]; exact not_le.mpr hsize)]
  cases hrem : it.remainder with
  | none => exact ⟨it, yields_pure ⟨rfl, rfl⟩, rfl, h, fun _ => hrem⟩
  | some range =>
      have hrange := h.versions range hrem
      have hkeys : ∀ e ∈ m.scan range, ∃ k u, e.1 = .version k u := fun e he =>
        hrange e.1 (OrderedMap.mem_scan (v := e.2).mp he).2
      have hversions : it.txn.versionsIn (m.scan range) = it.txn.versionsIn (m₀.scan range) := by
        refine versionsIn_congr fun k u hk => hsame k (fun e he heq => ?_) u
        rw [← heq, h.past range hrem e (List.mem_append_left _ he)] at hk
        cases hk
      have hdata : ∀ e ∈ it.txn.versionsIn (m.scan range), ∃ x, e.2.2 = .data x := by
        rintro ⟨k, u, value⟩ he
        have hvis := (mem_versionsIn.mp he).1
        unfold TransactionState.visibleAt at hvis
        split_ifs at hvis
        exact htyped _ _ hvis
      have hroom : it.buffer.length < size := by
        rwa [hbuffer, List.length_nil]
      obtain ⟨batch, next, hfill, hbatch⟩ := yields_fill_batch hdata versionsIn_sorted hroom
      rw [hversions] at hfill hbatch
      refine ⟨_, Yields.read yields_scan (Yields.read (hversions ▸ yields_visibleVersions hkeys)
        (Yields.read hfill (yields_pure ⟨rfl, rfl⟩))), rfl, ⟨?_, ?_, ?_⟩, ?_⟩
      · have hentries := h.entries
        unfold remaining at hentries ⊢
        rw [hrem] at hentries
        rw [hentries, hbuffer, List.append_nil, List.nil_append, List.append_assoc]
        change found ++ Mvcc.emitted _ = _
        rw [hbatch.emitted]
        cases next with
        | none => rfl
        | some n =>
            change _ = found ++ (batch ++ Mvcc.emitted (it.txn.versionsIn (m₀.scan fun key =>
              Key.version n.1 n.2 ≤ key ∧ range key = true)))
            rw [versionsIn_resumed]
      · intro range' hr key hk
        obtain ⟨n, -, rfl⟩ := Option.map_eq_some_iff.mp hr
        exact hrange key (of_decide_eq_true hk).2
      · intro range' hr e he u
        obtain ⟨n, hn, rfl⟩ := Option.map_eq_some_iff.mp hr
        refine decide_eq_false ?_
        rintro ⟨hle, hin⟩
        obtain he | he := List.mem_append.mp he
        · rw [h.past range hrem e (List.mem_append_left _ he)] at hin
          cases hin
        · rw [hbuffer, List.nil_append] at he
          obtain hlt | ⟨heq, -⟩ := Key.version_le_iff.mp hle
          · exact absurd (hbatch.past n hn e he) hlt.asymm
          · exact absurd (hbatch.past n hn e he) (heq ▸ lt_irrefl _)
      · intro hempty
        cases next with
        | none => rfl
        | some n =>
            have hlength := hbatch.full rfl
            rw [show it.buffer ++ batch = [] from hempty, List.length_nil] at hlength
            omega

/-- The entry that is returned next. -/
theorem Tracks.next (h : it.Tracks m₀ entries found) (hsize : 0 < size) (htyped : Typed m)
    (hsame : ∀ k, (∀ e ∈ found, e.1 ≠ k) → ∀ u, it.txn.visibleAt m k u = it.txn.visibleAt m₀ k u) :
    ∃ it' : ScanIterator K V, Yields (it.next size) m
        (fun r ops => r = .ok ((entries.drop found.length).head?, it') ∧ ops = []) ∧
      it'.txn = it.txn ∧
      it'.Tracks m₀ entries (found ++ ((entries.drop found.length).head?).toList) := by
  have hpop : ∀ it' : ScanIterator K V, it'.Tracks m₀ entries found →
      (it'.buffer = [] → it'.remainder = none) →
      it'.buffer.head? = (entries.drop found.length).head? ∧
        ({ it' with buffer := it'.buffer.tail } : ScanIterator K V).Tracks m₀ entries
          (found ++ ((entries.drop found.length).head?).toList) := by
    intro it' h' hend
    have hdrop : entries.drop found.length = it'.buffer ++ it'.remaining m₀ := by
      rw [h'.entries, List.append_assoc, List.drop_left]
    have hhead : it'.buffer.head? = (entries.drop found.length).head? := by
      rw [hdrop]
      cases hbuffer : it'.buffer with
      | nil =>
          unfold remaining
          rw [hend hbuffer]
          rfl
      | cons e buffer => rfl
    have hsplit : found ++ it'.buffer = found ++ (it'.buffer.head?).toList ++ it'.buffer.tail := by
      cases it'.buffer with
      | nil =>
          rw [List.tail_nil, List.head?_nil, Option.toList_none, List.append_nil, List.append_nil]
      | cons e buffer =>
          rw [List.head?_cons, Option.toList_some, List.tail_cons, List.append_assoc,
            List.singleton_append]
    refine ⟨hhead, ?_, h'.versions, ?_⟩
    · rw [← hhead]
      change entries = found ++ (it'.buffer.head?).toList ++ it'.buffer.tail ++ it'.remaining m₀
      rw [← hsplit]
      exact h'.entries
    · rw [← hhead]
      change ∀ range ∈ it'.remainder,
        ∀ e ∈ found ++ (it'.buffer.head?).toList ++ it'.buffer.tail, _
      rw [← hsplit]
      exact h'.past
  unfold ScanIterator.next
  cases hbuffer : it.buffer with
  | nil =>
      obtain ⟨it', hfill, htxn, htracks, hend⟩ := h.fillBuffer hbuffer hsize htyped hsame
      obtain ⟨hhead, hnext⟩ := hpop it' htracks hend
      rw [← hhead] at hnext ⊢
      exact ⟨_, Yields.read hfill (yields_pure ⟨rfl, rfl⟩), htxn, hnext⟩
  | cons e buffer =>
      obtain ⟨hhead, hnext⟩ := hpop it h fun hempty => by rw [hbuffer] at hempty; cases hempty
      rw [← hhead] at hnext ⊢
      exact ⟨_, Yields.read (yields_pure ⟨rfl, rfl⟩) (yields_pure ⟨rfl, rfl⟩), rfl, hnext⟩

end ScanIterator

/-! ## Scans among other transactions -/

variable {start w w' : World K V} {handle : Handle K V} {size : ℕ} {it it' : ScanIterator K V}
  {found : List (K × V)}

/-- Meanwhile the transaction does not finish, and writes only keys that were returned. -/
def Handle.Spares (handle : Handle K V) (found : List (K × V)) (w w' : World K V) : Prop :=
  handle.state.readOnly = false → w'.history.status handle.state.version = some .active ∧
    ∀ k, w'.history.written handle.state.version k ≠ w.history.written handle.state.version k →
      ∃ e ∈ found, e.1 = k

/-- What a scan has returned, the iterator, and the store: calls of any transactions run between
the calls of the iterator. -/
inductive Scanned (size : ℕ) (handle : Handle K V) (start : World K V) (it₀ : ScanIterator K V) :
    List (K × V) → ScanIterator K V → World K V → Prop where
  | start : Scanned size handle start it₀ [] it₀ start
  | calls {found : List (K × V)} {it : ScanIterator K V} {w w' : World K V} :
      Scanned size handle start it₀ found it w → Reaches w w' → handle.Spares found w w' →
      Scanned size handle start it₀ found it w'
  | next {found : List (K × V)} {e : K × V} {it it' : ScanIterator K V} {w : World K V} :
      Scanned size handle start it₀ found it w →
      (it.next size w.engine).result = .ok (some e, it') →
      Scanned size handle start it₀ (found ++ [e]) it' w

/-- A new scan of the transaction, by a range or by a prefix, and the keys that it is of. -/
def TransactionState.Scans (t : TransactionState) (it : ScanIterator K V) (isIn : K → Bool) : Prop :=
  (∃ first last, it = t.scan first last ∧ isIn = fun k => first.startsAt k && last.endsAt k) ∨
    it = t.scanPrefix isIn

theorem TransactionState.Scans.eq {t : TransactionState} {isIn : K → Bool} (h : t.Scans it isIn) :
    it = ScanIterator.new t (Key.isVersion isIn) := by
  obtain ⟨first, last, rfl, rfl⟩ | rfl := h <;> rfl

/-- In a run, the versions that a transaction sees of keys that it does not write stay the
same. -/
theorem Reaches.visibleAt_eq (hw : Reaches World.empty w) (hw' : Reaches w w')
    (hh : handle ∈ w.handles) (hu : w.Usable handle.state)
    (hspares : handle.Spares found w w') {k : K} (hk : ∀ e ∈ found, e.1 ≠ k) (u : ℕ) :
    handle.state.visibleAt w'.engine k u = handle.state.visibleAt w.engine k u := by
  have hv := hw.valid World.valid_empty
  have hv' := hw'.valid hv
  have ha : handle.state.readOnly = false →
      w.history.status handle.state.version = some .active :=
    fun hro => hu.resolve_left (by simp [hro])
  rw [(hv'.handles handle (hw'.extends.2.subset hh)).visibleAt hv'.legal hv'.represents
      fun hro => (hspares hro).1,
    (hv.handles handle hh).visibleAt hv.legal hv.represents ha]
  by_cases hro : handle.state.readOnly = false
  · have hwritten : w'.history.written handle.state.version k =
        w.history.written handle.state.version k := by
      by_contra hne
      obtain ⟨e, he, heq⟩ := (hspares hro).2 k hne
      exact hk e he heq
    rw [hwritten]
  · simp [hro]

/-- What holds between the calls of a scan. -/
structure Underway (handle : Handle K V) (start : World K V) (entries found : List (K × V))
    (it : ScanIterator K V) (w : World K V) : Prop where
  reaches : Reaches start w
  spares : handle.Spares found start w
  txn : it.txn = handle.state
  tracks : it.Tracks start.engine entries found

theorem Underway.next {entries : List (K × V)} (h : Underway handle start entries found it w)
    (hw : Reaches World.empty start) (hh : handle ∈ start.handles)
    (hu : start.Usable handle.state) (hsize : 0 < size) :
    ∃ it' : ScanIterator K V, Yields (it.next size) w.engine
        (fun r ops => r = .ok ((entries.drop found.length).head?, it') ∧ ops = []) ∧
      it'.txn = it.txn ∧
      it'.Tracks start.engine entries (found ++ ((entries.drop found.length).head?).toList) := by
  have htyped := (h.reaches.valid (hw.valid World.valid_empty)).represents.typed
  refine h.tracks.next hsize htyped fun k hk u => ?_
  rw [h.txn]
  exact hw.visibleAt_eq h.reaches hh hu h.spares hk u

theorem Scanned.underway {isIn : K → Bool} (hw : Reaches World.empty start)
    (hh : handle ∈ start.handles) (hu : start.Usable handle.state) (hsize : 0 < size)
    (h : Scanned size handle start (ScanIterator.new handle.state (Key.isVersion isIn)) found it w) :
    Underway handle start
      (emitted (handle.state.versionsIn (start.engine.scan (Key.isVersion isIn)))) found it w := by
  induction h with
  | start =>
      refine ⟨.refl _, fun hro => ⟨hu.resolve_left (by simp [hro]), fun k hk => absurd rfl hk⟩,
        rfl, rfl, ?_, fun _ _ e he => absurd he List.not_mem_nil⟩
      intro range hr key hk
      obtain rfl := Option.some.inj hr
      cases key with
      | version k u => exact ⟨k, u, rfl⟩
      | _ => cases hk
  | @calls found it w w' _ hreach hspares ih =>
      refine ⟨ih.reaches.trans hreach, fun hro => ⟨(hspares hro).1, fun k hne => ?_⟩, ih.txn,
        ih.tracks⟩
      by_cases hsame : w'.history.written handle.state.version k =
          w.history.written handle.state.version k
      · exact (ih.spares hro).2 k (hsame ▸ hne)
      · exact (hspares hro).2 k hsame
  | @next found e it it' w _ hnext ih =>
      obtain ⟨it'', hyields, htxn, htracks⟩ := ih.next hw hh hu hsize
      rw [hyields.2.1] at hnext
      obtain ⟨hentry, rfl⟩ := Prod.mk.inj (Except.ok.inj hnext)
      rw [hentry] at htracks
      refine ⟨ih.reaches, fun hro => ⟨(ih.spares hro).1, fun k hne => ?_⟩, htxn.trans ih.txn,
        htracks⟩
      obtain ⟨e, he, heq⟩ := (ih.spares hro).2 k hne
      exact ⟨e, List.mem_append_left _ he, heq⟩

end ToyDB.Mvcc
