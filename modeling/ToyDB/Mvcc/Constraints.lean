import ToyDB.Mvcc.Sessions

/-!
# Constraints that sessions preserve

A constraint on committed states is preserved if every script keeps a transaction's writes
fine over the state that it began with, and if fine writes can be laid over any later
committed state that they are compatible with. A transaction with a failed script may not
commit, since half of what the script writes may be there.
-/
namespace ToyDB.Mvcc
open ToyDB.Collections ToyDB.Effects ToyDB.Storage

variable {K V : Type} [LinearOrder K]


/-- A constraint on committed states, with what its proof needs of transactions. -/
structure Constraint (K V : Type) [LinearOrder K] where
  Holds : (K → Option V) → Prop
  /-- The writes that a transaction may have over the state that it began with, between
  two scripts. -/
  Fine : (K → Option V) → (K → Option (Option V)) → Prop
  /-- The scripts that may be started on the entries that the transaction sees. -/
  Allowed : OrderedMap K V → Script K V Unit → Prop
  /-- When writes over the state that their transaction began with may be committed over
  the current state. -/
  Compatible : (K → Option V) → (K → Option V) → (K → Option (Option V)) → Prop

namespace Constraint

structure Lawful (c : Constraint K V) : Prop where
  begin {S : K → Option V} : c.Holds S → c.Fine S fun _ => none
  script {S : K → Option V} {d : Draft K V} {script : Script K V Unit} : c.Holds S → d.Over S →
    c.Fine S d.writes → c.Allowed d.view script → script.after (fun _ d => c.Fine S d.writes) d
  commit {C S : K → Option V} {W : K → Option (Option V)} : c.Holds C → c.Holds S → c.Fine S W →
    (∀ k, (W k).isSome → C k = S k) → c.Compatible C S W → c.Holds (overlay C W)

/-- Scripts are started as allowed, and a transaction commits if none of its scripts failed and
its writes are compatible. -/
def Permits (c : Constraint K V) (s : Sessions K V) : Move K V → Prop
  | .start i script => ∀ handle ∈ s.store.handles[i]?,
      c.Allowed (handle.state.viewMap s.store.engine) script
  | .commit i => s.phases[i]? = some (.idle false) ∧
      ∀ handle ∈ s.store.handles[i]?, c.Compatible s.store.history.current
        handle.seen.current (s.store.history.written handle.state.version)
  | _ => True

/-- An open transaction: between scripts its writes are fine, and a script at work will
make them so, unless a script failed. -/
structure Open (c : Constraint K V) (h : History K V) (handle : Handle K V) (p : Phase K V) :
    Prop where
  began : c.Holds handle.seen.current
  active : h.status handle.state.version = some .active
  work : match p with
    | .idle false => c.Fine handle.seen.current (h.written handle.state.version)
    | .busy false script => ∀ d : Draft K V, d.Over handle.seen.current →
        d.writes = h.written handle.state.version →
        script.after (fun _ d => c.Fine handle.seen.current d.writes) d
    | _ => True

structure Sound (c : Constraint K V) (s : Sessions K V) : Prop where
  valid : s.store.Valid
  holds : c.Holds s.store.history.current
  length : s.phases.length = s.store.handles.length
  next : s.store.history.next = s.store.handles.length + 1
  handles (i : ℕ) (handle : Handle K V) : s.store.handles[i]? = some handle →
    handle.state.version = i + 1 ∧ handle.state.readOnly = false
  sessions (i : ℕ) (handle : Handle K V) (p : Phase K V) : s.store.handles[i]? = some handle →
    s.phases[i]? = some p → p ≠ .closed → c.Open s.store.history handle p

variable {c : Constraint K V} {s s' : Sessions K V} {h h' : History K V} {handle : Handle K V}
  {p : Phase K V} {i : ℕ}

/-- An open transaction depends only on its own events. -/
theorem Open.congr (ho : c.Open h handle p)
    (hs : h'.status handle.state.version = h.status handle.state.version)
    (hw : h'.written handle.state.version = h.written handle.state.version) :
    c.Open h' handle p := by
  refine ⟨ho.began, hs.trans ho.active, ?_⟩
  have hwork := ho.work
  cases p with
  | idle failed =>
      cases failed with
      | false =>
          change c.Fine _ _
          rw [hw]
          exact hwork
      | true => trivial
  | busy failed script =>
      cases failed with
      | false =>
          change ∀ d : Draft K V, _
          rw [hw]
          exact hwork
      | true => trivial
  | panicked | closed => trivial

theorem Open.idle (ho : c.Open h handle p) {failed : Bool}
    (hwork : failed = false → c.Fine handle.seen.current (h.written handle.state.version)) :
    c.Open h handle (.idle failed) := by
  refine ⟨ho.began, ho.active, ?_⟩
  cases failed with
  | false => exact hwork rfl
  | true => trivial

theorem Open.busy (ho : c.Open h handle p) {failed : Bool} {script : Script K V Unit}
    (hwork : failed = false → ∀ d : Draft K V, d.Over handle.seen.current →
      d.writes = h.written handle.state.version →
      script.after (fun _ d => c.Fine handle.seen.current d.writes) d) :
    c.Open h handle (.busy failed script) := by
  refine ⟨ho.began, ho.active, ?_⟩
  cases failed with
  | false => exact hwork rfl
  | true => trivial

theorem Open.fine {failed : Bool} (ho : c.Open h handle (.idle failed)) (hclean : failed = false) :
    c.Fine handle.seen.current (h.written handle.state.version) := by
  subst hclean
  exact ho.work

theorem Open.makes {failed : Bool} {script : Script K V Unit}
    (ho : c.Open h handle (.busy failed script)) (hclean : failed = false) (d : Draft K V)
    (hd : d.Over handle.seen.current) (hwrites : d.writes = h.written handle.state.version) :
    script.after (fun _ d => c.Fine handle.seen.current d.writes) d := by
  subst hclean
  exact ho.work d hd hwrites

/-- Nothing is asked of a transaction with a failed script. -/
theorem Open.stopped (ho : c.Open h handle p) (failure : Failure) :
    c.Open h handle (.stopped failure) := by
  refine ⟨ho.began, ho.active, ?_⟩
  cases failure with
  | error e => trivial
  | panic message => trivial

theorem sound_empty (hempty : c.Holds fun _ => none) : c.Sound Sessions.empty where
  valid := World.valid_empty
  holds := hempty
  length := rfl
  next := rfl
  handles _ _ hi := nomatch hi
  sessions _ _ _ hi := nomatch hi

/-- Only the phase of one transaction changes. -/
theorem Sound.set (hs : c.Sound s) (hi : s.store.handles[i]? = some handle)
    (hp : p = .closed ∨ c.Open s.store.history handle p) :
    c.Sound { s with phases := s.phases.set i p } where
  valid := hs.valid
  holds := hs.holds
  length := by
    rw [List.length_set]
    exact hs.length
  next := hs.next
  handles := hs.handles
  sessions j handle' p' hj hp' hne := by
    change (s.phases.set i p)[j]? = some p' at hp'
    rw [List.getElem?_set] at hp'
    split_ifs at hp' with heq hlt
    · subst heq
      obtain rfl := Option.some.inj hp'
      obtain rfl := Option.some.inj (hi.symm.trans hj)
      exact hp.resolve_left hne
    · exact hs.sessions j handle' p' hj hp' hne

/-- The history and the phase of one transaction change. -/
theorem Sound.event (hs : c.Sound s) (hi : s.store.handles[i]? = some handle) {store : World K V}
    {e : Event K V} (hvalid : store.Valid) (houtline : store.outline = ⟨s.store.handles, e :: s.store.history⟩)
    (hnext : History.next (e :: s.store.history) = s.store.history.next)
    (hstatus : ∀ v, v ≠ i + 1 → History.status (e :: s.store.history) v = s.store.history.status v)
    (hwritten : ∀ v, v ≠ i + 1 → History.written (e :: s.store.history) v = s.store.history.written v)
    (hholds : c.Holds (History.current (e :: s.store.history)))
    (hp : p = .closed ∨ c.Open (e :: s.store.history) handle p) :
    c.Sound ⟨store, s.phases.set i p⟩ := by
  have hhandles : store.handles = s.store.handles := congrArg Outline.handles houtline
  have hhistory : store.history = e :: s.store.history := congrArg Outline.history houtline
  refine ⟨hvalid, ?_, ?_, ?_, ?_, ?_⟩
  · rw [hhistory]
    exact hholds
  · rw [List.length_set, hhandles]
    exact hs.length
  · rw [hhistory, hnext, hhandles]
    exact hs.next
  · rw [hhandles]
    exact hs.handles
  · intro j handle' p' hj hp' hne
    rw [hhandles] at hj
    rw [hhistory]
    change (s.phases.set i p)[j]? = some p' at hp'
    rw [List.getElem?_set] at hp'
    split_ifs at hp' with heq hlt
    · subst heq
      obtain rfl := Option.some.inj hp'
      obtain rfl := Option.some.inj (hi.symm.trans hj)
      exact hp.resolve_left hne
    · have hv := (hs.handles j handle' hj).1
      have hne' : handle'.state.version ≠ i + 1 := by omega
      exact (hs.sessions j handle' p' hj hp' hne).congr (hstatus _ hne') (hwritten _ hne')

/-- A store with the same handles and history. -/
theorem Sound.congr (hs : c.Sound s) {store : World K V} (hvalid : store.Valid)
    (houtline : store.outline = s.store.outline) : c.Sound { s with store := store } := by
  have hhandles : store.handles = s.store.handles := congrArg Outline.handles houtline
  have hhistory : store.history = s.store.history := congrArg Outline.history houtline
  refine ⟨hvalid, ?_, ?_, ?_, ?_, ?_⟩
  · exact hhistory ▸ hs.holds
  · exact hhandles ▸ hs.length
  · rw [hhistory, hhandles]
    exact hs.next
  · exact hhandles ▸ hs.handles
  · rw [hhistory, hhandles]
    exact hs.sessions

section Step
variable (hs : c.Sound s)
include hs

theorem Sound.handle_of_phase (hp : s.phases[i]? = some p) :
    ∃ handle, s.store.handles[i]? = some handle := by
  have hlt := (List.getElem?_eq_some_iff.mp hp).1
  exact ⟨_, List.getElem?_eq_getElem (hs.length ▸ hlt)⟩

theorem Sound.handle_valid (hi : s.store.handles[i]? = some handle) :
    handle.Valid s.store.history :=
  hs.valid.handles handle (List.mem_of_getElem? hi)

theorem Sound.before_eq (hi : s.store.handles[i]? = some handle) :
    s.store.history.before handle.state.version = handle.seen :=
  ((hs.handle_valid hi).began (hs.handles i handle hi).2).1

/-- The draft of an open transaction. -/
def draft (s : Sessions K V) (handle : Handle K V) : Draft K V :=
  ⟨handle.state.viewMap s.store.engine, s.store.history.written handle.state.version⟩

theorem Sound.get_view (k : K) :
    handle.state.view s.store.engine k = (draft s handle).view.get k := by
  unfold draft
  rw [TransactionState.get_viewMap hs.valid.represents.typed]

theorem Sound.over (hi : s.store.handles[i]? = some handle)
    (ho : c.Open s.store.history handle p) : (draft s handle).Over handle.seen.current := by
  intro k
  have hv := hs.handle_valid hi
  rw [← hs.get_view, hv.view_eq hs.valid.legal hs.valid.represents fun _ => ho.active]
  exact hv.read_eq_overlay hs.valid.legal (hs.handles i handle hi).2 k

/-- A call of an open transaction. -/
theorem Sound.call_valid (hi : s.store.handles[i]? = some handle)
    (ho : c.Open s.store.history handle p) {call : Call K V}
    (hcall : s.store.handleOf call = s.store.handles[i]?)
    (hne : ∀ j, call ≠ .resume j) : (s.store.call call).Valid := by
  refine hs.valid.call ?_
  have hused : ∃ handle ∈ s.store.handleOf call, s.store.Usable handle.state :=
    ⟨handle, hcall.trans hi, Or.inr ho.active⟩
  cases call with
  | begin | beginReadOnly | beginAsOf => trivial
  | resume j => exact absurd rfl (hne j)
  | get | write | commit | rollback => exact hused

omit [LinearOrder K] hs in
theorem getElem?_concat {α : Type} {l : List α} {a b : α} (h : (l ++ [a])[i]? = some b) :
    l[i]? = some b ∨ i = l.length ∧ b = a := by
  rw [List.getElem?_append] at h
  split_ifs at h with hlt
  · exact Or.inl h
  · obtain ⟨hz, heq⟩ := List.getElem?_eq_some_iff.mp h
    rw [List.length_singleton] at hz
    refine Or.inr ⟨by omega, ?_⟩
    rw [← heq, List.getElem_singleton]

theorem Sound.begin (hc : c.Lawful) : c.Sound ⟨s.store.call .begin, s.phases ++ [.idle false]⟩ := by
  have houtline := hs.valid.call_outline .begin
  have hhandles : (s.store.call .begin).handles = s.store.handles ++
      [⟨⟨s.store.history.next, false, s.store.history.activeSet⟩, s.store.history⟩] :=
    congrArg Outline.handles houtline
  have hhistory : (s.store.call .begin).history = .began s.store.history.next :: s.store.history :=
    congrArg Outline.history houtline
  have hl := hs.valid.legal
  have hcurrent : History.current (.began s.store.history.next :: s.store.history) =
      s.store.history.current := funext fun _ => History.current_began hl
  refine ⟨hs.valid.begin, ?_, ?_, ?_, ?_, ?_⟩
  · rw [hhistory, hcurrent]
    exact hs.holds
  · simp only [List.length_append, List.length_singleton, hhandles, hs.length]
  · simp only [hhistory, hhandles, History.next, List.length_append, List.length_singleton, hs.next]
  · intro i handle hi
    rw [hhandles] at hi
    obtain hi | ⟨heq, rfl⟩ := getElem?_concat hi
    · exact hs.handles i handle hi
    · exact ⟨by rw [heq]; exact hs.next, rfl⟩
  · intro i handle p hi hp hne
    rw [hhandles] at hi
    rw [hhistory]
    have hlength := hs.length
    obtain hi | ⟨_, rfl⟩ := getElem?_concat hi
    · have hlt := (List.getElem?_eq_some_iff.mp hi).1
      have hp : s.phases[i]? = some p := (getElem?_concat hp).resolve_right fun h => by omega
      have hne' : handle.state.version ≠ s.store.history.next := by
        rw [(hs.handles i handle hi).1, hs.next]
        omega
      exact (hs.sessions i handle p hi hp hne).congr (if_neg hne') rfl
    · have hp : p = .idle false := by
        obtain hp | ⟨_, hp⟩ := getElem?_concat hp
        · have := (List.getElem?_eq_some_iff.mp hp).1
          omega
        · exact hp
      subst hp
      refine ⟨hs.holds, if_pos rfl, ?_⟩
      have hwritten : History.written (.began s.store.history.next :: s.store.history)
          s.store.history.next = fun _ => none :=
        funext fun _ => hl.not_written hl.status_next
      change c.Fine _ (History.written _ s.store.history.next)
      rw [hwritten]
      exact hc.begin hs.holds

theorem Sound.start (hc : c.Lawful) (hi : s.store.handles[i]? = some handle) {failed : Bool}
    (ho : c.Open s.store.history handle (.idle failed)) {script : Script K V Unit}
    (ha : c.Allowed (handle.state.viewMap s.store.engine) script) :
    c.Sound { s with phases := s.phases.set i (.busy failed script) } := by
  refine hs.set hi (Or.inr (ho.busy fun hclean d hd hwrites => ?_))
  obtain rfl := hd.unique (hs.over hi ho) hwrites
  exact hc.script ho.began hd (ho.fine hclean) ha

/-- The next store call of a script. -/
theorem Sound.advance (hi : s.store.handles[i]? = some handle) {failed : Bool}
    {script : Script K V Unit} (ho : c.Open s.store.history handle (.busy failed script)) :
    c.Sound (s.advance i handle failed script) := by
  have hv := hs.handle_valid hi
  have htyped := hs.valid.represents.typed
  have hdraft : ∀ d : Draft K V, d.Over handle.seen.current →
      d.writes = s.store.history.written handle.state.version → d = draft s handle :=
    fun d hd hwrites => hd.unique (hs.over hi ho) hwrites
  cases script with
  | done result =>
      cases result with
      | ok a =>
          exact hs.set hi (Or.inr (ho.idle fun hclean => ho.makes hclean _ (hs.over hi ho) rfl))
      | error e => exact hs.set hi (Or.inr (ho.stopped e))
  | get key next =>
      have hr := (handle.state.yields_get htyped key).2.1
      refine (hs.set hi (Or.inr ?_)).congr
        (hs.call_valid hi ho (show s.store.handleOf (.get i key) = _ from rfl) fun _ => by simp)
        (hs.valid.call_outline _)
      rw [hr, hs.get_view]
      refine ho.busy fun hclean d hd hwrites => ?_
      rw [← hdraft d hd hwrites]
      exact ho.makes hclean d hd hwrites
  | scan range next =>
      have hyields := yields_scanAll htyped (fun k => (show handle.state.view s.store.engine k =
        (draft s handle).view.get k from hs.get_view k).symm) range
      have hengine := World.Valid.engine_eq (hyields.mono fun r ops h => And.symm h)
      refine (hs.set hi (Or.inr ?_)).congr ?_ rfl
      · rw [hyields.2.1]
        refine ho.busy fun hclean d hd hwrites => ?_
        rw [← hdraft d hd hwrites]
        exact ho.makes hclean d hd hwrites
      · rw [hengine]
        exact hs.valid
  | write key value next =>
      have hro := (hs.handles i handle hi).2
      have hr := (handle.state.yields_writeVersion (m := s.store.engine) key value).2
      have hvalid := hs.call_valid hi ho
        (show s.store.handleOf (.write i key value) = _ from rfl) fun _ => by simp
      have houtline := hs.valid.call_outline (.write i key value)
      have hconflicts : handle.Conflicts s.store.outline.history key ↔
          handle.state.conflicts s.store.engine key = true :=
        (hv.conflicts_iff hs.valid.legal hs.valid.represents hro key).symm
      rw [hro, if_neg (by simp)] at hr
      rw [Outline.call_write (show s.store.outline.handles[i]? = some handle from hi)] at houtline
      simp only [Outline.use] at houtline
      split_ifs at hr with hc
      · -- the transaction fails
        rw [if_pos (hconflicts.mpr hc)] at houtline
        refine (hs.set hi (Or.inr ?_)).congr hvalid houtline
        rw [hr.1]
        exact ho.stopped (.error .serialization)
      · rw [if_neg (hconflicts.not.mpr hc), Outline.happened, hro, if_neg (by simp)] at houtline
        have hversion := (hs.handles i handle hi).1
        have hhistory : (s.store.call (.write i key value)).history =
            .wrote handle.state.version key value :: s.store.history :=
          congrArg Outline.history houtline
        have hlegal := hvalid.legal
        rw [hhistory] at hlegal
        refine hs.event hi hvalid houtline rfl (fun v hne => rfl) (fun v hne => ?_) ?_ (Or.inr ?_)
        · funext k
          rw [← hversion] at hne
          simp only [History.written, hne, false_and, if_false]
        · have hcurrent : History.current (.wrote handle.state.version key value :: s.store.history) =
              s.store.history.current :=
            funext fun _ => History.current_wrote hs.valid.legal ho.active hlegal
          rw [hcurrent]
          exact hs.holds
        · rw [hr.1]
          have hactive : c.Open (.wrote handle.state.version key value :: s.store.history) handle
              .panicked := ⟨ho.began, ho.active, trivial⟩
          refine hactive.busy fun hclean d hd hwrites => ?_
          have hput : d.writes = ((draft s handle).put key value).writes := by
            rw [hwrites]
            funext k
            rw [Draft.writes_put]
            simp [History.written, draft]
          obtain rfl := hd.unique ((hs.over hi ho).put key value) hput
          exact ho.makes hclean _ (hs.over hi ho) rfl

theorem Sound.commit (hc : c.Lawful) (hi : s.store.handles[i]? = some handle)
    (ho : c.Open s.store.history handle (.idle false))
    (hcompatible : c.Compatible s.store.history.current handle.seen.current
      (s.store.history.written handle.state.version)) :
    c.Sound ⟨s.store.call (.commit i), s.phases.set i .closed⟩ := by
  have hl := hs.valid.legal
  have hversion := (hs.handles i handle hi).1
  have hvalid := hs.call_valid hi ho (show s.store.handleOf (.commit i) = _ from rfl) fun _ => by simp
  have houtline := hs.valid.call_outline (.commit i)
  rw [Outline.call_commit (show s.store.outline.handles[i]? = some handle from hi)] at houtline
  simp only [Outline.use, Outline.happened, (hs.handles i handle hi).2] at houtline
  refine hs.event hi hvalid houtline rfl (fun v hne => if_neg (hversion ▸ hne)) (fun v hne => rfl)
    ?_ (Or.inl rfl)
  have hcurrent : History.current (.committed handle.state.version :: s.store.history) =
      overlay s.store.history.current (s.store.history.written handle.state.version) :=
    funext fun _ => History.current_committed hl ho.active
  rw [hcurrent]
  refine hc.commit hs.holds ho.began ho.work (fun k hk => ?_) hcompatible
  rw [hl.current_eq_before ho.active hk, hs.before_eq hi]

theorem Sound.rollback (hi : s.store.handles[i]? = some handle)
    (ho : c.Open s.store.history handle p) :
    c.Sound ⟨s.store.call (.rollback i), s.phases.set i .closed⟩ := by
  have hl := hs.valid.legal
  have hversion := (hs.handles i handle hi).1
  have hvalid := hs.call_valid hi ho (show s.store.handleOf (.rollback i) = _ from rfl) fun _ => by simp
  have houtline := hs.valid.call_outline (.rollback i)
  rw [Outline.call_rollback (show s.store.outline.handles[i]? = some handle from hi)] at houtline
  simp only [Outline.use, Outline.happened, (hs.handles i handle hi).2] at houtline
  refine hs.event hi hvalid houtline rfl (fun v hne => if_neg (hversion ▸ hne)) (fun v hne => rfl)
    ?_ (Or.inl rfl)
  have hcurrent : History.current (.rolledBack handle.state.version :: s.store.history) =
      s.store.history.current := funext fun _ => History.current_rolledBack hl ho.active
  rw [hcurrent]
  exact hs.holds

theorem Sound.step (hc : c.Lawful) {move : Move K V} (hp : c.Permits s move)
    (h : s.step move = some s') : c.Sound s' := by
  cases move with
  | begin =>
      obtain rfl := Option.some.inj h
      exact hs.begin hc
  | start i script =>
      simp only [Sessions.step] at h
      split at h
      · next hphase =>
          obtain ⟨handle, hi⟩ := hs.handle_of_phase hphase
          obtain rfl := Option.some.inj h
          exact hs.start hc hi (hs.sessions i handle _ hi hphase (by simp)) (hp handle hi)
      · cases h
  | advance i =>
      simp only [Sessions.step] at h
      split at h
      · next failed script handle hphase hi =>
          obtain rfl := Option.some.inj h
          exact hs.advance hi (hs.sessions i handle _ hi hphase (by simp))
      · cases h
  | commit i =>
      simp only [Sessions.step] at h
      split at h
      · next hphase =>
          obtain ⟨handle, hi⟩ := hs.handle_of_phase hphase
          obtain rfl := Option.some.inj h
          exact hs.commit hc hi (hs.sessions i handle _ hi hp.1 (by simp)) (hp.2 handle hi)
      · cases h
  | rollback i =>
      simp only [Sessions.step] at h
      split at h
      · cases h
      · cases h
      · next p hclosed hphase =>
          cases hphase' : s.phases[i]? with
          | none => exact absurd hphase' hphase
          | some p =>
              obtain ⟨handle, hi⟩ := hs.handle_of_phase hphase'
              obtain rfl := Option.some.inj h
              refine hs.rollback hi (hs.sessions i handle p hi hphase' ?_)
              intro hp
              exact hclosed (hp ▸ hphase')

end Step

/-- A lawful constraint holds in every committed state of a run that it permits. -/
theorem Lawful.sound (hc : c.Lawful) (hs : c.Sound s) (h : Sessions.Reachable c.Permits s s') :
    c.Sound s' := by
  induction h with
  | start => exact hs
  | step _ hp hstep ih => exact ih.step hc hp hstep

/-- A transaction may commit if nobody committed since it began. -/
theorem Sound.permits_commit [DecidableEq V] (hs : c.Sound s) (hself : ∀ S W, c.Compatible S S W)
    {n : ℕ} (h : s.undisturbed i n = true) : c.Permits s (.commit i) := by
  obtain ⟨hphase, hquiet⟩ := Bool.and_eq_true_iff.mp h
  obtain ⟨p, hp, hclean⟩ := (Option.any_eq_true _ _).mp hphase
  refine ⟨by rw [hp, Phase.eq_idle hclean], fun handle hi => ?_⟩
  obtain ⟨hseen, hopen⟩ := Bool.and_eq_true_iff.mp ((Option.all_eq_true _ _).mp hquiet handle hi)
  have hsame : s.store.history.current = handle.seen.current := by
    have hlegal := hs.valid.legal
    rw [← List.take_append_drop n s.store.history] at hlegal ⊢
    rw [of_decide_eq_true hseen]
    exact hlegal.current_append fun e he => by simpa using List.all_eq_true.mp hopen e he
  rw [hsame]
  exact hself _ _

/-- What an idle transaction with no failed script sees, as writes over the state that it began
with. -/
theorem Sound.idle (hs : c.Sound s) (hi : s.store.handles[i]? = some handle)
    (hidle : s.phases[i]? = some (.idle false)) : ∃ S W, c.Holds S ∧ c.Fine S W ∧
      (handle.state.viewMap s.store.engine).get = overlay S W := by
  have hopen := hs.sessions i handle (.idle false) hi hidle (by simp)
  refine ⟨_, _, hopen.began, hopen.work, ?_⟩
  funext k
  exact hs.over hi hopen k

/-- No constraint. -/
def free : Constraint K V where
  Holds _ := True
  Fine _ _ := True
  Allowed _ _ := True
  Compatible _ _ _ := True

theorem free_lawful : (free : Constraint K V).Lawful where
  begin _ := trivial
  script _ hover _ _ := Script.after_mono (Script.ensures_over _ _ _ hover) fun _ _ _ => trivial
  commit _ _ _ _ _ := trivial

/-- Without a constraint every move is possible, also the commit of a transaction with a failed
script. -/
theorem Sound.free_step (hs : (free : Constraint K V).Sound s) {move : Move K V}
    (h : s.step move = some s') : (free : Constraint K V).Sound s' := by
  cases move with
  | commit i =>
      simp only [Sessions.step] at h
      split at h
      · next hphase =>
          obtain ⟨handle, hi⟩ := hs.handle_of_phase hphase
          obtain rfl := Option.some.inj h
          have hopen := hs.sessions i handle _ hi hphase (by simp)
          exact hs.commit free_lawful hi (hopen.idle fun _ => trivial) trivial
      · cases h
  | begin => exact hs.step free_lawful (show free.Permits s .begin from trivial) h
  | advance i => exact hs.step free_lawful (show free.Permits s (.advance i) from trivial) h
  | rollback i => exact hs.step free_lawful (show free.Permits s (.rollback i) from trivial) h
  | start i script =>
      have hallowed : free.Permits s (.start i script) := fun _ _ => trivial
      exact hs.step free_lawful hallowed h

theorem free_sound (h : Sessions.Reachable (fun _ _ => True) Sessions.empty s) :
    (free : Constraint K V).Sound s := by
  induction h with
  | start => exact sound_empty trivial
  | step _ _ hstep ih => exact ih.free_step hstep

/-- When no transaction is open, only the committed state counts. -/
theorem Sound.of_closed (hs : (free : Constraint K V).Sound s)
    (hclosed : ∀ p ∈ s.phases, p = .closed) (hholds : c.Holds s.store.history.current) :
    c.Sound s where
  valid := hs.valid
  holds := hholds
  length := hs.length
  next := hs.next
  handles := hs.handles
  sessions _ _ p _ hp hne := absurd (hclosed p (List.mem_of_getElem? hp)) hne

end Constraint
end ToyDB.Mvcc
