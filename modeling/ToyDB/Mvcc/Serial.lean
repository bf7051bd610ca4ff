import ToyDB.Mvcc.Constraints

/-!
# Transactions one after another

If a transaction begins only when no other one is open, the state that it began with is
still the committed one when it commits. Its writes then need to be compatible with that
state only.
-/
namespace ToyDB.Mvcc
open ToyDB.Collections

variable {K V : Type} [LinearOrder K]

/-- At most one transaction is open, and it began with the committed state. -/
structure Sessions.Alone (s : Sessions K V) : Prop where
  unique {i j : ℕ} {p q : Phase K V} : s.phases[i]? = some p → s.phases[j]? = some q →
    p ≠ .closed → q ≠ .closed → i = j
  seen {i : ℕ} {handle : Handle K V} {p : Phase K V} : s.store.handles[i]? = some handle →
    s.phases[i]? = some p → p ≠ .closed → handle.seen.current = s.current

namespace Sessions
variable {s s' : Sessions K V} {i j : ℕ} {p p' q : Phase K V} {handle : Handle K V}

theorem alone_empty : (empty : Sessions K V).Alone where
  unique hi := nomatch hi
  seen hi := nomatch hi

theorem phases_set (h : s.phases[i]? = some p) (hp : p ≠ .closed)
    (hj : (s.phases.set i q)[j]? = some p') (hp' : p' ≠ .closed) (hs : s.Alone) : j = i := by
  by_contra hne
  rw [List.getElem?_set_ne fun h => hne h.symm] at hj
  exact hne (hs.unique hj h hp' hp)

/-- The open transaction goes on, and the committed state stays the same. -/
theorem Alone.set (hs : s.Alone) (hi : s.phases[i]? = some p) (hp : p ≠ .closed)
    {store : World K V} (hhandles : store.handles = s.store.handles)
    (hcurrent : store.history.current = s.current) : Alone ⟨store, s.phases.set i q⟩ := by
  constructor
  · intro j k p₁ p₂ hj hk h₁ h₂
    rw [phases_set hi hp hj h₁ hs, phases_set hi hp hk h₂ hs]
  · intro j handle p' hj hphase hp'
    obtain rfl := phases_set hi hp hphase hp' hs
    change handle.seen.current = store.history.current
    rw [hcurrent]
    exact hs.seen (hhandles ▸ hj) hi hp

/-- The open transaction ends. -/
theorem Alone.close (hs : s.Alone) (hi : s.phases[i]? = some p) (hp : p ≠ .closed)
    {store : World K V} : Alone ⟨store, s.phases.set i .closed⟩ := by
  have hnone : ∀ {j : ℕ} {p' : Phase K V}, (s.phases.set i .closed)[j]? = some p' → p' ≠ .closed → False := by
    intro j p' hj hp'
    obtain rfl := phases_set hi hp hj hp' hs
    rw [List.getElem?_set_self (List.getElem?_eq_some_iff.mp hi).1] at hj
    exact hp' (Option.some.inj hj).symm
  constructor
  · intro j k p₁ p₂ hj hk h₁ h₂
    exact (hnone hj h₁).elim
  · intro j handle p' _ hj hp'
    exact (hnone hj hp').elim

end Sessions

namespace Constraint
open Sessions
variable {c : Constraint K V} {s s' : Sessions K V} {i : ℕ} {handle : Handle K V}

/-- Transactions begin when no other one is open, scripts are started as allowed, and no
transaction with a failed script commits. -/
def Serial (c : Constraint K V) (s : Sessions K V) : Move K V → Prop
  | .begin => ∀ p ∈ s.phases, p = .closed
  | .start i script => ∀ handle ∈ s.store.handles[i]?,
      c.Allowed (handle.state.viewMap s.store.engine) script
  | .commit i => s.phases[i]? = some (.idle false)
  | _ => True

/-- A transaction that begins alone. -/
theorem Sound.alone_begin (hs : c.Sound s) (hclosed : ∀ p ∈ s.phases, p = .closed) :
    Alone ⟨s.store.call .begin, s.phases ++ [.idle false]⟩ := by
  have houtline := hs.valid.call_outline .begin
  have hhandles : (s.store.call .begin).handles = s.store.handles ++
      [⟨⟨s.store.history.next, false, s.store.history.activeSet⟩, s.store.history⟩] :=
    congrArg Outline.handles houtline
  have hhistory : (s.store.call .begin).history = .began s.store.history.next :: s.store.history :=
    congrArg Outline.history houtline
  have hlast : ∀ {j : ℕ} {p : Phase K V}, (s.phases ++ [.idle false])[j]? = some p → p ≠ .closed → j = s.phases.length := by
    intro j p hj hp
    obtain hj | ⟨hj, -⟩ := getElem?_concat hj
    · exact absurd (hclosed p (List.mem_of_getElem? hj)) hp
    · exact hj
  constructor
  · intro j k p q hj hk hp hq
    rw [hlast hj hp, hlast hk hq]
  · intro j handle p hj hphase hp
    rw [hhandles] at hj
    have hlength := hs.length
    have hnew := hlast hphase hp
    obtain hj | ⟨-, rfl⟩ := getElem?_concat hj
    · have hlt := (List.getElem?_eq_some_iff.mp hj).1
      omega
    · unfold Sessions.current
      rw [hhistory]
      exact (funext fun _ => History.current_began hs.valid.legal).symm

/-- The call of a script opens and commits nothing. -/
theorem Sound.advance_current (hs : c.Sound s) (hi : s.store.handles[i]? = some handle)
    {failed : Bool} {script : Script K V Unit}
    (ho : c.Open s.store.history handle (.busy failed script)) :
    ∃ store q, s.advance i handle failed script = ⟨store, s.phases.set i q⟩ ∧
      store.handles = s.store.handles ∧ store.history.current = s.current := by
  have houtline : ∀ {store : World K V}, store.outline = s.store.outline →
      store.handles = s.store.handles ∧ store.history.current = s.current :=
    fun h => ⟨congrArg Outline.handles h, congrArg (fun o => o.history.current) h⟩
  cases script with
  | done result =>
      cases result with
      | ok a => exact ⟨s.store, .idle failed, rfl, rfl, rfl⟩
      | error e => exact ⟨s.store, .stopped e, rfl, rfl, rfl⟩
  | get key next => exact ⟨_, _, rfl, houtline (hs.valid.call_outline _)⟩
  | scan range next => exact ⟨_, _, rfl, rfl, rfl⟩
  | write key value next =>
      refine ⟨_, _, rfl, ?_⟩
      have hro := (hs.handles i handle hi).2
      have hvalid := hs.call_valid hi ho
        (show s.store.handleOf (.write i key value) = _ from rfl) fun _ => by simp
      have houtline' := hs.valid.call_outline (.write i key value)
      rw [Outline.call_write (show s.store.outline.handles[i]? = some handle from hi)] at houtline'
      simp only [Outline.use] at houtline'
      split_ifs at houtline' with hc
      · exact houtline houtline'
      · rw [Outline.happened, hro, if_neg (by simp)] at houtline'
        have hhistory : (s.store.call (.write i key value)).history =
            .wrote handle.state.version key value :: s.store.history :=
          congrArg Outline.history houtline'
        have hlegal := hvalid.legal
        refine ⟨congrArg Outline.handles houtline', ?_⟩
        rw [hhistory] at hlegal ⊢
        exact funext fun _ => History.current_wrote hs.valid.legal ho.active hlegal

theorem Sound.alone_step (hs : c.Sound s) (ha : s.Alone) {move : Move K V} (hp : c.Serial s move)
    (h : s.step move = some s') : s'.Alone := by
  cases move with
  | begin =>
      obtain rfl := Option.some.inj h
      exact hs.alone_begin hp
  | start i script =>
      simp only [Sessions.step] at h
      split at h
      · next hphase =>
          obtain rfl := Option.some.inj h
          exact ha.set hphase (by simp) rfl rfl
      · cases h
  | advance i =>
      simp only [Sessions.step] at h
      split at h
      · next failed script handle hphase hi =>
          obtain rfl := Option.some.inj h
          obtain ⟨store, q, heq, hhandles, hcurrent⟩ :=
            hs.advance_current hi (hs.sessions i handle _ hi hphase (by simp))
          rw [heq]
          exact ha.set hphase (by simp) hhandles hcurrent
      · cases h
  | commit i =>
      simp only [Sessions.step] at h
      split at h
      · next hphase =>
          obtain rfl := Option.some.inj h
          exact ha.close hphase (by simp)
      · cases h
  | rollback i =>
      simp only [Sessions.step] at h
      split at h
      · cases h
      · cases h
      · next p hclosed hphase =>
          obtain rfl := Option.some.inj h
          cases hphase' : s.phases[i]? with
          | none => exact absurd hphase' hphase
          | some p =>
              refine ha.close hphase' ?_
              rintro rfl
              exact hclosed hphase'

/-- A move of a serial run is permitted if writes are compatible with the state that their
transaction began with. -/
theorem Serial.permits (hself : ∀ S W, c.Compatible S S W) (ha : s.Alone)
    {move : Move K V} (hp : c.Serial s move) : c.Permits s move := by
  cases move with
  | begin | advance | rollback => trivial
  | start i script => exact hp
  | commit i =>
      refine ⟨hp, fun handle hi => ?_⟩
      rw [ha.seen hi hp (by simp)]
      exact hself _ _

/-- A lawful constraint holds throughout a serial run. -/
theorem Lawful.serial (hc : c.Lawful) (hself : ∀ S W, c.Compatible S S W)
    (hempty : c.Holds fun _ => none) (h : Sessions.Reachable c.Serial Sessions.empty s) :
    c.Sound s ∧ s.Alone := by
  induction h with
  | start => exact ⟨sound_empty hempty, alone_empty⟩
  | step _ hp hstep ih =>
      obtain ⟨hs, ha⟩ := ih
      exact ⟨hs.step hc (hp.permits hself ha) hstep, hs.alone_step ha hp hstep⟩

end Constraint
end ToyDB.Mvcc
