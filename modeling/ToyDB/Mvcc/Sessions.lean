import ToyDB.Mvcc.Abstract
import ToyDB.Mvcc.Draft
import ToyDB.Mvcc.ScanView

/-!
# Concurrent sessions

Any number of transactions run scripts on one store, and the store calls of their scripts
interleave in any order. A transaction stays open when a script fails: it may run another one,
and commit or roll back. After a panic it can only be rolled back.
-/
namespace ToyDB.Mvcc
open ToyDB.Collections ToyDB.Effects ToyDB.Storage

/-- What a transaction is doing, and whether a script of it has failed. -/
inductive Phase (K V : Type) where
  | idle (failed : Bool)
  | busy (failed : Bool) (script : Script K V Unit)
  | panicked
  | closed

structure Sessions (K V : Type) [LinearOrder K] where
  store : World K V
  phases : List (Phase K V)

inductive Move (K V : Type) where
  | begin
  | start (i : ℕ) (script : Script K V Unit)
  /-- The next store call of the script, or its end. -/
  | advance (i : ℕ)
  | commit (i : ℕ)
  | rollback (i : ℕ)

variable {K V : Type}

def Phase.isClosed : Phase K V → Bool
  | closed => true
  | _ => false

/-- Idle, and no script has failed. -/
def Phase.isIdle : Phase K V → Bool
  | idle failed => !failed
  | _ => false

theorem Phase.eq_idle {p : Phase K V} (h : p.isIdle = true) : p = .idle false := by
  cases p with
  | idle failed =>
      cases failed with
      | false => rfl
      | true => cases h
  | _ => cases h

theorem Phase.eq_closed {p : Phase K V} (h : p.isClosed = true) : p = .closed := by
  cases p with
  | closed => rfl
  | _ => cases h

/-- A script has failed. -/
def Phase.stopped : Failure → Phase K V
  | .error _ => idle true
  | .panic _ => panicked

/-- A script goes on with the answer of its call, or has failed. -/
def Phase.continued {α : Type} (failed : Bool) (next : α → Script K V Unit) :
    Except Failure α → Phase K V
  | .ok a => busy failed (next a)
  | .error c => stopped c

variable [LinearOrder K]

namespace Sessions

def empty : Sessions K V := ⟨World.empty, []⟩

/-- The committed state. -/
def current (s : Sessions K V) : K → Option V := s.store.history.current

def advance (s : Sessions K V) (i : ℕ) (handle : Handle K V) (failed : Bool) :
    Script K V Unit → Sessions K V
  | .done (.ok _) => { s with phases := s.phases.set i (.idle failed) }
  | .done (.error c) => { s with phases := s.phases.set i (.stopped c) }
  | .get key next =>
      ⟨s.store.call (.get i key),
        s.phases.set i (.continued failed next (handle.state.get key s.store.engine).result)⟩
  | .scan range next =>
      let o := Script.scanAll handle.state range s.store.engine
      ⟨{ s.store with engine := o.state }, s.phases.set i (.continued failed next o.result)⟩
  | .write key value next =>
      ⟨s.store.call (.write i key value), s.phases.set i (.continued failed (fun _ => next)
        (handle.state.writeVersion key value s.store.engine).result)⟩

/-- The state after a move, if it is possible. -/
def step (s : Sessions K V) : Move K V → Option (Sessions K V)
  | .begin => some ⟨s.store.call .begin, s.phases ++ [.idle false]⟩
  | .start i script =>
      match s.phases[i]? with
      | some (.idle failed) => some { s with phases := s.phases.set i (.busy failed script) }
      | _ => none
  | .advance i =>
      match s.phases[i]?, s.store.handles[i]? with
      | some (.busy failed script), some handle => some (s.advance i handle failed script)
      | _, _ => none
  | .commit i =>
      match s.phases[i]? with
      | some (.idle _) => some ⟨s.store.call (.commit i), s.phases.set i .closed⟩
      | _ => none
  | .rollback i =>
      match s.phases[i]? with
      | some .closed | none => none
      | _ => some ⟨s.store.call (.rollback i), s.phases.set i .closed⟩

/-- The state after moves, if they are possible. -/
def run (s : Sessions K V) : List (Move K V) → Option (Sessions K V)
  | [] => some s
  | move :: moves => (s.step move).bind fun s' => s'.run moves

theorem run_append {s s' : Sessions K V} {moves moves' : List (Move K V)}
    (h : s.run (moves ++ moves') = some s') :
    ∃ t, s.run moves = some t ∧ t.run moves' = some s' := by
  induction moves generalizing s with
  | nil => exact ⟨s, rfl, h⟩
  | cons move moves ih =>
      obtain ⟨t, hstep, hrest⟩ := Option.bind_eq_some_iff.mp h
      obtain ⟨t', hrun, hlast⟩ := ih hrest
      exact ⟨t', by rw [run, hstep]; exact hrun, hlast⟩

/-- No script of the transaction failed, and it began `n` events ago, none of which is a
commit. -/
def undisturbed [DecidableEq V] (s : Sessions K V) (i n : ℕ) : Bool :=
  s.phases[i]?.any Phase.isIdle && s.store.handles[i]?.all fun handle =>
    handle.seen = s.store.history.drop n && (s.store.history.take n).all fun e => !e.isCommitted

/-- The states that permitted moves lead to. -/
inductive Reachable (Permits : Sessions K V → Move K V → Prop) (start : Sessions K V) :
    Sessions K V → Prop where
  | start : Reachable Permits start start
  | step {s s' : Sessions K V} {move : Move K V} : Reachable Permits start s → Permits s move →
      s.step move = some s' → Reachable Permits start s'

theorem Reachable.mono {Permits Permits' : Sessions K V → Move K V → Prop} {start s : Sessions K V}
    (h : Reachable Permits start s) (hp : ∀ s move, Permits s move → Permits' s move) :
    Reachable Permits' start s := by
  induction h with
  | start => exact .start
  | step _ hmove hstep ih => exact ih.step (hp _ _ hmove) hstep

theorem Reachable.run {Permits : Sessions K V → Move K V → Prop} {start s s' : Sessions K V}
    {moves : List (Move K V)} (h : Reachable Permits start s)
    (hp : ∀ move ∈ moves, ∀ s, Permits s move) (hrun : s.run moves = some s') :
    Reachable Permits start s' := by
  induction moves generalizing s with
  | nil =>
      obtain rfl := Option.some.inj hrun
      exact h
  | cons move moves ih =>
      obtain ⟨s₁, hstep, hrest⟩ := Option.bind_eq_some_iff.mp hrun
      exact ih (h.step (hp move List.mem_cons_self s) hstep)
        (fun m hm => hp m (List.mem_cons_of_mem _ hm)) hrest

end Sessions

/-- The committed state after one transaction with one write. -/
theorem Sessions.current_of_single {s : Sessions K V} {key : K} {value : V}
    (h : s.store.history = [.committed 1, .wrote 1 key (some value), .began 1]) :
    s.current key = some value ∧ ∀ k, k ≠ key → s.current k = none := by
  unfold Sessions.current
  rw [h]
  constructor
  · simp [History.current, History.snapshotRead, History.latest, History.next, History.status,
      History.written, List.range_succ]
  · intro k hk
    simp [History.current, History.snapshotRead, History.latest, History.next, History.status,
      History.written, List.range_succ, hk]

/-! ## Views -/

/-- All entries that the transaction reads. -/
def TransactionState.viewMap (t : TransactionState) (m : OrderedMap (Key K) (Value V)) :
    OrderedMap K V :=
  ⟨emitted (t.versionsIn (m.scan (Key.isVersion fun _ => true))), emitted_sorted versionsIn_sorted⟩

theorem TransactionState.get_viewMap {t : TransactionState} {m : OrderedMap (Key K) (Value V)}
    (h : Typed m) (k : K) : (t.viewMap m).get k = t.view m k := by
  apply Option.ext
  intro x
  rw [OrderedMap.get_eq_some_iff, view_eq_some_iff h]
  change (k, x) ∈ emitted _ ↔ _
  rw [mem_emitted versionsIn_sorted]
  simp only [mem_versionsIn, Key.isVersion, and_true]
  constructor
  · rintro ⟨u, hu, hmax⟩
    refine ⟨u, hu, fun u' hu' => ?_⟩
    obtain ⟨y, hy⟩ := Option.isSome_iff_exists.mp hu'
    exact hmax u' y hy
  · rintro ⟨u, hu, hmax⟩
    exact ⟨u, hu, fun u' y hy => hmax u' (by rw [hy]; rfl)⟩

namespace Handle
variable {handle : Handle K V} {h : History K V}

/-- A read-write transaction reads its writes over the state that it began with. -/
theorem Valid.read_eq_overlay (hv : handle.Valid h) (hl : h.Legal)
    (hro : handle.state.readOnly = false) (k : K) :
    handle.read h k = overlay handle.seen.current (h.written handle.state.version) k := by
  unfold Handle.read overlay History.current
  rw [hv.next_eq hl hro, hro, if_neg (by simp)]
  cases h.written handle.state.version k <;> rfl

end Handle

end ToyDB.Mvcc
