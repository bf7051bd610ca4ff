import Mathlib.Data.List.Perm.Basic
import ToyDB.Raft.Debts
import ToyDB.Raft.Safety

/-!
# Client requests

Every request is answered at most once at its node, its command is appended at most
once, and the response to a write is the result of applying the command where it was
committed.
-/
namespace ToyDB.Raft
open ToyDB.Consensus ToyDB.Effects

/-! ## Counting marks -/

def Mark.answers (id : RequestID) : Mark → Bool
  | event e => e.answers id
  | _ => false

/-- The mark is that of a leader about to append the command of the request. -/
def Mark.appends (id : RequestID) : Mark → Bool
  | event (.proposed x _ _) => x = id
  | _ => false

def Mark.submits (id : RequestID) : Mark → Bool
  | submitted x _ => x = id
  | _ => false

namespace World

/-- How often node `n` answered the request to its own client. -/
def answered (w : World) (n : NodeID) (id : RequestID) : ℕ :=
  w.trace.countP fun m => m.1 = n && m.2.answers id

/-- How often the client of node `n` submitted the request. -/
def submitted (w : World) (n : NodeID) (id : RequestID) : ℕ :=
  w.trace.countP fun m => m.1 = n && m.2.submits id

/-- How often any leader appended the command of the request. -/
def appended (w : World) (id : RequestID) : ℕ := w.trace.countP fun m => m.2.appends id

/-- How often the request was submitted at any node. -/
def submissions (w : World) (id : RequestID) : ℕ := w.trace.countP fun m => m.2.submits id

/-- How often the request is on its way to a leader. -/
def inflight (w : World) (id : RequestID) : ℕ := w.network.countP (Envelope.requests id)

end World

def Process.owed (id : RequestID) : Process → ℕ
  | up node _ => node.owed id
  | down _ => 0

/-- The events of a run cost the answers and the commands among them. -/
theorem sum_charge (id : RequestID) (es : List Event) : (es.map (charge id)).sum =
    (es.countP (Event.answers id), es.countP (Event.proposes id)) := by
  induction es with
  | nil => rfl
  | cons e es ih =>
      rw [List.map_cons, List.sum_cons, ih, List.countP_cons, List.countP_cons, charge]
      cases e.answers id <;> cases e.proposes id <;> simp [Nat.add_comm]

/-- A command is appended or sent to a leader. -/
theorem proposes_eq (id : RequestID) (e : Event) : (e.proposes id).toNat =
    (Mark.appends id (.event e)).toNat +
      (World.routed e).toList.countP (Envelope.requests id) := by
  cases e with
  | send env =>
      obtain ⟨sender, term, recipient, message⟩ := env
      cases message
      case clientResponse =>
        by_cases hr : recipient = sender <;>
          simp [World.routed, Event.proposes, Envelope.requests, Mark.appends, hr]
      case clientRequest x _ =>
        by_cases hx : x = id <;>
          simp [World.routed, Event.proposes, Envelope.requests, Mark.appends, hx]
      all_goals simp [World.routed, Event.proposes, Envelope.requests, Mark.appends]
  | proposed x index term => rfl
  | _ => simp [World.routed, Event.proposes, Mark.appends]

theorem countP_proposes (id : RequestID) (es : List Event) : es.countP (Event.proposes id) =
    (es.countP fun e => Mark.appends id (.event e)) +
      (es.filterMap World.routed).countP (Envelope.requests id) := by
  induction es with
  | nil => rfl
  | cons e es ih =>
      have he := proposes_eq id e
      have hnet : ((e :: es).filterMap World.routed).countP (Envelope.requests id) =
          (World.routed e).toList.countP (Envelope.requests id) +
            (es.filterMap World.routed).countP (Envelope.requests id) := by
        rw [List.filterMap_cons, ← List.countP_append]
        cases World.routed e <;> rfl
      have hif : ∀ b : Bool, (if b = true then 1 else 0) = b.toNat := fun b => by cases b <;> rfl
      rw [List.countP_cons, List.countP_cons, hif, hif, ih, hnet]
      omega

/-! ## Accounts of a run -/

/-- What each node answered and still owes, and the commands appended or on their
way, is covered by what was submitted. -/
structure Accounts (id : RequestID) (w : World) : Prop where
  answers : ∀ n, w.answered n id + (w.process n).owed id ≤ w.submitted n id
  commands : w.appended id + w.inflight id ≤ w.submissions id

section Accounts
variable {id : RequestID} {cfg : Config} {w w' : World}

/-- The marks that running a program adds, panics not counted. -/
theorem countP_marks {i : NodeID} {es : List Event} {trace trace' panics : List (NodeID × Mark)}
    (hpanics : ∀ m ∈ panics, ∃ message, m = (i, Mark.panicked message))
    (htrace : trace' = trace ++ es.map (fun e => (i, Mark.event e)) ++ panics)
    (p : NodeID × Mark → Bool) (hp : ∀ message, p (i, .panicked message) = false) :
    trace'.countP p = trace.countP p + es.countP fun e => p (i, .event e) := by
  have hzero : panics.countP p = 0 := List.countP_eq_zero.mpr fun m hm => by
    obtain ⟨message, rfl⟩ := hpanics m hm
    simp [hp]
  rw [htrace, List.countP_append, List.countP_append, hzero, List.countP_map]
  rfl

/-- Running a program that can pay from what is not spent yet keeps the accounts. -/
theorem Accounts.execute {i : NodeID} {disk : Disk} {startTerm : ℕ} {program : Action Node}
    {supply : List ℕ} {cut : Option ℕ} {g : ℕ × ℕ}
    (hprogram : Pays (charge id) program (fun node g' => node.owed id ≤ g'.1) g)
    (hothers : ∀ n ≠ i, w.answered n id + (w.process n).owed id ≤ w.submitted n id)
    (hi : w.answered i id + g.1 ≤ w.submitted i id)
    (hcommands : w.appended id + w.inflight id + g.2 ≤ w.submissions id) :
    Accounts id (w.execute i disk startTerm program supply cut) := by
  obtain ⟨k, panics, hpanics, htrace, hnetwork, hprocess, hown⟩ :=
    w.execute_cases i disk startTerm program supply cut
  set w' := w.execute i disk startTerm program supply cut
  set es := (program supply).events.take k
  have hcount := countP_marks hpanics htrace
  -- the budget covers the events, and what the node still owes
  have hpaid : es.countP (Event.answers id) + (w'.process i).owed id ≤ g.1 ∧
      es.countP (Event.proposes id) ≤ g.2 := by
    rcases hown with ⟨disk', hdown⟩ | ⟨node, hup, hres, hall⟩
    · obtain ⟨g', hg'⟩ := hprogram.cut supply k
      have := meter_spent hg'
      rw [sum_charge] at this
      subst this
      rw [hdown]
      exact ⟨Nat.le_add_right _ _, Nat.le_add_right _ _⟩
    · obtain ⟨g', hg', hpost⟩ := hprogram supply
      have := meter_spent hg'
      rw [sum_charge] at this
      subst this
      rw [hres] at hpost
      rw [hup, hall]
      exact ⟨Nat.add_le_add_left hpost _, Nat.le_add_right _ _⟩
  have hsubmitted : ∀ n, w'.submitted n id = w.submitted n id := fun n => by
    rw [World.submitted, hcount _ (by simp [Mark.submits])]
    simp [Mark.submits, World.submitted]
  have hsubmissions : w'.submissions id = w.submissions id := by
    rw [World.submissions, hcount _ (by simp [Mark.submits])]
    simp [Mark.submits, World.submissions]
  refine ⟨fun n => ?_, ?_⟩
  · rw [hsubmitted, World.answered, hcount _ (by simp [Mark.answers])]
    by_cases hn : n = i
    · subst hn
      have := hpaid.1
      simp only [decide_true, Bool.true_and]
      change w.answered n id + es.countP (Event.answers id) + _ ≤ _
      omega
    · rw [hprocess n hn]
      have hzero : (es.countP fun e => decide (i = n) && Mark.answers id (.event e)) = 0 :=
        List.countP_eq_zero.mpr fun e _ => by simp [Ne.symm hn]
      rw [hzero]
      exact hothers n hn
  · have hnet : w'.inflight id = w.inflight id +
        (es.filterMap World.routed).countP (Envelope.requests id) := by
      rw [World.inflight, hnetwork, List.countP_append, World.inflight]
    rw [hsubmissions, World.appended, hcount _ (by simp [Mark.appends]), hnet]
    have := hpaid.2
    rw [countP_proposes] at this
    change w.appended id + (es.countP fun e => Mark.appends id (.event e)) + _ ≤ _
    omega

theorem inflight_eraseIdx {position : ℕ} {msg : Envelope} (hn : w.network[position]? = some msg) :
    (w.network.eraseIdx position).countP (Envelope.requests id) + (msg.requests id).toNat =
      w.inflight id := by
  obtain ⟨hlt, hget⟩ := List.getElem?_eq_some_iff.mp hn
  have hp := (List.getElem_cons_eraseIdx_perm hlt).countP_eq (Envelope.requests id)
  rw [hget, List.countP_cons] at hp
  rw [World.inflight, ← hp]
  cases msg.requests id <;> simp

/-- A step with a message of the network. -/
theorem Accounts.deliver (ha : Accounts id w) {position : ℕ} {supply : List ℕ} {cut : Option ℕ}
    (hremote : ∀ env ∈ w.network, env.sender ≠ env.recipient)
    (hw : w.input cfg supply cut (.deliver position) = some w') : Accounts id w' := by
  simp only [World.input] at hw
  cases hn : w.network[position]? with
  | none => simp [hn] at hw
  | some msg =>
      simp only [hn, World.stepNode] at hw
      cases hp : w.process msg.recipient with
      | down disk => simp [hp] at hw
      | up node startTerm =>
          simp only [hp, Option.some.injEq] at hw
          subst hw
          have hdue : due id msg = (0, (msg.requests id).toNat) := by
            simp [due, hremote msg (List.mem_of_getElem? hn)]
          have herase : (w.network.eraseIdx _).countP (Envelope.requests id) + (msg.requests id).toNat =
              w.inflight id := inflight_eraseIdx hn
          have hown := ha.answers msg.recipient
          have hcmd := ha.commands
          rw [hp] at hown
          refine Accounts.execute (w := { w with network := w.network.eraseIdx position })
            (pays_step cfg.sm (g := (node.owed id, (msg.requests id).toNat)) ?_)
            (fun n _ => ha.answers n) hown ?_
          · rw [hdue]
            exact ⟨le_rfl, le_rfl⟩
          · change w.appended id + (w.network.eraseIdx position).countP (Envelope.requests id) +
              (msg.requests id).toNat ≤ w.submissions id
            omega

/-- A step with a request of the node's own client. -/
theorem Accounts.submit (ha : Accounts id w) {n : NodeID} {x : RequestID} {body : Request}
    {supply : List ℕ} {cut : Option ℕ}
    (hw : w.input cfg supply cut (.submit n x body) = some w') : Accounts id w' := by
  simp only [World.input] at hw
  cases hp : w.process n with
  | down disk => simp [hp] at hw
  | up node startTerm =>
      have hp' : (w.mark n [.submitted x body]).process n = .up node startTerm := hp
      simp only [hp, World.stepNode, hp', Option.some.injEq] at hw
      subst hw
      have hdue : due id ⟨n, node.term, n, .clientRequest x body⟩ =
          ((decide (x = id)).toNat, (decide (x = id)).toNat) := by
        simp [due, Envelope.requests]
      have hown := ha.answers n
      have hcmd := ha.commands
      rw [hp] at hown
      have hcount : ∀ p : NodeID × Mark → Bool,
          ((w.mark n [.submitted x body]).trace).countP p =
            w.trace.countP p + (p (n, .submitted x body)).toNat := fun p => by
        rw [World.mark_trace, List.countP_append]
        cases h : p (n, .submitted x body) <;> simp [h]
      refine Accounts.execute (pays_step cfg.sm
        (g := (node.owed id + (decide (x = id)).toNat, (decide (x = id)).toNat)) ?_)
        (fun m hm => ?_) ?_ ?_
      · rw [hdue]
        exact ⟨le_rfl, le_rfl⟩
      · have := ha.answers m
        rw [World.answered, World.submitted, hcount, hcount]
        simp only [Mark.answers, Mark.submits, Ne.symm hm, decide_false, Bool.and_false,
          Bool.false_and, Bool.toNat_false]
        exact this
      · rw [World.answered, World.submitted, hcount, hcount]
        simp only [Mark.answers, Mark.submits, decide_true, Bool.and_false, Bool.true_and,
          Bool.toNat_false]
        change w.answered n id + 0 + _ ≤ w.submitted n id + _
        simp only [Process.owed] at hown
        omega
      · rw [World.appended, World.submissions, hcount, hcount]
        simp only [Mark.appends, Mark.submits, Bool.toNat_false]
        change w.appended id + 0 + w.inflight id + _ ≤ w.submissions id + _
        omega

/-- An action does not duplicate a message. -/
def Move.single : Move → Bool
  | duplicate _ => false
  | _ => true

theorem Accounts.step (ha : Accounts id w) {m : Move} (hm : m.single)
    (hremote : ∀ env ∈ w.network, env.sender ≠ env.recipient) (hw : w.step cfg m = some w') :
    Accounts id w' := by
  cases m with
  | run input supply cut =>
      cases input with
      | start n commitIndex applied =>
          simp only [World.step, World.input] at hw
          cases hp : w.process n with
          | up node startTerm => simp [hp] at hw
          | down disk =>
              simp only [hp] at hw
              split_ifs at hw
              obtain rfl := Option.some.inj hw
              have hown := ha.answers n
              exact Accounts.execute (g := 0) (pays_new cfg.sm _ _ _ _ _)
                (fun m _ => ha.answers m) ((Nat.le_add_right _ _).trans hown) ha.commands
      | tick n =>
          simp only [World.step, World.input] at hw
          cases hp : w.process n with
          | down disk => simp [hp] at hw
          | up node startTerm =>
              simp only [hp, Option.some.injEq] at hw
              subst hw
              have hown := ha.answers n
              rw [hp] at hown
              exact Accounts.execute (g := (node.owed id, 0)) (pays_tick cfg.sm le_rfl)
                (fun m _ => ha.answers m) hown ha.commands
      | deliver position => exact ha.deliver hremote hw
      | submit n x body => exact ha.submit hw
  | crash n =>
      simp only [World.step] at hw
      cases hp : w.process n with
      | down disk => simp [hp] at hw
      | up node startTerm =>
          simp only [hp, Option.some.injEq] at hw
          subst hw
          refine ⟨fun m => ?_, ha.commands⟩
          change w.answered m id + Process.owed id (Function.update w.process n _ m) ≤
            w.submitted m id
          by_cases hm : m = n
          · subst hm
            rw [Function.update_self]
            exact (Nat.le_add_right _ _).trans (ha.answers m)
          · rw [Function.update_of_ne hm]
            exact ha.answers m
  | drop position =>
      obtain rfl := Option.some.inj hw
      refine ⟨ha.answers, (Nat.add_le_add_left ?_ _).trans ha.commands⟩
      exact (List.eraseIdx_sublist _ _).countP_le
  | duplicate position => cases hm

/-- The accounts of a run without duplicates. -/
theorem Accounts.run {h : History} (ha : Accounts id w) (hs : Describes cfg h w) {moves : List Move}
    (hm : ∀ m ∈ moves, m.single) (hw : World.run cfg w moves = some w') : Accounts id w' := by
  induction moves generalizing h w with
  | nil =>
      obtain rfl := Option.some.inj hw
      exact ha
  | cons m moves ih =>
      obtain ⟨v, hv, hw⟩ := Option.bind_eq_some_iff.mp hw
      obtain ⟨_, h₁, hc⟩ := hs.step hv
      exact ih (ha.step (hm m List.mem_cons_self) (fun env he => (hs.network env he).2) hv)
        hc.describes (fun m' hm' => hm m' (List.mem_cons_of_mem m hm')) hw

/-! ## Submissions -/

/-- The ID of the request that an action submits. -/
def Move.submitted : Move → Option RequestID
  | run (.submit _ x _) _ _ => some x
  | _ => none

theorem execute_submissions (w : World) (i : NodeID) (disk : Disk) (startTerm : ℕ)
    (program : Action Node) (supply : List ℕ) (cut : Option ℕ) :
    (w.execute i disk startTerm program supply cut).submissions id = w.submissions id := by
  obtain ⟨k, panics, hpanics, htrace, _⟩ := w.execute_cases i disk startTerm program supply cut
  rw [World.submissions, countP_marks hpanics htrace _ fun _ => rfl]
  simp [Mark.submits, World.submissions]

theorem step_submissions {m : Move} (hw : w.step cfg m = some w') :
    w'.submissions id = w.submissions id + (m.submitted.toList).count id := by
  have hnode : ∀ {v : World} {msg supply cut}, World.stepNode cfg v msg supply cut = some w' →
      w'.submissions id = v.submissions id := by
    intro v msg supply cut hw
    simp only [World.stepNode] at hw
    split at hw
    · obtain rfl := Option.some.inj hw
      exact execute_submissions _ _ _ _ _ _ _
    · cases hw
  cases m with
  | run input supply cut =>
      cases input with
      | start n commitIndex applied =>
          simp only [World.step, World.input] at hw
          split at hw
          · split_ifs at hw
            obtain rfl := Option.some.inj hw
            exact execute_submissions _ _ _ _ _ _ _
          · cases hw
      | tick n =>
          simp only [World.step, World.input] at hw
          split at hw
          · obtain rfl := Option.some.inj hw
            exact execute_submissions _ _ _ _ _ _ _
          · cases hw
      | deliver position =>
          simp only [World.step, World.input] at hw
          split at hw
          · exact hnode (v := { w with network := w.network.eraseIdx position }) hw
          · cases hw
      | submit n x body =>
          simp only [World.step, World.input] at hw
          split at hw
          · rw [hnode hw, World.submissions, World.mark_trace, List.countP_append]
            by_cases hx : x = id <;> simp [World.submissions, Mark.submits, Move.submitted, hx]
          · cases hw
  | crash n =>
      simp only [World.step] at hw
      split at hw
      · obtain rfl := Option.some.inj hw
        rfl
      · cases hw
  | drop position =>
      obtain rfl := Option.some.inj hw
      rfl
  | duplicate position =>
      simp only [World.step] at hw
      split at hw
      · obtain rfl := Option.some.inj hw
        rfl
      · cases hw

theorem run_submissions {moves : List Move} (hw : World.run cfg w moves = some w') :
    w'.submissions id = w.submissions id + (moves.filterMap Move.submitted).count id := by
  induction moves generalizing w with
  | nil =>
      obtain rfl := Option.some.inj hw
      rfl
  | cons m moves ih =>
      obtain ⟨v, hv, hw⟩ := Option.bind_eq_some_iff.mp hw
      rw [ih hw, step_submissions hv, List.filterMap_cons]
      cases m.submitted with
      | none => simp
      | some x => simp [List.count_cons]; omega

end Accounts

/-! ## The result of a write -/

section Writes
variable {cfg : Config} {h h₀ : History} {trace : List (NodeID × Mark)}

/-- What a leader has committed, it has logged. -/
theorem commits_traced (hi : h₀.Inv cfg.memberSet) (hp : (traceSystem cfg).Path h₀ trace h)
    (n : NodeID) (T : ℕ) : (h.core n).commitTo T = (h₀.core n).commitTo T ∨
      ∃ log h₁, (n, .event (.logged log)) ∈ trace ∧ log.commitIndex = (h.core n).commitTo T ∧
        log.commitIndex ≤ log.entries.length ∧ log.entries = (h₁.core n).full T ∧
        (h₁.core n).commitTo T = (h.core n).commitTo T ∧ h₁.Inv cfg.memberSet ∧
        History.Grows h₁ h := by
  induction hp with
  | refl h => exact Or.inl rfl
  | @silent h₀ h₁ h₂ es hs hp ih =>
      obtain ⟨j, _, hm, hsh⟩ := hs
      rcases ih (hm.inv hi) with heq | hr
      swap
      · exact Or.inr hr
      refine Or.inl (heq.trans ?_)
      by_cases hj : n = j
      · subst hj
        rcases hsh.commit T with hc | ⟨_, hnone, _⟩
        · exact hc
        · cases hnone
      · rw [(hm.same hj).core]
  | @visible h₀ h₁ h₂ m es hv hp ih =>
      obtain ⟨j, mark⟩ := m
      obtain ⟨hmem, hm, hv⟩ := hv
      dsimp only at hm hv
      rcases ih (hm.inv hi) with heq | ⟨log, hl, hmem, hr⟩
      swap
      · exact Or.inr ⟨log, hl, List.mem_cons_of_mem _ hmem, hr⟩
      by_cases hj : n = j
      swap
      · exact Or.inl (heq.trans (by rw [(hm.same hj).core]))
      subst hj
      cases mark with
      | submitted y body =>
          obtain rfl : h₁ = h₀.submit n y body := hv
          exact Or.inl heq
      | panicked message =>
          obtain rfl : h₁ = h₀ := hv
          exact Or.inl heq
      | event e =>
          rcases hv.2.commit T with hc | ⟨log, he, _, hindex, hentries⟩
          · exact Or.inl (heq.trans hc)
          · obtain rfl : e = .logged log := Option.some.inj he
            exact Or.inr ⟨log, h₁, List.mem_cons_self, hindex.trans heq.symm, hv.1.2.1, hentries,
              heq.symm, hm.inv hi, (trace_grows (hm.inv hi) hp).2⟩

/-- A chosen prefix is committed in a log of the trace. -/
theorem chosen_logged (hp : (traceSystem cfg).Path History.init trace h) {T : ℕ} {p : List Entry}
    (hc : Chosen h.core T p) (hne : p ≠ []) :
    ∃ m log, (m, .event (.logged log)) ∈ trace ∧ p <+: log.entries.take log.commitIndex := by
  obtain rfl | ⟨m, U, _, hled, hpre⟩ := hc
  · exact absurd rfl hne
  rcases commits_traced (History.inv_init _) hp m U with h0 | ⟨log, h₁, hmem, hindex, hle, hentries, hto,
    hi₁, hg⟩
  · have hzero : (h.core m).commitTo U = 0 := h0
    rw [hzero, List.take_zero, List.prefix_nil] at hpre
    exact absurd hpre hne
  · refine ⟨m, log, hmem, ?_⟩
    rw [← hindex] at hpre
    rcases Nat.eq_zero_or_pos log.commitIndex with h0 | h0
    · rw [h0, List.take_zero, List.prefix_nil] at hpre
      exact absurd hpre hne
    · have hled₁ := (hi₁.core.commit_quorum (by rw [hto, ← hindex]; exact h0)).1
      obtain ⟨t, ht⟩ := (hg.core m).full hled₁
      rwa [← ht, ← hentries, List.take_append_of_le_length hle] at hpre

end Writes

/-! ## Client requests -/

/-- No message is delivered twice. -/
def WithoutDuplication (moves : List Move) : Prop := ∀ m ∈ moves, m.single

/-- Every request has its own ID. -/
def UniqueRequests (moves : List Move) : Prop := (moves.filterMap Move.submitted).Nodup

/-- A leader appended the entry, which a node logged, for the request. -/
def AppendedFor (trace : List (NodeID × Mark)) (id : RequestID) (e : Entry) : Prop :=
  (∃ l, (l, Mark.event (.proposed id e.index e.term)) ∈ trace) ∧
    ∃ n log, (n, Mark.event (.logged log)) ∈ trace ∧ e ∈ log.entries

/-- The response is the result of the entry that was appended for the write of the client
of the node, where the entry is committed, in a run whose trace so far is `before`. -/
def Committed.Answers (sm : StateMachine) (before : List (NodeID × Mark)) (n : NodeID)
    (id : RequestID) (r : Bytes) : Prop :=
  ∃ c p e m log, (n, Mark.submitted id (.write c)) ∈ before ∧ e.command = some c ∧
    AppendedFor before id e ∧ (m, Mark.event (.logged log)) ∈ before ∧
    p ++ [e] <+: log.entries.take log.commitIndex ∧ sm.result p e = .ok r

/-- Of the elements that satisfy a predicate at most once, two are the same. -/
theorem eq_of_countP_le_one {α : Type} {p : α → Bool} {l : List α} (h : l.countP p ≤ 1) {a b : α}
    (ha : a ∈ l) (hpa : p a) (hb : b ∈ l) (hpb : p b) : a = b := by
  obtain ⟨pre, post, rfl⟩ := List.append_of_mem ha
  rw [List.countP_append, List.countP_cons_of_pos hpa] at h
  have hpre : b ∉ pre := fun hmem => by
    have := List.countP_pos_iff.mpr ⟨b, hmem, hpb⟩
    omega
  have hpost : b ∉ post := fun hmem => by
    have := List.countP_pos_iff.mpr ⟨b, hmem, hpb⟩
    omega
  simpa [hpre, hpost, eq_comm] using hb

/-- Every request is answered at most once at its node. Every command in a log was
appended for a write request, each of which has at most one entry. The response to a
write is the result of its entry where it was committed. -/
theorem client_requests {cfg : Config} {w : World} {moves : List Move}
    (hr : World.run cfg World.init moves = some w) (hdup : WithoutDuplication moves)
    (huniq : UniqueRequests moves) :
    (∀ n id, w.answered n id ≤ w.submitted n id ∧ w.submitted n id ≤ 1) ∧
    (∀ id, w.appended id ≤ 1) ∧
    (∀ id e e', AppendedFor w.trace id e → AppendedFor w.trace id e' → e = e') ∧
    (∀ n log e c, (n, Mark.event (.logged log)) ∈ w.trace → e ∈ log.entries →
      e.command = some c →
      ∃ id m, AppendedFor w.trace id e ∧ (m, Mark.submitted id (.write c)) ∈ w.trace) ∧
    ∀ before after n env id r, w.trace = before ++ (n, .event (.send env)) :: after →
      env.recipient = n → env.message = .clientResponse id (.ok (.write r)) →
      Committed.Answers cfg.sm before n id r := by
  have hinit : ∀ id, Accounts id World.init := fun id => ⟨fun n => le_rfl, le_rfl⟩
  have haccounts : ∀ id, Accounts id w := fun id => (hinit id).run describes_init hdup hr
  have honce : ∀ id, w.submissions id ≤ 1 := fun id => by
    rw [run_submissions hr]
    simpa [World.submissions, World.init] using List.nodup_iff_count_le_one.mp huniq id
  have happended : ∀ id, w.appended id ≤ 1 := fun id =>
    (Nat.le_add_right _ _).trans ((haccounts id).commands.trans (honce id))
  obtain ⟨h, hp, hs⟩ := World.Reachable.describes ⟨moves, hr⟩
  refine ⟨fun n id => ⟨?_, ?_⟩, happended, ?_, ?_, ?_⟩
  · exact (Nat.le_add_right _ _).trans ((haccounts id).answers n)
  · refine le_trans (List.countP_mono_left fun m _ h => ?_) (honce id)
    simp only [Bool.and_eq_true] at h
    exact h.2
  · rintro id e e' ⟨⟨l, hl⟩, n, log, hlog, he⟩ ⟨⟨l', hl'⟩, n', log', hlog', he'⟩
    have hmark := eq_of_countP_le_one (happended id) hl (by simp [Mark.appends]) hl'
      (by simp [Mark.appends])
    simp only [Prod.mk.injEq, Mark.event.injEq, Event.proposed.injEq] at hmark
    exact logged_unique hs.inv hp hlog hlog' he he' hmark.2.2.1 hmark.2.2.2
  · intro n log e c hlog he hc
    obtain ⟨l, m, id, hmark, hreq⟩ := (logged_grounded hp hlog).2.2 e he c hc
    exact ⟨id, m, ⟨⟨l, (marked_traced hp hmark).resolve_left fun h => h⟩, n, log, hlog, he⟩,
      (requests_traced hp hreq).resolve_left fun h => h⟩
  · intro before after n env id r ht hrec hmsg
    rw [ht] at hp
    obtain ⟨h₁, h₂, hpre, _, hv, hi₂, _, _, _⟩ := trace_at (History.inv_init _) hp
    obtain ⟨hmem, hm, ⟨_, hsent, _⟩, hsh⟩ := hv
    have hmeans := hsent.means
    rw [hmsg] at hmeans
    obtain ⟨T, p, e, c, l, hch, hcmd, hreq, hmark, hres⟩ := hmeans.1
    -- the history up to the response ends with that event, which shows no commitment
    have hp₂ : (traceSystem cfg).Path History.init (before ++ [(n, .event (.send env))]) h₂ :=
      hpre.append (.visible ⟨hmem, hm, ⟨‹_›, hsent, ‹_›⟩, hsh⟩ (.refl _))
    obtain ⟨m, log, hlog, hpl⟩ := chosen_logged hp₂ hch (by simp)
    rw [hrec] at hreq
    have hlog' : (m, Mark.event (.logged log)) ∈ before := by simpa using hlog
    have he : e ∈ log.entries := (hpl.trans (List.take_prefix _ _)).subset (by simp)
    refine ⟨c, p, e, m, log, ?_, hcmd, ⟨⟨l, ?_⟩, m, log, hlog', he⟩, hlog', hpl, hres⟩
    · simpa using (requests_traced hp₂ hreq).resolve_left fun h => h
    · simpa using (marked_traced hp₂ hmark).resolve_left fun h => h

/-- A write that node 1 appends, node 2 acknowledges and node 1 answers. -/
theorem client_requests_three : WithoutDuplication (Move.election ++
      [Move.submit 1 7 (.write [5]), Move.deliver 4, Move.deliver 5]) ∧
    ∃ before, Committed.Answers .echo before 1 7 [5] := by
  have hr := World.run_after (c := .three)
    (m := Move.election ++ [Move.submit 1 7 (.write [5]), Move.deliver 4, Move.deliver 5]) (by decide +kernel)
  have hdup : WithoutDuplication (Move.election ++
      [Move.submit 1 7 (.write [5]), Move.deliver 4, Move.deliver 5]) := by
    unfold WithoutDuplication
    decide +kernel
  have huniq : UniqueRequests (Move.election ++
      [Move.submit 1 7 (.write [5]), Move.deliver 4, Move.deliver 5]) := by
    unfold UniqueRequests
    decide +kernel
  have hsent : (1, Mark.event (.send ⟨1, 1, 1, .clientResponse 7 (.ok (.write [5]))⟩)) ∈
      (World.after .three (Move.election ++
        [Move.submit 1 7 (.write [5]), Move.deliver 4, Move.deliver 5])).trace := by decide +kernel
  obtain ⟨before, after, ht⟩ := List.append_of_mem hsent
  obtain ⟨_, _, _, _, hanswers⟩ := client_requests hr hdup huniq
  exact ⟨hdup, before, hanswers before after 1 _ 7 [5] ht rfl rfl⟩

end ToyDB.Raft
