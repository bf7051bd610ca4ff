import Mathlib.Logic.Relation
import ToyDB.Consensus.Invariant
import ToyDB.Raft.Cluster

/-!
# The history of a cluster

The abstract state behind a run: the replication history of `Consensus`, and for
each node the terms in which it followed a leader, the read requests it received
as leader, the read sequence numbers it confirmed, the client requests submitted
to it, and the reads it executed and the commands it appended. A node changes its
own part only, and every part but the current term and log only grows. The predicates below say what the durable state, the
messages and the events of a node mean in terms of the history.
-/
namespace ToyDB.Raft
open ToyDB.Consensus ToyDB.Effects

instance : Stamped Entry := ⟨Entry.term⟩

@[simp] theorem stamped_term (e : Entry) : Consensus.term e = e.term := rfl

/-- Every entry is stored at its own index. -/
def Indexed (l : List Entry) : Prop := ∀ j e, l[j]? = some e → e.index = j + 1

structure History where
  core : Consensus.State NodeID Entry
  follows : NodeID → ℕ → Bool
  reads : NodeID → ℕ → List Read
  confirmed : NodeID → ℕ → ℕ
  requests : NodeID → RequestID → Request → Prop
  marked : NodeID → Event → Prop

/-- Every command in the log is that of a write request, for which a leader appended
the entry. -/
def Accounted (h : History) (l : List Entry) : Prop :=
  ∀ e ∈ l, ∀ c, e.command = some c →
    ∃ n m id, h.marked n (.proposed id e.index e.term) ∧ h.requests m id (.write c)

theorem Accounted.append {h : History} {l l' : List Entry} (hl : Accounted h l)
    (hl' : Accounted h l') : Accounted h (l ++ l') := fun e he =>
  (List.mem_append.mp he).elim (hl e) (hl' e)

theorem Accounted.initial {h : History} {l l' : List Entry} (hl : Accounted h l) (hp : l' <+: l) :
    Accounted h l' := fun e he => hl e (hp.subset he)

namespace History

def init : History where
  core := fun _ => Local.fresh
  follows := fun _ _ => false
  reads := fun _ _ => []
  confirmed := fun _ _ => 0
  requests := fun _ _ _ => False
  marked := fun _ _ => False

/-- Replaces the value of one node in one term. -/
def set {α : Type} (f : NodeID → ℕ → α) (i : NodeID) (T : ℕ) (x : α) : NodeID → ℕ → α :=
  fun n U => if n = i ∧ U = T then x else f n U

@[simp] theorem set_self {α : Type} (f : NodeID → ℕ → α) (i : NodeID) (T : ℕ) (x : α) :
    set f i T x i T = x := by simp [set]

theorem set_node {α : Type} (f : NodeID → ℕ → α) {i n : NodeID} (T U : ℕ) (x : α)
    (h : n ≠ i) : set f i T x n U = f n U := by simp [set, h]

/-- The history after node `i` emitted the event. -/
def mark (h : History) (i : NodeID) (e : Event) : History :=
  { h with marked := fun n x => h.marked n x ∨ n = i ∧ x = e }

/-- What node `i` can add to the history. -/
inductive Move (members : Finset NodeID) (i : NodeID) (h : History) : History → Prop where
  | core (c : Consensus.State NodeID Entry) : Step members i h.core c → Indexed (c i).log →
      Accounted h (c i).log → Move members i h { h with core := c }
  | follow (m : NodeID) : Led h.core m (h.core i).term → m ≠ i →
      Move members i h { h with follows := set h.follows i (h.core i).term true }
  | request (read : Read) : Led h.core i (h.core i).term →
      Move members i h { h with
        reads := set h.reads i (h.core i).term (h.reads i (h.core i).term ++ [read]) }
  | confirm (m : NodeID) (seq : ℕ) : Led h.core m (h.core i).term →
      seq ≤ (h.reads m (h.core i).term).length →
      Move members i h { h with
        confirmed := set h.confirmed i (h.core i).term
          (max (h.confirmed i (h.core i).term) seq) }
  | submit (id : RequestID) (request : Request) :
      Move members i h { h with
        requests := fun n x r => h.requests n x r ∨ n = i ∧ x = id ∧ r = request }
  | mark (e : Event) : Move members i h (h.mark i e)

/-- What holds of every history. -/
structure Inv (members : Finset NodeID) (h : History) : Prop where
  core : Consensus.Inv members h.core
  log_indexed : ∀ n, Indexed (h.core n).log
  full_indexed : ∀ n T, Led h.core n T → Indexed ((h.core n).full T)
  log_accounted : ∀ n, Accounted h (h.core n).log
  full_accounted : ∀ n T, Led h.core n T → Accounted h ((h.core n).full T)
  follows_led : ∀ {n T}, h.follows n T = true → T ≤ (h.core n).term ∧ ∃ m, m ≠ n ∧ Led h.core m T
  reads_led : ∀ {n T}, h.reads n T ≠ [] → Led h.core n T
  confirmed_le : ∀ {n T}, 0 < h.confirmed n T →
    T ≤ (h.core n).term ∧ ∃ m, Led h.core m T ∧ h.confirmed n T ≤ (h.reads m T).length

theorem inv_init (members : Finset NodeID) : Inv members init where
  core := Consensus.inv_init
  log_indexed := by simp [init, Local.fresh, Indexed]
  full_indexed := by simp [init, Local.fresh, Led]
  log_accounted := by simp [init, Local.fresh, Accounted]
  full_accounted := by simp [init, Local.fresh, Led]
  follows_led := by simp [init]
  reads_led := by simp [init]
  confirmed_le := by simp [init]

/-- The history is continued. A confirmation added meanwhile is for a term that
the node had not left at the beginning. -/
structure Grows (h h' : History) : Prop where
  core : Consensus.Grows h.core h'.core
  follows : ∀ {n T}, h.follows n T = true → h'.follows n T = true
  reads : ∀ n T, h.reads n T <+: h'.reads n T
  confirmed : ∀ n T, h.confirmed n T ≤ h'.confirmed n T
  requests : ∀ {n id r}, h.requests n id r → h'.requests n id r
  marked : ∀ {n e}, h.marked n e → h'.marked n e
  fresh : ∀ n T, h'.confirmed n T = h.confirmed n T ∨ (h.core n).term ≤ T

theorem Grows.refl (h : History) : Grows h h where
  core := Consensus.Grows.refl _
  follows hf := hf
  reads _ _ := List.prefix_rfl
  confirmed _ _ := le_rfl
  requests hr := hr
  marked hm := hm
  fresh _ _ := Or.inl rfl

theorem Grows.trans {h h' h'' : History} (a : Grows h h') (b : Grows h' h'') : Grows h h'' where
  core := a.core.trans b.core
  follows hf := b.follows (a.follows hf)
  reads n T := (a.reads n T).trans (b.reads n T)
  confirmed n T := (a.confirmed n T).trans (b.confirmed n T)
  requests hr := b.requests (a.requests hr)
  marked hm := b.marked (a.marked hm)
  fresh n T := by
    rcases b.fresh n T with hb | hb
    · rw [hb]
      exact a.fresh n T
    · exact Or.inr ((a.core n).term.trans hb)

theorem Grows.accounted {h h' : History} (hg : Grows h h') {l : List Entry}
    (hl : Accounted h l) : Accounted h' l := fun e he c hc => by
  obtain ⟨n, m, id, hmark, hreq⟩ := hl e he c hc
  exact ⟨n, m, id, hg.marked hmark, hg.requests hreq⟩

/-- Node `n` has the same part in both histories. -/
structure Same (n : NodeID) (h h' : History) : Prop where
  core : h'.core n = h.core n
  follows : h'.follows n = h.follows n
  reads : h'.reads n = h.reads n
  confirmed : h'.confirmed n = h.confirmed n

theorem Same.refl (n : NodeID) (h : History) : Same n h h := ⟨rfl, rfl, rfl, rfl⟩

theorem Same.trans {n : NodeID} {h h' h'' : History} (a : Same n h h') (b : Same n h' h'') :
    Same n h h'' :=
  ⟨b.core.trans a.core, b.follows.trans a.follows, b.reads.trans a.reads,
    b.confirmed.trans a.confirmed⟩

section Moves
variable {members : Finset NodeID} {i : NodeID} {h h' : History}

theorem Move.same (hm : Move members i h h') {n : NodeID} (hn : n ≠ i) : Same n h h' := by
  cases hm with
  | core c hs =>
      refine ⟨?_, rfl, rfl, rfl⟩
      cases hs <;> exact Function.update_of_ne hn _ _
  | follow m hl hne => exact ⟨rfl, funext fun U => set_node _ _ _ _ hn, rfl, rfl⟩
  | request read hl => exact ⟨rfl, rfl, funext fun U => set_node _ _ _ _ hn, rfl⟩
  | confirm m seq hl hle => exact ⟨rfl, rfl, rfl, funext fun U => set_node _ _ _ _ hn⟩
  | submit id request => exact ⟨rfl, rfl, rfl, rfl⟩
  | mark e => exact ⟨rfl, rfl, rfl, rfl⟩

theorem Move.grows (hi : Inv members h) (hm : Move members i h h') : Grows h h' := by
  have hr := Grows.refl h
  cases hm with
  | core c hs => exact { hr with core := (hs.change hi.core).grows, fresh := fun _ _ => Or.inl rfl }
  | follow m hl hne =>
      refine { hr with follows := fun {n T} hf => ?_, fresh := fun _ _ => Or.inl rfl }
      simp only [set]
      split_ifs <;> first | rfl | exact hf
  | request read hl =>
      refine { hr with reads := fun n T => ?_, fresh := fun _ _ => Or.inl rfl }
      simp only [set]
      split_ifs with hnT
      · rw [hnT.1, hnT.2]
        exact List.prefix_append _ _
      · exact List.prefix_rfl
  | confirm m seq hl hle =>
      refine { hr with confirmed := fun n T => ?_, fresh := fun n T => ?_ }
      · simp only [set]
        split_ifs with hnT
        · rw [hnT.1, hnT.2]
          exact le_max_left _ _
        · exact le_rfl
      · simp only [set]
        split_ifs with hnT
        · exact Or.inr (by rw [hnT.1, hnT.2])
        · exact Or.inl rfl
  | submit id request => exact { hr with requests := Or.inl, fresh := fun _ _ => Or.inl rfl }
  | mark e => exact { hr with marked := Or.inl, fresh := fun _ _ => Or.inl rfl }

theorem Move.inv (hi : Inv members h) (hm : Move members i h h') : Inv members h' := by
  have hg := hm.grows hi
  cases hm with
  | core c hs hidx hacc =>
      have hc := hs.change hi.core
      have hindexed : ∀ n, Indexed (c n).log := by
        intro n
        by_cases hn : n = i
        · exact hn ▸ hidx
        · rw [hc.other n hn]
          exact hi.log_indexed n
      have haccounted : ∀ n, Accounted h (c n).log := by
        intro n
        by_cases hn : n = i
        · exact hn ▸ hacc
        · rw [hc.other n hn]
          exact hi.log_accounted n
      -- the leader's log of a term only changes together with its own log
      have hfull : ∀ n T, Led c n T → (c n).full T = (c n).log ∨
          (c n).full T = (h.core n).full T ∧ Led h.core n T := by
        intro n T hl
        by_cases hT : (c n).term = T
        · subst hT
          exact Or.inl (hc.lead_log' hi.core hl).symm
        refine Or.inr ?_
        by_cases hn : n = i
        swap
        · simp only [Led, hc.other n hn] at hl ⊢
          exact ⟨trivial, hl⟩
        subst hn
        have hne := Ne.symm hT
        cases hs <;> simp_all [Led, Function.update_of_ne]
      refine ⟨hc.inv hi.core, hindexed, fun n T hl => ?_, haccounted, fun n T hl => ?_,
        fun hf => ?_, fun hr => ?_, fun hpos => ?_⟩
      · rcases hfull n T hl with heq | ⟨heq, hled⟩
        · exact heq ▸ hindexed n
        · exact heq ▸ hi.full_indexed n T hled
      · rcases hfull n T hl with heq | ⟨heq, hled⟩
        · exact heq ▸ haccounted n
        · exact heq ▸ hi.full_accounted n T hled
      · obtain ⟨hT, m, hne, hl⟩ := hi.follows_led hf
        exact ⟨hT.trans (hg.core _).term, m, hne, hg.core.led hl⟩
      · exact hg.core.led (hi.reads_led hr)
      · obtain ⟨hT, m, hl, hle⟩ := hi.confirmed_le hpos
        exact ⟨hT.trans (hg.core _).term, m, hg.core.led hl, hle⟩
  | follow m hl hne =>
      refine { hi with follows_led := fun {n T} hf => ?_ }
      simp only [set] at hf
      split_ifs at hf with hnT
      · obtain ⟨rfl, rfl⟩ := hnT
        exact ⟨le_rfl, m, hne, hl⟩
      · exact hi.follows_led hf
  | request read hl =>
      refine { hi with reads_led := fun {n T} hr => ?_, confirmed_le := fun {n T} hpos => ?_ }
      · simp only [set] at hr
        split_ifs at hr with hnT
        · obtain ⟨rfl, rfl⟩ := hnT
          exact hl
        · exact hi.reads_led hr
      · obtain ⟨hT, m, hm, hle⟩ := hi.confirmed_le hpos
        exact ⟨hT, m, hm, hle.trans (hg.reads m T).length_le⟩
  | confirm m seq hl hle =>
      refine { hi with confirmed_le := fun {n T} hpos => ?_ }
      simp only [set] at hpos ⊢
      split_ifs at hpos ⊢ with hnT
      · obtain ⟨rfl, rfl⟩ := hnT
        refine ⟨le_rfl, m, hl, max_le ?_ hle⟩
        rcases Nat.eq_zero_or_pos (h.confirmed n (h.core n).term) with h0 | h0
        · rw [h0]
          exact Nat.zero_le _
        · obtain ⟨_, m', hm', hle'⟩ := hi.confirmed_le h0
          exact hi.core.unique_leader hm' hl ▸ hle'
      · exact hi.confirmed_le hpos
  | submit id request => exact { hi with
      log_accounted := fun n => hg.accounted (hi.log_accounted n)
      full_accounted := fun n T hl => hg.accounted (hi.full_accounted n T hl) }
  | mark e => exact { hi with
      log_accounted := fun n => hg.accounted (hi.log_accounted n)
      full_accounted := fun n T hl => hg.accounted (hi.full_accounted n T hl) }

/-- Any number of moves of one node. -/
abbrev Moves (members : Finset NodeID) (i : NodeID) : History → History → Prop :=
  Relation.ReflTransGen (Move members i)

theorem Moves.inv (hi : Inv members h) (hm : Moves members i h h') : Inv members h' := by
  induction hm with
  | refl => exact hi
  | tail _ hstep ih => exact hstep.inv ih

theorem Moves.grows (hi : Inv members h) (hm : Moves members i h h') : Grows h h' := by
  induction hm with
  | refl => exact Grows.refl h
  | tail hms hstep ih => exact ih.trans (hstep.grows (Moves.inv hi hms))

theorem Moves.same (hm : Moves members i h h') {n : NodeID} (hn : n ≠ i) : Same n h h' := by
  induction hm with
  | refl => exact Same.refl n h
  | tail _ hstep ih => exact ih.trans (hstep.same hn)

end Moves
end History
end ToyDB.Raft
