import Mathlib
import ToyDB.Consensus.Quorum
import ToyDB.Raft.FollowerSpec

/-!
# The candidate keeps its invariant
-/
namespace ToyDB.Raft
open ToyDB.Consensus ToyDB.Effects

section Candidate
variable {cfg : Config} {i : NodeID} {X : Prop} {startTerm : ℕ} {self : RawNode Candidate}
  {g : Point cfg i}

/-- Any node that starts campaigning becomes a candidate in its next term. -/
theorem runs_campaign (hr : RunsAt self g) :
    Runs cfg i X self.campaign (fun self' g' =>
      CandidateAt self' g' ∧ self'.log.term = self.log.term + 1) g := by
  have hterm : (g.hist.core i).term = self.log.term := hr.stored.term
  have hlog : (g.hist.core i).log = self.log.entries := hr.stored.entries
  unfold RawNode.campaign
  refine runs_seq runs_randomElectionTimeout fun t => ?_
  rw [hr.id]
  refine Runs.bind (@runs_setTermVote_campaign cfg i X _ self g hr) ?_
  rintro l g₁ hg₁ ⟨rfl, hh, hd⟩
  have hnot : ¬ Led g.hist.core i (self.log.term + 1) := fun hl => by
    have := (g.inv.core.led_le hl).2
    omega
  have hfollows : g.hist.follows i (self.log.term + 1) = false := by
    by_contra hf
    have := (g.inv.follows_led (by simpa using hf)).1
    omega
  have hvoted : (g₁.hist.core i).voted (self.log.term + 1) = some i := by
    simp [hh, campaigning, hterm]
  have hvl : (g₁.hist.core i).voteLog (self.log.term + 1) = self.log.entries := by
    simp [hh, campaigning, hterm, hlog]
  set node : RawNode Candidate := { self with
    id := i
    log := { self.log with term := self.log.term + 1, vote := some i }
    role := { Candidate.new t with votes := (Candidate.new t).votes.insert i } } with hnode
  have hr₁ : RunsAt node g₁ := ⟨hr.toMember.with_role hr.id.symm rfl rfl, hd⟩
  have hrole : CandidateRole cfg g₁.hist i node.log node.role := {
    vote := rfl
    vote_log := hvl
    not_led := by simpa [Led, hh, campaigning, hnode] using hnot
    not_follows := by simpa [hh, hnode] using hfollows
    nodup := by simp [hnode, Candidate.new]
    own := by simp [hnode, Candidate.new]
    votes := by
      intro v hv
      obtain rfl : v = i := by simpa [hnode, Candidate.new] using hv
      exact ⟨hr.member, hvoted⟩ }
  have hlast := Log.getLastIndex_eq hr₁.indexed
  change node.log.getLastIndex = (self.log.entries.length, lastTerm self.log.entries) at hlast
  change Runs cfg i X (do
    node.broadcast (.campaign node.log.getLastIndex.1 node.log.getLastIndex.2)
    return node) _ g₁
  rw [hlast]
  refine runs_seq (runs_broadcast hr₁.toMember fun n _ => ⟨hvoted, ?_, ?_⟩) fun _ =>
    runs_pure ⟨⟨hr₁, hrole⟩, rfl⟩
  · exact congrArg List.length hvl
  · exact congrArg lastTerm hvl

theorem runs_intoCandidate {self : RawNode Follower} (hf : RunsAt self g) :
    Runs cfg i X (self.intoCandidate cfg.sm) (fun self' g' =>
      CandidateAt self' g' ∧ self.log.term < self'.log.term) g := by
  unfold RawNode.intoCandidate
  refine runs_value (runs_abortForwarded hf) ?_
  rintro _ rfl
  refine Runs.bind (runs_maybeApply (g := g) ⟨hf.toMember.with_role rfl rfl rfl, hf.disk⟩) ?_
  rintro self₁ g₁ _ ⟨⟨st, rfl⟩, _, hr₁⟩
  refine runs_seq runs_randomElectionTimeout fun t => ?_
  refine Runs.bind (runs_campaign (g := g₁) ⟨hr₁.toMember.with_role rfl rfl rfl, hr₁.disk⟩) ?_
  rintro self₂ g₂ _ ⟨hc, hT⟩
  have hlt : self.log.term < self₂.log.term := hT ▸ Nat.lt_succ_self _
  have hpos := (g₂.inv.core.voted_le (hc.stored.vote.trans hc.role.vote)).1
  exact runs_assert_bind (hc.id ▸ hc.role.own) (runs_assert_bind (Nat.ne_of_gt hpos)
    (runs_assert_bind (hc.id.symm ▸ hc.role.vote) (runs_pure ⟨hc, hlt⟩)))

theorem runs_tickFollower {self : RawNode Follower} (hf : FollowerAt startTerm self g) :
    Runs cfg i X (self.tickFollower cfg.sm) (fun node g' => NodeAt startTerm node g' ∧
      (node.isFollower = false → self.log.term < node.term)) g := by
  have hf' := hf.with_role { self.role with leaderSeen := self.role.leaderSeen + 1 } rfl
    hf.role.idle
  unfold RawNode.tickFollower
  simp only
  split_ifs
  · exact Runs.bind (runs_intoCandidate hf'.toRunsAt) fun self₁ g₁ _ hc =>
      runs_pure ⟨hc.1, fun _ => hc.2⟩
  · exact runs_pure ⟨hf', fun h => by cases h⟩

theorem runs_tickCandidate (hc : CandidateAt self g) :
    Runs cfg i X self.tickCandidate (fun node g' => NodeAt startTerm node g') g := by
  unfold RawNode.tickCandidate
  simp only
  split_ifs
  · exact Runs.bind (runs_campaign (g := g) ⟨hc.toMember.with_role rfl rfl rfl, hc.disk⟩)
      fun self₁ g₁ _ hc => runs_pure hc.1
  · exact runs_pure ⟨⟨hc.toMember.with_role rfl rfl rfl, hc.disk⟩, { hc.role with }⟩

theorem runs_candidateIntoFollower_later (hc : CandidateAt self g) {T : ℕ}
    (hT : self.log.term < T) :
    Runs cfg i X (self.candidateIntoFollower T none) (fun self' g' =>
      FollowerAt 0 self' g' ∧ self'.log.term = T) g := by
  have hterm : (g.hist.core i).term = self.log.term := hc.stored.term
  unfold RawNode.candidateIntoFollower
  refine runs_seq runs_randomElectionTimeout fun t => ?_
  refine runs_assert_bind (Nat.ne_of_gt hT) (Runs.bind (runs_setTermVote_later hc.toRunsAt hT) ?_)
  rintro l g' _ ⟨rfl, hh, hd⟩
  refine runs_pure ⟨⟨⟨hc.toMember.with_role rfl rfl rfl, hd⟩, ?_⟩, rfl⟩
  rw [hh]
  exact .fresh g.inv (hterm.trans_lt hT) rfl rfl rfl

theorem runs_candidateIntoFollower_leader (hc : CandidateAt self g) {m : NodeID}
    (hm : m ∈ cfg.members) (hne : m ≠ i) (hl : Led g.hist.core m self.log.term) :
    Runs cfg i X (self.candidateIntoFollower self.log.term (some m)) (fun self' g' =>
      FollowerAt 0 self' g' ∧ self'.log = self.log) g := by
  refine runs_follow hc.toRunsAt hl hne fun g' hg hk hcore hd hfollows => ?_
  have hr' := hc.toRunsAt.of_disk hd
  unfold RawNode.candidateIntoFollower
  refine runs_seq runs_randomElectionTimeout fun t => ?_
  refine runs_assert_bind rfl
    (runs_pure ⟨⟨⟨hc.toMember.with_role rfl rfl rfl, hr'.disk⟩, ?_⟩, rfl⟩)
  exact {
    led := by
      rintro _ ⟨⟩
      exact ⟨hm, hne, hg.core.led hl, hfollows⟩
    idle := fun h => absurd h (Option.some_ne_none m)
    followed := fun h => absurd h (Option.some_ne_none m)
    former := fun h => absurd (by rwa [hcore] at h) hc.role.not_led }

/-- A message of the leader that won the candidate's term. -/
theorem runs_lostElection (hc : CandidateAt self g) {msg : Envelope}
    (hT : msg.term = self.log.term) (hm : Inbound cfg g.hist i self.log.term msg)
    (hs : msg.sender ∈ cfg.members) (hne : msg.sender ≠ i)
    (hl : Led g.hist.core msg.sender self.log.term) :
    Runs cfg i X (self.candidateIntoFollower msg.term (some msg.sender) >>= fun self' =>
      self'.stepFollower cfg.sm msg) (fun node g' => NodeAt startTerm node g') g := by
  rw [hT]
  have hpos := (g.inv.core.led_le hl).1
  refine Runs.bind (runs_candidateIntoFollower_leader hc hs hne hl) ?_
  rintro self₁ g₁ hg₁ ⟨hf₁, hlog⟩
  have hT₁ : self₁.log.term = self.log.term := by rw [hlog]
  refine wp_mono (runs_stepFollower hf₁ (hT₁ ▸ hm.grows hg₁) ?_)
    (fun _ _ h => h.2.restarted startTerm) (fun _ _ h => h)
  rintro ⟨h0, _⟩
  exact absurd (h0.trans hT₁) (by omega)

end Candidate
end ToyDB.Raft
