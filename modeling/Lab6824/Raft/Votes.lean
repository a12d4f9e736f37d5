import Lab6824.Raft.Durable
import Mathlib.Data.Set.Subsingleton

/-!
# Votes — term, vote and role of a server

`step_vote` says what a step can do to `currentTerm`, `votedFor` and `state` of one server and which
vote it casts.  A server backs one candidate per term as long as no candidate hears from the leader
of its own term: `AppendEntries` then makes it a follower through `toFollower(args.Term, -1)`, and
its vote is free again.
-/

namespace Lab6824

variable {n : Nat} {C σ : Type} {gob : Gob (RaftImage n C) σ}

/-- Server `s` has backed `c` in term `T`: as a candidate itself, or by granting a vote. -/
def Backs (tr : List (Event n C σ)) (s : Fin n) (T : Int) (c : Fin n) : Prop :=
  c = s ∧ .candidacy s T ∈ tr ∨ .granted s T c ∈ tr

theorem backs_cons {tr : List (Event n C σ)} {e : Event n C σ} {s c : Fin n} {T : Int} :
    Backs (e :: tr) s T c ↔
      (c = s ∧ e = .candidacy s T ∨ e = .granted s T c) ∨ Backs tr s T c := by
  simp only [Backs, List.mem_cons]
  constructor
  · rintro (⟨rfl, he | hmem⟩ | he | hmem)
    · exact Or.inl (Or.inl ⟨rfl, he.symm⟩)
    · exact Or.inr (Or.inl ⟨rfl, hmem⟩)
    · exact Or.inl (Or.inr he.symm)
    · exact Or.inr (Or.inr hmem)
  · rintro ((⟨rfl, he⟩ | he) | ⟨rfl, hmem⟩ | hmem)
    · exact Or.inl ⟨rfl, Or.inl he.symm⟩
    · exact Or.inr (Or.inl he.symm)
    · exact Or.inl ⟨rfl, Or.inr hmem⟩
    · exact Or.inr (Or.inr hmem)

theorem Backs.mono {tr tr' : List (Event n C σ)} {s c : Fin n} {T : Int}
    (h : Backs tr s T c) (hsub : tr <:+ tr') : Backs tr' s T c := by
  rcases h with ⟨rfl, hmem⟩ | hmem
  · exact Or.inl ⟨rfl, hsub.subset hmem⟩
  · exact Or.inr (hsub.subset hmem)

/-! ## What the sections do to the ballot -/

/-- Term, vote and role. -/
def Raft.ballot (rf : Raft n C σ) : Int × Option (Fin n) × Role :=
  (rf.currentTerm, rf.votedFor, rf.state)

theorem ballot_eq {rf : Raft n C σ} {t : Int} {v : Option (Fin n)} {r : Role} :
    rf.ballot = (t, v, r) ↔ rf.currentTerm = t ∧ rf.votedFor = v ∧ rf.state = r := by
  simp only [Raft.ballot, Prod.mk.injEq]

/-- The section left the ballot alone or made the server a follower of a higher term. -/
def Retires (rf rf' : Raft n C σ) : Prop :=
  rf'.ballot = rf.ballot ∨ ∃ t, rf.currentTerm < t ∧ rf'.ballot = (t, none, .follower)

namespace Retires

theorem stepDown (gob : Gob (RaftImage n C) σ) (rf : Raft n C σ) (term : Int) :
    Retires rf (rf.stepDown gob term) := by
  rcases Raft.stepDown_cases gob rf term with ⟨hlt, he⟩ | ⟨_, he⟩
  · rw [he]
    exact Or.inr ⟨term, hlt, rfl⟩
  · rw [he]
    exact Or.inl rfl

theorem handleAppendEntriesReply {rf rf' : Raft n C σ} {args : AppendEntriesArgs n C}
    {reply : AppendEntriesReply} {server : Fin n}
    (h : rf.handleAppendEntriesReply gob args reply server = some rf') : Retires rf rf' := by
  obtain ⟨ni, mi, ci, ch, rfl⟩ := Raft.handleAppendEntriesReply_cases h
  exact stepDown gob rf reply.term

theorem handleSnapshotReply (gob : Gob (RaftImage n C) σ) (rf : Raft n C σ) (index : Int)
    (reply : InstallSnapshotReply) (server : Fin n) :
    Retires rf (rf.handleSnapshotReply gob index reply server) := by
  unfold Raft.handleSnapshotReply
  split
  · rename_i hlt
    exact Or.inr ⟨reply.term, hlt, rfl⟩
  · exact Or.inl rfl

end Retires

theorem mergeEntries_ballot (gob : Gob (RaftImage n C) σ) (rf : Raft n C σ)
    (args : AppendEntriesArgs n C) (pli : Nat) :
    (rf.mergeEntries gob args pli).ballot = rf.ballot := by
  obtain ⟨rf₁, ci, ch, he, hrf⟩ := Raft.mergeEntries_cases gob rf args pli
  rw [he]
  rcases hrf with rfl | rfl
  · rfl
  · rfl

theorem appendEntries_ballot {rf rf' : Raft n C σ} {args : AppendEntriesArgs n C}
    {reply : AppendEntriesReply} (h : rf.appendEntries gob args = some (rf', reply)) :
    rf'.ballot = (rf.appendStepDown gob args.term).ballot := by
  rcases (Raft.appendEntries_cases h).2 with ⟨_, rfl⟩ | ⟨_, _, pli, _, _, _, _, rfl⟩
  · rfl
  · exact mergeEntries_ballot gob _ args pli

/-- A vote is granted in the term of the request, to a candidate that the server was free to vote
for. -/
theorem requestVote_ballot {rf rf' : Raft n C σ} {args : RequestVoteArgs n}
    {reply : RequestVoteReply} (h : rf.requestVote gob args = some (rf', reply)) :
    (reply.voteGranted = false ∧ Retires rf rf') ∨
      (reply.voteGranted = true ∧ rf.currentTerm ≤ args.term ∧
        (rf.currentTerm = args.term →
          rf.votedFor = none ∨ rf.votedFor = some args.candidateId) ∧
        ∃ r, (r = .follower ∨ rf.currentTerm = args.term ∧ r = rf.state) ∧
          rf'.ballot = (args.term, some args.candidateId, r)) := by
  rcases Raft.requestVote_cases h with ⟨rfl, rfl⟩ | ⟨rfl, hterm, hfree, _, rfl⟩
  · exact Or.inl ⟨rfl, Retires.stepDown gob rf args.term⟩
  · right
    rcases Raft.stepDown_cases gob rf args.term with ⟨hlt, he⟩ | ⟨_, he⟩
    · rw [he]
      exact ⟨rfl, hlt.le, fun heq ↦ absurd heq hlt.ne, .follower, Or.inl rfl, rfl⟩
    · rw [he] at hterm hfree ⊢
      refine ⟨rfl, hterm.le, fun _ ↦ hfree, rf.state, Or.inr ⟨hterm, rfl⟩, ?_⟩
      rw [ballot_eq]
      exact ⟨hterm, rfl, rfl⟩

theorem condInstallSnapshot_ballot {rf rf' : Raft n C σ} {t i : Int} {data : List σ}
    {accepted : Bool} (h : rf.condInstallSnapshot gob t i data = some (rf', accepted)) :
    rf'.ballot = rf.ballot := by
  rcases Raft.condInstallSnapshot_cases h with ⟨_, _, rfl⟩ | ⟨_, _, rest, rf₁, rfl, rfl⟩
  · rfl
  · rfl

theorem snapshot_ballot {rf rf' : Raft n C σ} {i : Int} {data : List σ} {stored : Bool}
    (h : rf.snapshot gob i data = some (rf', stored)) : rf'.ballot = rf.ballot := by
  rcases Raft.snapshot_cases h with ⟨_, _, rfl⟩ | ⟨_, _, d, rest, rf₁, _, _, rfl, rfl⟩
  · rfl
  · rfl

/-! ## What a step does to the ballot of one server -/

/-- The seven ways a step can treat term, vote and role of server `t`. -/
inductive VoteStep (w : World n C σ) (a : Action n C σ) (w' : World n C σ) (t : Fin n) : Prop where
  | same (h : (w'.nodes t).rf.ballot = (w.nodes t).rf.ballot)
      (htr : ∀ T c, Backs w'.trace t T c ↔ Backs w.trace t T c)
  | retired {T : Int} (hlt : (w.nodes t).rf.currentTerm < T)
      (h : (w'.nodes t).rf.ballot = (T, none, .follower)) (htr : w'.trace = w.trace)
  | restarted (ha : a = .crash t)
      (h : (w'.nodes t).rf.ballot =
        ((w.nodes t).rf.currentTerm, (w.nodes t).rf.votedFor, .follower))
      (htr : w'.trace = w.trace)
  | campaigned (ha : a = .electTimeout t)
      (h : (w'.nodes t).rf.ballot = ((w.nodes t).rf.currentTerm + 1, some t, .candidate))
      (htr : w'.trace = .candidacy t ((w.nodes t).rf.currentTerm + 1) :: w.trace)
  | granted {env : Envelope n (RequestVoteArgs n)} {r : Role} (ha : a = .requestVote env)
      (hdst : env.dst = t) (hmem : env ∈ w.voteReqs)
      (hle : (w.nodes t).rf.currentTerm ≤ env.args.term)
      (hfree : (w.nodes t).rf.currentTerm = env.args.term →
        (w.nodes t).rf.votedFor = none ∨ (w.nodes t).rf.votedFor = some env.args.candidateId)
      (hrole : r = .follower ∨
        (w.nodes t).rf.currentTerm = env.args.term ∧ r = (w.nodes t).rf.state)
      (h : (w'.nodes t).rf.ballot = (env.args.term, some env.args.candidateId, r))
      (htr : w'.trace = .granted t env.args.term env.args.candidateId :: w.trace)
  | reset {env : Envelope n (AppendEntriesArgs n C)} (ha : a = .appendEntries env)
      (hdst : env.dst = t) (hmem : env ∈ w.appendReqs)
      (hrole : (w.nodes t).rf.state = .candidate)
      (hterm : (w.nodes t).rf.currentTerm = env.args.term)
      (h : (w'.nodes t).rf.ballot = (env.args.term, none, .follower)) (htr : w'.trace = w.trace)
  | elected {k : Nat} {env : Envelope n (RequestVoteArgs n)} {reply : RequestVoteReply}
      (ha : a = .voteReply t k env reply) (hrole : (w.nodes t).rf.state = .candidate)
      (h : (w'.nodes t).rf.ballot =
        ((w.nodes t).rf.currentTerm, (w.nodes t).rf.votedFor, .leader))
      (htr : w'.trace = .elected t (w.nodes t).rf.currentTerm :: w.trace)

theorem ballot_update {w : World n C σ} {s : Fin n} {nd : Node n C σ}
    (h : nd.rf.ballot = (w.nodes s).rf.ballot) (t : Fin n) :
    (Function.update w.nodes s nd t).rf.ballot = (w.nodes t).rf.ballot := by
  refine (Function.forall_update_iff w.nodes fun t nd ↦
    nd.rf.ballot = (w.nodes t).rf.ballot).mpr ⟨h, ?_⟩ t
  intro t _
  rfl

/-- A section that keeps the ballot or retires, and casts no vote. -/
theorem VoteStep.of_retires {w w' : World n C σ} {a : Action n C σ} {s t : Fin n}
    {nd : Node n C σ} (hnodes : w'.nodes = Function.update w.nodes s nd)
    (htr : w'.trace = w.trace) (h : Retires (w.nodes s).rf nd.rf) : VoteStep w a w' t := by
  have hbacks : ∀ T c, Backs w'.trace t T c ↔ Backs w.trace t T c := by
    intro T c
    rw [htr]
  rcases h with h | ⟨T, hlt, h⟩
  · refine .same ?_ hbacks
    rw [hnodes]
    exact ballot_update h t
  · by_cases hts : t = s
    · subst hts
      refine .retired hlt ?_ htr
      rw [hnodes, Function.update_self]
      exact h
    · refine .same ?_ hbacks
      rw [hnodes, Function.update_of_ne hts]

/-- A section that keeps the ballot, while the observer notes something other than a vote. -/
theorem VoteStep.of_same {w w' : World n C σ} {a : Action n C σ} {s : Fin n} {nd : Node n C σ}
    (hnodes : w'.nodes = Function.update w.nodes s nd)
    (h : nd.rf.ballot = (w.nodes s).rf.ballot) {t : Fin n}
    (htr : ∀ T c, Backs w'.trace t T c ↔ Backs w.trace t T c) : VoteStep w a w' t := by
  refine .same ?_ htr
  rw [hnodes]
  exact ballot_update h t

/-- A server that does not take the step. -/
theorem VoteStep.of_other {w w' : World n C σ} {a : Action n C σ} {s t : Fin n} {nd : Node n C σ}
    (hnodes : w'.nodes = Function.update w.nodes s nd) (hts : t ≠ s)
    (htr : ∀ T c, Backs w'.trace t T c ↔ Backs w.trace t T c) : VoteStep w a w' t := by
  refine .same ?_ htr
  rw [hnodes, Function.update_of_ne hts]

theorem step_vote {w w' : World n C σ} {a : Action n C σ} (h : Step gob w a w')
    (hd : ∀ t, Durable gob (w.nodes t).rf) (hme : ∀ t, (w.nodes t).rf.me = t) (t : Fin n) :
    VoteStep w a w' t := by
  cases h with
  | timeoutLeader | roundIdle => exact .same rfl fun _ _ ↦ Iff.rfl
  | campaign s hnd hrole =>
      subst hnd
      by_cases hts : t = s
      · subst hts
        refine .campaigned rfl ?_ rfl
        dsimp only
        rw [Function.update_self, ballot_eq]
        exact ⟨rfl, congrArg some (hme t), rfl⟩
      · refine .of_other rfl hts fun T c ↦ ?_
        simp [backs_cons, Ne.symm hts]
  | requestVote env hnd henv h =>
      subst hnd
      rcases requestVote_ballot h with ⟨hno, hret⟩ | ⟨hyes, hle, hfree, r, hrole, hballot⟩
      · exact .of_retires rfl (by rw [hno]; rfl) (by exact hret)
      · obtain ⟨hterm, _, _⟩ := ballot_eq.mp hballot
        rw [hyes, hterm]
        by_cases hts : t = env.dst
        · subst hts
          refine .granted rfl rfl henv hle hfree hrole ?_ rfl
          dsimp only
          rw [Function.update_self]
          exact hballot
        · refine .of_other rfl hts fun T c ↦ ?_
          simp [backs_cons, Ne.symm hts]
  | voteRetire s k env reply hnd hel hcall hrep hlt =>
      subst hnd
      exact .of_retires rfl rfl (by exact Or.inr ⟨reply.term, hlt, rfl⟩)
  | voteLead s k env reply hnd hel hcall hrep hstate hterm hyes hcnt =>
      subst hnd
      by_cases hts : t = s
      · subst hts
        refine .elected rfl hstate ?_ rfl
        dsimp only
        rw [Function.update_self]
        rfl
      · refine .of_other rfl hts fun T c ↦ ?_
        simp [backs_cons]
  | appendEntries env hnd henv h =>
      subst hnd
      have hballot := appendEntries_ballot h
      rcases Raft.appendStepDown_cases gob (w.nodes env.dst).rf env.args.term with
        ⟨hlt | ⟨hcand, heq⟩, he⟩ | ⟨_, _, he⟩
      · rw [he] at hballot
        exact .of_retires rfl rfl (by exact Or.inr ⟨env.args.term, hlt, hballot⟩)
      · rw [he] at hballot
        by_cases hts : t = env.dst
        · subst hts
          refine .reset rfl rfl henv hcand heq ?_ rfl
          dsimp only
          rw [Function.update_self]
          exact hballot
        · exact .of_other rfl hts fun T c ↦ Iff.rfl
      · rw [he] at hballot
        exact .of_retires rfl rfl (by exact Or.inl hballot)
  | appendReply s env reply hnd hcall hrep h hcalls =>
      subst hnd
      exact .of_retires rfl rfl (by exact Retires.handleAppendEntriesReply h)
  | installSnapshot env hnd henv h =>
      subst hnd
      have hrf := Raft.installSnapshot_rf gob (w.nodes env.dst).rf env.args
      rw [h] at hrf
      dsimp only at hrf
      subst hrf
      exact .of_retires rfl rfl (by exact Retires.stepDown gob _ _)
  | snapshotReply s env reply hnd hcall hrep hcalls =>
      subst hnd
      exact .of_retires rfl rfl (by exact Retires.handleSnapshotReply gob _ _ _ _)
  | start s command hnd =>
      subst hnd
      refine .of_retires rfl rfl (Or.inl ?_)
      dsimp only
      unfold Raft.start
      split <;> rfl
  | updateApplied s hnd hawake h =>
      subst hnd
      rw [Raft.updateApplied_rf h]
      exact .of_retires rfl rfl (by exact Or.inl rfl)
  | sendCommand s hnd hch hbatch =>
      subst hnd
      refine .of_same rfl (by rfl) fun T c ↦ ?_
      simp [backs_cons]
  | condInstallSnapshot s hnd hch hvalid h =>
      subst hnd
      refine .of_same rfl (by exact condInstallSnapshot_ballot h) fun T c ↦ ?_
      dsimp only
      split
      · simp [backs_cons]
      · exact Iff.rfl
  | snapshot s index data hnd h =>
      subst hnd
      refine .of_same rfl (by exact snapshot_ballot h) fun T c ↦ ?_
      dsimp only [noteTaken]
      split
      · simp [backs_cons]
      · exact Iff.rfl
  | crash s hnd h =>
      subst hnd
      obtain ⟨rf', hmake, hres, _⟩ := (hd s).make s
      rw [hmake, Option.some.injEq] at h
      subst h
      by_cases hts : t = s
      · subst hts
        refine .restarted rfl ?_ rfl
        dsimp only
        rw [Function.update_self, ballot_eq]
        exact ⟨hres.currentTerm, hres.votedFor, hres.state⟩
      · exact .of_other rfl hts fun T c ↦ Iff.rfl
  | wakeApplier s hnd hrf =>
      subst hnd hrf
      exact .of_retires rfl rfl (by exact Or.inl rfl)
  -- the remaining steps only move goroutines and messages
  | electSkip _ _ hnd | electSend _ _ hnd | voteIgnore _ _ _ _ hnd | voteCount _ _ _ _ hnd
  | roundSnapshot _ _ hnd | roundAppend _ _ hnd | sendSnapshot _ _ hnd | serviceDone _ hnd =>
      subst hnd
      exact .of_retires rfl rfl (by exact Or.inl rfl)

/-- What holds of the ballots in every run: a candidate has backed itself. -/
structure BallotInv (gob : Gob (RaftImage n C) σ) (w : World n C σ) : Prop where
  durable : ∀ t, Durable gob (w.nodes t).rf
  me : ∀ t, (w.nodes t).rf.me = t
  own : ∀ t, (w.nodes t).rf.state = .candidate →
    (w.nodes t).rf.votedFor = some t ∧ Backs w.trace t (w.nodes t).rf.currentTerm t

namespace BallotInv

theorem init : BallotInv gob (World.init : World n C σ) where
  durable := Durable.fresh
  me := fun _ ↦ rfl
  own := by
    intro t ht
    cases ht

theorem step {w w' : World n C σ} {a : Action n C σ} (h : BallotInv gob w)
    (hstep : Step gob w a w') : BallotInv gob w' where
  durable := fun t ↦ (h.durable t).lockSection (World.step_lockSection hstep t)
  me := fun t ↦ World.lockSection_me (h.me t) (World.step_lockSection hstep t)
  own := by
    intro t hcand
    cases step_vote hstep h.durable h.me t with
    | same hb htr =>
        obtain ⟨hterm, hvote, hrole⟩ := ballot_eq.mp hb
        obtain ⟨hown, hbacks⟩ := h.own t (hrole ▸ hcand)
        rw [hterm, hvote]
        exact ⟨hown, (htr _ _).mpr hbacks⟩
    | campaigned ha hb htr =>
        obtain ⟨hterm, hvote, _⟩ := ballot_eq.mp hb
        rw [hterm, hvote, htr]
        exact ⟨rfl, Or.inl ⟨rfl, List.mem_cons_self⟩⟩
    | granted ha hdst hmem hle hfree hrole hb htr =>
        obtain ⟨hterm, hvote, hrole'⟩ := ballot_eq.mp hb
        rcases hrole with rfl | ⟨heq, rfl⟩
        · rw [hrole'] at hcand
          cases hcand
        · -- a candidate is not free to vote for anybody else
          obtain ⟨hown, hbacks⟩ := h.own t (hrole' ▸ hcand)
          rcases hfree heq with hnone | hsame
          · rw [hown] at hnone
            cases hnone
          · rw [hterm, hvote, ← hsame, hown, ← heq, htr]
            exact ⟨rfl, hbacks.mono (List.suffix_cons _ _)⟩
    | retired hlt hb | restarted ha hb | reset ha hdst hmem hrole hterm hb | elected ha hrole hb =>
        rw [(ballot_eq.mp hb).2.2] at hcand
        cases hcand

theorem run [DecidableEq C] [DecidableEq σ] {w : World n C σ} {as : List (Action n C σ)}
    (hrun : Lib.run (World.step gob) World.init as = some w) : BallotInv gob w :=
  Lib.run_invariant (fun _ _ _ h _ hstep ↦ h.step (World.step_inv hstep)) init
    (Lib.along_true _ as) hrun

end BallotInv

/-! ## One vote per term -/

/-- No candidate takes an `AppendEntries` of its own term. -/
def NoCandidateAppend (w : World n C σ) : Action n C σ → Prop
  | .appendEntries env =>
    ¬ ((w.nodes env.dst).rf.state = .candidate ∧
      (w.nodes env.dst).rf.currentTerm = env.args.term)
  | _ => True

instance (w : World n C σ) (a : Action n C σ) : Decidable (NoCandidateAppend w a) := by
  unfold NoCandidateAppend
  induction a using Action.casesOn <;> infer_instance

/-- Between two states of a run: a vote that was given is not changed while the term lasts. -/
def VoteKept (w w' : World n C σ) : Prop :=
  ∀ t, (w'.nodes t).rf.currentTerm = (w.nodes t).rf.currentTerm →
    (w.nodes t).rf.votedFor ≠ none → (w'.nodes t).rf.votedFor = (w.nodes t).rf.votedFor

/-- `VoteKept` with the monotonicity of terms, which makes it transitive. -/
def BallotGrows (w w' : World n C σ) : Prop :=
  ∀ t, (w.nodes t).rf.currentTerm ≤ (w'.nodes t).rf.currentTerm ∧
    ((w'.nodes t).rf.currentTerm = (w.nodes t).rf.currentTerm →
      (w.nodes t).rf.votedFor ≠ none → (w'.nodes t).rf.votedFor = (w.nodes t).rf.votedFor)

theorem BallotGrows.trans {w w₁ w₂ : World n C σ} (h₁ : BallotGrows w w₁)
    (h₂ : BallotGrows w₁ w₂) : BallotGrows w w₂ := by
  intro t
  obtain ⟨hle₁, hkeep₁⟩ := h₁ t
  obtain ⟨hle₂, hkeep₂⟩ := h₂ t
  refine ⟨hle₁.trans hle₂, fun heq hne ↦ ?_⟩
  have hvote := hkeep₁ (by omega) hne
  rw [hkeep₂ (by omega) (hvote ▸ hne), hvote]

theorem BallotGrows.step {w w' : World n C σ} {a : Action n C σ} (h : BallotInv gob w)
    (hok : NoCandidateAppend w a) (hstep : Step gob w a w') : BallotGrows w w' := by
  intro t
  cases step_vote hstep h.durable h.me t with
  | same hb htr | restarted ha hb htr | elected ha hrole hb htr =>
      obtain ⟨hterm, hvote, _⟩ := ballot_eq.mp hb
      exact ⟨hterm.ge, fun _ _ ↦ hvote⟩
  | retired hlt hb htr =>
      obtain ⟨hterm, _, _⟩ := ballot_eq.mp hb
      exact ⟨by omega, fun heq ↦ by omega⟩
  | campaigned ha hb htr =>
      obtain ⟨hterm, _, _⟩ := ballot_eq.mp hb
      exact ⟨by omega, fun heq ↦ by omega⟩
  | granted ha hdst hmem hle hfree hrole hb htr =>
      obtain ⟨hterm, hvote, _⟩ := ballot_eq.mp hb
      refine ⟨by omega, fun heq hne ↦ ?_⟩
      rcases hfree (by omega) with hnone | hsame
      · exact absurd hnone hne
      · rw [hvote, hsame]
  | reset ha hdst hmem hrole hterm hb htr =>
      subst ha hdst
      exact absurd ⟨hrole, hterm⟩ hok

/-- The votes that server `t` has cast in term `T`: at most one, none before the term was reached,
and while it lasts `votedFor` names the one that was backed. -/
structure OneVote (w : World n C σ) (t : Fin n) (T : Int) : Prop where
  reached : ∀ c, Backs w.trace t T c → T ≤ (w.nodes t).rf.currentTerm
  current : ∀ c, Backs w.trace t T c → T = (w.nodes t).rf.currentTerm →
    (w.nodes t).rf.votedFor = some c
  unique : {c | Backs w.trace t T c}.Subsingleton

namespace OneVote

theorem init (t : Fin n) (T : Int) : OneVote (World.init : World n C σ) t T := by
  have hnone : ∀ c, ¬ Backs (World.init : World n C σ).trace t T c := by
    rintro c (⟨_, hmem⟩ | hmem)
    · cases hmem
    · cases hmem
  exact ⟨fun c hc ↦ absurd hc (hnone c), fun c hc ↦ absurd hc (hnone c),
    fun c hc ↦ absurd hc (hnone c)⟩

/-- Term, vote and the votes cast stay the same. -/
theorem keep {w w' : World n C σ} {t : Fin n} {T : Int} (h : OneVote w t T)
    (hterm : (w'.nodes t).rf.currentTerm = (w.nodes t).rf.currentTerm)
    (hvote : (w'.nodes t).rf.votedFor = (w.nodes t).rf.votedFor)
    (hold : ∀ c, Backs w'.trace t T c → Backs w.trace t T c) : OneVote w' t T where
  reached := fun c hc ↦ hterm ▸ h.reached c (hold c hc)
  current := fun c hc heq ↦ hvote ▸ h.current c (hold c hc) (hterm ▸ heq)
  unique := fun c hc d hd ↦ h.unique (hold c hc) (hold d hd)

/-- A step keeps `OneVote` unless it resets the vote of a candidate in that very term. -/
theorem step {w w' : World n C σ} {a : Action n C σ} {t : Fin n} {T : Int} (h : OneVote w t T)
    (hstep : VoteStep w a w' t)
    (hno : ∀ env, a = .appendEntries env → env.dst = t → env ∈ w.appendReqs →
      (w.nodes t).rf.state = .candidate → (w.nodes t).rf.currentTerm = env.args.term →
        env.args.term ≠ T) : OneVote w' t T := by
  cases hstep with
  | same hb htr =>
      obtain ⟨hterm, hvote, _⟩ := ballot_eq.mp hb
      exact h.keep hterm hvote fun c ↦ (htr T c).mp
  | restarted ha hb htr =>
      obtain ⟨hterm, hvote, _⟩ := ballot_eq.mp hb
      exact h.keep hterm hvote fun c hc ↦ htr ▸ hc
  | elected ha hrole hb htr =>
      obtain ⟨hterm, hvote, _⟩ := ballot_eq.mp hb
      refine h.keep hterm hvote fun c hc ↦ ?_
      rw [htr, backs_cons] at hc
      rcases hc with (⟨_, he⟩ | he) | hc
      · cases he
      · cases he
      · exact hc
  | retired hlt hb htr =>
      obtain ⟨hterm, _, _⟩ := ballot_eq.mp hb
      rw [← hterm] at hlt
      have hreached : ∀ c, Backs w'.trace t T c → T < (w'.nodes t).rf.currentTerm := by
        intro c hc
        rw [htr] at hc
        exact (h.reached c hc).trans_lt hlt
      exact ⟨fun c hc ↦ (hreached c hc).le, fun c hc heq ↦ absurd heq (hreached c hc).ne,
        by rw [htr]; exact h.unique⟩
  | reset ha hdst hmem hrole hterm hb htr =>
      obtain ⟨hterm', _, _⟩ := ballot_eq.mp hb
      have hne := hno _ ha hdst hmem hrole hterm
      refine ⟨fun c hc ↦ ?_, fun c hc heq ↦ ?_, by rw [htr]; exact h.unique⟩
      · rw [htr] at hc
        have hle := h.reached c hc
        omega
      · omega
  | campaigned ha hb htr =>
      obtain ⟨hterm, hvote, _⟩ := ballot_eq.mp hb
      -- in the new term nothing has been backed yet
      have hold : ∀ c, Backs w'.trace t T c →
          c = t ∧ T = (w'.nodes t).rf.currentTerm ∨
            T ≤ (w.nodes t).rf.currentTerm ∧ Backs w.trace t T c := by
        intro c hc
        rw [htr, backs_cons] at hc
        rcases hc with (⟨rfl, he⟩ | he) | hc
        · simp only [Event.candidacy.injEq, true_and] at he
          exact Or.inl ⟨rfl, by omega⟩
        · cases he
        · exact Or.inr ⟨h.reached c hc, hc⟩
      refine ⟨fun c hc ↦ ?_, fun c hc heq ↦ ?_, fun c hc d hd ↦ ?_⟩
      · rcases hold c hc with ⟨_, heq⟩ | ⟨hle, _⟩
        · exact heq.le
        · omega
      · rcases hold c hc with ⟨rfl, _⟩ | ⟨hle, _⟩
        · exact hvote
        · omega
      · rcases hold c hc with ⟨rfl, hT⟩ | ⟨hle, hc'⟩
        · rcases hold d hd with ⟨rfl, _⟩ | ⟨hle, _⟩
          · rfl
          · omega
        · rcases hold d hd with ⟨_, hT⟩ | ⟨_, hd'⟩
          · omega
          · exact h.unique hc' hd'
  | @granted env r ha hdst hmem hle hfree hrole hb htr =>
      obtain ⟨hterm, hvote, _⟩ := ballot_eq.mp hb
      -- what was backed in the term before is the candidate of the request
      have hold : ∀ c, Backs w'.trace t T c →
          T ≤ env.args.term ∧ (T = env.args.term → c = env.args.candidateId) ∧
            (T ≠ env.args.term → Backs w.trace t T c) := by
        intro c hc
        rw [htr, backs_cons] at hc
        rcases hc with (⟨_, he⟩ | he) | hc
        · cases he
        · simp only [Event.granted.injEq, true_and] at he
          exact ⟨he.1.ge, fun _ ↦ he.2.symm, fun hne ↦ absurd he.1.symm hne⟩
        · refine ⟨(h.reached c hc).trans hle, fun heq ↦ ?_, fun _ ↦ hc⟩
          have hcur := h.reached c hc
          have hvoted := h.current c hc (by omega)
          rcases hfree (by omega) with hnone | hsame
          · rw [hvoted] at hnone
            cases hnone
          · rw [hvoted, Option.some.injEq] at hsame
            exact hsame
      refine ⟨fun c hc ↦ ?_, fun c hc heq ↦ ?_, fun c hc d hd ↦ ?_⟩
      · rw [hterm]
        exact (hold c hc).1
      · rw [hvote, (hold c hc).2.1 (hterm ▸ heq)]
      · by_cases hT : T = env.args.term
        · rw [(hold c hc).2.1 hT, (hold d hd).2.1 hT]
        · exact h.unique ((hold c hc).2.2 hT) ((hold d hd).2.2 hT)

end OneVote

/-- An `AppendEntries` of its own term takes the vote of a candidate away. -/
theorem step_reset {w w' : World n C σ} {env : Envelope n (AppendEntriesArgs n C)}
    (h : Step gob w (.appendEntries env) w') (hrole : (w.nodes env.dst).rf.state = .candidate)
    (hterm : (w.nodes env.dst).rf.currentTerm = env.args.term) :
    (w'.nodes env.dst).rf.ballot = (env.args.term, none, .follower) := by
  cases h with
  | appendEntries _ hnd henv h =>
      subst hnd
      dsimp only
      rw [Function.update_self, appendEntries_ballot h]
      rcases Raft.appendStepDown_cases gob (w.nodes env.dst).rf env.args.term with
        ⟨_, he⟩ | ⟨_, hno, _⟩
      · rw [he]
        rfl
      · exact absurd ⟨hrole, hterm⟩ hno

/-- A vote lasts as long as its term in a run exactly when no candidate of the run takes an
`AppendEntries` of its own term; and then every server backs at most one candidate in a term. -/
theorem vote_kept_iff_no_candidate_append [DecidableEq C] [DecidableEq σ]
    {gob : Gob (RaftImage n C) σ} {u : World n C σ} {as : List (Action n C σ)}
    (hrun : Lib.run (World.step gob) World.init as = some u) :
    ((∀ pre mid w w', pre ++ mid <+: as → Lib.run (World.step gob) World.init pre = some w →
          Lib.run (World.step gob) w mid = some w' → VoteKept w w') ↔
        Lib.Along (World.step gob) NoCandidateAppend World.init as) ∧
      (Lib.Along (World.step gob) NoCandidateAppend World.init as →
        ∀ s T, {c | Backs u.trace s T c}.Subsingleton) := by
  refine ⟨⟨fun hkept ↦ ?_, fun hal ↦ ?_⟩, fun hal ↦ ?_⟩
  · rw [Lib.along_iff_forall_isPrefix hrun]
    rintro pre a w hpre hw
    cases a with
    | appendEntries env => ?_
    | _ => trivial
    rintro ⟨hrole, hterm⟩
    obtain ⟨w', hw'⟩ := Lib.exists_run_of_isPrefix hrun hpre
    obtain ⟨v, hv, hmid⟩ := Lib.run_append.mp hw'
    rw [hw, Option.some.injEq] at hv
    subst hv
    obtain ⟨v, hstep, hnil⟩ := Lib.run_cons.mp hmid
    rw [Lib.run_nil, Option.some.injEq] at hnil
    subst hnil
    -- the candidate has voted for itself, and the step takes the vote away
    obtain ⟨hown, _⟩ := (BallotInv.run hw).own env.dst hrole
    obtain ⟨hterm', hvote', _⟩ := ballot_eq.mp (step_reset (World.step_inv hstep) hrole hterm)
    have hsame := hkept pre _ w v hpre hw hmid env.dst (by omega) (by rw [hown]; simp)
    rw [hvote', hown] at hsame
    cases hsame
  · rintro pre mid w w' ⟨post, rfl⟩ hw hmid
    have hall := ((Lib.along_append hw).mp ((List.append_assoc pre mid post) ▸ hal)).2
    have hok := ((Lib.along_append hmid).mp hall).1
    have hgrows := Lib.run_relation (R := BallotGrows) (fun v t ↦ ⟨le_rfl, fun _ _ ↦ rfl⟩)
      (fun _ _ _ h₁ h₂ ↦ h₁.trans h₂)
      (fun _ _ _ h hok' hstep ↦ ⟨h.step (World.step_inv hstep),
        BallotGrows.step h hok' (World.step_inv hstep)⟩)
      (BallotInv.run hw) hok hmid
    exact fun t ↦ (hgrows t).2
  · have hinv := Lib.run_invariant
      (I := fun w ↦ BallotInv gob w ∧ ∀ s T, OneVote w s T)
      (fun w a w' h hok hstep ↦ ⟨h.1.step (World.step_inv hstep), fun s T ↦
        (h.2 s T).step (step_vote (World.step_inv hstep) h.1.durable h.1.me s)
          (fun env ha hdst _ hrole hterm ↦ by
            subst ha hdst
            exact absurd ⟨hrole, hterm⟩ hok)⟩)
      ⟨BallotInv.init, OneVote.init⟩ hal hrun
    exact fun s T ↦ (hinv.2 s T).unique

/-- Servers 0 and 1 of three stand in term 1 and server 0 wins; its heartbeat frees the vote of
server 1, which then grants the request of server 0 that it had not been delivered yet. -/
def resetRun : List (Action 3 Nat (RaftImage 3 Nat)) :=
  let vote (rpc : Nat) (dst : Fin 3) : Envelope 3 (RequestVoteArgs 3) := ⟨rpc, dst, ⟨1, 0, 0, 0⟩⟩
  let beat : Envelope 3 (AppendEntriesArgs 3 Nat) := ⟨2, 1, ⟨1, 0, 0, 0, [], 0⟩⟩
  [ .electTimeout 0, .electTimeout 1, .electRound 0 0, .electRound 0 0, .electRound 0 0,
    .requestVote (vote 1 2), .voteReply 0 0 (vote 1 2) { term := 1, voteGranted := true },
    .onRound 0 1, .appendEntries beat, .requestVote (vote 0 1) ]

theorem two_votes_after_reset :
    ∃ w, Lib.run (World.step (Gob.plain (RaftImage 3 Nat))) World.init resetRun = some w ∧
      Backs w.trace 1 1 1 ∧ Backs w.trace 1 1 0 ∧
      ¬ {c | Backs w.trace 1 1 c}.Subsingleton := by
  have hcheck : (Lib.run (World.step (Gob.plain (RaftImage 3 Nat))) World.init resetRun).any
      (fun w ↦ decide (.candidacy 1 1 ∈ w.trace ∧ .granted 1 1 0 ∈ w.trace)) = true := by
    decide +kernel
  obtain ⟨w, hrun, hw⟩ := Lib.exists_run_of_any hcheck
  obtain ⟨hself, hother⟩ := of_decide_eq_true hw
  refine ⟨w, hrun, Or.inl ⟨rfl, hself⟩, Or.inr hother, fun hone ↦ ?_⟩
  have heq : (1 : Fin 3) = 0 := hone (Or.inl ⟨rfl, hself⟩) (Or.inr hother)
  exact absurd heq (by decide)

/-- Up to the heartbeat the condition holds, and server 2 has backed server 0 only. -/
theorem one_vote_before_reset :
    ∃ w, Lib.run (World.step (Gob.plain (RaftImage 3 Nat))) World.init (resetRun.take 8) =
        some w ∧
      Backs w.trace 2 1 0 ∧ ∀ s T, {c | Backs w.trace s T c}.Subsingleton := by
  have hcheck : (Lib.run (World.step (Gob.plain (RaftImage 3 Nat))) World.init
      (resetRun.take 8)).any (fun w ↦ decide (.granted 2 1 0 ∈ w.trace)) = true := by
    decide +kernel
  obtain ⟨w, hrun, hw⟩ := Lib.exists_run_of_any hcheck
  have hok : Lib.Along (World.step (Gob.plain (RaftImage 3 Nat))) NoCandidateAppend World.init
      (resetRun.take 8) := by
    decide +kernel
  exact ⟨w, hrun, Or.inr (of_decide_eq_true hw),
    (vote_kept_iff_no_candidate_append hrun).2 hok⟩

end Lab6824
