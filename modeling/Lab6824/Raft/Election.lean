import Lab6824.Lib.Quorum
import Lab6824.Raft.Votes

/-!
# Election — at most one leader per term

A goroutine of `elect` counts replies to requests that may have been built in different terms, since
each iteration of its loop reads `currentTerm` anew.  Where the votes that make a server leader were
all asked for in its current term, no two servers are ever leaders of one term.

The vote that `AppendEntries` frees (see `Votes`) does no harm here: before a term has its first
leader no `AppendEntries` of that term exists, and the servers that elected this leader are no
candidates, so `AppendEntries` leaves their votes alone.
-/

namespace Lab6824

variable {n : Nat} {C σ : Type} {gob : Gob (RaftImage n C) σ}

/-! ## The goroutines of `elect` -/

/-- Every server is asked once by one goroutine, and `cnt` counts the servers that have granted
their vote, with the candidate itself. -/
structure ElectInv (tr : List (Event n C σ)) (s : Fin n) (el : Elect n) : Prop where
  cnt : el.cnt = 1 + el.counted.length
  asked : (el.calls.map Envelope.dst ++ el.counted.map Prod.fst).Nodup
  before : ∀ d ∈ el.calls.map Envelope.dst ++ el.counted.map Prod.fst, d.val < el.next ∧ d ≠ s
  calls : ∀ env ∈ el.calls, env.args.candidateId = s
  counted : ∀ v ∈ el.counted, .granted v.1 v.2 s ∈ tr

namespace ElectInv

theorem start (tr : List (Event n C σ)) (s : Fin n) : ElectInv tr s {} where
  cnt := rfl
  asked := List.nodup_nil
  before := by simp
  calls := by simp
  counted := by simp

theorem mono {tr tr' : List (Event n C σ)} {s : Fin n} {el : Elect n} (h : ElectInv tr s el)
    (hsub : tr <:+ tr') : ElectInv tr' s el :=
  { h with counted := fun v hv ↦ hsub.subset (h.counted v hv) }

theorem skip {tr : List (Event n C σ)} {s : Fin n} {el : Elect n} (h : ElectInv tr s el) :
    ElectInv tr s { el with next := el.next + 1 } :=
  { h with before := fun d hd ↦ ⟨(h.before d hd).1.trans (Nat.lt_succ_self _), (h.before d hd).2⟩ }

theorem send {tr : List (Event n C σ)} {s : Fin n} {el : Elect n} (h : ElectInv tr s el)
    {env : Envelope n (RequestVoteArgs n)} (hdst : env.dst.val = el.next) (hne : env.dst ≠ s)
    (hcand : env.args.candidateId = s) :
    ElectInv tr s { el with next := el.next + 1, calls := env :: el.calls } where
  cnt := h.cnt
  asked := by
    refine List.nodup_cons.mpr ⟨fun hmem ↦ ?_, h.asked⟩
    have hlt := (h.before _ hmem).1
    omega
  before := by
    intro d hd
    rcases List.mem_cons.mp hd with rfl | hd
    · exact ⟨by dsimp only; omega, hne⟩
    · exact ⟨(h.before d hd).1.trans (Nat.lt_succ_self _), (h.before d hd).2⟩
  calls := by
    intro e he
    rcases List.mem_cons.mp he with rfl | he
    · exact hcand
    · exact h.calls e he
  counted := h.counted

theorem drop {tr : List (Event n C σ)} {s : Fin n} {el : Elect n} (h : ElectInv tr s el)
    (env : Envelope n (RequestVoteArgs n)) :
    ElectInv tr s { el with calls := el.calls.erase env } where
  cnt := h.cnt
  asked := h.asked.sublist ((List.erase_sublist.map _).append_right _)
  before := fun d hd ↦ h.before d (((List.erase_sublist.map _).append_right _).subset hd)
  calls := fun e he ↦ h.calls e (List.mem_of_mem_erase he)
  counted := h.counted

theorem count {tr : List (Event n C σ)} {s : Fin n} {el : Elect n} (h : ElectInv tr s el)
    {env : Envelope n (RequestVoteArgs n)} (hcall : env ∈ el.calls)
    (hgrant : .granted env.dst env.args.term s ∈ tr) :
    ElectInv tr s
      { el with
        calls := el.calls.erase env
        cnt := el.cnt + 1
        counted := (env.dst, env.args.term) :: el.counted } := by
  -- the server moves from the calls to the votes
  have hperm : (el.calls.map Envelope.dst ++ el.counted.map Prod.fst).Perm
      ((el.calls.erase env).map Envelope.dst ++ env.dst :: el.counted.map Prod.fst) :=
    (((List.perm_cons_erase hcall).map Envelope.dst).append_right _).trans
      List.perm_middle.symm
  refine ⟨?_, hperm.nodup_iff.mp h.asked, fun d hd ↦ h.before d (hperm.mem_iff.mpr hd),
    fun e he ↦ h.calls e (List.mem_of_mem_erase he), ?_⟩
  · dsimp only
    rw [h.cnt, List.length_cons]
    omega
  · intro v hv
    rcases List.mem_cons.mp hv with rfl | hv
    · exact hgrant
    · exact h.counted v hv

end ElectInv

/-- The reply `reply` to `env` makes server `s` leader: its `k`-th goroutine of `elect` counts it as
the last vote that was missing. -/
structure Wins (w : World n C σ) (s : Fin n) (k : Nat) (env : Envelope n (RequestVoteArgs n))
    (reply : RequestVoteReply) (el : Elect n) : Prop where
  elect : (w.nodes s).elects[k]? = some el
  call : env ∈ el.calls
  rep : (env, reply) ∈ w.voteReps
  candidate : (w.nodes s).rf.state = .candidate
  term : env.args.term = (w.nodes s).rf.currentTerm
  granted : reply.voteGranted = true
  majority : el.cnt + 1 ≥ n / 2 + 1

/-- An election that the observer has noted took place earlier or in this step. -/
theorem step_elected {w w' : World n C σ} {a : Action n C σ} (h : Step gob w a w') {s : Fin n}
    {T : Int} (hmem : .elected s T ∈ w'.trace) :
    .elected s T ∈ w.trace ∨
      T = (w.nodes s).rf.currentTerm ∧ (w'.nodes s).rf = (w.nodes s).rf.toLeader ∧
        ∃ k env reply el, a = .voteReply s k env reply ∧ Wins w s k env reply el := by
  cases h with
  | voteLead s' k env reply hnd hk hcall hrep hstate hterm hyes hcnt =>
      subst hnd
      rcases List.mem_cons.mp hmem with heq | hold
      · simp only [Event.elected.injEq] at heq
        obtain ⟨rfl, rfl⟩ := heq
        right
        refine ⟨rfl, ?_, k, env, reply, _, rfl, hk, hcall, hrep, hstate, hterm, hyes, hcnt⟩
        dsimp only
        rw [Function.update_self]
      · exact Or.inl hold
  | requestVote | condInstallSnapshot =>
      left
      dsimp only at hmem
      split at hmem
      · simpa using hmem
      · exact hmem
  | snapshot =>
      rcases mem_noteTaken hmem with hold | ⟨_, _, heq⟩
      · exact Or.inl hold
      · cases heq
  | campaign | sendCommand => exact Or.inl (by simpa using hmem)
  | _ => exact Or.inl hmem

/-! ## What holds in every run -/

/-- The observer has seen every vote that is counted, every leader and the leader behind every
`AppendEntries`. -/
structure PollInv (gob : Gob (RaftImage n C) σ) (w : World n C σ) : Prop extends
    BallotInv gob w where
  elects : ∀ s, ∀ el ∈ (w.nodes s).elects, ElectInv w.trace s el
  grants : ∀ env reply, (env, reply) ∈ w.voteReps → reply.voteGranted = true →
    .granted env.dst env.args.term env.args.candidateId ∈ w.trace
  leader : ∀ s, (w.nodes s).rf.state = .leader → .elected s (w.nodes s).rf.currentTerm ∈ w.trace
  appends : ∀ env ∈ w.appendReqs, .elected env.args.leaderId env.args.term ∈ w.trace
  settled : ∀ s T, .elected s T ∈ w.trace → T ≤ (w.nodes s).rf.currentTerm ∧
    ((w.nodes s).rf.currentTerm = T → (w.nodes s).rf.state ≠ .candidate)

namespace PollInv

theorem init : PollInv gob (World.init : World n C σ) where
  toBallotInv := BallotInv.init
  elects := by
    intro s el hel
    cases hel
  grants := by
    intro env reply hrep
    cases hrep
  leader := by
    intro s hs
    cases hs
  appends := by
    intro env henv
    cases henv
  settled := by
    intro s T hmem
    cases hmem

theorem elects_update {w : World n C σ} {s t : Fin n} {nd : Node n C σ} {el : Elect n}
    (h : el ∈ (Function.update w.nodes s nd t).elects) :
    el ∈ (w.nodes t).elects ∨ t = s ∧ el ∈ nd.elects :=
  Lib.of_update (p := fun nd : Node n C σ ↦ el ∈ nd.elects) h

theorem elects_step {w w' : World n C σ} {a : Action n C σ} (h : PollInv gob w)
    (hstep : Step gob w a w') (t : Fin n) {el : Elect n} (hel : el ∈ (w'.nodes t).elects) :
    ElectInv w'.trace t el := by
  have hsuffix := World.step_trace hstep
  have hold : ∀ s, ∀ el ∈ (w.nodes s).elects, ElectInv w'.trace s el :=
    fun s el hel ↦ (h.elects s el hel).mono hsuffix
  cases hstep with
  | timeoutLeader | roundIdle => exact hold t el hel
  | campaign s hnd hrole =>
      subst hnd
      rcases elects_update hel with hel | ⟨rfl, hel⟩
      · exact hold t el hel
      · rcases List.mem_append.mp hel with hel | hel
        · exact hold t el hel
        · rw [List.mem_singleton.mp hel]
          exact ElectInv.start _ t
  | electSkip s k hnd hk hnext hme =>
      subst hnd
      rcases elects_update hel with hel | ⟨rfl, hel⟩
      · exact hold t el hel
      · rcases List.mem_or_eq_of_mem_set hel with hel | rfl
        · exact hold t el hel
        · exact (hold t _ (List.mem_of_getElem? hk)).skip
  | electSend s k hnd hk hnext hme hargs henv =>
      subst hnd henv
      rcases elects_update hel with hel | ⟨rfl, hel⟩
      · exact hold t el hel
      · rcases List.mem_or_eq_of_mem_set hel with hel | rfl
        · exact hold t el hel
        · rw [h.me t] at hme
          refine (hold t _ (List.mem_of_getElem? hk)).send rfl hme ?_
          unfold Raft.voteArgs at hargs
          split at hargs
          · cases hargs
          · rw [← Option.some.inj hargs]
            exact h.me t
  | voteRetire s k env reply hnd hk hcall hrep | voteIgnore s k env reply hnd hk hcall hrep =>
      subst hnd
      rcases elects_update hel with hel | ⟨rfl, hel⟩
      · exact hold t el hel
      · rcases List.mem_or_eq_of_mem_set hel with hel | rfl
        · exact hold t el hel
        · exact (hold t _ (List.mem_of_getElem? hk)).drop env
  | voteCount s k env reply hnd hk hcall hrep hstate hterm hyes
  | voteLead s k env reply hnd hk hcall hrep hstate hterm hyes =>
      subst hnd
      rcases elects_update hel with hel | ⟨rfl, hel⟩
      · exact hold t el hel
      · rcases List.mem_or_eq_of_mem_set hel with hel | rfl
        · exact hold t el hel
        · have hthis := hold t _ (List.mem_of_getElem? hk)
          refine hthis.count hcall (hsuffix.subset ?_)
          rw [← hthis.calls env hcall]
          exact h.grants env reply hrep hyes
  | crash s hnd hmake =>
      rcases elects_update hel with hel | ⟨rfl, hnew⟩
      · exact hold t el hel
      · exact absurd hnew List.not_mem_nil
  -- the remaining steps leave the goroutines of `elect` alone
  | requestVote _ hnd | roundSnapshot _ _ hnd | roundAppend _ _ hnd | appendEntries _ hnd
  | appendReply _ _ _ hnd | installSnapshot _ hnd | snapshotReply _ _ _ hnd | start _ _ hnd
  | wakeApplier _ hnd | updateApplied _ hnd | sendCommand _ hnd | sendSnapshot _ _ hnd
  | serviceDone _ hnd | condInstallSnapshot _ hnd | snapshot _ _ _ hnd =>
      subst hnd
      rcases elects_update hel with hel | ⟨rfl, hnew⟩
      · exact hold t el hel
      · exact hold _ el hnew

theorem grants_step {w w' : World n C σ} {a : Action n C σ} (h : PollInv gob w)
    (hstep : Step gob w a w') {env : Envelope n (RequestVoteArgs n)} {reply : RequestVoteReply}
    (hrep : (env, reply) ∈ w'.voteReps) (hyes : reply.voteGranted = true) :
    .granted env.dst env.args.term env.args.candidateId ∈ w'.trace := by
  have hsuffix := World.step_trace hstep
  cases hstep with
  | requestVote env' hnd henv hv =>
      rcases List.mem_cons.mp hrep with heq | hold
      · rw [Prod.mk.injEq] at heq
        obtain ⟨rfl, rfl⟩ := heq
        rcases requestVote_ballot hv with ⟨hno, _⟩ | ⟨_, _, _, r, _, hballot⟩
        · rw [hyes] at hno
          cases hno
        · rw [hyes, (ballot_eq.mp hballot).1]
          exact List.mem_cons_self
      · exact hsuffix.subset (h.grants env reply hold hyes)
  | _ => exact hsuffix.subset (h.grants env reply hrep hyes)

theorem leader_step {w w' : World n C σ} {a : Action n C σ} (h : PollInv gob w)
    (hstep : Step gob w a w') (t : Fin n) (hlead : (w'.nodes t).rf.state = .leader) :
    .elected t (w'.nodes t).rf.currentTerm ∈ w'.trace := by
  have hsuffix := World.step_trace hstep
  cases step_vote hstep h.durable h.me t with
  | same hb htr =>
      obtain ⟨hterm, _, hrole⟩ := ballot_eq.mp hb
      rw [hterm]
      exact hsuffix.subset (h.leader t (hrole ▸ hlead))
  | granted ha hdst hmem hle hfree hrole hb htr =>
      obtain ⟨hterm, _, hrole'⟩ := ballot_eq.mp hb
      rcases hrole with rfl | ⟨heq, rfl⟩
      · rw [hrole'] at hlead
        cases hlead
      · rw [hterm, ← heq]
        exact hsuffix.subset (h.leader t (hrole' ▸ hlead))
  | elected ha hrole hb htr =>
      rw [(ballot_eq.mp hb).1, htr]
      exact List.mem_cons_self
  | retired _ hb | restarted _ hb | campaigned _ hb | reset _ _ _ _ _ hb =>
      rw [(ballot_eq.mp hb).2.2] at hlead
      cases hlead

theorem appends_step {w w' : World n C σ} {a : Action n C σ} (h : PollInv gob w)
    (hstep : Step gob w a w') {env : Envelope n (AppendEntriesArgs n C)}
    (henv : env ∈ w'.appendReqs) : .elected env.args.leaderId env.args.term ∈ w'.trace := by
  have hsuffix := World.step_trace hstep
  cases hstep with
  | roundAppend s server hnd hne hround henv' =>
      subst hnd
      rcases List.mem_cons.mp henv with rfl | hold
      · obtain ⟨hlead, _, index, prev, _, _, hargs⟩ := Raft.onRound_append hround
        rw [henv', hargs]
        dsimp only
        rw [h.me s]
        exact h.leader s hlead
      · exact hsuffix.subset (h.appends env hold)
  | _ => exact hsuffix.subset (h.appends env henv)

/-- A server that has led a term is no candidate in it any more: to stand again it moves on. -/
theorem settled_step {w w' : World n C σ} {a : Action n C σ} (h : PollInv gob w)
    (hstep : Step gob w a w') (s : Fin n) (T : Int) (hmem : .elected s T ∈ w'.trace) :
    T ≤ (w'.nodes s).rf.currentTerm ∧
      ((w'.nodes s).rf.currentTerm = T → (w'.nodes s).rf.state ≠ .candidate) := by
  rcases step_elected hstep hmem with hold | ⟨rfl, hlead, _⟩
  · obtain ⟨hle, hrole⟩ := h.settled s T hold
    cases step_vote hstep h.durable h.me s with
    | same hb htr =>
        obtain ⟨hterm, _, hrole'⟩ := ballot_eq.mp hb
        rw [hterm, hrole']
        exact ⟨hle, hrole⟩
    | campaigned ha hb htr =>
        have hterm := (ballot_eq.mp hb).1
        exact ⟨by omega, fun heq ↦ by omega⟩
    | granted ha hdst hmem hle' hfree hrole'' hb htr =>
        obtain ⟨hterm, _, hrole'⟩ := ballot_eq.mp hb
        refine ⟨by omega, fun heq ↦ ?_⟩
        rw [hrole']
        rcases hrole'' with rfl | ⟨_, rfl⟩
        · exact Role.noConfusion
        · exact hrole (by omega)
    | retired hlt hb | reset _ _ _ _ hlt hb =>
        obtain ⟨hterm, _, hrole'⟩ := ballot_eq.mp hb
        rw [hrole']
        exact ⟨by omega, fun _ ↦ Role.noConfusion⟩
    | restarted _ hb | elected _ _ hb =>
        obtain ⟨hterm, _, hrole'⟩ := ballot_eq.mp hb
        rw [hrole', hterm]
        exact ⟨hle, fun _ ↦ Role.noConfusion⟩
  · rw [hlead]
    exact ⟨le_refl _, fun _ ↦ Role.noConfusion⟩

theorem step {w w' : World n C σ} {a : Action n C σ} (h : PollInv gob w)
    (hstep : Step gob w a w') : PollInv gob w' where
  toBallotInv := h.toBallotInv.step hstep
  elects := fun t _ hel ↦ h.elects_step hstep t hel
  grants := fun _ _ hrep hyes ↦ h.grants_step hstep hrep hyes
  leader := h.leader_step hstep
  appends := fun _ henv ↦ h.appends_step hstep henv
  settled := h.settled_step hstep

end PollInv

/-! ## Leaders of one term -/

/-- When a goroutine of `elect` counts the vote that makes its server leader, all votes that it has
counted were asked for in the current term. -/
def LeadsByOneTerm (w : World n C σ) : Action n C σ → Prop
  | .voteReply s k env reply =>
    ∀ el ∈ (w.nodes s).elects[k]?,
      (w.nodes s).rf.countsVote { reply with sendTerm := env.args.term } = true →
      el.cnt + 1 ≥ n / 2 + 1 → ∀ v ∈ el.counted, v.2 = (w.nodes s).rf.currentTerm
  | _ => True

instance (w : World n C σ) (a : Action n C σ) : Decidable (LeadsByOneTerm w a) := by
  unfold LeadsByOneTerm
  induction a using Action.casesOn <;> infer_instance

theorem Wins.one_term {w : World n C σ} {s : Fin n} {k : Nat}
    {env : Envelope n (RequestVoteArgs n)} {reply : RequestVoteReply} {el : Elect n}
    (h : Wins w s k env reply el) (hok : LeadsByOneTerm w (.voteReply s k env reply)) :
    ∀ v ∈ el.counted, v.2 = (w.nodes s).rf.currentTerm :=
  hok el h.elect (Raft.countsVote_iff.mpr ⟨h.candidate, h.term, h.granted⟩) h.majority

/-- The servers whose votes make `s` leader, with `s` itself, are a majority. -/
theorem PollInv.voters {w : World n C σ} (h : PollInv gob w) {s : Fin n} {k : Nat}
    {env : Envelope n (RequestVoteArgs n)} {reply : RequestVoteReply} {el : Elect n}
    (hwin : Wins w s k env reply el) :
    ∃ Q : Finset (Fin n), Lib.Majority Q ∧
      ∀ z ∈ Q, z = s ∨ z = env.dst ∨ ∃ v ∈ el.counted, v.1 = z := by
  have hinv := h.elects s el (List.mem_of_getElem? hwin.elect)
  have hgrant : .granted env.dst env.args.term s ∈ w.trace := by
    rw [← hinv.calls env hwin.call]
    exact h.grants env reply hwin.rep hwin.granted
  have hafter := hinv.count hwin.call hgrant
  -- the candidate itself and the servers that have been counted, this one included
  let voters := env.dst :: el.counted.map Prod.fst
  have hnodup : (s :: voters).Nodup := by
    refine List.nodup_cons.mpr ⟨fun hmem ↦ ?_, (List.nodup_append.mp hafter.asked).2.1⟩
    exact (hafter.before s (List.mem_append_right _ hmem)).2 rfl
  refine ⟨(s :: voters).toFinset, ?_, fun z hz ↦ ?_⟩
  · rw [Lib.Majority, List.toFinset_card_of_nodup hnodup, Fintype.card_fin]
    have hlen : (s :: voters).length = el.cnt + 1 := by
      simp only [voters, List.length_cons, List.length_map, hinv.cnt]
      omega
    have hmaj := hwin.majority
    omega
  · simpa only [voters, List.mem_toFinset, List.mem_cons, List.mem_map] using hz

/-- Where all of them were asked for in the current term, all of them back `s` in it. -/
theorem PollInv.backers {w : World n C σ} (h : PollInv gob w) {s : Fin n} {k : Nat}
    {env : Envelope n (RequestVoteArgs n)} {reply : RequestVoteReply} {el : Elect n}
    (hwin : Wins w s k env reply el)
    (hone : ∀ v ∈ el.counted, v.2 = (w.nodes s).rf.currentTerm) :
    ∃ Q : Finset (Fin n), Lib.Majority Q ∧
      ∀ z ∈ Q, Backs w.trace z (w.nodes s).rf.currentTerm s := by
  have hinv := h.elects s el (List.mem_of_getElem? hwin.elect)
  obtain ⟨Q, hQ, hvoters⟩ := h.voters hwin
  refine ⟨Q, hQ, fun z hz ↦ ?_⟩
  rcases hvoters z hz with rfl | rfl | ⟨v, hv, rfl⟩
  · exact (h.own z hwin.candidate).2
  · rw [← hwin.term, ← hinv.calls env hwin.call]
    exact Or.inr (h.grants env reply hwin.rep hwin.granted)
  · rw [← hone v hv]
    exact Or.inr (hinv.counted v hv)

/-- Server `z` has backed `s` in term `T` and cannot back another server in that term any more: it
keeps its vote while the term lasts, since it is no candidate. -/
structure Locked (w : World n C σ) (z : Fin n) (T : Int) (s : Fin n) : Prop extends
    OneVote w z T where
  backs : Backs w.trace z T s
  settled : (w.nodes z).rf.currentTerm = T → (w.nodes z).rf.state ≠ .candidate

theorem Locked.step {w w' : World n C σ} {a : Action n C σ} {z s : Fin n} {T : Int}
    (h : Locked w z T s) (hstep : VoteStep w a w' z) (hsuffix : w.trace <:+ w'.trace) :
    Locked w' z T s := by
  refine ⟨h.toOneVote.step hstep ?_, h.backs.mono hsuffix, fun hT ↦ ?_⟩
  · rintro env - - - hcand hterm rfl
    exact h.settled hterm hcand
  · have hreached := h.reached s h.backs
    cases hstep with
    | same hb htr =>
        obtain ⟨hterm, _, hrole⟩ := ballot_eq.mp hb
        rw [hrole]
        exact h.settled (by rw [← hterm]; exact hT)
    | campaigned ha hb htr =>
        have hterm := (ballot_eq.mp hb).1
        omega
    | granted ha hdst hmem hle hfree hrole hb htr =>
        obtain ⟨hterm, _, hrole'⟩ := ballot_eq.mp hb
        rw [hrole']
        rcases hrole with rfl | ⟨heq, rfl⟩
        · exact Role.noConfusion
        · exact h.settled (by omega)
    | retired _ hb | restarted _ hb | reset _ _ _ _ _ hb | elected _ _ hb =>
        rw [(ballot_eq.mp hb).2.2]
        exact Role.noConfusion

/-- Before a term has a leader every server has one vote in it; afterwards a majority is locked on
the leader. -/
structure ElectionInv (gob : Gob (RaftImage n C) σ) (w : World n C σ) : Prop extends
    PollInv gob w where
  open_term : ∀ T, (∀ s, .elected s T ∉ w.trace) → ∀ z, OneVote w z T
  won_term : ∀ s T, .elected s T ∈ w.trace →
    ∃ Q : Finset (Fin n), Lib.Majority Q ∧ ∀ z ∈ Q, Locked w z T s

namespace ElectionInv

theorem init : ElectionInv gob (World.init : World n C σ) where
  toPollInv := PollInv.init
  open_term := fun T _ z ↦ OneVote.init z T
  won_term := by
    intro s T hmem
    cases hmem

/-- No two servers have been elected in one term. -/
theorem unique {w : World n C σ} (h : ElectionInv gob w) {s s' : Fin n} {T : Int}
    (hs : .elected s T ∈ w.trace) (hs' : .elected s' T ∈ w.trace) : s = s' := by
  obtain ⟨Q, hQ, hlock⟩ := h.won_term s T hs
  obtain ⟨R, hR, hlock'⟩ := h.won_term s' T hs'
  obtain ⟨z, hz, hz'⟩ := hQ.inter hR
  exact (hlock z hz).unique (hlock z hz).backs (hlock' z hz').backs

theorem open_step {w w' : World n C σ} {a : Action n C σ} (h : ElectionInv gob w)
    (hstep : Step gob w a w') {T : Int} (hopen : ∀ s, .elected s T ∉ w.trace) (z : Fin n) :
    OneVote w' z T := by
  refine (h.open_term T hopen z).step (step_vote hstep h.durable h.me z) ?_
  -- no `AppendEntries` of the term exists yet
  rintro env - - hmem - - rfl
  exact hopen _ (h.appends env hmem)

theorem won_step {w w' : World n C σ} {a : Action n C σ} (h : ElectionInv gob w)
    (hstep : Step gob w a w') {s : Fin n} {T : Int} (hwon : .elected s T ∈ w.trace) :
    ∃ Q : Finset (Fin n), Lib.Majority Q ∧ ∀ z ∈ Q, Locked w' z T s := by
  obtain ⟨Q, hQ, hlock⟩ := h.won_term s T hwon
  refine ⟨Q, hQ, fun z hz ↦ ?_⟩
  exact (hlock z hz).step (step_vote hstep h.durable h.me z) (World.step_trace hstep)

/-- A server that wins a term which nobody has won: the majority that backs it is locked. -/
theorem first_win {w w' : World n C σ} (h : ElectionInv gob w) {s : Fin n} {k : Nat}
    {env : Envelope n (RequestVoteArgs n)} {reply : RequestVoteReply} {el : Elect n}
    (hstep : Step gob w (.voteReply s k env reply) w')
    (hlead : (w'.nodes s).rf = (w.nodes s).rf.toLeader) (hwin : Wins w s k env reply el)
    (hone : ∀ v ∈ el.counted, v.2 = (w.nodes s).rf.currentTerm)
    (hopen : ∀ z, .elected z (w.nodes s).rf.currentTerm ∉ w.trace) :
    ∃ Q : Finset (Fin n), Lib.Majority Q ∧
      ∀ z ∈ Q, Locked w' z (w.nodes s).rf.currentTerm s := by
  obtain ⟨Q, hQ, hbacks⟩ := h.backers hwin hone
  refine ⟨Q, hQ, fun z hz ↦ ?_⟩
  have hback := (hbacks z hz).mono (World.step_trace hstep)
  have hvote := h.open_step hstep hopen z
  refine ⟨hvote, hback, fun hterm hcand ↦ ?_⟩
  -- a candidate of the term backs itself, and `s` is no candidate any more
  have hself := ((h.toBallotInv.step hstep).own z hcand).2
  rw [hterm] at hself
  have hzs : z = s := hvote.unique hself hback
  rw [hzs, hlead] at hcand
  cases hcand

theorem step {w w' : World n C σ} {a : Action n C σ} (h : ElectionInv gob w)
    (hok : LeadsByOneTerm w a) (hstep : Step gob w a w') : ElectionInv gob w' where
  toPollInv := h.toPollInv.step hstep
  open_term := fun _ hopen z ↦
    h.open_step hstep (fun s hs ↦ hopen s ((World.step_trace hstep).subset hs)) z
  won_term := by
    intro s T hmem
    rcases step_elected hstep hmem with hold | ⟨rfl, hlead, k, env, reply, el, rfl, hwin⟩
    · exact h.won_step hstep hold
    · have hone := hwin.one_term hok
      by_cases hopen : ∀ z, .elected z (w.nodes s).rf.currentTerm ∉ w.trace
      · exact h.first_win hstep hlead hwin hone hopen
      · -- the majority that is locked on an earlier leader of the term contains a backer of `s`
        push Not at hopen
        obtain ⟨z, hz⟩ := hopen
        obtain ⟨Q, hQ, hbacks⟩ := h.backers hwin hone
        obtain ⟨R, hR, hlock⟩ := h.won_term z _ hz
        obtain ⟨v, hvQ, hvR⟩ := hQ.inter hR
        have hsz : s = z := (hlock v hvR).unique (hbacks v hvQ) (hlock v hvR).backs
        rw [← hsz] at hz
        exact h.won_step hstep hz

theorem run [DecidableEq C] [DecidableEq σ] {w : World n C σ} {as : List (Action n C σ)}
    (hok : Lib.Along (World.step gob) LeadsByOneTerm World.init as)
    (hrun : Lib.run (World.step gob) World.init as = some w) : ElectionInv gob w :=
  Lib.run_invariant (fun _ _ _ h hok' hstep ↦ h.step hok' (World.step_inv hstep)) init hok hrun

end ElectionInv

/-- In a run whose leaders are all made by votes of one term, no two servers are leaders of one
term, at one time or at two. -/
theorem election_safety [DecidableEq C] [DecidableEq σ] {gob : Gob (RaftImage n C) σ}
    {w w' : World n C σ} {as bs : List (Action n C σ)}
    (hok : Lib.Along (World.step gob) LeadsByOneTerm World.init (as ++ bs))
    (has : Lib.run (World.step gob) World.init as = some w)
    (hbs : Lib.run (World.step gob) w bs = some w') {s s' : Fin n}
    (hs : (w.nodes s).rf.state = .leader) (hs' : (w'.nodes s').rf.state = .leader)
    (hterm : (w.nodes s).rf.currentTerm = (w'.nodes s').rf.currentTerm) : s = s' := by
  have hinv := ElectionInv.run ((Lib.along_append has).mp hok).1 has
  have hinv' := ElectionInv.run hok (Lib.run_append.mpr ⟨w, has, hbs⟩)
  have hsuffix := World.run_trace hbs
  have hone := hsuffix.subset (hinv.leader s hs)
  have htwo := hinv'.leader s' hs'
  rw [← hterm] at htwo
  exact hinv'.unique hone htwo

/-- A goroutine of server 0 asks server 1 in term 1 and, once its timer has fired again, server 2 in
term 2; the two votes make server 0 leader of term 2, and servers 1 and 3 elect server 4 in the same
term. -/
def mixedRun : List (Action 5 Nat (RaftImage 5 Nat)) :=
  let vote (rpc : Nat) (dst : Fin 5) (term : Int) (candidate : Fin 5) :
      Envelope 5 (RequestVoteArgs 5) := ⟨rpc, dst, ⟨term, candidate, 0, 0⟩⟩
  let yes (term : Int) : RequestVoteReply := { term := term, voteGranted := true }
  [ .electTimeout 0, .electRound 0 0, .electRound 0 0, .requestVote (vote 0 1 1 0),
    .voteReply 0 0 (vote 0 1 1 0) (yes 1),
    .electTimeout 0, .electRound 0 0, .requestVote (vote 1 2 2 0),
    .voteReply 0 0 (vote 1 2 2 0) (yes 2),
    .electTimeout 4, .electTimeout 4,
    .electRound 4 1, .electRound 4 1, .electRound 4 1, .electRound 4 1,
    .requestVote (vote 3 1 2 4), .requestVote (vote 5 3 2 4),
    .voteReply 4 1 (vote 3 1 2 4) (yes 2), .voteReply 4 1 (vote 5 3 2 4) (yes 2) ]

theorem two_leaders_of_one_term :
    ∃ w, Lib.run (World.step (Gob.plain (RaftImage 5 Nat))) World.init mixedRun = some w ∧
      (w.nodes 0).rf.state = .leader ∧ (w.nodes 4).rf.state = .leader ∧
      (w.nodes 0).rf.currentTerm = (w.nodes 4).rf.currentTerm := by
  have hcheck : (Lib.run (World.step (Gob.plain (RaftImage 5 Nat))) World.init mixedRun).any
      (fun w ↦ decide ((w.nodes 0).rf.state = .leader ∧ (w.nodes 4).rf.state = .leader ∧
        (w.nodes 0).rf.currentTerm = (w.nodes 4).rf.currentTerm)) = true := by
    decide +kernel
  obtain ⟨w, hrun, hw⟩ := Lib.exists_run_of_any hcheck
  exact ⟨w, hrun, of_decide_eq_true hw⟩

/-- An election in which the condition holds: server 0 of three leads term 1, and while it does so
no other server leads that term. -/
theorem one_leader_of_resetRun :
    ∃ w w', Lib.run (World.step (Gob.plain (RaftImage 3 Nat))) World.init (resetRun.take 7) =
        some w ∧
      Lib.run (World.step (Gob.plain (RaftImage 3 Nat))) w (resetRun.drop 7) = some w' ∧
      (w.nodes 0).rf.state = .leader ∧ (w'.nodes 0).rf.state = .leader ∧
      ∀ s, (w'.nodes s).rf.state = .leader → (w'.nodes s).rf.currentTerm = 1 → s = 0 := by
  have hcheck : (Lib.run (World.step (Gob.plain (RaftImage 3 Nat))) World.init
      (resetRun.take 7)).any (fun w ↦ (Lib.run (World.step (Gob.plain (RaftImage 3 Nat))) w
        (resetRun.drop 7)).any (fun w' ↦ decide ((w.nodes 0).rf.state = .leader ∧
          (w.nodes 0).rf.currentTerm = 1 ∧ (w'.nodes 0).rf.state = .leader))) = true := by
    decide +kernel
  have hok : Lib.Along (World.step (Gob.plain (RaftImage 3 Nat))) LeadsByOneTerm World.init
      (resetRun.take 7 ++ resetRun.drop 7) := by
    decide +kernel
  obtain ⟨w, hrun, hw⟩ := Lib.exists_run_of_any hcheck
  obtain ⟨w', hrun', hw'⟩ := Lib.exists_run_of_any hw
  obtain ⟨hlead, hterm, hlead'⟩ := of_decide_eq_true hw'
  refine ⟨w, w', hrun, hrun', hlead, hlead', fun s hs hT ↦ ?_⟩
  exact (election_safety hok hrun hrun' hlead hs (hterm.trans hT.symm)).symm

end Lab6824
