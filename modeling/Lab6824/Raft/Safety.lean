import Lab6824.Raft.Indices
import Lab6824.Raft.LogMatching

/-!
# Safety — servers apply the same command at an index

`commitIndex` of every server, and of every `AppendEntries` request, covers only entries that a
majority has stored in the term of the last of them.  This needs that a leader counts replicas only
of entries of its own term, which `handleAppendEntriesReply` does not check; where it happens to be
so, and leaders are made by votes of one term, no two servers apply different commands at one index.
-/

namespace Lab6824

variable {n : Nat} {C σ : Type} {gob : Gob (RaftImage n C) σ}

open Lib (Replica Move lastTerm UpToDate LogInv KeepInv Grows Majority Committed Chosen Stored)

/-! ## Majorities -/

/-- The servers that the leader counts, with the leader itself, are a majority. -/
theorem Raft.matchCount_majority {rf : Raft n C σ} {k : Int} (h : rf.matchCount k ≥ n / 2 + 1) :
    ∃ Q : Finset (Fin n), Majority Q ∧ ∀ z ∈ Q, z = rf.me ∨ k ≤ rf.matchIndex z := by
  let others := (List.finRange n).filter fun s ↦ decide (s ≠ rf.me ∧ rf.matchIndex s ≥ k)
  have hnodup : (rf.me :: others).Nodup := by
    refine List.nodup_cons.mpr ⟨fun hmem ↦ ?_, (List.nodup_finRange n).filter _⟩
    simp [others] at hmem
  refine ⟨(rf.me :: others).toFinset, ?_, fun z hz ↦ ?_⟩
  · rw [Majority, List.toFinset_card_of_nodup hnodup, Fintype.card_fin, List.length_cons]
    rw [Raft.matchCount, List.countP_eq_length_filter] at h
    change 1 + others.length ≥ n / 2 + 1 at h
    omega
  · rcases List.mem_cons.mp (List.mem_toFinset.mp hz) with rfl | hmem
    · exact Or.inl rfl
    · simp only [others, List.mem_filter, decide_eq_true_eq] at hmem
      exact Or.inr hmem.2.2

/-- The voters of a new leader have logs that are no more recent than its own. -/
theorem Sim.voters {w : World n C σ} {g : Replica (Fin n) (Log C)} (h : Sim w g)
    (hpoll : PollInv gob w) {s : Fin n} {k : Nat} {env : Envelope n (RequestVoteArgs n)}
    {reply : RequestVoteReply} {el : Elect n} (hwin : Wins w s k env reply el)
    (hone : ∀ v ∈ el.counted, v.2 = (w.nodes s).rf.currentTerm)
    (hopen : g.elog (w.nodes s).rf.currentTerm = none) :
    ∃ Q, Majority Q ∧ ∀ z ∈ Q, ∃ Z, g.voted z (w.nodes s).rf.currentTerm s Z ∧
      UpToDate (w.nodes s).rf.log.tail Z := by
  have hel := List.mem_of_getElem? hwin.elect
  obtain ⟨Q, hQ, hvoters⟩ := hpoll.voters hwin
  refine ⟨Q, hQ, fun z hz ↦ ?_⟩
  rcases hvoters z hz with rfl | rfl | ⟨v, hv, rfl⟩
  · exact ⟨_, (h.nodes z).own hwin.candidate hopen, Or.inr ⟨rfl, le_refl _⟩⟩
  · exact h.vote_upToDate hwin.rep hwin.granted ((hpoll.elects s el hel).calls env hwin.call)
      hwin.term hwin.candidate hopen
  · exact ((h.nodes s).counted el hel v hv).2 (hone v hv) hwin.candidate hopen

/-! ## What is committed -/

/-- The first `k` entries of a log are committed in a term up to `T`. -/
structure Known (g : Replica (Fin n) (Log C)) (T : Int) (log : List (Log C)) (k : Int) : Prop where
  le_length : k ≤ log.length
  committed : Committed Majority g T (log.take k.toNat)

/-- Command `c` is committed at index `i`. -/
def Decided (g : Replica (Fin n) (Log C)) (i : Int) (c : Option C) : Prop :=
  ∃ T K, Committed Majority g T K ∧ ∃ (k : Nat) (e : Log C), i = k + 1 ∧ K[k]? = some e ∧
    e.command = c

namespace Known

variable {g g' : Replica (Fin n) (Log C)} {T T' : Int} {log log' : List (Log C)} {k : Int}

theorem mono (h : Known g T log k) (hgrow : Grows g g') (hle : T ≤ T') : Known g' T' log k :=
  ⟨h.le_length, h.committed.mono hgrow hle⟩

theorem nothing (g : Replica (Fin n) (Log C)) (T : Int) (log : List (Log C)) : Known g T log 0 :=
  ⟨Int.natCast_nonneg _, Or.inl rfl⟩

/-- Another log that begins with what is known. -/
theorem of_isPrefix (h : Known g T log k) (hpre : log.take k.toNat <+: log') :
    Known g T log' k := by
  have hlen : (log.take k.toNat).length = k.toNat :=
    List.length_take_of_le (by have hle := h.le_length; omega)
  have hle := hpre.length_le
  refine ⟨by omega, ?_⟩
  rw [List.prefix_iff_eq_take, hlen] at hpre
  rw [← hpre]
  exact h.committed

theorem decided (h : Known g T log k) {i : Nat} {e : Log C} (hi : (i : Int) < k)
    (he : log[i]? = some e) : Decided g (i + 1) e.command := by
  refine ⟨T, _, h.committed, i, e, rfl, ?_, rfl⟩
  rw [List.getElem?_take_of_lt (by omega)]
  exact he

end Known

theorem Decided.mono {g g' : Replica (Fin n) (Log C)} {i : Int} {c : Option C}
    (h : Decided g i c) (hgrow : Grows g g') : Decided g' i c := by
  obtain ⟨T, K, hK, hrest⟩ := h
  exact ⟨T, K, hK.mono hgrow (le_refl _), hrest⟩

theorem Decided.unique {g : Replica (Fin n) (Log C)} (hg : KeepInv Majority g) {i : Int}
    {c c' : Option C} (h : Decided g i c) (h' : Decided g i c') : c = c' := by
  obtain ⟨T, K, hK, k, e, hi, he, rfl⟩ := h
  obtain ⟨T', K', hK', k', e', hi', he', rfl⟩ := h'
  obtain rfl : k = k' := by omega
  rcases hK.comparable (fun _ _ ↦ Majority.inter) hg hK' with hpre | hpre
  · rw [Lib.getElem?_of_isPrefix hpre he, Option.some.injEq] at he'
    rw [he']
  · rw [Lib.getElem?_of_isPrefix hpre he', Option.some.injEq] at he
    rw [he]

/-- What servers, requests and messages to the services say to be committed is committed. -/
structure CommitInv (w : World n C σ) (g : Replica (Fin n) (Log C)) : Prop where
  known : ∀ s, Known g (w.nodes s).rf.currentTerm (w.nodes s).rf.log.tail (w.nodes s).rf.commitIndex
  lastApplied : ∀ s, 0 ≤ (w.nodes s).rf.lastApplied
  sent : ∀ env ∈ w.appendReqs, ∃ L p, Carries g env.args L p ∧
    Committed Majority g env.args.term (L.take env.args.leaderCommit.toNat)
  batch : ∀ s, ∀ msg ∈ (w.nodes s).batch, Decided g msg.commandIndex msg.command
  applied : ∀ s i c, .applied s i c ∈ w.trace → Decided g i c

/-- When a reply completes the majority for an entry, the entry is of the leader's own term. -/
def CommitsOwnTerm (w : World n C σ) : Action n C σ → Prop
  | .appendReply s env reply =>
    Completes (w.nodes s).rf env reply →
      ∀ e ∈ (w.nodes s).rf.entryAt env.args.lastIndex, e.term = (w.nodes s).rf.currentTerm
  | _ => True

instance (w : World n C σ) (a : Action n C σ) : Decidable (CommitsOwnTerm w a) := by
  unfold CommitsOwnTerm
  induction a using Action.casesOn <;> infer_instance

namespace CommitInv

variable {w w' : World n C σ} {g g' : Replica (Fin n) (Log C)} {a : Action n C σ}

theorem init : CommitInv (World.init : World n C σ) (Replica.start (Fin n) (Log C)) where
  known := fun _ ↦ Known.nothing _ _ _
  lastApplied := fun _ ↦ le_refl _
  sent := fun _ henv ↦ absurd henv List.not_mem_nil
  batch := fun _ _ hmsg ↦ absurd hmsg List.not_mem_nil
  applied := fun _ _ _ hmem ↦ absurd hmem List.not_mem_nil

/-- What a majority has stored with a last entry of the leader's term is chosen. -/
theorem known_of_majority {s : Fin n} {k : Int} (hsim : Sim w' g')
    (hlead : (w'.nodes s).rf.state = .leader) (hme : (w'.nodes s).rf.me = s)
    (hcount : (w'.nodes s).rf.matchCount k ≥ n / 2 + 1) (hpos : 0 < k) (hI : LogInv g')
    (hle : k ≤ (w'.nodes s).rf.log.tail.length)
    (hterm : lastTerm ((w'.nodes s).rf.log.tail.take k.toNat) = (w'.nodes s).rf.currentTerm) :
    Known g' (w'.nodes s).rf.currentTerm (w'.nodes s).rf.log.tail k := by
  have hns := hsim.nodes s
  have hlen : ((w'.nodes s).rf.log.tail.take k.toNat).length = k.toNat :=
    List.length_take_of_le (by omega)
  have hne : (w'.nodes s).rf.log.tail.take k.toNat ≠ [] := by
    intro hnil
    rw [hnil, List.length_nil] at hlen
    omega
  obtain ⟨Q, hQ, hall⟩ := Raft.matchCount_majority hcount
  refine ⟨hle, Or.inr ⟨_, _, le_refl _, ⟨Q, hQ, fun z hz ↦ ⟨hne, hterm, ?_⟩⟩, List.prefix_refl _⟩⟩
  rcases hall z hz with hz | hz
  · rw [hz, hme]
    exact ⟨_, hns.leader_acked hlead, List.take_prefix _ _⟩
  · rcases hns.matched hlead z with hzero | ⟨L, hL, hLlen⟩
    · omega
    · -- both are prefixes of the leader's log
      refine ⟨L, hL, List.prefix_of_prefix_length_le (List.take_prefix _ _) ?_ (by omega)⟩
      rw [← hns.leads hlead]
      exact (hI.acked_isPrefix z _ L hL).1

/-- An accepted request: what the server knew stays in its log, and it may learn what the leader
knew. -/
theorem known_merge (h : CommitInv w g) (hkeep : KeepInv Majority g) (hsim : Sim w g)
    (hflat : FlatInv gob w) {env : Envelope n (AppendEntriesArgs n C)} (henv : env ∈ w.appendReqs)
    {rf : Raft n C σ} {reply : AppendEntriesReply}
    (hv : (w.nodes env.dst).rf.appendEntries gob env.args = some (rf, reply))
    (hyes : reply.success = true) (hterm : (w.nodes env.dst).rf.currentTerm ≤ rf.currentTerm) :
    Known g rf.currentTerm rf.log.tail rf.commitIndex := by
  obtain ⟨L, p, hcarries, hcom⟩ := h.sent env henv
  obtain ⟨hct, hci, hcases⟩ := hsim.merge hkeep.toLogInv hflat hcarries hv hyes
  obtain ⟨X, hX, hXL⟩ := hcarries.elected
  have hold := (h.known env.dst).mono (Grows.refl g) hterm
  rw [hct] at hold ⊢
  rw [hci]
  split
  · have hL : Known g env.args.term L (min env.args.leaderCommit L.length) := by
      refine ⟨min_le_right _ _, ?_⟩
      rw [show L.take (min env.args.leaderCommit (L.length : Int)).toNat =
        L.take env.args.leaderCommit.toNat from List.take_eq_take_iff.mpr (by omega)]
      exact hcom
    -- in both cases the new log begins with the one of the request
    have hLM : L <+: rf.log.tail := by
      rcases hcases with ⟨hpre, heq⟩ | ⟨_, heq⟩
      · rw [heq]
        exact hpre
      · rw [heq]
    exact hL.of_isPrefix ((List.take_prefix _ _).trans hLM)
  · refine hold.of_isPrefix (Committed.accept (fun _ _ ↦ Majority.inter) hkeep hX hXL
      hcarries.leader hcases hold.committed (List.take_prefix _ _))

/-- A reply that completes a majority for an entry of the leader's own term. -/
theorem known_complete {s : Fin n} {env : Envelope n (AppendEntriesArgs n C)}
    {reply : AppendEntriesReply} (hkeep : KeepInv Majority g) (hsim : Sim w g)
    (hflat : FlatInv gob w) (hsim' : Sim w' g') (hI' : LogInv g') (hme : (w'.nodes s).rf.me = s)
    (hok : CommitsOwnTerm w (.appendReply s env reply)) (hrep : (env, reply) ∈ w.appendReps)
    (hdone : Completes (w.nodes s).rf env reply)
    (hterm : (w'.nodes s).rf.currentTerm = (w.nodes s).rf.currentTerm)
    (hlead : (w'.nodes s).rf.state = .leader)
    (hcount : (w'.nodes s).rf.matchCount env.args.lastIndex ≥ n / 2 + 1)
    (htail : (w'.nodes s).rf.log.tail = (w.nodes s).rf.log.tail) :
    Known g' (w'.nodes s).rf.currentTerm (w'.nodes s).rf.log.tail env.args.lastIndex := by
  have hpos : 0 < env.args.lastIndex := (hflat.commit s).trans_lt hdone.ahead
  -- the server that replied has a log of the leader up to the index
  obtain ⟨L, hL, hlen⟩ := hsim.acked env reply hrep hdone.success
  have hpre := (hkeep.acked_isPrefix _ _ L hL).1
  rw [hdone.sent, (hsim.nodes s).leads hdone.leader] at hpre
  have hle : env.args.lastIndex ≤ (w.nodes s).rf.log.tail.length := by
    have hlen' := hpre.length_le
    unfold AppendEntriesArgs.lastIndex
    omega
  obtain ⟨k, hk⟩ : ∃ k : Nat, env.args.lastIndex = k + 1 := ⟨env.args.lastIndex.toNat - 1, by omega⟩
  have hlt : k < (w.nodes s).rf.log.tail.length := by omega
  have hget : (w.nodes s).rf.log.tail[k]? = some (w.nodes s).rf.log.tail[k] :=
    List.getElem?_eq_getElem hlt
  have hown : ((w.nodes s).rf.log.tail[k]).term = (w.nodes s).rf.currentTerm := by
    refine hok hdone _ ?_
    rw [hk, hflat.entryAt, hget]
    rfl
  refine known_of_majority hsim' hlead hme hcount hpos hI' (by rw [htail]; exact hle) ?_
  rw [htail, hterm, show env.args.lastIndex.toNat = k + 1 by omega,
    Lib.lastTerm_take_of_getElem? hget]
  exact hown

theorem known_step (h : CommitInv w g) (hkeep : KeepInv Majority g) (hsim : Sim w g)
    (hflat : FlatInv gob w) (hgrow : Grows g g') (hsim' : Sim w' g') (hI' : LogInv g')
    (hnone : NoCompaction a) (hok : CommitsOwnTerm w a) (hstep : Step gob w a w') {t : Fin n}
    (hme : (w'.nodes t).rf.me = t) :
    Known g' (w'.nodes t).rf.currentTerm (w'.nodes t).rf.log.tail (w'.nodes t).rf.commitIndex := by
  have hsame : (w.nodes t).rf.currentTerm ≤ (w'.nodes t).rf.currentTerm →
      (w'.nodes t).rf.log = (w.nodes t).rf.log →
      (w'.nodes t).rf.commitIndex = (w.nodes t).rf.commitIndex →
      Known g' (w'.nodes t).rf.currentTerm (w'.nodes t).rf.log.tail
        (w'.nodes t).rf.commitIndex := by
    intro hterm hlog hci
    rw [hlog, hci]
    exact (h.known t).mono hgrow hterm
  cases step_indices hstep hflat.storage.durable t with
  | same hterm hi =>
      obtain ⟨hlog, _, _, hci, _⟩ := indices_eq.mp hi
      exact hsame hterm hlog hci
  | restarted ha hres =>
      -- `commitIndex` is not persisted, and a restarted server knows of nothing
      rw [hres.commitIndex]
      exact Known.nothing _ _ _
  | appended command ha hlead hterm hi =>
      obtain ⟨hlog, _, _, hci, _⟩ := indices_eq.mp hi
      rw [hlog, hci, List.tail_append_of_ne_nil (hflat.storage.durable t).log_ne_nil]
      exact ((h.known t).of_isPrefix ((List.take_prefix _ _).trans (List.prefix_append _ _))).mono
        hgrow hterm.ge
  | merged env pli ha hdst henv =>
      subst ha hdst
      -- what the leader knew when it sent the request is known of the merged log
      obtain ⟨reply, hv⟩ := step_appendEntries hstep
      rcases Raft.appendEntries_indices hv with ⟨_, hterm, hi⟩ | ⟨hyes, _, hacc, hterm, _⟩
      · obtain ⟨hlog, _, _, hci, _⟩ := indices_eq.mp hi
        exact hsame hterm hlog hci
      · have hle := hterm ▸ hacc.term
        exact (h.known_merge hkeep hsim hflat henv hv hyes hle).mono hgrow (le_refl _)
  | committed env reply ha hcall hdone hterm hi =>
      subst ha
      -- the one place where more becomes known than any server knew before
      obtain ⟨hlog, _, _, hci, _⟩ := indices_eq.mp hi
      obtain ⟨hrep, hv⟩ := step_appendReply hstep
      rw [hci]
      rcases appendReply_commit hv with hold | ⟨_, _, _, hlead, hcount⟩
      · have hlt := hdone.ahead
        omega
      · exact known_complete hkeep hsim hflat hsim' hI' hme hok hrep hdone hterm hlead hcount
          (congrArg List.tail hlog)
  | applied ha hawake hterm hi =>
      obtain ⟨hlog, _, _, hci, _⟩ := indices_eq.mp hi
      exact hsame hterm.ge hlog hci
  | installed msg ha hch hvalid hnew =>
      subst ha
      -- where nothing is compacted no snapshot is ahead of `commitIndex`
      exact absurd hnew (not_lt.mpr (hflat.not_installed hstep hch))
  | compacted i data dummy rest ha =>
      subst ha
      exact hnone.elim

theorem lastApplied_step (h : CommitInv w g) (hflat : FlatInv gob w) (hstep : Step gob w a w')
    (t : Fin n) : 0 ≤ (w'.nodes t).rf.lastApplied := by
  have hold := h.lastApplied t
  have hci := hflat.commit t
  cases step_indices hstep hflat.storage.durable t with
  | restarted ha hres => exact hres.lastApplied.trans (hflat.lastIncludedIndex t) |>.ge
  | applied _ _ _ hi => exact (indices_eq.mp hi).2.2.2.2 ▸ hci
  | installed _ _ _ _ hnew _ _ hi => exact (indices_eq.mp hi).2.2.2.2 ▸ hci.trans hnew.le
  | compacted _ _ _ _ _ _ _ _ hi =>
      exact (indices_eq.mp hi).2.2.2.2 ▸ hold.trans (le_max_left _ _)
  | same _ hi | appended _ _ _ _ hi | merged _ _ _ _ _ _ _ hi | committed _ _ _ _ _ _ hi =>
      exact (indices_eq.mp hi).2.2.2.2 ▸ hold

/-- A new request carries the leader's log, of which it knows as much as the leader. -/
theorem sent_step (h : CommitInv w g) (hsim : Sim w g) (hI : LogInv g) (hflat : FlatInv gob w)
    (hpoll : PollInv gob w) (hgrow : Grows g g') (hstep : Step gob w a w')
    {env : Envelope n (AppendEntriesArgs n C)} (henv : env ∈ w'.appendReqs) :
    ∃ L p, Carries g' env.args L p ∧
      Committed Majority g' env.args.term (L.take env.args.leaderCommit.toNat) := by
  have hold : env ∈ w.appendReqs → ∃ L p, Carries g' env.args L p ∧
      Committed Majority g' env.args.term (L.take env.args.leaderCommit.toNat) := by
    intro hmem
    obtain ⟨L, p, hcarries, hcom⟩ := h.sent env hmem
    exact ⟨L, p, hcarries.mono hgrow, hcom.mono hgrow (le_refl _)⟩
  cases hstep with
  | roundAppend s server hnd hne hround henv' =>
      subst hnd henv'
      rcases List.mem_cons.mp henv with rfl | hmem
      · obtain ⟨d, hlog, hd⟩ := hflat.log_eq s
        obtain ⟨hlead, _, index, prev, _, _, hargs⟩ := Raft.onRound_append hround
        obtain ⟨p, hcarries⟩ := hsim.carries hI hlog hd (hflat.lastIncludedIndex s)
          (hpoll.leader s hlead) hround
        refine ⟨_, p, hcarries.mono hgrow, ?_⟩
        rw [hargs]
        exact (h.known s).committed.mono hgrow (le_refl _)
      · exact hold hmem
  | _ => exact hold henv

end CommitInv

/-- The applier's batch: what it held before, or what `updateApplied` has just collected. -/
theorem step_batch {w w' : World n C σ} {a : Action n C σ} (hstep : Step gob w a w') {t : Fin n}
    {msg : ApplyMsg C σ} (hmsg : msg ∈ (w'.nodes t).batch) :
    msg ∈ (w.nodes t).batch ∨
      ∃ index e, (w.nodes t).rf.lastApplied < index ∧ index ≤ (w.nodes t).rf.commitIndex ∧
        (w.nodes t).rf.entryAt index = some e ∧
        msg = { commandValid := true, command := e.command, commandIndex := index } := by
  have hupdate : ∀ {s : Fin n} {nd : Node n C σ}, msg ∈ (Function.update w.nodes s nd t).batch →
      msg ∈ (w.nodes t).batch ∨ t = s ∧ msg ∈ nd.batch := by
    intro s nd hmem
    by_cases hts : t = s
    · subst hts
      rw [Function.update_self] at hmem
      exact Or.inr ⟨rfl, hmem⟩
    · rw [Function.update_of_ne hts] at hmem
      exact Or.inl hmem
  cases hstep with
  | timeoutLeader | roundIdle => exact Or.inl hmsg
  | updateApplied s hnd hawake hv =>
      subst hnd
      rcases hupdate hmsg with hold | ⟨rfl, hnew⟩
      · exact Or.inl hold
      · exact Or.inr (Raft.updateApplied_msgs hv hnew)
  | sendCommand s hnd hch hbatch =>
      subst hnd
      rcases hupdate hmsg with hold | ⟨rfl, hnew⟩
      · exact Or.inl hold
      · rw [hbatch]
        exact Or.inl (List.mem_cons_of_mem _ hnew)
  | crash s hnd hmake =>
      rcases hupdate hmsg with hold | ⟨rfl, hnew⟩
      · exact Or.inl hold
      · exact absurd hnew List.not_mem_nil
  -- the remaining steps leave the batch alone
  | campaign _ hnd | electSkip _ _ hnd | electSend _ _ hnd | requestVote _ hnd
  | voteRetire _ _ _ _ hnd | voteIgnore _ _ _ _ hnd | voteCount _ _ _ _ hnd
  | voteLead _ _ _ _ hnd | roundSnapshot _ _ hnd | roundAppend _ _ hnd | appendEntries _ hnd
  | appendReply _ _ _ hnd | installSnapshot _ hnd | snapshotReply _ _ _ hnd | start _ _ hnd
  | wakeApplier _ hnd | sendSnapshot _ _ hnd | serviceDone _ hnd | condInstallSnapshot _ hnd
  | snapshot _ _ _ hnd =>
      subst hnd
      rcases hupdate hmsg with hold | ⟨rfl, hnew⟩
      · exact Or.inl hold
      · exact Or.inl hnew

/-- A command that a server puts on its `applyCh` comes from its batch. -/
theorem step_applied {w w' : World n C σ} {a : Action n C σ} (hstep : Step gob w a w') {s : Fin n}
    {i : Int} {c : Option C} (hmem : .applied s i c ∈ w'.trace) :
    .applied s i c ∈ w.trace ∨
      ∃ msg ∈ (w.nodes s).batch, msg.commandIndex = i ∧ msg.command = c := by
  cases hstep with
  | sendCommand s' hnd hch hbatch =>
      subst hnd
      rcases List.mem_cons.mp hmem with heq | hold
      · simp only [Event.applied.injEq] at heq
        obtain ⟨rfl, rfl, rfl⟩ := heq
        exact Or.inr ⟨_, by rw [hbatch]; exact List.mem_cons_self, rfl, rfl⟩
      · exact Or.inl hold
  | requestVote | condInstallSnapshot =>
      left
      dsimp only at hmem
      split at hmem
      · simpa using hmem
      · exact hmem
  | snapshot =>
      rcases mem_noteTaken hmem with hold | ⟨_, _, heq⟩
      · exact Or.inl hold
      · cases heq
  | campaign | voteLead => exact Or.inl (by simpa using hmem)
  | _ => exact Or.inl hmem

theorem CommitInv.step {w w' : World n C σ} {g g' : Replica (Fin n) (Log C)} {a : Action n C σ}
    (h : CommitInv w g) (hkeep : KeepInv Majority g) (hsim : Sim w g) (hflat : FlatInv gob w)
    (hpoll : PollInv gob w) (hgrow : Grows g g') (hsim' : Sim w' g') (hI' : LogInv g')
    (hflat' : NoCompaction a) (hok : CommitsOwnTerm w a) (hstep : Step gob w a w') :
    CommitInv w' g' where
  known := fun t ↦ h.known_step hkeep hsim hflat hgrow hsim' hI' hflat' hok hstep
    ((hpoll.step hstep).me t)
  lastApplied := h.lastApplied_step hflat hstep
  sent := fun _ henv ↦ h.sent_step hsim hkeep.toLogInv hflat hpoll hgrow hstep henv
  batch := by
    intro s msg hmsg
    rcases step_batch hstep hmsg with hold | ⟨index, e, hlt, hle, he, rfl⟩
    · exact (h.batch s msg hold).mono hgrow
    · have hnn := h.lastApplied s
      obtain ⟨k, rfl⟩ : ∃ k : Nat, index = k + 1 := ⟨(index - 1).toNat, by omega⟩
      rw [hflat.entryAt] at he
      exact ((h.known s).decided (by omega) he).mono hgrow
  applied := by
    intro s i c hmem
    rcases step_applied hstep hmem with hold | ⟨msg, hmsg, rfl, rfl⟩
    · exact (h.applied s i c hold).mono hgrow
    · exact (h.batch s msg hmsg).mono hgrow

/-! ## State machine safety -/

/-- The conditions under which servers agree: nothing is compacted, leaders are made by votes of one
term, and they count replicas of entries of their own term only. -/
def Agreeing (w : World n C σ) (a : Action n C σ) : Prop :=
  NoCompaction a ∧ LeadsByOneTerm w a ∧ CommitsOwnTerm w a

instance decidableAgreeing (w : World n C σ) (a : Action n C σ) : Decidable (Agreeing w a) := by
  unfold Agreeing
  infer_instance

/-- The cluster, seen as the replicated logs `g`, whose leaders majorities have elected. -/
structure Mirrors (gob : Gob (RaftImage n C) σ) (w : World n C σ)
    (g : Replica (Fin n) (Log C)) : Prop extends ElectionInv gob w where
  flat : FlatInv gob w
  keep : KeepInv Majority g
  sim : Sim w g
  commit : CommitInv w g

namespace Mirrors

theorem init : Mirrors gob (World.init : World n C σ) (Replica.start (Fin n) (Log C)) where
  toElectionInv := ElectionInv.init
  flat := FlatInv.init
  keep := KeepInv.start _
  sim := Sim.init
  commit := CommitInv.init

theorem step {w w' : World n C σ} {g : Replica (Fin n) (Log C)} {a : Action n C σ}
    (h : Mirrors gob w g) (hflat : NoCompaction a) (hone : LeadsByOneTerm w a)
    (hown : CommitsOwnTerm w a) (hstep : Step gob w a w') :
    ∃ g', Grows g g' ∧ Mirrors gob w' g' := by
  have helection := h.toElectionInv.step hone hstep
  have hnext : ∃ g', Relation.ReflTransGen (Move Majority) g g' ∧ Sim w' g' := by
    refine h.sim.step h.keep.toLogInv h.flat h.toPollInv hflat hstep
      (fun _ _ _ ↦ helection.unique) fun s k env reply el ha hwin hopen ↦ ?_
    subst ha
    exact h.sim.voters h.toPollInv hwin (hwin.one_term hone) hopen
  obtain ⟨g', hmoves, hsim'⟩ := hnext
  have hgrow := h.keep.toLogInv.moves_grows hmoves
  have hkeep' := h.keep.moves hmoves
  exact ⟨g', hgrow, helection, h.flat.step hflat hstep, hkeep', hsim',
    h.commit.step h.keep h.sim h.flat h.toPollInv hgrow hsim' hkeep'.toLogInv hflat hown hstep⟩

variable {v w : World n C σ} {g : Replica (Fin n) (Log C)}

/-- What the replicated logs record is never lost on the way. -/
theorem run [DecidableEq C] [DecidableEq σ] {as : List (Action n C σ)} (h : Mirrors gob v g)
    (hok : Lib.Along (World.step gob) Agreeing v as)
    (hrun : Lib.run (World.step gob) v as = some w) : ∃ g', Grows g g' ∧ Mirrors gob w g' := by
  refine Lib.run_simulates Grows.refl (fun _ _ _ ↦ Grows.trans) ?_ h hok hrun
  rintro u a u' g hu ⟨hflat, hone, hown⟩ hstep
  exact hu.step hflat hone hown (World.step_inv hstep)

theorem of_run [DecidableEq C] [DecidableEq σ] {as : List (Action n C σ)}
    (hok : Lib.Along (World.step gob) Agreeing World.init as)
    (hrun : Lib.run (World.step gob) World.init as = some w) : ∃ g, Mirrors gob w g := by
  obtain ⟨g, _, hg⟩ := Mirrors.init.run hok hrun
  exact ⟨g, hg⟩

end Mirrors

/-- In a run without compaction whose leaders are made by votes of one term and commit entries of
their own term only, no two command messages that servers put on their `applyCh`, in whatever
incarnation, have the same index and different commands. -/
theorem state_machine_safety [DecidableEq C] [DecidableEq σ] {gob : Gob (RaftImage n C) σ}
    {w : World n C σ} {as : List (Action n C σ)}
    (hok : Lib.Along (World.step gob)
      (fun v a ↦ NoCompaction a ∧ LeadsByOneTerm v a ∧ CommitsOwnTerm v a) World.init as)
    (hrun : Lib.run (World.step gob) World.init as = some w) {s s' : Fin n} {i : Int}
    {c c' : Option C} (hs : .applied s i c ∈ w.trace) (hs' : .applied s' i c' ∈ w.trace) :
    c = c' := by
  obtain ⟨g, hg⟩ := Mirrors.of_run hok hrun
  exact (hg.commit.applied s i c hs).unique hg.keep (hg.commit.applied s' i c' hs')

/-- Server 0 leads term 1 and server 1 term 2, and each accepts a command that it does not replicate.
As leader of term 3 server 0 replicates its old entry to server 2, takes it for committed and applies
it; then server 1, whose last entry is of term 2, leads term 4 with the vote of server 2, replaces the
entry there and applies its own. -/
def overwriteRun : List (Action 3 Nat (RaftImage 3 Nat)) :=
  let vote (rpc : Nat) (dst : Fin 3) (term : Int) (candidate : Fin 3) (index last : Int) :
      Envelope 3 (RequestVoteArgs 3) := ⟨rpc, dst, ⟨term, candidate, index, last⟩⟩
  let yes (term : Int) : RequestVoteReply := { term := term, voteGranted := true }
  let append (rpc : Nat) (term : Int) (leader : Fin 3) (index last : Int)
      (entries : List (Log Nat)) : Envelope 3 (AppendEntriesArgs 3 Nat) :=
    ⟨rpc, 2, ⟨term, leader, index, last, entries, 0⟩⟩
  let x : Log Nat := { command := some 10, term := 1 }
  let y : Log Nat := { command := some 20, term := 2 }
  [ .electTimeout 0, .electRound 0 0, .electRound 0 0, .requestVote (vote 0 1 1 0 0 0),
    .voteReply 0 0 (vote 0 1 1 0 0 0) (yes 1), .start 0 (some 10),
    -- term 2
    .electTimeout 1, .electRound 1 0, .electRound 1 0, .electRound 1 0,
    .requestVote (vote 2 2 2 1 0 0), .voteReply 1 0 (vote 2 2 2 1 0 0) (yes 2), .start 1 (some 20),
    -- term 3
    .requestVote (vote 1 0 2 1 0 0), .electTimeout 0, .electRound 0 1, .electRound 0 1,
    .electRound 0 1, .requestVote (vote 4 2 3 0 1 1), .voteReply 0 1 (vote 4 2 3 0 1 1) (yes 3),
    .onRound 0 2, .appendEntries (append 5 3 0 1 1 []),
    .appendReply 0 (append 5 3 0 1 1 []) { term := 3, conflictTerm := -1, conflictIndex := 1 },
    .onRound 0 2, .appendEntries (append 6 3 0 0 0 [x]),
    .appendReply 0 (append 6 3 0 0 0 [x]) { term := 3, success := true },
    .wakeApplier 0, .updateApplied 0, .sendCommand 0,
    -- term 4
    .requestVote (vote 3 1 3 0 1 1), .electTimeout 1, .electRound 1 1, .electRound 1 1,
    .electRound 1 1, .requestVote (vote 8 2 4 1 1 2), .voteReply 1 1 (vote 8 2 4 1 1 2) (yes 4),
    .onRound 1 2, .appendEntries (append 9 4 1 1 2 []),
    .appendReply 1 (append 9 4 1 1 2 []) { term := 4, conflictTerm := 1, conflictIndex := 1 },
    .onRound 1 2, .appendEntries (append 10 4 1 0 0 [y]),
    .appendReply 1 (append 10 4 1 0 0 [y]) { term := 4, success := true },
    .wakeApplier 1, .updateApplied 1, .sendCommand 1 ]

theorem two_commands_at_one_index :
    Lib.Along (World.step (Gob.plain (RaftImage 3 Nat)))
      (fun v a ↦ NoCompaction a ∧ LeadsByOneTerm v a) World.init overwriteRun ∧
    ∃ w, Lib.run (World.step (Gob.plain (RaftImage 3 Nat))) World.init overwriteRun = some w ∧
      .applied 0 1 (some 10) ∈ w.trace ∧ .applied 1 1 (some 20) ∈ w.trace := by
  have hcheck : (Lib.run (World.step (Gob.plain (RaftImage 3 Nat))) World.init overwriteRun).any
      (fun w ↦ decide (.applied 0 1 (some 10) ∈ w.trace ∧ .applied 1 1 (some 20) ∈ w.trace)) =
        true := by
    decide +kernel
  obtain ⟨w, hrun, hw⟩ := Lib.exists_run_of_any hcheck
  exact ⟨by decide +kernel, w, hrun, of_decide_eq_true hw⟩

/-- `replicateRun` and its reply: server 0, leader of term 1, has committed both commands. -/
def commitRun : List (Action 3 Nat (RaftImage 3 Nat)) :=
  replicateRun ++
    [ .appendReply 0 ⟨1, 1, ⟨1, 0, 0, 0,
        [{ command := some 7, term := 1 }, { command := some 8, term := 1 }], 0⟩⟩
        { term := 1, success := true } ]

/-- `commitRun` goes on: the follower learns from the next request what is committed, and both apply
the first command. -/
theorem one_command_of_replicateRun :
    let applyRun : List (Action 3 Nat (RaftImage 3 Nat)) := commitRun ++
      [ .wakeApplier 0, .updateApplied 0, .sendCommand 0, .onRound 0 1,
        .appendEntries ⟨2, 1, ⟨1, 0, 2, 1, [], 2⟩⟩, .wakeApplier 1, .updateApplied 1, .sendCommand 1 ]
    ∃ w, Lib.run (World.step (Gob.plain (RaftImage 3 Nat))) World.init applyRun = some w ∧
      .applied 0 1 (some 7) ∈ w.trace ∧ .applied 1 1 (some 7) ∈ w.trace ∧
      ∀ s c, .applied s 1 c ∈ w.trace → c = some 7 := by
  intro applyRun
  have hcheck : (Lib.run (World.step (Gob.plain (RaftImage 3 Nat))) World.init applyRun).any
      (fun w ↦ decide (.applied 0 1 (some 7) ∈ w.trace ∧ .applied 1 1 (some 7) ∈ w.trace)) =
        true := by
    decide +kernel
  have hok : Lib.Along (World.step (Gob.plain (RaftImage 3 Nat)))
      (fun v a ↦ NoCompaction a ∧ LeadsByOneTerm v a ∧ CommitsOwnTerm v a) World.init
      applyRun := by
    decide +kernel
  obtain ⟨w, hrun, hw⟩ := Lib.exists_run_of_any hcheck
  obtain ⟨h₀, h₁⟩ := of_decide_eq_true hw
  exact ⟨w, hrun, h₀, h₁, fun s c hs ↦ state_machine_safety hok hrun hs h₀⟩

end Lab6824
