import Lab6824.Lib.Completeness
import Lab6824.Raft.Election
import Lab6824.Raft.Flat
import Lab6824.Raft.Merge

/-!
# Simulation — the cluster as a system of replicated logs

`Sim w g` relates a state of the cluster to a state of `Lib.Replica`: terms and logs are the servers'
own, without the dummy entry; leaders hold the longest log of their term; requests, replies,
`matchIndex` and the votes that goroutines have counted speak about what has been acknowledged and
voted there.  `Sim.step` is the forward simulation: in a run without compaction whose terms have one
leader each, every step of the cluster is matched by moves of the replicated system.
-/

namespace Lab6824

variable {n : Nat} {C σ : Type} {gob : Gob (RaftImage n C) σ}

open Lib (Replica Move lastTerm UpToDate LogInv Grows)

/-! ## The relation -/

/-- The candidate's log, as far as a vote request describes it, is at least as recent as `Z`. -/
def Fresh (args : RequestVoteArgs n) (Z : List (Log C)) : Prop :=
  lastTerm Z < args.lastLogTerm ∨
    lastTerm Z = args.lastLogTerm ∧ (Z.length : Int) ≤ args.lastLogIndex

/-- A vote request describes the log that its candidate has for as long as it stands in that
term. -/
def Asks (rf : Raft n C σ) (args : RequestVoteArgs n) : Prop :=
  args.term ≤ rf.currentTerm ∧
    (args.term = rf.currentTerm → rf.state = .candidate →
      args.lastLogIndex = rf.log.tail.length ∧ args.lastLogTerm = lastTerm rf.log.tail)

/-- An `AppendEntries` request carries a log `L` of the leader of its term, from `p` on. -/
structure Carries (g : Replica (Fin n) (Log C)) (args : AppendEntriesArgs n C)
    (L : List (Log C)) (p : Nat) : Prop where
  elected : ∃ X, g.elog args.term = some X ∧ X <+: L
  leader : L <+: g.llog args.term
  prevLogIndex : args.prevLogIndex = p
  le_length : p ≤ L.length
  prevLogTerm : args.prevLogTerm = lastTerm (L.take p)
  entries : args.entries = L.drop p

theorem Carries.mono {g g' : Replica (Fin n) (Log C)} {args : AppendEntriesArgs n C}
    {L : List (Log C)} {p : Nat} (h : Carries g args L p) (hgrow : Grows g g') :
    Carries g' args L p := by
  obtain ⟨X, hX, hXL⟩ := h.elected
  exact { h with
    elected := ⟨X, hgrow.elog _ X hX, hXL⟩, leader := h.leader.trans (hgrow.llog _) }

theorem Carries.length_eq {g : Replica (Fin n) (Log C)} {args : AppendEntriesArgs n C}
    {L : List (Log C)} {p : Nat} (h : Carries g args L p) :
    (L.length : Int) = args.prevLogIndex + args.entries.length := by
  have hle := h.le_length
  rw [h.prevLogIndex, h.entries, List.length_drop]
  omega

structure NodeSim (g : Replica (Fin n) (Log C)) (s : Fin n) (nd : Node n C σ) : Prop where
  term : g.term s = nd.rf.currentTerm
  log : g.log s = nd.rf.log.tail
  nonneg : 0 ≤ nd.rf.currentTerm
  leads : nd.rf.state = .leader → g.llog nd.rf.currentTerm = nd.rf.log.tail
  leader_acked : nd.rf.state = .leader → g.acked s nd.rf.currentTerm nd.rf.log.tail
  matched : nd.rf.state = .leader → ∀ z, nd.rf.matchIndex z ≤ 0 ∨
    ∃ L, g.acked z nd.rf.currentTerm L ∧ (L.length : Int) = nd.rf.matchIndex z
  positive : nd.rf.state = .candidate → 0 < nd.rf.currentTerm
  own : nd.rf.state = .candidate → g.elog nd.rf.currentTerm = none →
    g.voted s nd.rf.currentTerm s nd.rf.log.tail
  counted : ∀ el ∈ nd.elects, ∀ v ∈ el.counted, v.2 ≤ nd.rf.currentTerm ∧
    (v.2 = nd.rf.currentTerm → nd.rf.state = .candidate → g.elog nd.rf.currentTerm = none →
      ∃ Z, g.voted v.1 nd.rf.currentTerm s Z ∧ UpToDate nd.rf.log.tail Z)

structure Sim (w : World n C σ) (g : Replica (Fin n) (Log C)) : Prop where
  nodes : ∀ s, NodeSim g s (w.nodes s)
  elected : ∀ s T, .elected s T ∈ w.trace → ∃ X, g.elog T = some X
  unelected : ∀ T X, g.elog T = some X → ∃ s, .elected s T ∈ w.trace
  sent : ∀ env ∈ w.appendReqs, ∃ L p, Carries g env.args L p
  acked : ∀ env reply, (env, reply) ∈ w.appendReps → reply.success = true →
    ∃ L, g.acked env.dst env.args.term L ∧
      (L.length : Int) = env.args.prevLogIndex + env.args.entries.length
  asked : ∀ env ∈ w.voteReqs, Asks (w.nodes env.args.candidateId).rf env.args
  answered : ∀ env reply, (env, reply) ∈ w.voteReps → reply.voteGranted = true →
    Asks (w.nodes env.args.candidateId).rf env.args ∧
      (g.elog env.args.term = none →
        ∃ Z, g.voted env.dst env.args.term env.args.candidateId Z ∧ Fresh env.args Z)

/-! ## What a candidate keeps -/

/-- Terms do not go back, and a server that is still a candidate of its term has the log with which
it became one. -/
structure Stays (rf rf' : Raft n C σ) : Prop where
  term : rf.currentTerm ≤ rf'.currentTerm
  candidate : rf'.currentTerm = rf.currentTerm → rf'.state = .candidate →
    rf.state = .candidate ∧ rf'.log.tail = rf.log.tail

namespace Stays

theorem refl (rf : Raft n C σ) : Stays rf rf := ⟨le_refl _, fun _ h ↦ ⟨h, rfl⟩⟩

/-- A section that keeps term and role and does not touch the log of a candidate. -/
theorem of_same {rf rf' : Raft n C σ} (hterm : rf'.currentTerm = rf.currentTerm)
    (hstate : rf'.state = rf.state) (hlog : rf.state = .candidate → rf'.log = rf.log) :
    Stays rf rf' :=
  ⟨hterm.ge, fun _ h ↦ ⟨hstate ▸ h, by rw [hlog (hstate ▸ h)]⟩⟩

theorem of_lt {rf rf' : Raft n C σ} (hlt : rf.currentTerm < rf'.currentTerm) : Stays rf rf' :=
  ⟨hlt.le, fun h _ ↦ absurd h hlt.ne'⟩

theorem of_not_candidate {rf rf' : Raft n C σ} (hle : rf.currentTerm ≤ rf'.currentTerm)
    (hstate : rf'.state ≠ .candidate) : Stays rf rf' :=
  ⟨hle, fun _ h ↦ absurd h hstate⟩

theorem asks {rf rf' : Raft n C σ} (h : Stays rf rf') {args : RequestVoteArgs n}
    (ha : Asks rf args) : Asks rf' args := by
  obtain ⟨hle, hlog⟩ := ha
  refine ⟨hle.trans h.term, fun heq hcand ↦ ?_⟩
  have hterm := h.term
  obtain ⟨hcand', htail⟩ := h.candidate (by omega) hcand
  rw [htail]
  exact hlog (by omega) hcand'

end Stays

/-! ## Changing one node -/

/-- The part of a server that the simulation looks at. -/
def Raft.core (rf : Raft n C σ) : Int × List (Log C) × Role × (Fin n → Int) :=
  (rf.currentTerm, rf.log.tail, rf.state, rf.matchIndex)

theorem core_eq {rf rf' : Raft n C σ} (h : rf'.core = rf.core) :
    rf'.currentTerm = rf.currentTerm ∧ rf'.log.tail = rf.log.tail ∧ rf'.state = rf.state ∧
      rf'.matchIndex = rf.matchIndex := by
  simpa only [Raft.core, Prod.mk.injEq] using h

theorem Stays.of_core {rf rf' : Raft n C σ} (h : rf'.core = rf.core) : Stays rf rf' := by
  obtain ⟨hterm, hlog, hstate, _⟩ := core_eq h
  exact ⟨hterm.ge, fun _ hc ↦ ⟨hstate ▸ hc, hlog⟩⟩

namespace NodeSim

variable {g g' : Replica (Fin n) (Log C)} {s : Fin n} {nd nd' : Node n C σ}

/-- The replicated system moves on, but not at this server. -/
theorem grow (h : NodeSim g s nd) (hgrow : Grows g g') (hterm : g'.term s = g.term s)
    (hlog : g'.log s = g.log s)
    (hllog : nd.rf.state = .leader → g'.llog nd.rf.currentTerm = g.llog nd.rf.currentTerm) :
    NodeSim g' s nd := by
  have hopen : ∀ T, g'.elog T = none → g.elog T = none := by
    intro T hT
    cases hX : g.elog T with
    | none => rfl
    | some X => rw [hgrow.elog T X hX] at hT; cases hT
  refine ⟨hterm.trans h.term, hlog.trans h.log, h.nonneg, fun hl ↦ (hllog hl).trans (h.leads hl),
    fun hl ↦ hgrow.acked _ _ _ (h.leader_acked hl), fun hl z ↦ ?_, h.positive,
    fun hc ho ↦ hgrow.voted _ _ _ _ (h.own hc (hopen _ ho)), fun el hel v hv ↦ ?_⟩
  · rcases h.matched hl z with hz | ⟨L, hL, hlen⟩
    · exact Or.inl hz
    · exact Or.inr ⟨L, hgrow.acked _ _ _ hL, hlen⟩
  · obtain ⟨hle, hvote⟩ := h.counted el hel v hv
    refine ⟨hle, fun heq hc ho ↦ ?_⟩
    obtain ⟨Z, hZ, hup⟩ := hvote heq hc (hopen _ ho)
    exact ⟨Z, hgrow.voted _ _ _ _ hZ, hup⟩

/-- Term and log stay, the role stays or becomes that of a follower, and no vote is counted; a leader
may have learned what a server has acknowledged. -/
theorem keep (h : NodeSim g s nd) (hterm : nd'.rf.currentTerm = nd.rf.currentTerm)
    (hlog : nd'.rf.log.tail = nd.rf.log.tail)
    (hstate : nd'.rf.state = nd.rf.state ∨ nd'.rf.state = .follower)
    (hmatch : nd'.rf.state = .leader → ∀ z, nd'.rf.matchIndex z = nd.rf.matchIndex z ∨
      nd'.rf.matchIndex z ≤ 0 ∨
      ∃ L, g.acked z nd.rf.currentTerm L ∧ (L.length : Int) = nd'.rf.matchIndex z)
    (hel : ∀ el' ∈ nd'.elects, ∃ el ∈ nd.elects, el'.counted = el.counted) :
    NodeSim g s nd' := by
  have hrole : ∀ {r}, r ≠ .follower → nd'.rf.state = r → nd.rf.state = r := by
    rintro r hr rfl
    rcases hstate with he | he
    · exact he.symm
    · exact absurd he hr
  have hleader := hrole (r := .leader) Role.noConfusion
  have hcandidate := hrole (r := .candidate) Role.noConfusion
  refine ⟨?_, ?_, ?_, fun hl ↦ ?_, fun hl ↦ ?_, fun hl z ↦ ?_, fun hc ↦ ?_, fun hc ho ↦ ?_,
    fun el hmem v hv ↦ ?_⟩
  · rw [hterm]
    exact h.term
  · rw [hlog]
    exact h.log
  · rw [hterm]
    exact h.nonneg
  · rw [hterm, hlog]
    exact h.leads (hleader hl)
  · rw [hterm, hlog]
    exact h.leader_acked (hleader hl)
  · rw [hterm]
    rcases hmatch hl z with heq | hnew
    · rw [heq]
      exact h.matched (hleader hl) z
    · exact hnew
  · rw [hterm]
    exact h.positive (hcandidate hc)
  · rw [hterm, hlog]
    exact h.own (hcandidate hc) (hterm ▸ ho)
  · obtain ⟨el₀, hmem₀, heq⟩ := hel el hmem
    rw [heq] at hv
    rw [hterm, hlog]
    obtain ⟨hle, hvote⟩ := h.counted el₀ hmem₀ v hv
    exact ⟨hle, fun hT hc ho ↦ hvote hT (hcandidate hc) (hterm ▸ ho)⟩

theorem congr (h : NodeSim g s nd) (hcore : nd'.rf.core = nd.rf.core)
    (hel : ∀ el' ∈ nd'.elects, ∃ el ∈ nd.elects, el'.counted = el.counted) : NodeSim g s nd' := by
  obtain ⟨hterm, hlog, hstate, hmatch⟩ := core_eq hcore
  exact h.keep hterm hlog (Or.inl hstate) (fun _ z ↦ Or.inl (by rw [hmatch])) hel

/-- The server becomes a follower of a higher term. -/
theorem retire (h : NodeSim g s nd) (hterm : g'.term s = nd'.rf.currentTerm)
    (hlog' : g'.log s = g.log s) (hlt : nd.rf.currentTerm < nd'.rf.currentTerm)
    (hlog : nd'.rf.log.tail = nd.rf.log.tail) (hstate : nd'.rf.state = .follower)
    (hel : ∀ el' ∈ nd'.elects, ∃ el ∈ nd.elects, el'.counted = el.counted) :
    NodeSim g' s nd' := by
  have hno : ∀ {r}, nd'.rf.state = r → r ≠ .follower → False := fun he hne ↦
    hne (he ▸ hstate)
  refine ⟨hterm, by rw [hlog', hlog]; exact h.log, h.nonneg.trans hlt.le,
    fun hl ↦ (hno hl Role.noConfusion).elim, fun hl ↦ (hno hl Role.noConfusion).elim,
    fun hl ↦ (hno hl Role.noConfusion).elim, fun hc ↦ (hno hc Role.noConfusion).elim,
    fun hc ↦ (hno hc Role.noConfusion).elim, fun el hmem v hv ↦ ?_⟩
  obtain ⟨el₀, hmem₀, heq⟩ := hel el hmem
  rw [heq] at hv
  exact ⟨(h.counted el₀ hmem₀ v hv).1.trans hlt.le,
    fun _ hc ↦ (hno hc Role.noConfusion).elim⟩

/-- The server stands in the next term. -/
theorem campaign (h : NodeSim g s nd) (hrf : nd'.rf = nd.rf.toCandidate gob)
    (hel : nd'.elects = nd.elects ++ [({} : Elect n)]) (hterm : g'.term s = nd.rf.currentTerm + 1)
    (hlog : g'.log s = g.log s)
    (hown : g'.elog (nd.rf.currentTerm + 1) = none →
      g'.voted s (nd.rf.currentTerm + 1) s nd.rf.log.tail) : NodeSim g' s nd' := by
  have hct : nd'.rf.currentTerm = nd.rf.currentTerm + 1 := by
    rw [hrf]
    rfl
  have htail : nd'.rf.log.tail = nd.rf.log.tail := by
    rw [hrf]
    rfl
  have hstate : nd'.rf.state = .candidate := by
    rw [hrf]
    rfl
  have hnn := h.nonneg
  have hnot : nd'.rf.state ≠ .leader := by
    rw [hstate]
    exact Role.noConfusion
  refine ⟨hterm.trans hct.symm, by rw [hlog, htail]; exact h.log, by omega,
    fun hl ↦ absurd hl hnot, fun hl ↦ absurd hl hnot, fun hl ↦ absurd hl hnot, fun _ ↦ by omega,
    fun _ ho ↦ ?_, fun el hmem v hv ↦ ?_⟩
  · rw [hct] at ho ⊢
    rw [htail]
    exact hown ho
  · rw [hel] at hmem
    rcases List.mem_append.mp hmem with hmem | hnew
    · have hle := (h.counted el hmem v hv).1
      exact ⟨by omega, fun heq ↦ by omega⟩
    · rw [List.mem_singleton.mp hnew] at hv
      exact absurd hv List.not_mem_nil

end NodeSim

/-- One node changes, the replicated system moves on, and messages may be added. -/
theorem Sim.of_update {w w' : World n C σ} {g g' : Replica (Fin n) (Log C)} {s : Fin n}
    {nd : Node n C σ} (h : Sim w g) (hgrow : Grows g g')
    (hnodes : w'.nodes = Function.update w.nodes s nd) (hself : NodeSim g' s nd)
    (hstays : Stays (w.nodes s).rf nd.rf)
    (hother : ∀ t, t ≠ s → NodeSim g' t (w.nodes t))
    (helected : ∀ z T, .elected z T ∈ w'.trace → .elected z T ∈ w.trace ∨ ∃ X, g'.elog T = some X)
    (hunelected : ∀ T X, g'.elog T = some X → g.elog T = some X ∨ .elected s T ∈ w'.trace)
    (hsuffix : w.trace <:+ w'.trace)
    (hsent : ∀ env ∈ w'.appendReqs, env ∈ w.appendReqs ∨ ∃ L p, Carries g' env.args L p)
    (hacked : ∀ env reply, (env, reply) ∈ w'.appendReps → reply.success = true →
      (env, reply) ∈ w.appendReps ∨ ∃ L, g'.acked env.dst env.args.term L ∧
        (L.length : Int) = env.args.prevLogIndex + env.args.entries.length)
    (hasked : ∀ env ∈ w'.voteReqs, env ∈ w.voteReqs ∨
      Asks (w'.nodes env.args.candidateId).rf env.args)
    (hanswered : ∀ env reply, (env, reply) ∈ w'.voteReps → reply.voteGranted = true →
      (env, reply) ∈ w.voteReps ∨ env ∈ w.voteReqs ∧ (g'.elog env.args.term = none →
        ∃ Z, g'.voted env.dst env.args.term env.args.candidateId Z ∧ Fresh env.args Z)) :
    Sim w' g' := by
  have hopen : ∀ T, g'.elog T = none → g.elog T = none := by
    intro T hT
    cases hX : g.elog T with
    | none => rfl
    | some X => rw [hgrow.elog T X hX] at hT; cases hT
  have hstays' : ∀ t, Stays (w.nodes t).rf (w'.nodes t).rf := by
    rw [hnodes]
    exact (Function.forall_update_iff w.nodes fun t nd ↦ Stays (w.nodes t).rf nd.rf).mpr
      ⟨hstays, fun t _ ↦ Stays.refl _⟩
  refine ⟨?_, fun z T hmem ↦ ?_, fun T X hX ↦ ?_, fun env henv ↦ ?_, fun env reply hrep hyes ↦ ?_,
    fun env henv ↦ ?_, fun env reply hrep hyes ↦ ?_⟩
  · rw [hnodes]
    exact (Function.forall_update_iff w.nodes fun t nd ↦ NodeSim g' t nd).mpr ⟨hself, hother⟩
  · rcases helected z T hmem with hold | hnew
    · obtain ⟨X, hX⟩ := h.elected z T hold
      exact ⟨X, hgrow.elog T X hX⟩
    · exact hnew
  · rcases hunelected T X hX with hold | hnew
    · obtain ⟨z, hz⟩ := h.unelected T X hold
      exact ⟨z, hsuffix.subset hz⟩
    · exact ⟨s, hnew⟩
  · rcases hsent env henv with hold | hnew
    · obtain ⟨L, p, hc⟩ := h.sent env hold
      exact ⟨L, p, hc.mono hgrow⟩
    · exact hnew
  · rcases hacked env reply hrep hyes with hold | hnew
    · obtain ⟨L, hL, hlen⟩ := h.acked env reply hold hyes
      exact ⟨L, hgrow.acked _ _ _ hL, hlen⟩
    · exact hnew
  · rcases hasked env henv with hold | hnew
    · exact (hstays' _).asks (h.asked env hold)
    · exact hnew
  · rcases hanswered env reply hrep hyes with hold | ⟨hreq, hnew⟩
    · obtain ⟨hasks, hvote⟩ := h.answered env reply hold hyes
      refine ⟨(hstays' _).asks hasks, fun ho ↦ ?_⟩
      obtain ⟨Z, hZ, hfresh⟩ := hvote (hopen _ ho)
      exact ⟨Z, hgrow.voted _ _ _ _ hZ, hfresh⟩
    · exact ⟨(hstays' _).asks (h.asked env hreq), hnew⟩

/-- A step that sends no request, grants no vote, acknowledges nothing and elects nobody. -/
structure Quiet (w w' : World n C σ) : Prop where
  suffix : w.trace <:+ w'.trace
  elected : ∀ z T, .elected z T ∈ w'.trace → .elected z T ∈ w.trace
  appendReqs : ∀ env ∈ w'.appendReqs, env ∈ w.appendReqs
  appendReps : ∀ env reply, (env, reply) ∈ w'.appendReps → reply.success = true →
    (env, reply) ∈ w.appendReps
  voteReqs : ∀ env ∈ w'.voteReqs, env ∈ w.voteReqs
  voteReps : ∀ env reply, (env, reply) ∈ w'.voteReps → reply.voteGranted = true →
    (env, reply) ∈ w.voteReps

theorem Quiet.of_eq {w w' : World n C σ} (htr : w'.trace = w.trace)
    (h₁ : w'.appendReqs = w.appendReqs) (h₂ : w'.appendReps = w.appendReps)
    (h₃ : w'.voteReqs = w.voteReqs) (h₄ : w'.voteReps = w.voteReps) : Quiet w w' where
  suffix := htr ▸ List.suffix_refl _
  elected := fun _ _ h ↦ htr ▸ h
  appendReqs := fun _ h ↦ h₁ ▸ h
  appendReps := fun _ _ h _ ↦ h₂ ▸ h
  voteReqs := fun _ h ↦ h₃ ▸ h
  voteReps := fun _ _ h _ ↦ h₄ ▸ h

theorem Sim.quiet {w w' : World n C σ} {g g' : Replica (Fin n) (Log C)} {s : Fin n}
    {nd : Node n C σ} (h : Sim w g) (hgrow : Grows g g') (helog : g'.elog = g.elog)
    (hnodes : w'.nodes = Function.update w.nodes s nd) (hself : NodeSim g' s nd)
    (hstays : Stays (w.nodes s).rf nd.rf) (hother : ∀ t, t ≠ s → NodeSim g' t (w.nodes t))
    (hq : Quiet w w') : Sim w' g' :=
  h.of_update hgrow hnodes hself hstays hother (fun z T hmem ↦ Or.inl (hq.elected z T hmem))
    (fun _ _ hX ↦ Or.inl (helog ▸ hX)) hq.suffix (fun env henv ↦ Or.inl (hq.appendReqs env henv))
    (fun env reply hrep hyes ↦ Or.inl (hq.appendReps env reply hrep hyes))
    (fun env henv ↦ Or.inl (hq.voteReqs env henv))
    (fun env reply hrep hyes ↦ Or.inl (hq.voteReps env reply hrep hyes))

/-- One node changes, and the replicated system stays as it is. -/
theorem Sim.frame {w w' : World n C σ} {g : Replica (Fin n) (Log C)} {s : Fin n}
    {nd : Node n C σ} (h : Sim w g) (hnodes : w'.nodes = Function.update w.nodes s nd)
    (hq : Quiet w w') (hself : NodeSim g s nd) (hstays : Stays (w.nodes s).rf nd.rf) : Sim w' g :=
  h.quiet (Grows.refl g) rfl hnodes hself hstays (fun t _ ↦ h.nodes t) hq

/-- Raising the term of one server in the replicated system. -/
theorem NodeSim.raise_other {g : Replica (Fin n) (Log C)} {s t : Fin n} {nd : Node n C σ}
    (h : NodeSim g t nd) (hts : t ≠ s) {T : Int} (hle : g.term s ≤ T) :
    NodeSim { g with term := Function.update g.term s T } t nd := by
  exact h.grow (Grows.raise hle) (Function.update_of_ne hts _ _) rfl fun _ ↦ rfl

/-- One server becomes a follower of a higher term. -/
theorem Sim.raise {w w' : World n C σ} {g : Replica (Fin n) (Log C)} {s : Fin n}
    {nd : Node n C σ} (h : Sim w g) (hnodes : w'.nodes = Function.update w.nodes s nd)
    (hq : Quiet w w') (hlt : (w.nodes s).rf.currentTerm < nd.rf.currentTerm)
    (hlog : nd.rf.log.tail = (w.nodes s).rf.log.tail) (hstate : nd.rf.state = .follower)
    (hel : ∀ el' ∈ nd.elects, ∃ el ∈ (w.nodes s).elects, el'.counted = el.counted) :
    Sim w' { g with term := Function.update g.term s nd.rf.currentTerm } := by
  have hle : g.term s ≤ nd.rf.currentTerm := (h.nodes s).term ▸ hlt.le
  refine h.quiet (Grows.raise hle) rfl hnodes ?_ (.of_lt hlt)
    (fun t hts ↦ (h.nodes t).raise_other hts hle) hq
  exact (h.nodes s).retire (Function.update_self _ _ _) rfl hlt hlog hstate hel

/-! ## One lemma for each kind of step -/

section Steps

variable {quorum : Finset (Fin n) → Prop} {w w' : World n C σ} {g : Replica (Fin n) (Log C)}

theorem counted_set {els : List (Elect n)} {k : Nat} {el el' : Elect n}
    (hk : els[k]? = some el) (hc : el'.counted = el.counted) :
    ∀ e ∈ els.set k el', ∃ e₀ ∈ els, e.counted = e₀.counted := by
  intro e he
  rcases List.mem_or_eq_of_mem_set he with he | rfl
  · exact ⟨e, he, rfl⟩
  · exact ⟨el, List.mem_of_getElem? hk, hc⟩

/-- The server becomes a follower of term `T`, which is higher than its own. -/
theorem Sim.follow {s : Fin n} {nd : Node n C σ} {T : Int} (h : Sim w g)
    (hnodes : w'.nodes = Function.update w.nodes s nd) (hq : Quiet w w')
    (hlt : (w.nodes s).rf.currentTerm < T)
    (hcore : nd.rf.core = ((w.nodes s).rf.toFollower gob T none).core)
    (hel : ∀ el' ∈ nd.elects, ∃ el ∈ (w.nodes s).elects, el'.counted = el.counted) :
    ∃ g', Relation.ReflTransGen (Move quorum) g g' ∧ Sim w' g' := by
  obtain ⟨hterm, hlog, hstate, _⟩ := core_eq hcore
  have hlt' : (w.nodes s).rf.currentTerm < nd.rf.currentTerm := by
    rw [hterm]
    exact hlt
  exact ⟨_, .single (.raise s nd.rf.currentTerm ((h.nodes s).term ▸ hlt'.le)),
    h.raise hnodes hq hlt' hlog hstate hel⟩

/-- The step-down that several sections begin with, and nothing else that matters here. -/
theorem Sim.stepDown {s : Fin n} {nd : Node n C σ} {term : Int} (h : Sim w g)
    (hnodes : w'.nodes = Function.update w.nodes s nd) (hq : Quiet w w')
    (hcore : nd.rf.core = ((w.nodes s).rf.stepDown gob term).core)
    (hel : ∀ el' ∈ nd.elects, ∃ el ∈ (w.nodes s).elects, el'.counted = el.counted) :
    ∃ g', Relation.ReflTransGen (Move quorum) g g' ∧ Sim w' g' := by
  rcases Raft.stepDown_cases gob (w.nodes s).rf term with ⟨hlt, he⟩ | ⟨_, he⟩
  · rw [he] at hcore
    exact h.follow hnodes hq hlt hcore hel
  · rw [he] at hcore
    exact ⟨g, .refl, h.frame hnodes hq ((h.nodes s).congr hcore hel) (.of_core hcore)⟩

theorem Sim.appendStepDown {s : Fin n} {nd : Node n C σ} {term : Int} (h : Sim w g)
    (hnodes : w'.nodes = Function.update w.nodes s nd) (hq : Quiet w w')
    (hcore : nd.rf.core = ((w.nodes s).rf.appendStepDown gob term).core)
    (hel : ∀ el' ∈ nd.elects, ∃ el ∈ (w.nodes s).elects, el'.counted = el.counted) :
    ∃ g', Relation.ReflTransGen (Move quorum) g g' ∧ Sim w' g' := by
  rcases Raft.appendStepDown_cases gob (w.nodes s).rf term with
    ⟨hlt | ⟨_, heq⟩, he⟩ | ⟨_, _, he⟩
  · rw [he] at hcore
    exact h.follow hnodes hq hlt hcore hel
  · -- a candidate becomes a follower of its own term
    rw [he] at hcore
    obtain ⟨hterm, hlog, hstate, hmatch⟩ := core_eq hcore
    have hterm' : nd.rf.currentTerm = (w.nodes s).rf.currentTerm := hterm.trans heq.symm
    refine ⟨g, .refl, h.frame hnodes hq ?_ (.of_not_candidate hterm'.ge ?_)⟩
    · exact (h.nodes s).keep hterm' hlog (Or.inr hstate) (fun _ z ↦ Or.inl (congrFun hmatch z)) hel
    · rw [hstate]
      exact Role.noConfusion
  · rw [he] at hcore
    exact ⟨g, .refl, h.frame hnodes hq ((h.nodes s).congr hcore hel) (.of_core hcore)⟩

/-- A new candidacy: the server votes for itself, if the term has no leader yet. -/
theorem Sim.campaign {s : Fin n} {nd : Node n C σ} (h : Sim w g) (hI : LogInv g)
    (hnodes : w'.nodes = Function.update w.nodes s nd) (hq : Quiet w w')
    (hrf : nd.rf = (w.nodes s).rf.toCandidate gob)
    (hel : nd.elects = (w.nodes s).elects ++ [({} : Elect n)]) :
    ∃ g', Relation.ReflTransGen (Move quorum) g g' ∧ Sim w' g' := by
  have hterm := (h.nodes s).term
  have hlt : (w.nodes s).rf.currentTerm < nd.rf.currentTerm := by
    rw [hrf]
    exact Int.lt_succ _
  let T := (w.nodes s).rf.currentTerm + 1
  have hself : (Function.update g.term s T) s = T := Function.update_self _ _ _
  have hraise : Relation.ReflTransGen (Move quorum) g
      { g with term := Function.update g.term s T } := .single (.raise s T (by omega))
  by_cases hopen : g.elog T = none
  · have hmoves := hraise.tail (.vote s s (by dsimp only; rw [hself]; exact hopen))
    refine ⟨_, hmoves, h.quiet (hI.moves_grows hmoves) rfl hnodes ?_ (.of_lt hlt)
      (fun t hts ↦ ?_) hq⟩
    · refine (h.nodes s).campaign hrf hel hself rfl fun _ ↦ Or.inr ⟨rfl, hself.symm, rfl, ?_⟩
      exact (h.nodes s).log.symm
    · exact (h.nodes t).grow (hI.moves_grows hmoves) (Function.update_of_ne hts _ _) rfl
        fun _ ↦ rfl
  · refine ⟨_, hraise, h.quiet (hI.moves_grows hraise) rfl hnodes ?_ (.of_lt hlt)
      (fun t hts ↦ (h.nodes t).raise_other hts (by omega)) hq⟩
    exact (h.nodes s).campaign hrf hel hself rfl fun ho ↦ absurd ho hopen

/-- What a vote request says about the candidate's log, where nothing has been compacted. -/
theorem voteArgs_asks {rf : Raft n C σ} {d : Log C} {args : RequestVoteArgs n}
    (hlog : rf.log = d :: rf.log.tail) (hd : d.term = 0) (hlii : rf.lastIncludedIndex = 0)
    (h : rf.voteArgs = some args) : Asks rf args ∧ args.candidateId = rf.me := by
  unfold Raft.voteArgs at h
  split at h
  · cases h
  · rename_i last hlast
    obtain ⟨_, _, hget⟩ := logAt_eq_some hlast
    have hlen : rf.log.length = rf.log.tail.length + 1 := by
      rw [hlog]
      rfl
    rw [show ((rf.log.length : Int) - 1).toNat = rf.log.tail.length by omega, hlog] at hget
    have hterm := lastTerm_take hd hget
    rw [List.tail_cons, List.take_length] at hterm
    rw [← Option.some.inj h]
    refine ⟨⟨le_refl _, fun _ _ ↦ ⟨?_, hterm.symm⟩⟩, rfl⟩
    show rf.logicIndex (rf.log.length - 1) = rf.log.tail.length
    unfold Raft.logicIndex
    omega

/-- A vote is granted only to a candidate whose log is at least as recent as the voter's. -/
theorem isFreshThan_fresh {rf : Raft n C σ} {d : Log C} {args : RequestVoteArgs n}
    (hlog : rf.log = d :: rf.log.tail) (hd : d.term = 0) (hlii : rf.lastIncludedIndex = 0)
    (h : rf.isFreshThan args.lastLogIndex args.lastLogTerm = some false) :
    Fresh args rf.log.tail := by
  unfold Raft.isFreshThan at h
  split at h
  · cases h
  · rename_i last hlast
    obtain ⟨_, _, hget⟩ := logAt_eq_some hlast
    have hlen : rf.log.length = rf.log.tail.length + 1 := by
      rw [hlog]
      rfl
    rw [show ((rf.log.length : Int) - 1).toNat = rf.log.tail.length by omega, hlog] at hget
    have hterm := lastTerm_take hd hget
    rw [List.tail_cons, List.take_length] at hterm
    split at h
    · rename_i hcond
      unfold Raft.getLastLogIndex Raft.logicIndex at hcond
      rw [Fresh, hterm]
      omega
    · cases h

/-- One iteration of the loop in `elect`. -/
theorem Sim.electSend {s : Fin n} {nd : Node n C σ} {env : Envelope n (RequestVoteArgs n)}
    (h : Sim w g) (hnodes : w'.nodes = Function.update w.nodes s nd) (htr : w'.trace = w.trace)
    (h₁ : w'.appendReqs = w.appendReqs) (h₂ : w'.appendReps = w.appendReps)
    (h₃ : w'.voteReqs = env :: w.voteReqs) (h₄ : w'.voteReps = w.voteReps)
    (hrf : nd.rf = (w.nodes s).rf)
    (hel : ∀ el' ∈ nd.elects, ∃ el ∈ (w.nodes s).elects, el'.counted = el.counted)
    (hcand : env.args.candidateId = s) (hasks : Asks (w.nodes s).rf env.args) : Sim w' g := by
  have hcore : nd.rf.core = (w.nodes s).rf.core := by rw [hrf]
  refine h.of_update (Grows.refl g) hnodes ((h.nodes s).congr hcore hel) (.of_core hcore)
    (fun t _ ↦ h.nodes t) (fun z T hmem ↦ Or.inl (htr ▸ hmem)) (fun T X hX ↦ Or.inl hX)
    (htr ▸ List.suffix_refl _) (fun e he ↦ Or.inl (h₁ ▸ he)) (fun e r he _ ↦ Or.inl (h₂ ▸ he))
    (fun e he ↦ ?_) (fun e r he _ ↦ Or.inl (h₄ ▸ he))
  rw [h₃] at he
  rcases List.mem_cons.mp he with rfl | hold
  · right
    rw [hcand, hnodes, Function.update_self, hrf]
    exact hasks
  · exact Or.inl hold

/-- A vote is granted, in the voter's own term. -/
theorem Sim.grant {env : Envelope n (RequestVoteArgs n)} {reply : RequestVoteReply} (h : Sim w g)
    (hI : LogInv g) (hnodes : w'.nodes = w.nodes) (hsuffix : w.trace <:+ w'.trace)
    (htr : ∀ z T, .elected z T ∈ w'.trace → .elected z T ∈ w.trace)
    (h₁ : w'.appendReqs = w.appendReqs) (h₂ : w'.appendReps = w.appendReps)
    (h₃ : w'.voteReqs = w.voteReqs) (h₄ : w'.voteReps = (env, reply) :: w.voteReps)
    (henv : env ∈ w.voteReqs) (hterm : (w.nodes env.dst).rf.currentTerm = env.args.term)
    (hfresh : Fresh env.args (w.nodes env.dst).rf.log.tail) :
    ∃ g', Relation.ReflTransGen (Move quorum) g g' ∧ Sim w' g' := by
  -- the voter's node does not change here
  have hself : w'.nodes = Function.update w.nodes env.dst (w.nodes env.dst) := by
    rw [hnodes, Function.update_eq_self]
  have hgterm : g.term env.dst = env.args.term := (h.nodes env.dst).term.trans hterm
  have hcons : ∀ {g' : Replica (Fin n) (Log C)}, Grows g g' →
      (∀ t, NodeSim g' t (w.nodes t)) → g'.elog = g.elog →
      (g'.elog env.args.term = none →
        ∃ Z, g'.voted env.dst env.args.term env.args.candidateId Z ∧ Fresh env.args Z) →
      Sim w' g' := by
    intro g' hgrow hns helog hvote
    refine h.of_update hgrow hself (hns _) (.refl _) (fun t _ ↦ hns t)
      (fun z T hmem ↦ Or.inl (htr z T hmem)) (fun T X hX ↦ Or.inl (helog ▸ hX)) hsuffix
      (fun e he ↦ Or.inl (h₁ ▸ he)) (fun e r he _ ↦ Or.inl (h₂ ▸ he))
      (fun e he ↦ Or.inl (h₃ ▸ he)) (fun e r he _ ↦ ?_)
    rw [h₄] at he
    rcases List.mem_cons.mp he with heq | hold
    · obtain ⟨rfl, rfl⟩ := Prod.mk.inj heq
      exact Or.inr ⟨henv, hvote⟩
    · exact Or.inl hold
  by_cases hopen : g.elog env.args.term = none
  · have hmove : Move quorum g _ := .vote env.dst env.args.candidateId (hgterm ▸ hopen)
    have hgrow := hI.grows hmove
    refine ⟨_, .single hmove, hcons hgrow (fun t ↦ ?_) rfl fun _ ↦ ⟨_, Or.inr ?_, hfresh⟩⟩
    · exact (h.nodes t).grow hgrow rfl rfl fun _ ↦ rfl
    · exact ⟨rfl, hgterm.symm, rfl, (h.nodes env.dst).log.symm⟩
  · exact ⟨g, .refl, hcons (Grows.refl g) h.nodes rfl fun ho ↦ absurd ho hopen⟩

/-- What a candidate may conclude from a granted vote that it counts. -/
theorem Sim.vote_upToDate {s : Fin n} {env : Envelope n (RequestVoteArgs n)}
    {reply : RequestVoteReply} (h : Sim w g) (hrep : (env, reply) ∈ w.voteReps)
    (hyes : reply.voteGranted = true) (hcand : env.args.candidateId = s)
    (hterm : env.args.term = (w.nodes s).rf.currentTerm)
    (hstate : (w.nodes s).rf.state = .candidate)
    (hopen : g.elog (w.nodes s).rf.currentTerm = none) :
    ∃ Z, g.voted env.dst (w.nodes s).rf.currentTerm s Z ∧ UpToDate (w.nodes s).rf.log.tail Z := by
  subst hcand
  obtain ⟨⟨_, hlog⟩, hvote⟩ := h.answered env reply hrep hyes
  obtain ⟨hlen, hlast⟩ := hlog hterm hstate
  obtain ⟨Z, hZ, hfresh⟩ := hvote (hterm ▸ hopen)
  refine ⟨Z, hterm ▸ hZ, ?_⟩
  unfold Fresh at hfresh
  unfold UpToDate
  rw [hlen, hlast] at hfresh
  omega

/-- A goroutine of `elect` counts a vote of the current term. -/
theorem Sim.count {s v : Fin n} {k : Nat} {nd : Node n C σ} {el el' : Elect n} (h : Sim w g)
    (hnodes : w'.nodes = Function.update w.nodes s nd) (hq : Quiet w w')
    (hrf : nd.rf = (w.nodes s).rf) (hk : (w.nodes s).elects[k]? = some el)
    (hel : nd.elects = (w.nodes s).elects.set k el')
    (hcounted : el'.counted = (v, (w.nodes s).rf.currentTerm) :: el.counted)
    (hvote : (w.nodes s).rf.state = .candidate → g.elog (w.nodes s).rf.currentTerm = none →
      ∃ Z, g.voted v (w.nodes s).rf.currentTerm s Z ∧ UpToDate (w.nodes s).rf.log.tail Z) :
    Sim w' g := by
  have hns := h.nodes s
  refine h.frame hnodes hq ?_ (hrf ▸ Stays.refl _)
  have hbase : NodeSim g s { nd with elects := (w.nodes s).elects } :=
    hns.congr (by rw [hrf]) fun el' hmem ↦ ⟨el', hmem, rfl⟩
  refine { hbase with counted := fun e he x hx ↦ ?_ }
  rw [hrf]
  rw [hel] at he
  rcases List.mem_or_eq_of_mem_set he with he | rfl
  · exact hns.counted e he x hx
  · rw [hcounted] at hx
    rcases List.mem_cons.mp hx with rfl | hx
    · exact ⟨le_refl _, fun _ ↦ hvote⟩
    · exact hns.counted el (List.mem_of_getElem? hk) x hx

/-- A candidate becomes the leader of a term that has had none. -/
theorem Sim.lead {s : Fin n} {nd : Node n C σ} {Q : Finset (Fin n)} (h : Sim w g) (hI : LogInv g)
    (hnodes : w'.nodes = Function.update w.nodes s nd) (hrf : nd.rf = (w.nodes s).rf.toLeader)
    (hel : nd.elects = (w.nodes s).elects)
    (htr : w'.trace = .elected s (w.nodes s).rf.currentTerm :: w.trace)
    (h₁ : w'.appendReqs = w.appendReqs) (h₂ : w'.appendReps = w.appendReps)
    (h₃ : w'.voteReqs = w.voteReqs) (h₄ : w'.voteReps = w.voteReps)
    (hcand : (w.nodes s).rf.state = .candidate)
    (hleaders : ∀ t, (w.nodes t).rf.state = .leader →
      .elected t (w.nodes t).rf.currentTerm ∈ w.trace)
    (hopen : ∀ z, .elected z (w.nodes s).rf.currentTerm ∉ w.trace) (hQ : quorum Q)
    (hbacked : ∀ z ∈ Q, ∃ Z, g.voted z (w.nodes s).rf.currentTerm s Z ∧
      UpToDate (w.nodes s).rf.log.tail Z) :
    ∃ g', Relation.ReflTransGen (Move quorum) g g' ∧ Sim w' g' := by
  have hns := h.nodes s
  have hterm := hns.term
  have hfree : g.elog (g.term s) = none := by
    cases hX : g.elog (g.term s) with
    | none => rfl
    | some X =>
        obtain ⟨z, hz⟩ := h.unelected _ X hX
        exact absurd (hterm ▸ hz) (hopen z)
  have hmove : Move quorum g _ := .elect s Q (hterm ▸ hns.positive hcand) hfree hQ
    (by rw [hterm, hns.log]; exact hbacked)
  have hgrow := hI.grows hmove
  have hct : nd.rf.currentTerm = (w.nodes s).rf.currentTerm := by rw [hrf]; rfl
  have htail : nd.rf.log.tail = (w.nodes s).rf.log.tail := by rw [hrf]; rfl
  have hstate : nd.rf.state = .leader := by rw [hrf]; rfl
  have hnot : nd.rf.state ≠ .candidate := by rw [hstate]; exact Role.noConfusion
  refine ⟨_, .single hmove, h.of_update hgrow hnodes ?_
    (.of_not_candidate hct.ge hnot) (fun t hts ↦ ?_) (fun z T hmem ↦ ?_) (fun T X hX ↦ ?_)
    (htr ▸ List.suffix_cons _ _) (fun e he ↦ Or.inl (h₁ ▸ he)) (fun e r he _ ↦ Or.inl (h₂ ▸ he))
    (fun e he ↦ Or.inl (h₃ ▸ he)) (fun e r he _ ↦ Or.inl (h₄ ▸ he))⟩
  · refine ⟨hterm.trans hct.symm, by rw [htail]; exact hns.log, by rw [hct]; exact hns.nonneg,
      fun _ ↦ ?_, fun _ ↦ Or.inr ⟨rfl, by rw [hct, hterm], by rw [htail, hns.log]⟩, fun _ z ↦ ?_,
      fun hc ↦ absurd hc hnot, fun hc ↦ absurd hc hnot, fun e he v hv ↦ ?_⟩
    · rw [hct, ← hterm, htail]
      show Function.update g.llog (g.term s) (g.log s) (g.term s) = _
      rw [Function.update_self, hns.log]
    · left
      rw [hrf]
      exact le_refl _
    · rw [hel] at he
      refine ⟨?_, fun _ hc ↦ absurd hc hnot⟩
      rw [hct]
      exact (hns.counted e he v hv).1
  · -- no other server leads the term
    refine (h.nodes t).grow hgrow rfl rfl fun hl ↦ Function.update_of_ne ?_ _ _
    intro heq
    have hmem := hleaders t hl
    rw [heq, hterm] at hmem
    exact hopen t hmem
  · rw [htr] at hmem
    rcases List.mem_cons.mp hmem with heq | hold
    · right
      simp only [Event.elected.injEq] at heq
      refine ⟨g.log s, ?_⟩
      show Function.update g.elog (g.term s) (some (g.log s)) T = some (g.log s)
      rw [heq.2, ← hterm, Function.update_self]
    · exact Or.inl hold
  · rcases Lib.update_eq_some hX with ⟨rfl, _⟩ | ⟨_, hX⟩
    · right
      rw [htr, hterm]
      exact List.mem_cons_self
    · exact Or.inl hX

/-- What `onRound` sends, where nothing has been compacted: the leader's log from the previous entry
on. -/
theorem Sim.carries {s server : Fin n} {args : AppendEntriesArgs n C} {d : Log C} (h : Sim w g)
    (hI : LogInv g) (hlog : (w.nodes s).rf.log = d :: (w.nodes s).rf.log.tail) (hd : d.term = 0)
    (hlii : (w.nodes s).rf.lastIncludedIndex = 0)
    (helected : .elected s (w.nodes s).rf.currentTerm ∈ w.trace)
    (hround : (w.nodes s).rf.onRound server = some (.append args)) :
    ∃ p, Carries g args (w.nodes s).rf.log.tail p := by
  obtain ⟨hlead, _, p, prev, hp, hprev, rfl⟩ := Raft.onRound_append hround
  have hleads := (h.nodes s).leads hlead
  obtain ⟨X, hX⟩ := h.elected s _ helected
  have hlen := (List.getElem?_eq_some_iff.mp hprev).1
  rw [hlog] at hprev
  refine ⟨p, ⟨X, hX, ?_⟩, ?_, ?_, ?_, (lastTerm_take hd hprev).symm, ?_⟩
  · rw [← hleads]
    exact hI.elog_isPrefix _ X hX
  · rw [← hleads]
  · unfold Raft.realIndex at hp
    show (w.nodes s).rf.nextIndex server - 1 = p
    omega
  · rw [hlog, List.length_cons] at hlen
    omega
  · show (w.nodes s).rf.log.drop (p + 1) = _
    rw [hlog]
    rfl

theorem Sim.sendAppend {s : Fin n} {nd : Node n C σ} {env : Envelope n (AppendEntriesArgs n C)}
    {L : List (Log C)} {p : Nat}
    (h : Sim w g) (hnodes : w'.nodes = Function.update w.nodes s nd) (htr : w'.trace = w.trace)
    (h₁ : w'.appendReqs = env :: w.appendReqs) (h₂ : w'.appendReps = w.appendReps)
    (h₃ : w'.voteReqs = w.voteReqs) (h₄ : w'.voteReps = w.voteReps)
    (hrf : nd.rf = (w.nodes s).rf) (hel : nd.elects = (w.nodes s).elects)
    (hcarries : Carries g env.args L p) : Sim w' g := by
  have hcore : nd.rf.core = (w.nodes s).rf.core := by rw [hrf]
  refine h.of_update (Grows.refl g) hnodes
    ((h.nodes s).congr hcore fun el hmem ↦ ⟨el, hel ▸ hmem, rfl⟩) (.of_core hcore)
    (fun t _ ↦ h.nodes t) (fun z T hmem ↦ Or.inl (htr ▸ hmem)) (fun T X hX ↦ Or.inl hX)
    (htr ▸ List.suffix_refl _) (fun e he ↦ ?_) (fun e r he _ ↦ Or.inl (h₂ ▸ he))
    (fun e he ↦ Or.inl (h₃ ▸ he)) (fun e r he _ ↦ Or.inl (h₄ ▸ he))
  rw [h₁] at he
  rcases List.mem_cons.mp he with rfl | hold
  · exact Or.inr ⟨L, p, hcarries⟩
  · exact Or.inl hold

/-- A server adopts the log that a request of its own term carries. -/
theorem Sim.accept {env : Envelope n (AppendEntriesArgs n C)} {reply : AppendEntriesReply}
    {nd : Node n C σ} {L : List (Log C)} {p : Nat} (h : Sim w g) (hI : LogInv g)
    (hnodes : w'.nodes = Function.update w.nodes env.dst nd) (htr : w'.trace = w.trace)
    (h₁ : w'.appendReqs = w.appendReqs) (h₂ : w'.appendReps = (env, reply) :: w.appendReps)
    (h₃ : w'.voteReqs = w.voteReqs) (h₄ : w'.voteReps = w.voteReps)
    (hcarries : Carries g env.args L p)
    (hterm : (w.nodes env.dst).rf.currentTerm = env.args.term)
    (hnot : (w.nodes env.dst).rf.state ≠ .candidate)
    (hct : nd.rf.currentTerm = (w.nodes env.dst).rf.currentTerm)
    (hstate : nd.rf.state = (w.nodes env.dst).rf.state)
    (hmatch : nd.rf.matchIndex = (w.nodes env.dst).rf.matchIndex)
    (hel : nd.elects = (w.nodes env.dst).elects)
    (hM : L <+: (w.nodes env.dst).rf.log.tail ∧
        nd.rf.log.tail = (w.nodes env.dst).rf.log.tail ∨
      ¬ L <+: (w.nodes env.dst).rf.log.tail ∧ nd.rf.log.tail = L) :
    ∃ g', Relation.ReflTransGen (Move quorum) g g' ∧ Sim w' g' := by
  have hns := h.nodes env.dst
  have hgterm : g.term env.dst = env.args.term := hns.term.trans hterm
  obtain ⟨X, hX, hXL⟩ := hcarries.elected
  have hmove : Move quorum g _ := .accept env.dst X L nd.rf.log.tail (hgterm ▸ hX) hXL
    (hgterm ▸ hcarries.leader) (by rw [hns.log]; exact hM)
  have hgrow := hI.grows hmove
  -- a leader of the term has all of `L` already
  have hkeep : nd.rf.state = .leader → nd.rf.log.tail = (w.nodes env.dst).rf.log.tail := by
    intro hl
    rcases hM with ⟨_, he⟩ | ⟨hno, _⟩
    · exact he
    · refine absurd ?_ hno
      rw [← hns.leads (hstate ▸ hl), hterm]
      exact hcarries.leader
  refine ⟨_, .single hmove, h.of_update hgrow hnodes ?_
    (.of_not_candidate hct.ge (hstate ▸ hnot)) (fun t hts ↦ ?_)
    (fun z T hmem ↦ Or.inl (htr ▸ hmem)) (fun T Y hY ↦ Or.inl hY) (htr ▸ List.suffix_refl _)
    (fun e he ↦ Or.inl (h₁ ▸ he)) (fun e r he _ ↦ ?_) (fun e he ↦ Or.inl (h₃ ▸ he))
    (fun e r he _ ↦ Or.inl (h₄ ▸ he))⟩
  · refine ⟨hns.term.trans hct.symm, Function.update_self _ _ _, by rw [hct]; exact hns.nonneg,
      fun hl ↦ ?_, fun hl ↦ Or.inl ?_, fun hl z ↦ ?_, fun hc ↦ absurd hc (hstate ▸ hnot),
      fun hc ↦ absurd hc (hstate ▸ hnot), fun e he v hv ↦ ?_⟩
    · rw [hkeep hl, hct]
      exact hns.leads (hstate ▸ hl)
    · rw [hkeep hl, hct]
      exact hns.leader_acked (hstate ▸ hl)
    · rw [hct, hmatch]
      rcases hns.matched (hstate ▸ hl) z with hz | ⟨K, hK, hKlen⟩
      · exact Or.inl hz
      · exact Or.inr ⟨K, Or.inl hK, hKlen⟩
    · rw [hel] at he
      refine ⟨?_, fun _ hc ↦ absurd hc (hstate ▸ hnot)⟩
      rw [hct]
      exact (hns.counted e he v hv).1
  · exact (h.nodes t).grow hgrow rfl (Function.update_of_ne hts _ _) fun _ ↦ rfl
  · rw [h₂] at he
    rcases List.mem_cons.mp he with heq | hold
    · obtain ⟨rfl, rfl⟩ := Prod.mk.inj heq
      exact Or.inr ⟨L, Or.inr ⟨rfl, hgterm.symm, rfl⟩, hcarries.length_eq⟩
    · exact Or.inl hold

/-- The leader learns what a server has acknowledged. -/
theorem Sim.recordMatch {s server : Fin n} {nd : Node n C σ} {L : List (Log C)} (h : Sim w g)
    (hnodes : w'.nodes = Function.update w.nodes s nd) (hq : Quiet w w')
    (hct : nd.rf.currentTerm = (w.nodes s).rf.currentTerm) (hlog : nd.rf.log = (w.nodes s).rf.log)
    (hstate : nd.rf.state = (w.nodes s).rf.state) (hel : nd.elects = (w.nodes s).elects)
    (hmatch : nd.rf.matchIndex = Function.update (w.nodes s).rf.matchIndex server L.length)
    (hL : g.acked server (w.nodes s).rf.currentTerm L) : Sim w' g := by
  refine h.frame hnodes hq ?_ (.of_same hct hstate fun _ ↦ hlog)
  refine (h.nodes s).keep hct (by rw [hlog]) (Or.inl hstate) (fun _ z ↦ ?_)
    fun el hmem ↦ ⟨el, hel ▸ hmem, rfl⟩
  rw [hmatch]
  by_cases hz : z = server
  · rw [hz, Function.update_self]
    exact Or.inr (Or.inr ⟨L, hL, rfl⟩)
  · rw [Function.update_of_ne hz]
    exact Or.inl rfl

/-- The leader appends an entry of its term. -/
theorem Sim.append {s : Fin n} {nd : Node n C σ} {e : Log C} (h : Sim w g) (hI : LogInv g)
    (hnodes : w'.nodes = Function.update w.nodes s nd) (hq : Quiet w w')
    (hlead : (w.nodes s).rf.state = .leader) (hne : (w.nodes s).rf.log ≠ [])
    (hct : nd.rf.currentTerm = (w.nodes s).rf.currentTerm)
    (hlog : nd.rf.log = (w.nodes s).rf.log ++ [e])
    (hstate : nd.rf.state = (w.nodes s).rf.state)
    (hmatch : nd.rf.matchIndex = (w.nodes s).rf.matchIndex)
    (hel : nd.elects = (w.nodes s).elects) (he : e.term = (w.nodes s).rf.currentTerm)
    (helected : .elected s (w.nodes s).rf.currentTerm ∈ w.trace)
    (hunique : ∀ t, t ≠ s → (w.nodes t).rf.state = .leader →
      (w.nodes t).rf.currentTerm ≠ (w.nodes s).rf.currentTerm) :
    ∃ g', Relation.ReflTransGen (Move quorum) g g' ∧ Sim w' g' := by
  have hns := h.nodes s
  have hterm := hns.term
  obtain ⟨X, hX⟩ := h.elected s _ helected
  have hmove : Move quorum g _ := .append s X e (hterm ▸ hX)
    (by rw [hns.log, hterm, hns.leads hlead]) (hterm ▸ he)
  have hgrow := hI.grows hmove
  have htail : nd.rf.log.tail = g.log s ++ [e] := by
    rw [hlog, List.tail_append_of_ne_nil hne, hns.log]
  have hnot : nd.rf.state ≠ .candidate := by
    rw [hstate, hlead]
    exact Role.noConfusion
  refine ⟨_, .single hmove, h.quiet hgrow rfl hnodes ?_ (.of_not_candidate hct.ge hnot)
    (fun t hts ↦ ?_) hq⟩
  · refine ⟨hterm.trans hct.symm, ?_, by rw [hct]; exact hns.nonneg, fun _ ↦ ?_,
      fun _ ↦ Or.inr ⟨rfl, by rw [hct, hterm], htail⟩, fun _ z ↦ ?_, fun hc ↦ absurd hc hnot,
      fun hc ↦ absurd hc hnot, fun el hmem v hv ↦ ?_⟩
    · rw [htail]
      exact Function.update_self _ _ _
    · rw [hct, ← hterm, htail]
      exact Function.update_self _ _ _
    · rw [hct, hmatch]
      rcases hns.matched hlead z with hz | ⟨K, hK, hlen⟩
      · exact Or.inl hz
      · exact Or.inr ⟨K, Or.inl hK, hlen⟩
    · rw [hct]
      exact ⟨(hns.counted el (hel ▸ hmem) v hv).1, fun _ hc ↦ absurd hc hnot⟩
  · refine (h.nodes t).grow hgrow rfl (Function.update_of_ne hts _ _) fun hl ↦ ?_
    exact Function.update_of_ne (hterm ▸ hunique t hts hl) _ _

end Steps

end Lab6824
