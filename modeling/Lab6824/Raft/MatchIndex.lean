import Lab6824.Raft.LogMatching
import Lab6824.Raft.Segments

/-!
# MatchIndex — what a follower has when its leader counts on it

A leader raises `matchIndex` when a request has been accepted, and when an `InstallSnapshot` has been
answered.  The answer is given before the service has installed anything.  Where a leader counts only
snapshots that have been installed, what it counts on is there: for each term an archive keeps all
that the leader of the term has had in its log, compacted or not, and requests are parts of it.
-/

namespace Lab6824

variable {n : Nat} {C σ : Type} {gob : Gob (RaftImage n C) σ}

open Lib (Segment)
open Lib.Segment (Part Agree Derived SameUpTo)

/-! ## The conditions -/

/-- The server has a snapshot of index `i` or a later one, or it is in the leader's term or a later one
and both logs reach `i` and have the same term there. -/
def Raft.Reaches (rf leader : Raft n C σ) (i : Int) : Prop :=
  i ≤ rf.lastIncludedIndex ∨
    leader.currentTerm ≤ rf.currentTerm ∧ (leader.entryAt i).isSome = true ∧
      (rf.entryAt i).map Log.term = (leader.entryAt i).map Log.term

instance (rf leader : Raft n C σ) (i : Int) : Decidable (rf.Reaches leader i) := by
  unfold Raft.Reaches
  infer_instance

/-- A leader that raises `matchIndex` on the answer to an `InstallSnapshot` does so only when the
receiver reaches the index of the snapshot.  An answer of a later term only makes it step down. -/
def CountsInstalled (w : World n C σ) : Action n C σ → Prop
  | .snapshotReply s env reply =>
    (w.nodes s).rf.state = .leader → reply.term ≤ (w.nodes s).rf.currentTerm →
      (w.nodes s).rf.matchIndex env.dst < env.args.lastIncludedIndex →
      (w.nodes env.dst).rf.Reaches (w.nodes s).rf env.args.lastIncludedIndex
  | _ => True

instance (w : World n C σ) (a : Action n C σ) : Decidable (CountsInstalled w a) := by
  unfold CountsInstalled
  induction a using Action.casesOn <;> infer_instance

/-- All conditions under which a leader may count on `matchIndex`. -/
def CountsSafely (w : World n C σ) (a : Action n C σ) : Prop :=
  CountsInstalled w a ∧ InstallsMatching w a ∧ RestartsAligned w a

instance (w : World n C σ) (a : Action n C σ) : Decidable (CountsSafely w a) := by
  unfold CountsSafely
  infer_instance

/-! ## The archive -/

/-- The server has what the archive `K` of term `T` has up to index `k`, unless a snapshot covers it
or the server has gone on to a later term. -/
def Raft.Has (rf : Raft n C σ) (T : Int) (K : Segment (Log C)) (k : Int) : Prop :=
  k ≤ rf.lastIncludedIndex ∨
    T ≤ rf.currentTerm ∧ (rf.currentTerm = T → SameUpTo rf.segment K k)

/-- The log of a server, or the archive of a term. -/
def Kept (w : World n C σ) (book : Int → Option (Segment (Log C))) (A : Segment (Log C)) : Prop :=
  (∃ s, A = (w.nodes s).rf.segment) ∨ ∃ T, book T = some A

/-- The archive of a term has every request of the term, every log agrees with every archive, every
entry is in the range of the archive of its term, and a server that has accepted a request has what
the archive has up to its end. -/
structure ArchiveInv (w : World n C σ) (book : Int → Option (Segment (Log C))) : Prop where
  elected : ∀ T K, book T = some K → ∃ z, .elected z T ∈ w.trace
  sent : ∀ env ∈ w.appendReqs, env.dst ≠ env.args.leaderId ∧
    ∃ K, book env.args.term = some K ∧ env.args.segment.Part K
  agree : ∀ A B, Kept w book A → Kept w book B → Agree A B
  made : ∀ A, Kept w book A → ∀ i e, A.entryAt i = some e → ∃ K, book e.term = some K ∧ i ≤ K.last
  acked : ∀ env reply, (env, reply) ∈ w.appendReps → reply.success = true →
    ∃ K, book env.args.term = some K ∧
      (w.nodes env.dst).rf.Has env.args.term K env.args.lastIndex

section Steps

variable {w w' : World n C σ} {a : Action n C σ} {book : Int → Option (Segment (Log C))}

/-- What a server has, it keeps. -/
theorem ArchiveInv.has_step (h : ArchiveInv w book) {s : Fin n} {rf' : Raft n C σ}
    (hseg : SegmentStep w a s rf') (hindex : IndexStep w a s rf') {T k : Int}
    {K : Segment (Log C)} (hK : book T = some K) (hhas : (w.nodes s).rf.Has T K k) :
    rf'.Has T K k := by
  have hterm := hindex.term_le
  rcases hhas with hbase | ⟨hT, hsame⟩
  · exact Or.inl (hbase.trans hindex.base_le)
  · -- once the server has left the term nothing is claimed of its log
    by_cases hT' : rf'.currentTerm = T
    · have hs := hsame (by omega)
      cases hseg with
      | cut hpart hlast => exact Or.inr ⟨hT'.ge, fun _ ↦ hs.part hpart hlast⟩
      | replaced hrole hlast hnil => exact Or.inl (hs.left.trans hlast)
      | pushed command ha hlead hct hpush => exact Or.inr ⟨hT'.ge, fun _ ↦ hpush ▸ hs.push_left⟩
      | merged env ha hdst henv hle hct hprev hmerge =>
          obtain ⟨_, K', hK', hpart⟩ := h.sent env henv
          rw [← hct, hT', hK, Option.some.injEq] at hK'
          subst hK'
          refine Or.inr ⟨hT'.ge, fun _ ↦ ?_⟩
          rcases hmerge with ⟨heq, _⟩ | ⟨heq, hwhy⟩
          · rw [heq]
            exact hs
          · rw [heq]
            refine hs.splice hpart hprev ?_
            rcases hwhy with hle | ⟨c, e, e', he, he', hne⟩
            · exact hs.left.trans hle
            · -- a conflict can only lie beyond `k`
              have hc := (Segment.range_of_entryAt he').2
              by_contra hk
              exact hne (congrArg Log.term (hs.entry c (by omega) e e' he (hpart.entry c e' he')))
    · exact Or.inr ⟨hT.trans hterm, fun heq ↦ absurd heq hT'⟩

/-- Every log after a step is made of logs and archives before it. -/
theorem ArchiveInv.derived (h : ArchiveInv w book)
    (hseg : ∀ t, SegmentStep w a t (w'.nodes t).rf)
    (hpush : ∀ t command, a = .start t command → (w.nodes t).rf.state = .leader →
      ∃ T K, book T = some K ∧ (w'.nodes t).rf.segment.Part K)
    {A : Segment (Log C)} (hA : Kept w' book A) : Derived (Kept w book) A := by
  rcases hA with ⟨s, rfl⟩ | hbook
  · have hself : Derived (Kept w book) (w.nodes s).rf.segment := .given (Or.inl ⟨s, rfl⟩)
    cases hseg s with
    | cut hpart hlast => exact .part hself hpart
    | replaced hrole hlast hnil => exact .nil hnil
    | pushed command ha hlead hct heq =>
        obtain ⟨T, K, hK, hpart⟩ := hpush s command ha hlead
        exact .part (.given (Or.inr ⟨T, hK⟩)) hpart
    | merged env ha hdst henv hle hct hprev hmerge =>
        rcases hmerge with ⟨heq, _⟩ | ⟨heq, _⟩
        · rw [heq]
          exact hself
        · obtain ⟨_, K, hK, hpart⟩ := h.sent env henv
          rw [heq]
          exact .splice hself (.part (.given (Or.inr ⟨_, hK⟩)) hpart) hprev
  · exact .given (Or.inr hbook)

/-- A request that has been accepted: the log has the term of its last entry. -/
theorem Raft.appendEntries_last {rf rf' : Raft n C σ} {args : AppendEntriesArgs n C}
    {reply : AppendEntriesReply} (h : rf.appendEntries gob args = some (rf', reply))
    (hyes : reply.success = true) :
    rf'.currentTerm = args.term ∧
      rf'.segment.termAt args.segment.last = args.segment.termAt args.segment.last := by
  rcases Raft.appendEntries_indices h with ⟨hno, _⟩ | ⟨_, pli, hacc, hct, hmerged⟩
  · rw [hno] at hyes
    cases hyes
  · obtain ⟨hlog, hbase, _⟩ := indices_eq.mp hmerged
    refine ⟨hct, ?_⟩
    rcases Raft.segment_merge hacc hlog hbase with ⟨heq, hlast⟩ | ⟨heq, _⟩
    · rw [heq]
      exact hlast
    · rw [heq]
      exact Segment.termAt_last_splice hacc.segment.2

/-- One step that leaves the archives alone.  A leader that extends its log finds the entry in the
archive. -/
theorem ArchiveInv.step (h : ArchiveInv w book) (hdur : ∀ s, Durable gob (w.nodes s).rf)
    (hme : ∀ s, (w.nodes s).rf.me = s) (hstep : Step gob w a w') (hok : CountsSafely w a)
    (hlead : ∀ l T, (w.nodes l).rf.Leads T → ∃ K, book T = some K ∧ (w.nodes l).rf.segment.Part K)
    (hpush : ∀ t command, a = .start t command → (w.nodes t).rf.state = .leader →
      ∃ T K, book T = some K ∧ (w'.nodes t).rf.segment.Part K) :
    ArchiveInv w' book := by
  have hseg := step_segment hstep hdur hok.2.1 hok.2.2
  have hderived : ∀ A, Kept w' book A → Derived (Kept w book) A := fun _ ↦ h.derived hseg hpush
  have hagree : ∀ A B, Kept w' book A → Kept w' book B → Agree A B :=
    fun A B hA hB ↦ (hderived A hA).agree_of_derived h.agree (hderived B hB)
  constructor
  case elected =>
    intro T K hK
    obtain ⟨z, hz⟩ := h.elected T K hK
    exact ⟨z, (World.step_trace hstep).subset hz⟩
  case agree => exact hagree
  case sent =>
    intro env henv
    rcases step_appendReqs hstep henv with hold | ⟨s, _, hne, hround⟩
    · exact h.sent env hold
    · obtain ⟨hrole, _, _, _, _, _, hargs⟩ := Raft.onRound_append hround
      obtain ⟨K, hK, hpart⟩ := hlead s _ ⟨hrole, rfl⟩
      refine ⟨?_, K, ?_, (Raft.onRound_segment hround).trans hpart⟩
      · rw [hargs]
        exact (hme s).symm ▸ hne
      · rw [hargs]
        exact hK
  case made =>
    intro A hA i e he
    obtain ⟨B, hB, heB⟩ := (hderived A hA).exists_given he
    exact h.made B hB i e heB
  case acked =>
    intro env reply hrep hyes
    rcases step_appendReps hstep hrep with hold | ⟨_, henv, hv⟩
    · obtain ⟨K, hK, hhas⟩ := h.acked env reply hold hyes
      exact ⟨K, hK, h.has_step (hseg env.dst) (step_indices hstep hdur env.dst) hK hhas⟩
    · -- one common term at the end of the request is enough: logs that agree are equal below it
      obtain ⟨_, K, hK, hpart⟩ := h.sent env henv
      obtain ⟨hct, hlast⟩ := Raft.appendEntries_last hv hyes
      refine ⟨K, hK, Or.inr ⟨hct.ge, fun _ ↦ ?_⟩⟩
      obtain ⟨x, hx⟩ := Segment.exists_termAt (A := env.args.segment) (i := env.args.segment.last)
        (by unfold Segment.last; omega) (le_refl _)
      exact .of_termAt (hagree _ K (Or.inl ⟨env.dst, rfl⟩) (Or.inr ⟨_, hK⟩)) (hlast.trans hx)
        (hpart.termAt hx)

/-! ## A longer archive, and a new one -/

/-- What is true of an archive stays true when an entry is added. -/
theorem archive_push {T T₀ : Int} {K K₀ : Segment (Log C)} {e : Log C} (hK : book T = some K)
    (hK₀ : book T₀ = some K₀) :
    ∃ K₁, Function.update book T (some (K.push e)) T₀ = some K₁ ∧ K₀.Part K₁ ∧
      K₀.last ≤ K₁.last ∧ ∀ (rf : Raft n C σ) k, rf.Has T₀ K₀ k → rf.Has T₀ K₁ k := by
  by_cases hT : T₀ = T
  · rw [hT, hK, Option.some.injEq] at hK₀
    subst hK₀ hT
    refine ⟨K.push e, Function.update_self _ _ _, (Part.refl K).push, ?_, fun rf k hhas ↦ ?_⟩
    · rw [Segment.last_push]
      omega
    · exact Or.imp_right (And.imp_right fun hsame hterm ↦ (hsame hterm).push_right) hhas
  · exact ⟨K₀, by rw [Function.update_of_ne hT, hK₀], Part.refl K₀, le_refl _, fun _ _ ↦ id⟩

theorem ArchiveInv.extend (h : ArchiveInv w book) {T : Int} {K : Segment (Log C)} {e : Log C}
    (hK : book T = some K) (he : e.term = T) :
    ArchiveInv w (Function.update book T (some (K.push e))) := by
  have hkept : ∀ A, Kept w (Function.update book T (some (K.push e))) A →
      Kept w book A ∨ A = K.push e := by
    rintro A (hs | ⟨T₀, hA⟩)
    · exact Or.inl (Or.inl hs)
    · rcases Lib.update_eq_some hA with ⟨_, rfl⟩ | ⟨_, hold⟩
      · exact Or.inr rfl
      · exact Or.inl (Or.inr ⟨T₀, hold⟩)
  -- no log has an entry of the term beyond the archive
  have hnew : ∀ B, Kept w book B → Agree (K.push e) B := by
    intro B hB
    refine (h.agree K B (Or.inr ⟨T, hK⟩) hB).push fun e' he' heq ↦ ?_
    obtain ⟨K', hK', hle⟩ := h.made B hB _ e' he'
    rw [show e'.term = T from heq.trans he, hK, Option.some.injEq] at hK'
    subst hK'
    omega
  constructor
  case elected =>
    intro T₀ K₀ hK₀
    rcases Lib.update_eq_some hK₀ with ⟨rfl, _⟩ | ⟨_, hold⟩
    · exact h.elected T₀ K hK
    · exact h.elected T₀ K₀ hold
  case sent =>
    intro env henv
    obtain ⟨hne, K₀, hK₀, hpart⟩ := h.sent env henv
    obtain ⟨K₁, hK₁, hpart₁, _⟩ := archive_push (σ := σ) (n := n) (e := e) hK hK₀
    exact ⟨hne, K₁, hK₁, hpart.trans hpart₁⟩
  case agree =>
    intro A B hA hB
    rcases hkept A hA with hA | rfl
    · rcases hkept B hB with hB | rfl
      · exact h.agree A B hA hB
      · exact (hnew A hA).symm
    · rcases hkept B hB with hB | rfl
      · exact hnew B hB
      · exact Agree.refl _
  case made =>
    intro A hA i a ha
    have hold : ∀ B, Kept w book B → B.entryAt i = some a →
        ∃ K₁, Function.update book T (some (K.push e)) a.term = some K₁ ∧ i ≤ K₁.last := by
      intro B hB ha
      obtain ⟨K₀, hK₀, hle⟩ := h.made B hB i a ha
      obtain ⟨K₁, hK₁, _, hle₁, _⟩ := archive_push (σ := σ) (n := n) (e := e) hK hK₀
      exact ⟨K₁, hK₁, hle.trans hle₁⟩
    rcases hkept A hA with hA | rfl
    · exact hold A hA ha
    · rw [Segment.entryAt_push] at ha
      split at ha
      · rename_i hi
        rw [← Option.some.inj ha, he]
        exact ⟨K.push e, Function.update_self _ _ _, by rw [Segment.last_push, hi]⟩
      · exact hold K (Or.inr ⟨T, hK⟩) ha
  case acked =>
    intro env reply hrep hyes
    obtain ⟨K₀, hK₀, hhas⟩ := h.acked env reply hrep hyes
    obtain ⟨K₁, hK₁, _, _, hmono⟩ := archive_push hK hK₀
    exact ⟨K₁, hK₁, hmono _ _ hhas⟩

/-- The archive of a new leader begins with its log. -/
theorem ArchiveInv.adopt (h : ArchiveInv w book) {T : Int} {l : Fin n} (hopen : book T = none)
    (hel : .elected l T ∈ w.trace) :
    ArchiveInv w (Function.update book T (some (w.nodes l).rf.segment)) := by
  have hgrow : ∀ T₀ K₀, book T₀ = some K₀ →
      Function.update book T (some (w.nodes l).rf.segment) T₀ = some K₀ := by
    intro T₀ K₀ hK₀
    rw [Function.update_of_ne ?_, hK₀]
    rintro rfl
    rw [hopen] at hK₀
    cases hK₀
  have hkept : ∀ A, Kept w (Function.update book T (some (w.nodes l).rf.segment)) A →
      Kept w book A := by
    rintro A (hs | ⟨T₀, hA⟩)
    · exact Or.inl hs
    · rcases Lib.update_eq_some hA with ⟨_, rfl⟩ | ⟨_, hold⟩
      · exact Or.inl ⟨l, rfl⟩
      · exact Or.inr ⟨T₀, hold⟩
  constructor
  case elected =>
    intro T₀ K₀ hK₀
    rcases Lib.update_eq_some hK₀ with ⟨rfl, _⟩ | ⟨_, hold⟩
    · exact ⟨l, hel⟩
    · exact h.elected T₀ K₀ hold
  case sent =>
    intro env henv
    obtain ⟨hne, K₀, hK₀, hpart⟩ := h.sent env henv
    exact ⟨hne, K₀, hgrow _ _ hK₀, hpart⟩
  case agree => exact fun A B hA hB ↦ h.agree A B (hkept A hA) (hkept B hB)
  case made =>
    intro A hA i a ha
    obtain ⟨K₀, hK₀, hle⟩ := h.made A (hkept A hA) i a ha
    exact ⟨K₀, hgrow _ _ hK₀, hle⟩
  case acked =>
    intro env reply hrep hyes
    obtain ⟨K₀, hK₀, hhas⟩ := h.acked env reply hrep hyes
    exact ⟨K₀, hgrow _ _ hK₀, hhas⟩

end Steps

/-! ## What a step does to the match indices of one server -/

/-- What step `a` does to server `t`, which it leaves with `rf'`. -/
inductive MatchStep (w : World n C σ) (a : Action n C σ) (t : Fin n) (rf' : Raft n C σ) : Prop where
  | same (hrole : rf'.state = .leader → (w.nodes t).rf.state = .leader)
      (h : rf'.matchIndex = (w.nodes t).rf.matchIndex)
  | retired (h : rf'.state ≠ .leader)
  | elected (h : rf'.matchIndex = fun _ ↦ 0)
  | replied (env : Envelope n (AppendEntriesArgs n C)) (reply : AppendEntriesReply)
      (hrep : (env, reply) ∈ w.appendReps) (hyes : reply.success = true)
      (hlead : (w.nodes t).rf.Leads env.args.term)
      (h : rf'.matchIndex = Function.update (w.nodes t).rf.matchIndex env.dst env.args.lastIndex)
  | counted (env : Envelope n (InstallSnapshotArgs n σ)) (reply : InstallSnapshotReply)
      (ha : a = .snapshotReply t env reply) (hterm : reply.term ≤ (w.nodes t).rf.currentTerm)
      (hrole : rf'.state = .leader → (w.nodes t).rf.state = .leader)
      (h : rf'.matchIndex = Function.update (w.nodes t).rf.matchIndex env.dst
        (max env.args.lastIncludedIndex ((w.nodes t).rf.matchIndex env.dst)))

theorem step_match {w w' : World n C σ} {a : Action n C σ} (hstep : Step gob w a w')
    (hdur : ∀ s, Durable gob (w.nodes s).rf) (t : Fin n) : MatchStep w a t (w'.nodes t).rf := by
  cases step_peers hstep hdur t with
  | same hrole h => exact .same hrole (congrArg Prod.snd h)
  | retired h => exact .retired h
  | elected h => exact .elected (h ▸ rfl)
  | replied env reply hcall hrep hv =>
      obtain ⟨hrole, hpeers⟩ := stepDown_peers gob (w.nodes t).rf reply.term
      have hmatch := congrArg Prod.snd hpeers
      obtain ⟨_, _, _, _, hfields⟩ := Raft.handleAppendEntriesReply_cases hv
      dsimp only [Raft.peers] at hmatch hfields
      rcases Raft.handleAppendEntriesReply_match rfl hv with
        ⟨hsame, _⟩ | ⟨hlead, hsent, hyes, _, hmi, _⟩
      · refine .same ?_ (hsame.trans hmatch)
        rw [hfields]
        exact hrole
      · -- a leader has not stepped down
        dsimp only at hlead hsent hmi
        have hterm : (w.nodes t).rf.currentTerm = env.args.term := by
          rcases Raft.stepDown_cases gob (w.nodes t).rf reply.term with ⟨_, he⟩ | ⟨_, he⟩
          · rw [he] at hlead
            cases hlead
          · rw [he] at hsent
            exact hsent.symm
        rw [hmatch] at hmi
        exact .replied env reply hrep hyes ⟨hrole hlead, hterm⟩ hmi
  | counted env reply ha h =>
      rw [h]
      unfold Raft.handleSnapshotReply
      split
      · exact .retired Role.noConfusion
      · rename_i hterm
        exact .counted env reply ha (not_lt.mp hterm) id rfl

/-! ## The invariant -/

/-- The log of a leader reaches to the end of the archive of its term, and every other server has
what its match index says. -/
structure BookInv (w : World n C σ) (book : Int → Option (Segment (Log C))) : Prop extends
    ArchiveInv w book where
  base : ∀ s, 0 ≤ (w.nodes s).rf.lastIncludedIndex
  leader : ∀ l T, (w.nodes l).rf.Leads T →
    ∃ K, book T = some K ∧ (w.nodes l).rf.segment.Part K ∧ (w.nodes l).rf.segment.last = K.last
  matched : ∀ l T K, (w.nodes l).rf.Leads T → book T = some K →
    ∀ s, s ≠ l → (w.nodes s).rf.Has T K ((w.nodes l).rf.matchIndex s)

section Run

variable {w w' : World n C σ} {a : Action n C σ} {book : Int → Option (Segment (Log C))}

theorem ArchiveInv.has_of_reaches (h : ArchiveInv w book) (hpoll : PollInv gob w) {l s : Fin n}
    {T i : Int} {K : Segment (Log C)} (hlead : (w.nodes l).rf.Leads T) (hK : book T = some K)
    (hpart : (w.nodes l).rf.segment.Part K) (hreach : (w.nodes s).rf.Reaches (w.nodes l).rf i) :
    (w.nodes s).rf.Has T K i := by
  rcases hreach with hcover | ⟨hterm, hsome, heq⟩
  · exact Or.inl hcover
  · obtain ⟨e, he⟩ := Option.isSome_iff_exists.mp hsome
    have hl : (w.nodes l).rf.segment.termAt i = some e.term := by
      rw [Raft.segment_termAt (hpoll.durable l).log_ne_nil, he]
      rfl
    have hs : (w.nodes s).rf.segment.termAt i = some e.term := by
      rw [Raft.segment_termAt (hpoll.durable s).log_ne_nil, heq, he]
      rfl
    have hagree := h.agree _ K (Or.inl ⟨s, rfl⟩) (Or.inr ⟨T, hK⟩)
    rw [hlead.2] at hterm
    exact Or.inr ⟨hterm, fun _ ↦ .of_termAt hagree hs (hpart.termAt hl)⟩

/-- The match indices after a step, for archives that it leaves alone. -/
theorem ArchiveInv.matched_step (h : ArchiveInv w book) (hpoll : PollInv gob w)
    (hbase : ∀ s, 0 ≤ (w.nodes s).rf.lastIncludedIndex)
    (hleader : ∀ l T, (w.nodes l).rf.Leads T → ∃ K, book T = some K ∧ (w.nodes l).rf.segment.Part K)
    (hmatched : ∀ l T K, (w.nodes l).rf.Leads T → book T = some K →
      ∀ s, s ≠ l → (w.nodes s).rf.Has T K ((w.nodes l).rf.matchIndex s))
    (hstep : Step gob w a w') (hok : CountsSafely w a) {l s : Fin n} {T : Int}
    {K : Segment (Log C)} (hlead' : (w'.nodes l).rf.Leads T) (hK : book T = some K) (hne : s ≠ l) :
    (w'.nodes s).rf.Has T K ((w'.nodes l).rf.matchIndex s) := by
  have hindex := step_indices hstep hpoll.durable s
  have hkeep : ∀ k, (w.nodes s).rf.Has T K k → (w'.nodes s).rf.Has T K k := fun k ↦
    h.has_step (step_segment hstep hpoll.durable hok.2.1 hok.2.2 s) hindex hK
  have hled : (w.nodes l).rf.state = .leader → (w.nodes l).rf.Leads T := by
    intro hrole
    refine (step_leads hpoll.toBallotInv hstep hlead').resolve_right fun hcand ↦ ?_
    rw [hrole] at hcand
    cases hcand.1
  cases step_match hstep hpoll.durable l with
  | same hrole heq =>
      rw [heq]
      exact hkeep _ (hmatched l T K (hled (hrole hlead'.1)) hK s hne)
  | retired hno => exact absurd hlead'.1 hno
  | elected hzero =>
      -- `toLeader` sets all match indices to 0, which every snapshot covers
      rw [hzero]
      exact Or.inl ((hbase s).trans hindex.base_le)
  | replied env reply hrep hyes hlead heq =>
      have hT := hled hlead.1
      rw [heq]
      by_cases hs : s = env.dst
      · subst hs
        obtain ⟨K', hK', hhas⟩ := h.acked env reply hrep hyes
        rw [← hlead.2, hT.2] at hK' hhas
        rw [hK, Option.some.injEq] at hK'
        subst hK'
        rw [Function.update_self]
        exact hkeep _ hhas
      · rw [Function.update_of_ne hs]
        exact hkeep _ (hmatched l T K hT hK s hne)
  | counted env reply ha hterm hrole heq =>
      have hT := hled (hrole hlead'.1)
      have hold := hkeep _ (hmatched l T K hT hK s hne)
      rw [heq]
      by_cases hs : s = env.dst
      · subst ha hs
        obtain ⟨K', hK', hpart⟩ := hleader l T hT
        rw [hK, Option.some.injEq] at hK'
        subst hK'
        rw [Function.update_self]
        by_cases hraise : (w.nodes l).rf.matchIndex env.dst < env.args.lastIncludedIndex
        · -- the condition on counting says that the server has come as far as the snapshot
          rw [max_eq_left hraise.le]
          exact hkeep _ (h.has_of_reaches hpoll hT hK hpart (hok.1 hT.1 hterm hraise))
        · rw [max_eq_right (not_lt.mp hraise)]
          exact hold
      · rw [Function.update_of_ne hs]
        exact hold

/-- Two leaders of one term are the same server. -/
theorem PollInv.leader_unique (h : PollInv gob w)
    (huniq : ∀ z z' T, .elected z T ∈ w.trace → .elected z' T ∈ w.trace → z = z')
    {l l' : Fin n} {T : Int} (hl : (w.nodes l).rf.Leads T) (hl' : (w.nodes l').rf.Leads T) :
    l = l' := by
  have hel := h.leader l hl.1
  have hel' := h.leader l' hl'.1
  rw [hl.2] at hel
  rw [hl'.2] at hel'
  exact huniq l l' T hel hel'

namespace BookInv

theorem exists_archive (h : BookInv w book) (l : Fin n) (T : Int) (hlead : (w.nodes l).rf.Leads T) :
    ∃ K, book T = some K ∧ (w.nodes l).rf.segment.Part K := by
  obtain ⟨K, hK, hpart, _⟩ := h.leader l T hlead
  exact ⟨K, hK, hpart⟩

/-- A leader that stays leader without a new entry only cuts its log. -/
theorem leader_step (h : BookInv w book) (hpoll : PollInv gob w) (hstep : Step gob w a w')
    (hok : CountsSafely w a)
    (huniq : ∀ z z' T, .elected z T ∈ w.trace → .elected z' T ∈ w.trace → z = z')
    {l : Fin n} {T : Int} (hlead : (w.nodes l).rf.Leads T) (hlead' : (w'.nodes l).rf.Leads T)
    (hstart : ∀ command, a ≠ .start l command) :
    ∃ K, book T = some K ∧ (w'.nodes l).rf.segment.Part K ∧
      (w'.nodes l).rf.segment.last = K.last := by
  obtain ⟨K, hK, hpart, hlast⟩ := h.leader l T hlead
  cases step_segment hstep hpoll.durable hok.2.1 hok.2.2 l with
  | cut hcut hsame => exact ⟨K, hK, hcut.trans hpart, hsame.trans hlast⟩
  | replaced hrole => exact absurd hlead.1 hrole
  | pushed command ha => exact absurd ha (hstart command)
  | merged env ha hdst henv hle hct =>
      -- the sender of the request would lead the same term
      have hel := hpoll.leader l hlead.1
      have hel' := hpoll.appends env henv
      rw [hlead.2] at hel
      rw [← hct, hlead'.2] at hel'
      rw [huniq _ _ T hel hel'] at hdst
      exact absurd hdst (h.sent env henv).1

/-- `Start` at a leader adds an entry of its term. -/
theorem start_segment (gob : Gob (RaftImage n C) σ) {rf : Raft n C σ} (hne : rf.log ≠ [])
    (hrole : rf.state = .leader) (command : Option C) :
    (rf.start gob command).1.segment = rf.segment.push ⟨command, rf.currentTerm⟩ ∧
      (rf.start gob command).1.currentTerm = rf.currentTerm := by
  unfold Raft.start
  rw [if_pos hrole]
  exact ⟨segmentOf_concat hne _, rfl⟩

/-- `Start` at a leader: its log and the archive of its term grow by the same entry. -/
theorem start (h : BookInv w book) (hpoll : PollInv gob w) {t : Fin n} {command : Option C}
    (hstep : Step gob w (.start t command) w') (hrole : (w.nodes t).rf.state = .leader)
    (huniq : ∀ z z' T, .elected z T ∈ w.trace → .elected z' T ∈ w.trace → z = z') :
    ∃ book', BookInv w' book' := by
  have hlead : (w.nodes t).rf.Leads (w.nodes t).rf.currentTerm := ⟨hrole, rfl⟩
  have hok : CountsSafely w (.start t command) := ⟨trivial, trivial, trivial⟩
  obtain ⟨K, hK, hpart, hlast⟩ := h.leader t _ hlead
  have harch := h.toArchiveInv.extend (e := ⟨command, (w.nodes t).rf.currentTerm⟩) hK rfl
  have hmatched : ∀ l T K₁, (w.nodes l).rf.Leads T →
      Function.update book (w.nodes t).rf.currentTerm
        (some (K.push ⟨command, (w.nodes t).rf.currentTerm⟩)) T = some K₁ →
      ∀ s, s ≠ l → (w.nodes s).rf.Has T K₁ ((w.nodes l).rf.matchIndex s) := by
    intro l T K₁ hl hK₁ s hs
    obtain ⟨K₀, hK₀, _⟩ := h.leader l T hl
    obtain ⟨K₂, hK₂, _, _, hmono⟩ := archive_push hK hK₀
    rw [hK₂, Option.some.injEq] at hK₁
    exact hK₁ ▸ hmono _ _ (h.matched l T K₀ hl hK₀ s hs)
  have hleader : ∀ l T, (w.nodes l).rf.Leads T →
      ∃ K₁, Function.update book (w.nodes t).rf.currentTerm
        (some (K.push ⟨command, (w.nodes t).rf.currentTerm⟩)) T = some K₁ ∧
          (w.nodes l).rf.segment.Part K₁ := by
    intro l T hl
    obtain ⟨K₀, hK₀, hpart₀⟩ := h.exists_archive l T hl
    obtain ⟨K₁, hK₁, hpart₁, _⟩ := archive_push (σ := σ) (n := n) hK hK₀
    exact ⟨K₁, hK₁, hpart₀.trans hpart₁⟩
  have hstep' := hstep
  cases hstep with
  | start _ _ hnd =>
      subst hnd
      obtain ⟨hseg, hct⟩ := start_segment gob (hpoll.durable t).log_ne_nil hrole command
      refine ⟨_, harch.step hpoll.durable hpoll.me hstep' hok hleader ?_, fun s ↦ ?_,
        fun l T hl ↦ ?_, fun l T K₁ hl hK₁ s hs ↦ ?_⟩
      · intro t' command' ha _
        obtain ⟨rfl, rfl⟩ := Action.start.inj ha
        refine ⟨_, _, Function.update_self _ _ _, ?_⟩
        dsimp only
        rw [Function.update_self, hseg]
        exact hpart.push_push hlast
      · exact (h.base s).trans (step_indices hstep' hpoll.durable s).base_le
      · dsimp only at hl ⊢
        by_cases hlt : l = t
        · subst hlt
          rw [Function.update_self] at hl ⊢
          obtain ⟨_, hT⟩ := hl
          rw [hct] at hT
          subst hT
          refine ⟨_, Function.update_self _ _ _, ?_, ?_⟩
          · rw [hseg]
            exact hpart.push_push hlast
          · rw [hseg, Segment.last_push, Segment.last_push, hlast]
        · -- another leader has another term, and keeps its log and its archive
          rw [Function.update_of_ne hlt] at hl ⊢
          obtain ⟨K₀, hK₀, hrest⟩ := h.leader l T hl
          refine ⟨K₀, ?_, hrest⟩
          rw [Function.update_of_ne, hK₀]
          rintro rfl
          exact hlt (hpoll.leader_unique huniq hl hlead)
      · exact harch.matched_step hpoll h.base hleader hmatched hstep' hok hl hK₁ hs

/-- An election: the archive of the new term begins with the log of the new leader. -/
theorem elect (h : BookInv w book) (hpoll : PollInv gob w) (hpoll' : PollInv gob w')
    (hstep : Step gob w a w') (hok : CountsSafely w a)
    (huniq : ∀ z z' T, .elected z T ∈ w'.trace → .elected z' T ∈ w'.trace → z = z')
    (harch : ArchiveInv w' book) {l : Fin n} {T : Int} (hlead' : (w'.nodes l).rf.Leads T)
    (hnew : ¬ (w.nodes l).rf.Leads T) : ∃ book', BookInv w' book' := by
  obtain ⟨hcand, hterm, k, env, reply, ha⟩ :=
    (step_leads hpoll.toBallotInv hstep hlead').resolve_left hnew
  have hsub := (World.step_trace hstep).subset
  have hel : .elected l T ∈ w'.trace := hlead'.2 ▸ hpoll'.leader l hlead'.1
  have hopen : book T = none := by
    cases hb : book T with
    | none => rfl
    | some K =>
        -- the server would have been elected in this term before
        obtain ⟨z, hz⟩ := h.elected T K hb
        rw [huniq z l T (hsub hz) hel] at hz
        exact absurd hcand ((hpoll.settled l T hz).2 hterm)
  have hbase : ∀ s, 0 ≤ (w'.nodes s).rf.lastIncludedIndex :=
    fun s ↦ (h.base s).trans (step_indices hstep hpoll.durable s).base_le
  refine ⟨_, harch.adopt hopen hel, hbase, fun l' T' hl' ↦ ?_, fun l' T' K hl' hK s hs ↦ ?_⟩
  · by_cases hll : l' = l
    · subst hll
      obtain rfl : T = T' := hlead'.2.symm.trans hl'.2
      exact ⟨_, Function.update_self _ _ _, Part.refl _, rfl⟩
    · have hT : T' ≠ T := by
        rintro rfl
        exact hll (hpoll'.leader_unique huniq hl' hlead')
      have hled : (w.nodes l').rf.Leads T' := by
        refine (step_leads hpoll.toBallotInv hstep hl').resolve_right ?_
        rintro ⟨_, _, k', env', reply', ha'⟩
        rw [ha] at ha'
        exact hll (Action.voteReply.inj ha').1.symm
      rw [Function.update_of_ne hT]
      refine h.leader_step hpoll hstep hok (fun z z' T hz hz' ↦ huniq z z' T (hsub hz) (hsub hz'))
        hled hl' fun command heq ↦ ?_
      rw [ha] at heq
      cases heq
  · rcases Lib.update_eq_some hK with ⟨rfl, rfl⟩ | ⟨_, hold⟩
    · -- the new leader counts on nobody yet
      obtain rfl := hpoll'.leader_unique huniq hl' hlead'
      have hzero : (w'.nodes l').rf.matchIndex s = 0 := by
        cases step_match hstep hpoll.durable l' with
        | same hrole =>
            rw [hrole hl'.1] at hcand
            cases hcand
        | retired hno => exact absurd hl'.1 hno
        | elected heq => rw [heq]
        | replied _ _ _ _ hlead =>
            rw [hlead.1] at hcand
            cases hcand
        | counted _ _ ha' =>
            rw [ha] at ha'
            cases ha'
      rw [hzero]
      exact Or.inl (hbase s)
    · exact h.toArchiveInv.matched_step hpoll h.base h.exists_archive h.matched hstep hok hl' hold hs

theorem step (h : BookInv w book) (hpoll : PollInv gob w) (hpoll' : PollInv gob w')
    (hstep : Step gob w a w') (hok : CountsSafely w a)
    (huniq : ∀ z z' T, .elected z T ∈ w'.trace → .elected z' T ∈ w'.trace → z = z') :
    ∃ book', BookInv w' book' := by
  have hsub := (World.step_trace hstep).subset
  have huniq₀ : ∀ z z' T, .elected z T ∈ w.trace → .elected z' T ∈ w.trace → z = z' :=
    fun z z' T hz hz' ↦ huniq z z' T (hsub hz) (hsub hz')
  by_cases hstart : ∃ t command, a = .start t command ∧ (w.nodes t).rf.state = .leader
  · obtain ⟨t, command, rfl, hrole⟩ := hstart
    exact h.start hpoll hstep hrole huniq₀
  · have harch : ArchiveInv w' book := by
      refine h.toArchiveInv.step hpoll.durable hpoll.me hstep hok h.exists_archive ?_
      intro t command ha hrole
      exact absurd ⟨t, command, ha, hrole⟩ hstart
    by_cases helect : ∃ l T, (w'.nodes l).rf.Leads T ∧ ¬ (w.nodes l).rf.Leads T
    · obtain ⟨l, T, hlead', hnew⟩ := helect
      exact h.elect hpoll hpoll' hstep hok huniq harch hlead' hnew
    · push Not at helect
      refine ⟨book, harch, fun s ↦ ?_, fun l T hl ↦ ?_, fun l T K hl hK s hs ↦ ?_⟩
      · exact (h.base s).trans (step_indices hstep hpoll.durable s).base_le
      · have hled := helect l T hl
        exact h.leader_step hpoll hstep hok huniq₀ hled hl
          fun command ha ↦ hstart ⟨l, command, ha, hled.1⟩
      · exact h.toArchiveInv.matched_step hpoll h.base h.exists_archive h.matched hstep hok hl hK hs

theorem init : BookInv (World.init : World n C σ) fun _ ↦ none where
  elected := nofun
  sent := by
    intro env henv
    cases henv
  agree := by
    rintro A B (⟨s, rfl⟩ | ⟨T, hT⟩) _
    · exact Agree.of_nil rfl
    · cases hT
  made := by
    rintro A (⟨s, rfl⟩ | ⟨T, hT⟩) i e he
    · obtain ⟨hlo, hhi⟩ := Segment.range_of_entryAt he
      exact absurd hlo (not_lt.mpr hhi)
    · cases hT
  acked := by
    intro env reply hrep
    cases hrep
  base := fun _ ↦ le_refl _
  leader := by
    intro l T hl
    cases hl.1
  matched := by
    intro l T K hl
    cases hl.1

end BookInv

end Run

/-- In a run in which no term has two leaders and every step meets the conditions: where server `l`
leads and server `s` has its term, the log of `s` reaches `matchIndex[s]`, and up to there each index
is covered by the snapshot of `s` or `s` has the entry that `l` has, as far as `l` still has one. -/
theorem match_index_truthful [DecidableEq C] [DecidableEq σ] {gob : Gob (RaftImage n C) σ}
    {w : World n C σ} {as : List (Action n C σ)}
    (hok : Lib.Along (World.step gob) CountsSafely World.init as) (hone : OneLeaderPerTerm gob as)
    (hrun : Lib.run (World.step gob) World.init as = some w) {l s : Fin n}
    (hlead : (w.nodes l).rf.state = .leader) (hne : s ≠ l)
    (hterm : (w.nodes s).rf.currentTerm = (w.nodes l).rf.currentTerm) :
    (w.nodes l).rf.matchIndex s ≤ (w.nodes s).rf.getLastLogIndex ∧
      ∀ j ≤ (w.nodes l).rf.matchIndex s, j ≤ (w.nodes s).rf.lastIncludedIndex ∨
        ∀ e, (w.nodes l).rf.lastIncludedIndex < j → (w.nodes l).rf.entryAt j = some e →
          (w.nodes s).rf.entryAt j = some e := by
  have hinv : PollInv gob w ∧
      ((∀ z z' T, .elected z T ∈ w.trace → .elected z' T ∈ w.trace → z = z') →
        ∃ book, BookInv w book) := by
    refine Lib.run_invariant (I := fun w ↦ PollInv gob w ∧
      ((∀ z z' T, .elected z T ∈ w.trace → .elected z' T ∈ w.trace → z = z') →
        ∃ book, BookInv w book)) ?_ ⟨PollInv.init, fun _ ↦ ⟨_, BookInv.init⟩⟩ hok hrun
    rintro v a v' ⟨hpoll, hbook⟩ hcond hstep
    have hstep' := World.step_inv hstep
    have hsub := (World.step_trace hstep').subset
    refine ⟨hpoll.step hstep', fun huniq ↦ ?_⟩
    obtain ⟨book, hb⟩ := hbook fun z z' T hz hz' ↦ huniq z z' T (hsub hz) (hsub hz')
    exact hb.step hpoll (hpoll.step hstep') hstep' hcond huniq
  obtain ⟨hpoll, hbook⟩ := hinv
  obtain ⟨book, hb⟩ := hbook fun _ _ _ ↦ hone.elected_unique hrun
  have hlen := List.length_pos_iff.mpr (hpoll.durable s).log_ne_nil
  have hlast := Raft.segment_last (hpoll.durable s).log_ne_nil
  obtain ⟨K, hK, hpart, _⟩ := hb.leader l _ ⟨hlead, rfl⟩
  rcases hb.matched l _ K ⟨hlead, rfl⟩ hK s hne with hcover | ⟨_, hsame⟩
  · refine ⟨?_, fun j hj ↦ Or.inl (hj.trans hcover)⟩
    rw [Raft.getLastLogIndex_eq]
    omega
  · have hs := hsame hterm
    refine ⟨hlast ▸ hs.left, fun j hj ↦ ?_⟩
    by_cases hbase : j ≤ (w.nodes s).rf.lastIncludedIndex
    · exact Or.inl hbase
    · refine Or.inr fun e hl he ↦ ?_
      have hle := hs.left
      obtain ⟨e', he'⟩ := Segment.exists_entryAt (A := (w.nodes s).rf.segment) (i := j)
        (not_le.mp hbase) (by omega)
      rw [← Raft.segment_entryAt hl] at he
      rw [← Raft.segment_entryAt (not_le.mp hbase), he',
        hs.entry j hj e' e he' (hpart.entry j e he)]

/-- The request by which server 0 sends its snapshot in `installRun`. -/
def installRequest : Envelope 3 (InstallSnapshotArgs 3 (RaftImage 3 Nat)) :=
  ⟨2, 2, ⟨1, 0, 1, 1, [bootImage]⟩⟩

/-- `installRun`, and then the answer of server 2 reaches the leader. -/
theorem match_index_truthful_installRun :
    ∃ w, Lib.run (World.step (Gob.plain (RaftImage 3 Nat))) World.init
        (installRun ++ [.snapshotReply 0 installRequest { term := 1 }]) = some w ∧
      (w.nodes 0).rf.matchIndex 2 = 1 ∧
      (w.nodes 0).rf.matchIndex 2 ≤ (w.nodes 2).rf.getLastLogIndex := by
  have hcheck : (Lib.run (World.step (Gob.plain (RaftImage 3 Nat))) World.init
      (installRun ++ [.snapshotReply 0 installRequest { term := 1 }])).any
        (fun w ↦ decide ((w.nodes 0).rf.matchIndex 2 = 1 ∧ (w.nodes 0).rf.state = .leader ∧
          (w.nodes 2).rf.currentTerm = (w.nodes 0).rf.currentTerm)) = true := by
    decide +kernel
  have hok : Lib.Along (World.step (Gob.plain (RaftImage 3 Nat))) CountsSafely World.init
      (installRun ++ [.snapshotReply 0 installRequest { term := 1 }]) := by
    decide +kernel
  have hone : OneLeaderPerTerm (Gob.plain (RaftImage 3 Nat))
      (installRun ++ [.snapshotReply 0 installRequest { term := 1 }]) := by
    decide +kernel
  obtain ⟨w, hrun, hw⟩ := Lib.exists_run_of_any hcheck
  obtain ⟨hmatch, hlead, hterm⟩ := of_decide_eq_true hw
  exact ⟨w, hrun, hmatch, (match_index_truthful hok hone hrun hlead (by decide) hterm).1⟩

/-- The answer reaches the leader when server 2 has only passed the snapshot on to its service: the
leader counts on index 1, and server 2, which is in its term, has nothing. -/
theorem match_index_before_install :
    OneLeaderPerTerm (Gob.plain (RaftImage 3 Nat))
      (installRun.take 16 ++ [.snapshotReply 0 installRequest { term := 1 }]) ∧
    ∃ w, Lib.run (World.step (Gob.plain (RaftImage 3 Nat))) World.init
        (installRun.take 16 ++ [.snapshotReply 0 installRequest { term := 1 }]) = some w ∧
      (w.nodes 0).rf.state = .leader ∧
      (w.nodes 2).rf.currentTerm = (w.nodes 0).rf.currentTerm ∧
      (w.nodes 0).rf.matchIndex 2 = 1 ∧ (w.nodes 2).rf.getLastLogIndex = 0 := by
  have hcheck : (Lib.run (World.step (Gob.plain (RaftImage 3 Nat))) World.init
      (installRun.take 16 ++ [.snapshotReply 0 installRequest { term := 1 }])).any
        (fun w ↦ decide ((w.nodes 0).rf.state = .leader ∧
          (w.nodes 2).rf.currentTerm = (w.nodes 0).rf.currentTerm ∧
          (w.nodes 0).rf.matchIndex 2 = 1 ∧ (w.nodes 2).rf.getLastLogIndex = 0)) = true := by
    decide +kernel
  have hone : OneLeaderPerTerm (Gob.plain (RaftImage 3 Nat))
      (installRun.take 16 ++ [.snapshotReply 0 installRequest { term := 1 }]) := by
    decide +kernel
  obtain ⟨w, hrun, hw⟩ := Lib.exists_run_of_any hcheck
  exact ⟨hone, w, hrun, of_decide_eq_true hw⟩

end Lab6824
