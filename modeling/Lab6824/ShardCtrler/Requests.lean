import Lab6824.Lib.Lists
import Lab6824.Lib.Sessions
import Lab6824.ShardCtrler.Server

/-!
# Requests — every request is executed once

A client repeats a request until it is answered, so the log may hold it many times.  What
`lastRequestContext` knows after a log is the highest id of each client, and with that the server
executes the first occurrence of each `Join`, `Leave` and `Move` and no other.  A configuration gets
the next number when it is made, and stays in the list.
-/

namespace Lab6824.ShardCtrler

/-! ## What `lastRequestContext` knows -/

def Applied.ident (a : Applied) : Int × Int :=
  a.request.ident

namespace Server

/-- The client has had a request with this id or a later one. -/
def Knows (s : Server) (uid id : Int) : Prop :=
  ∃ contexts, s.lastRequestContext.lookup uid = some contexts ∧ id ≤ contexts.requestId

theorem answered_iff (s : Server) (request : Request) :
    s.answered request = true ↔
      request.op.isQuery = false ∧ s.Knows request.uId request.requestId := by
  unfold answered Knows
  cases s.lastRequestContext.lookup request.uId with
  | none => simp
  | some contexts => simp

/-- A request with a positive id is always remembered: where the key is absent its id is compared
with `0`. -/
theorem knows_noteRequest {s : Server} {request : Request} (hpos : 1 ≤ request.requestId)
    (answer : Answer) (uid id : Int) :
    (s.noteRequest request answer).Knows uid id ↔
      s.Knows uid id ∨ request.uId = uid ∧ id ≤ request.requestId := by
  unfold noteRequest lastRequest Knows
  by_cases huid : request.uId = uid
  · subst huid
    cases hlook : s.lastRequestContext.lookup request.uId with
    | none =>
        -- a missing key reads as the zero value, so an id of 0 would not be stored
        rw [if_pos (show 0 < request.requestId by omega)]
        simp [Finmap.lookup_insert]
    | some contexts =>
        dsimp only
        by_cases hlt : contexts.requestId < request.requestId
        · rw [if_pos hlt]
          simp only [Finmap.lookup_insert, Option.some.injEq, exists_eq_left', true_and]
          omega
        · rw [if_neg hlt]
          simp only [hlook, Option.some.injEq, exists_eq_left', true_and]
          omega
  · split_ifs
    · simp [Finmap.lookup_insert_of_ne _ (Ne.symm huid), huid]
    · simp [huid]

/-- Every iteration of `fetchApply` ends with the update of `lastRequestContext`. -/
theorem fetchApply_knows {s s' : Server} {a : Applied} {answer : Answer}
    (h : s.fetchApply a = some (s', answer)) (hpos : 1 ≤ a.request.requestId) (uid id : Int) :
    s'.Knows uid id ↔ s.Knows uid id ∨ a.request.uId = uid ∧ id ≤ a.request.requestId := by
  unfold fetchApply at h
  split at h
  · rw [Option.some.injEq, Prod.mk.injEq] at h
    rw [← h.1]
    exact knows_noteRequest hpos _ uid id
  · obtain ⟨⟨sc, answer'⟩, _, heq⟩ := Option.map_eq_some_iff.mp h
    rw [← (Prod.mk.inj heq).1]
    exact knows_noteRequest hpos answer' uid id

end Server

/-- After a log a server knows the ids that stand in it. -/
theorem knows_run {log : List Applied} {r : Replica} (hpos : ∀ a ∈ log, 1 ≤ a.ident.2)
    (hrun : Lib.run Replica.step {} log = some r) (uid id : Int) :
    r.server.Knows uid id ↔ ∃ b ∈ log, b.ident.1 = uid ∧ id ≤ b.ident.2 := by
  induction log using List.reverseRecOn generalizing r with
  | nil =>
      obtain rfl := Option.some.inj hrun
      simp [Server.Knows]
  | append_singleton log a ih =>
      obtain ⟨mid, hmid, hstep⟩ := Lib.run_concat.mp hrun
      obtain ⟨⟨s', answer⟩, happly, rfl⟩ := Option.map_eq_some_iff.mp hstep
      have ha : 1 ≤ a.request.requestId := hpos a (by simp)
      rw [Server.fetchApply_knows happly ha, ih (fun b hb ↦ hpos b (List.mem_append_left _ hb)) hmid]
      simp only [List.mem_append, List.mem_singleton, or_and_right, exists_or, exists_eq_left]
      rfl

/-- A server answers without executing exactly the requests that repeat an earlier one, `Query`
apart. -/
theorem answered_iff_repeated {log : List Applied} {a : Applied} {r : Replica}
    (hseq : Lib.Sequential Applied.ident (log ++ [a]))
    (hrun : Lib.run Replica.step {} log = some r) :
    r.server.answered a.request = true ↔
      a.request.op.isQuery = false ∧ a.ident ∈ log.map Applied.ident := by
  rw [Server.answered_iff, hseq.repeated_iff, knows_run hseq.of_append.positive hrun]
  rfl

/-! ## The configurations are those of the first occurrences -/

def Applied.command (a : Applied) : Command :=
  ⟨a.request.op, a.ords⟩

/-- The first occurrence of every `Join`, `Leave` and `Move`. -/
def firstUpdates (log : List Applied) : List Command :=
  ((Lib.firsts Applied.ident log).filter fun a ↦ !a.request.op.isQuery).map Applied.command

theorem firstUpdates_of_skip {log : List Applied} {a : Applied}
    (h : a.request.op.isQuery = true ∨ a.ident ∈ log.map Applied.ident) :
    firstUpdates (log ++ [a]) = firstUpdates log := by
  unfold firstUpdates
  rw [Lib.firsts_concat]
  split
  · rfl
  · rename_i hnew
    rw [List.filter_append, List.filter_cons_of_neg (by simp [h.resolve_right hnew]), List.filter_nil,
      List.append_nil]

theorem firstUpdates_of_new {log : List Applied} {a : Applied} (hop : a.request.op.isQuery = false)
    (hnew : a.ident ∉ log.map Applied.ident) :
    firstUpdates (log ++ [a]) = firstUpdates log ++ [a.command] := by
  unfold firstUpdates
  rw [Lib.firsts_concat, if_neg hnew, List.filter_append, List.filter_cons_of_pos (by simp [hop]),
    List.filter_nil, List.map_append, List.map_singleton]

theorem execute_query {sc sc' : ShardCtrler} {c : Command} (hop : c.op.isQuery = true)
    (h : sc.execute c = some sc') : sc' = sc := by
  unfold execute at h
  cases hc : c.op with
  | join _ => simp [hc, Op.isQuery] at hop
  | leave _ => simp [hc, Op.isQuery] at hop
  | move _ _ => simp [hc, Op.isQuery] at hop
  | query num =>
      rw [hc] at h
      obtain ⟨_, _, rfl⟩ := Option.map_eq_some_iff.mp h
      rfl

/-- Executing the first occurrences gives the configurations of the server. -/
theorem run_firstUpdates {log : List Applied} {r : Replica}
    (hseq : Lib.Sequential Applied.ident log) (hrun : Lib.run Replica.step {} log = some r) :
    Lib.run execute start (firstUpdates log) = some r.server.sc := by
  induction log using List.reverseRecOn generalizing r with
  | nil =>
      obtain rfl := Option.some.inj hrun
      rfl
  | append_singleton log a ih =>
      obtain ⟨mid, hmid, hstep⟩ := Lib.run_concat.mp hrun
      have hprev := ih hseq.of_append hmid
      have hans := answered_iff_repeated hseq hmid
      obtain ⟨⟨s', answer⟩, happly, rfl⟩ := Option.map_eq_some_iff.mp hstep
      rcases Server.fetchApply_cases happly with ⟨hyes, hsc, _⟩ | ⟨hno, hdeal⟩
      · rw [firstUpdates_of_skip (Or.inr (hans.mp hyes).2), hprev]
        exact congrArg some hsc.symm
      · have hexec : mid.server.sc.execute a.command = some s'.sc := by
          rw [Applied.command, ← Server.deal_fst, hdeal]
          rfl
        cases hop : a.request.op.isQuery with
        | true =>
            rw [firstUpdates_of_skip (Or.inl hop), hprev]
            exact congrArg some (execute_query hop hexec).symm
        | false =>
            -- an update that is executed has not been in the log before
            have hnew : a.ident ∉ log.map Applied.ident := by
              intro hrep
              rw [hans.mpr ⟨hop, hrep⟩] at hno
              cases hno
            rw [firstUpdates_of_new hop hnew]
            exact Lib.run_concat.mpr ⟨_, hprev, hexec⟩

/-! ## The list of configurations -/

/-- An update appends a configuration with the next number. -/
theorem execute_cases {sc sc' : ShardCtrler} {c : Command} (h : sc.execute c = some sc') :
    sc' = sc ∨ ∃ config, sc' = sc.append config ∧ config.num = sc.getLastConfig.num + 1 := by
  unfold execute at h
  cases hop : c.op with
  | join servers =>
      rw [hop] at h
      dsimp only [dealJoin] at h
      split at h
      · cases h
      · exact Or.inr ⟨_, (Option.some.inj h).symm, rfl⟩
  | leave gids =>
      rw [hop] at h
      dsimp only [dealLeave] at h
      split at h
      · cases h
      · exact Or.inr ⟨_, (Option.some.inj h).symm, rfl⟩
  | move shard gid =>
      rw [hop] at h
      dsimp only [dealMove] at h
      split at h
      · exact Or.inr ⟨_, (Option.some.inj h).symm, rfl⟩
      · cases h
  | query num =>
      rw [hop] at h
      obtain ⟨_, _, rfl⟩ := Option.map_eq_some_iff.mp h
      exact Or.inl rfl

/-- The configurations are numbered by their positions. -/
def Numbered (sc : ShardCtrler) : Prop :=
  ∀ (i : Nat) (config : Config), sc.configs[i]? = some config → config.num = i

theorem Numbered.start : Numbered start := by
  intro i config hconfig
  cases i with
  | zero =>
      obtain rfl := Option.some.inj hconfig
      rfl
  | succ i => simp [ShardCtrler.start] at hconfig

theorem Numbered.last {sc : ShardCtrler} (h : Numbered sc) :
    sc.getLastConfig.num + 1 = sc.configs.length := by
  have hpos := List.length_pos_iff.mpr sc.configs_ne_nil
  have hlast : sc.configs[sc.configs.length - 1]? = some sc.getLastConfig := by
    rw [List.getElem?_eq_getElem (by omega), getLastConfig, List.getLast_eq_getElem]
  rw [h _ _ hlast]
  omega

theorem Numbered.execute {sc sc' : ShardCtrler} {c : Command} (h : Numbered sc)
    (hstep : sc.execute c = some sc') : Numbered sc' := by
  rcases execute_cases hstep with rfl | ⟨new, rfl, hnum⟩
  · exact h
  · intro i config hconfig
    rw [h.last] at hnum
    by_cases hold : i < sc.configs.length
    · exact h i config ((List.getElem?_append_left hold).symm.trans hconfig)
    · have hlen : i < (sc.configs ++ [new]).length := (List.getElem?_eq_some_iff.mp hconfig).1
      rw [List.length_append, List.length_singleton] at hlen
      have hi : i = sc.configs.length := by omega
      rw [hi] at hconfig ⊢
      obtain rfl := Option.some.inj (List.getElem?_concat_length.symm.trans hconfig)
      exact hnum

theorem execute_isPrefix {sc sc' : ShardCtrler} {c : Command} (hstep : sc.execute c = some sc') :
    sc.configs <+: sc'.configs := by
  rcases execute_cases hstep with rfl | ⟨config, rfl, _⟩
  · exact List.prefix_refl _
  · exact List.prefix_append _ _

theorem Replica.step_sc {r r' : Replica} {a : Applied} (h : r.step a = some r') :
    r'.server.sc = r.server.sc ∨ r.server.sc.execute a.command = some r'.server.sc := by
  obtain ⟨⟨s', answer⟩, happly, rfl⟩ := Option.map_eq_some_iff.mp h
  rcases Server.fetchApply_cases happly with ⟨_, hsc, _⟩ | ⟨_, hdeal⟩
  · exact Or.inl hsc
  · apply Or.inr
    rw [Applied.command, ← Server.deal_fst, hdeal]
    rfl

theorem Replica.step_numbered (r : Replica) (a : Applied) (r' : Replica) (h : Numbered r.server.sc)
    (_ : True) (hstep : r.step a = some r') : Numbered r'.server.sc := by
  rcases Replica.step_sc hstep with hsc | hexec
  · rw [hsc]
    exact h
  · exact h.execute hexec

theorem Replica.step_isPrefix {r r' : Replica} {a : Applied} (hstep : r.step a = some r') :
    r.server.sc.configs <+: r'.server.sc.configs := by
  rcases Replica.step_sc hstep with hsc | hexec
  · rw [hsc]
  · exact execute_isPrefix hexec

theorem run_isPrefix {r r' : Replica} {log : List Applied}
    (hrun : Lib.run Replica.step r log = some r') :
    r.server.sc.configs <+: r'.server.sc.configs := by
  refine Lib.run_relation (I := fun _ ↦ True)
    (R := fun r r' ↦ r.server.sc.configs <+: r'.server.sc.configs) (fun _ ↦ List.prefix_refl _) ?_ ?_
    trivial (Lib.along_true r log) hrun
  · intro _ _ _ h h'
    exact h.trans h'
  · intro _ _ _ _ _ hstep
    exact ⟨trivial, Replica.step_isPrefix hstep⟩

/-- The configuration that a server answers to a request. -/
def Server.reply (s : Server) (a : Applied) : Option Config :=
  (s.fetchApply a).map fun result ↦ result.2.config

theorem Server.reply_query {s : Server} {a : Applied} {num : Int} (hop : a.request.op = .query num) :
    s.reply a = s.sc.dealQuery a.ords num := by
  have hans : s.answered a.request = false := by
    unfold answered
    rw [hop]
    cases s.lastRequestContext.lookup a.request.uId with
    | none => rfl
    | some contexts => rfl
  unfold reply fetchApply deal
  rw [hans, hop]
  simp [Option.map_map, Function.comp_def]

/-- A configuration that exists is the answer now and after any extension of the list. -/
theorem dealQuery_of_lt {sc : ShardCtrler} {num : Int} {config : Config} (h0 : 0 ≤ num)
    (hconfig : sc.configs[num.toNat]? = some config) (ords : Orders) :
    sc.dealQuery ords num = some config := by
  have hlt := (List.getElem?_eq_some_iff.mp hconfig).1
  rw [dealQuery_eq, if_neg (by omega), if_neg (by omega), hconfig]

/-- With requests in range the apply loop gets through every log. -/
theorem exists_run_of_inRange {log : List Applied} (h : ∀ a ∈ log, a.request.op.InRange)
    (r : Replica) : ∃ r', Lib.run Replica.step r log = some r' := by
  induction log generalizing r with
  | nil => exact ⟨r, rfl⟩
  | cons a log ih =>
      obtain ⟨result, happly⟩ := (Server.exists_fetchApply_iff r.server a).mpr
        (Or.inr (h a List.mem_cons_self))
      obtain ⟨r', hrest⟩ := ih (fun b hb ↦ h b (List.mem_cons_of_mem a hb))
        { server := result.1, answers := r.answers ++ [result.2] }
      refine ⟨r', Lib.run_cons.mpr ⟨_, ?_, hrest⟩⟩
      rw [Replica.step, happly, Option.map_some]

/-- The configurations after a log are those that the first occurrences of its updates make, one
after the other; they are numbered by their positions; and the list is only ever extended, so that a
configuration which exists after a part of the log is the answer to its number there and at the end,
while `-1` and numbers not yet used are answered with the last configuration. -/
theorem requests_executed_once (log : List Applied) (hseq : Lib.Sequential Applied.ident log)
    (hrange : ∀ a ∈ log, a.request.op.InRange) :
    ∃ r, Lib.run Replica.step {} log = some r ∧
      Lib.run execute start (firstUpdates log) = some r.server.sc ∧
      (∀ (i : Nat) config, r.server.sc.configs[i]? = some config → config.num = i) ∧
      ∀ pre post, log = pre ++ post →
        ∃ mid, Lib.run Replica.step {} pre = some mid ∧
          mid.server.sc.configs <+: r.server.sc.configs ∧
          ∀ a a' (num : Int), a.request.op = .query num → a'.request.op = .query num →
            (0 ≤ num → num < mid.server.sc.configs.length →
              ∃ config, mid.server.sc.configs[num.toNat]? = some config ∧
                mid.server.reply a = some config ∧ r.server.reply a' = some config) ∧
            (num = -1 ∨ mid.server.sc.configs.length ≤ num →
              mid.server.reply a = some mid.server.sc.getLastConfig) := by
  obtain ⟨r, hrun⟩ := exists_run_of_inRange hrange {}
  refine ⟨r, hrun, run_firstUpdates hseq hrun, ?_, ?_⟩
  · exact Lib.run_invariant (I := fun r ↦ Numbered r.server.sc) Replica.step_numbered Numbered.start
      (Lib.along_true _ log) hrun
  · intro pre post hlog
    rw [hlog] at hrun
    obtain ⟨mid, hpre, hpost⟩ := Lib.run_append.mp hrun
    have hext := run_isPrefix hpost
    refine ⟨mid, hpre, hext, fun a a' num hop hop' ↦ ⟨fun h0 hlt ↦ ?_, fun hlast ↦ ?_⟩⟩
    · have hconfig := List.getElem?_eq_getElem (l := mid.server.sc.configs) (i := num.toNat) (by omega)
      refine ⟨_, hconfig, ?_, ?_⟩
      · rw [Server.reply_query hop, dealQuery_of_lt h0 hconfig]
      · rw [Server.reply_query hop', dealQuery_of_lt h0 (Lib.getElem?_of_isPrefix hext hconfig)]
    · rw [Server.reply_query hop, dealQuery_eq, if_pos hlast]

/-- Two clients; the `Join` of the first stands in the log three times, once after its `Query`, which
comes twice as well. -/
def repeatedLog : List Applied :=
  [call 1 1 (joinOne 1), call 2 1 (joinOne 2), call 1 1 (joinOne 1), call 1 2 (.query (-1)),
    call 2 2 (.move 0 1), call 1 1 (joinOne 1), call 1 2 (.query (-1))]

theorem requests_executed_once_repeatedLog :
    ∃ r, Lib.run Replica.step {} repeatedLog = some r ∧
      Lib.run execute start ([joinOne 1, joinOne 2, .move 0 1].map ascending) = some r.server.sc := by
  obtain ⟨r, hrun, hfirst, _⟩ := requests_executed_once repeatedLog
    ⟨by decide +kernel, by decide +kernel⟩ (by decide +kernel)
  exact ⟨r, hrun, hfirst⟩

end Lab6824.ShardCtrler
