import Lab6824.ShardCtrler.Owners

/-!
# Server — the shard controller's apply loop

One iteration of `fetchApply` for a command: the test against `lastRequestContext`, the execution of
the operation, and the update of `lastRequestContext`.  The orders in which the loops visit the maps
are chosen afresh for every iteration.  An operation has no result exactly if it is executed and asks
for a shard or a configuration that does not exist.
-/

namespace Lab6824.ShardCtrler

open Lib (RangeOrder)

/-- The two values of `Err`: `""` and `OK`. -/
inductive Err where
  | empty
  | ok
  deriving DecidableEq, Repr

structure Answer where
  wrongLeader : Bool := false
  err : Err := .empty
  config : Config := {}

structure RequestContext where
  requestId : Int
  answer : Answer

/-- An `Op` of the log: what it asks for, and the call that it belongs to. -/
structure Request where
  op : Op
  requestId : Int
  uId : Int

/-- A request as one server applies it, with the orders of the loops that execute it there. -/
structure Applied where
  request : Request
  ords : Orders

def Op.isQuery : Op → Bool
  | .query _ => true
  | _ => false

def Request.ident (request : Request) : Int × Int :=
  (request.uId, request.requestId)

/-- `map[int64]RequestContext` -/
abbrev RequestContexts := Finmap fun _ : Int ↦ RequestContext

/-- What `fetchApply` reads and writes. -/
structure Server where
  sc : ShardCtrler := start
  lastRequestContext : RequestContexts := ∅

namespace Server

/-- The condition of the first `if`: the request is not a `Query`, and the client has had one with
this id or a later one. -/
def answered (s : Server) (request : Request) : Bool :=
  match s.lastRequestContext.lookup request.uId with
  | none => false
  | some contexts => !request.op.isQuery && decide (contexts.requestId ≥ request.requestId)

/-- The `else` of the first `if`. -/
def deal (s : Server) (ords : Orders) : Op → Option (ShardCtrler × Answer)
  | .join servers => (s.sc.dealJoin ords servers).map fun sc ↦ (sc, { err := .ok })
  | .leave gids => (s.sc.dealLeave ords gids).map fun sc ↦ (sc, { err := .ok })
  | .move shard gid => (s.sc.dealMove ords shard gid).map fun sc ↦ (sc, { err := .ok })
  | .query num => (s.sc.dealQuery ords num).map fun config ↦
      (s.sc, { err := .ok, config := config })

/-- `sc.lastRequestContext[uid].requestId`, which is `0` where the key is absent. -/
def lastRequest (s : Server) (uid : Int) : Int :=
  match s.lastRequestContext.lookup uid with
  | none => 0
  | some contexts => contexts.requestId

/-- The update of `lastRequestContext`. -/
def noteRequest (s : Server) (request : Request) (answer : Answer) : Server :=
  if s.lastRequest request.uId < request.requestId then
    let context : RequestContext := { requestId := request.requestId, answer := answer }
    { s with lastRequestContext := s.lastRequestContext.insert request.uId context }
  else s

/-- The locked section of `fetchApply` for a command. -/
def fetchApply (s : Server) (a : Applied) : Option (Server × Answer) :=
  if s.answered a.request then
    let answer : Answer := { err := .ok }
    some (s.noteRequest a.request answer, answer)
  else
    (s.deal a.ords a.request.op).map fun (sc, answer) ↦
      (noteRequest { s with sc := sc } a.request answer, answer)

end Server

/-- A server and the answers that it has computed, in the order of the log. -/
structure Replica where
  server : Server := {}
  answers : List Answer := []

def Replica.step (r : Replica) (a : Applied) : Option Replica :=
  (r.server.fetchApply a).map fun (server, answer) ↦
    { server := server, answers := r.answers ++ [answer] }

theorem dealQuery_eq (sc : ShardCtrler) (ords : Orders) (num : Int) :
    sc.dealQuery ords num =
      if num = -1 ∨ num ≥ sc.configs.length then some sc.getLastConfig
      else if num < 0 then none else sc.configs[num.toNat]? := by
  have hcopy : copy (ords 0) = id := funext fun source ↦ copy_eq _ source
  unfold dealQuery copyLastConfig copyConfig
  rw [hcopy, Option.map_id]
  rfl

theorem Server.noteRequest_sc (s : Server) (request : Request) (answer : Answer) :
    (s.noteRequest request answer).sc = s.sc := by
  unfold noteRequest
  split <;> rfl

/-- An iteration of `fetchApply` answers a request that has been executed, or executes it. -/
theorem Server.fetchApply_cases {s s' : Server} {a : Applied} {answer : Answer}
    (h : s.fetchApply a = some (s', answer)) :
    (s.answered a.request = true ∧ s'.sc = s.sc ∧ answer = { err := .ok }) ∨
      (s.answered a.request = false ∧ s.deal a.ords a.request.op = some (s'.sc, answer)) := by
  unfold fetchApply at h
  cases hans : s.answered a.request with
  | true =>
      rw [if_pos hans, Option.some.injEq, Prod.mk.injEq] at h
      obtain ⟨rfl, rfl⟩ := h
      exact Or.inl ⟨rfl, noteRequest_sc _ _ _, rfl⟩
  | false =>
      rw [if_neg (by rw [hans]; exact Bool.false_ne_true), Option.map_eq_some_iff] at h
      obtain ⟨⟨sc, answer'⟩, hdeal, heq⟩ := h
      rw [Prod.mk.injEq] at heq
      obtain ⟨rfl, rfl⟩ := heq
      rw [noteRequest_sc]
      exact Or.inr ⟨rfl, hdeal⟩

/-! ## Which operations have a result -/

/-- `Move` names a shard that exists, and `Query` no number below `-1`. -/
def Op.InRange : Op → Prop
  | .join _ => True
  | .leave _ => True
  | .move shard _ => 0 ≤ shard ∧ shard < NShards
  | .query num => -1 ≤ num

instance (op : Op) : Decidable op.InRange := by
  unfold Op.InRange
  induction op using Op.casesOn <;> infer_instance

theorem exists_dealMove_iff (sc : ShardCtrler) (ords : Orders) (shard gid : Int) :
    (∃ sc', sc.dealMove ords shard gid = some sc') ↔ 0 ≤ shard ∧ shard < NShards := by
  constructor
  · rintro ⟨sc', hdeal⟩
    unfold dealMove at hdeal
    dsimp only at hdeal
    split at hdeal
    · rename_i hrange
      omega
    · cases hdeal
  · rintro ⟨h0, hlt⟩
    obtain ⟨config, _, hdeal, _⟩ := dealMove_spec sc ords gid h0 hlt
    exact ⟨_, hdeal⟩

theorem exists_dealQuery_iff (sc : ShardCtrler) (ords : Orders) (num : Int) :
    (∃ config, sc.dealQuery ords num = some config) ↔ -1 ≤ num := by
  constructor
  · rintro ⟨config, hdeal⟩
    by_contra hlow
    unfold dealQuery copyConfig at hdeal
    rw [if_neg (by omega), if_pos (by omega)] at hdeal
    cases hdeal
  · exact exists_dealQuery sc ords

namespace Server

theorem deal_fst (s : Server) (ords : Orders) (op : Op) :
    (s.deal ords op).map Prod.fst = s.sc.execute ⟨op, ords⟩ := by
  cases op with
  | join servers => simp [deal, execute, Option.map_map, Function.comp_def]
  | leave gids => simp [deal, execute, Option.map_map, Function.comp_def]
  | move shard gid => simp [deal, execute, Option.map_map, Function.comp_def]
  | query num => simp [deal, execute, Option.map_map, Function.comp_def]

theorem exists_deal_iff (s : Server) (ords : Orders) (op : Op) :
    (∃ result, s.deal ords op = some result) ↔ op.InRange := by
  cases op with
  | join servers =>
      obtain ⟨config, hdeal, _⟩ := dealJoin_spec s.sc ords servers
      exact iff_of_true ⟨_, congrArg (Option.map _) hdeal⟩ trivial
  | leave gids =>
      obtain ⟨config, hdeal, _⟩ := dealLeave_spec s.sc ords gids
      exact iff_of_true ⟨_, congrArg (Option.map _) hdeal⟩ trivial
  | move shard gid =>
      change _ ↔ 0 ≤ shard ∧ shard < NShards
      rw [← exists_dealMove_iff s.sc ords shard gid]
      simp only [deal, ← Option.isSome_iff_exists, Option.isSome_map]
  | query num =>
      change _ ↔ -1 ≤ num
      rw [← exists_dealQuery_iff s.sc ords num]
      simp only [deal, ← Option.isSome_iff_exists, Option.isSome_map]

theorem exists_fetchApply_iff (s : Server) (a : Applied) :
    (∃ result, s.fetchApply a = some result) ↔
      s.answered a.request = true ∨ a.request.op.InRange := by
  unfold fetchApply
  by_cases hans : s.answered a.request = true
  · rw [if_pos hans]
    exact iff_of_true ⟨_, rfl⟩ (Or.inl hans)
  · rw [if_neg hans, or_iff_right hans, ← exists_deal_iff s a.ords]
    simp only [← Option.isSome_iff_exists, Option.isSome_map]

end Server

/-- The request is answered without being executed, or what it names exists. -/
def Replica.Served (r : Replica) (a : Applied) : Prop :=
  r.server.answered a.request = true ∨ a.request.op.InRange

/-- The apply loop gets through a log exactly if every request that it executes is in range. -/
theorem apply_returns_iff (log : List Applied) :
    (∃ r, Lib.run Replica.step {} log = some r) ↔
      Lib.Along Replica.step Replica.Served {} log := by
  apply Lib.exists_run_iff_along
  intro r a
  unfold Replica.step Replica.Served
  rw [← Server.exists_fetchApply_iff]
  simp only [← Option.isSome_iff_exists, Option.isSome_map]

/-- A call whose loops visit the gids in increasing order. -/
def call (uId requestId : Int) (op : Op) : Applied :=
  ⟨⟨op, requestId, uId⟩, fun _ ↦ RangeOrder.increasing⟩

/-- The log of a client that moves the shard after the last one, and that of one that asks for
configuration `-2`. -/
theorem requests_crash :
    Lib.run Replica.step {} [call 1 1 (Op.move 10 1)] = none ∧
      Lib.run Replica.step {} [call 1 1 (Op.query (-2))] = none :=
  ⟨rfl, rfl⟩

end Lab6824.ShardCtrler
