import Mathlib.Logic.Function.Basic
import Lab6824.Lib.Lists
import Lab6824.Lib.Waiters

/-!
# Service — a server that answers requests through a replicated log

A server hands the operation of a request to the log and waits at a channel for the answer; a single
goroutine, the applier, takes the operations of the log one after the other, applies them to the
state and sends the answers.  `Node` is one server with all its goroutines, and an action is one
section of one of them: what it does while it holds the lock, a call into the log, or one channel
operation.

Of the log itself only this is assumed: every server is given its operations in order and without
gaps.  A handler may be told any index for its operation, and any server may take itself for the
leader at any time.
-/

namespace Lab6824.Lib

/-- What makes one service differ from another.  An envelope `E` is a request, `T` tells apart the
operations of different calls, and `D` is what a server saves of its state. -/
structure Service (S E O A T K D : Type) where
  start : S
  request : E → O
  /-- The answer that the handler gives without asking the log. -/
  early : S → E → Option A
  exec : S → O → S × A
  /-- The answer of a server that is not the leader, or has waited too long. -/
  refused : A
  ident : O → T
  key : T → Int → K
  key_injective : Function.Injective2 key
  blank : D
  save : S → D
  load : S → D → S
  load_save : ∀ s s', load s (save s') = s'
  load_blank : load start blank = start

structure Node (S E O A K D : Type) extends Waiters E O A K where
  state : S
  /-- The number of operations that the applier has taken from the log. -/
  applied : Nat := 0
  /-- What a restart finds: the saved state and the number of operations that it covers. -/
  saved : D × Nat

/-- The node after an action, the operations handed to the log and the answers to requests. -/
structure Outcome (S E O A K D : Type) where
  node : Node S E O A K D
  started : List O := []
  replies : List (E × A) := []

inductive NodeAction (E : Type) where
  | handle (env : E)
  | start (k : Nat) (index : Int) (isLeader : Bool)
  | getWaitChan (k : Nat)
  | receive (k : Nat)
  | timeout (k : Nat)
  | deleteWaitChan (k : Nat)
  | apply
  | getState (isLeader : Bool)
  | applierChan
  | send
  /-- The end of the applier's loop; `full` says that the log is to be cut. -/
  | snapshot (full : Bool)
  | restart

variable {S E O A T K D : Type}

/-- A handler waits for the operation of its request. -/
def Service.calls (svc : Service S E O A T K D) : Calls E O T K where
  caller env := svc.ident (svc.request env)
  ident := svc.ident
  key := svc.key
  key_injective := svc.key_injective

namespace Node

/-- The goroutines have moved; nobody is answered. -/
def moved (nd : Node S E O A K D) (w : Waiters E O A K) : Outcome S E O A K D where
  node := { nd with toWaiters := w }

@[simp]
theorem moved_started (nd : Node S E O A K D) (w : Waiters E O A K) : (nd.moved w).started = [] :=
  rfl

@[simp]
theorem moved_replies (nd : Node S E O A K D) (w : Waiters E O A K) : (nd.moved w).replies = [] :=
  rfl

variable [DecidableEq K] (svc : Service S E O A T K D) (nd : Node S E O A K D)

/-! ## Handlers -/

def handle (env : E) : Outcome S E O A K D :=
  match svc.early nd.state env with
  | some answer => { node := nd, replies := [(env, answer)] }
  | none => nd.moved (nd.enter env)

def start (k : Nat) (index : Int) (isLeader : Bool) : Option (Outcome S E O A K D) :=
  (nd.toWaiters.start k index isLeader).map fun (w, env) ↦
    if isLeader then { nd.moved w with started := [svc.request env] }
    else { nd.moved w with replies := [(env, svc.refused)] }

def handlerChan (k : Nat) : Option (Outcome S E O A K D) :=
  (nd.toWaiters.handlerChan svc.calls k).map nd.moved

def receive (k : Nat) : Option (Outcome S E O A K D) :=
  (nd.toWaiters.receive svc.calls k).map fun (w, env, answer) ↦
    { nd.moved w with replies := [(env, answer)] }

def timeout (k : Nat) : Option (Outcome S E O A K D) :=
  (nd.toWaiters.timeout svc.calls k).map fun (w, env) ↦
    { nd.moved w with replies := [(env, svc.refused)] }

def deleteWaitChan (k : Nat) : Option (Outcome S E O A K D) :=
  (nd.toWaiters.deleteWaitChan k).map nd.moved

/-! ## The applier -/

/-- The applier has received an operation with its index. -/
def take (op : O) (index : Int) : Option (Outcome S E O A K D) :=
  match nd.applier with
  | .idle =>
    let result := svc.exec nd.state op
    some { node :=
      { nd with
        state := result.1
        applied := nd.applied + 1
        applier := .applied op index result.2 } }
  | _ => none

/-- The applier takes the next operation of the log. -/
def apply (log : List O) : Option (Outcome S E O A K D) :=
  log[nd.applied]?.bind fun op ↦ nd.take svc op (nd.applied + 1 : Nat)

def getState (isLeader : Bool) : Option (Outcome S E O A K D) :=
  (nd.toWaiters.getState isLeader).map nd.moved

def applierChan : Option (Outcome S E O A K D) :=
  (nd.toWaiters.applierChan svc.calls).map nd.moved

def send : Option (Outcome S E O A K D) :=
  nd.toWaiters.send.map nd.moved

def snapshot (full : Bool) : Option (Outcome S E O A K D) :=
  nd.toWaiters.next.map fun w ↦
    { node :=
        { nd with
          toWaiters := w
          saved :=
            if full ∧ nd.saved.2 < nd.applied then (svc.save nd.state, nd.applied) else nd.saved } }

/-- A new incarnation has only what was saved. -/
def restart : Node S E O A K D where
  state := svc.load svc.start nd.saved.1
  applied := nd.saved.2
  saved := nd.saved

def step (log : List O) : NodeAction E → Option (Outcome S E O A K D)
  | .handle env => some (nd.handle svc env)
  | .start k index isLeader => nd.start svc k index isLeader
  | .getWaitChan k => nd.handlerChan svc k
  | .receive k => nd.receive svc k
  | .timeout k => nd.timeout svc k
  | .deleteWaitChan k => nd.deleteWaitChan k
  | .apply => nd.apply svc log
  | .getState isLeader => nd.getState isLeader
  | .applierChan => nd.applierChan svc
  | .send => nd.send
  | .snapshot full => nd.snapshot svc full
  | .restart => some { node := nd.restart svc }

end Node

/-! ## What the log says -/

namespace Service

variable (svc : Service S E O A T K D)

/-- The state after the first `n` operations of the log. -/
def after : List O → Nat → S :=
  Lib.after (fun s op ↦ (svc.exec s op).1) svc.start

/-- `answer` is what the log gives to the operation of the call `t` at `index`. -/
def Answered (log : List O) (t : T) (index : Int) (answer : A) : Prop :=
  ∃ p op, log[p]? = some op ∧ svc.ident op = t ∧ index = (p + 1 : Nat) ∧
    answer = (svc.exec (svc.after log p) op).2

/-- The three ways in which a server may come to answer a request. -/
inductive Justified (log : List O) (env : E) (answer : A) : Prop where
  | refused (h : answer = svc.refused)
  | answered (index : Int) (h : svc.Answered log (svc.ident (svc.request env)) index answer)
  | early (n : Nat) (hn : n ≤ log.length) (h : svc.early (svc.after log n) env = some answer)

variable {svc} {log log' : List O}

theorem Answered.mono {t : T} {index : Int} {answer : A} (h : svc.Answered log t index answer)
    (hlog : log <+: log') : svc.Answered log' t index answer := by
  obtain ⟨p, op, hp, hident, hindex, hanswer⟩ := h
  have hlt := (List.getElem?_eq_some_iff.mp hp).1
  refine ⟨p, op, getElem?_of_isPrefix hlog hp, hident, hindex, ?_⟩
  rw [after, Lib.after_of_isPrefix hlog hlt.le]
  exact hanswer

theorem Justified.mono {env : E} {answer : A} (h : svc.Justified log env answer)
    (hlog : log <+: log') : svc.Justified log' env answer := by
  cases h with
  | refused h => exact .refused h
  | answered index h => exact .answered index (h.mono hlog)
  | early n hn h =>
      refine .early n (hn.trans hlog.length_le) ?_
      rw [after, Lib.after_of_isPrefix hlog hn]
      exact h

end Service

/-! ## The invariant of a server -/

namespace Node

/-- Everything that is answered or about to be is what the log says. -/
structure Inv [DecidableEq K] (svc : Service S E O A T K D) (log : List O)
    (nd : Node S E O A K D) : Prop where
  applied_le : nd.applied ≤ log.length
  state_eq : nd.state = svc.after log nd.applied
  saved_le : nd.saved.2 ≤ log.length
  saved_eq : svc.load svc.start nd.saved.1 = svc.after log nd.saved.2
  waiters : nd.toWaiters.Inv svc.calls (svc.Answered log) (svc.Answered log)

variable [DecidableEq K] {svc : Service S E O A T K D} {log log' : List O}
  {nd : Node S E O A K D} {out : Outcome S E O A K D}

namespace Inv

/-- The log grows. -/
theorem mono (h : Inv svc log nd) (hlog : log <+: log') : Inv svc log' nd where
  applied_le := h.applied_le.trans hlog.length_le
  state_eq := h.state_eq.trans (after_of_isPrefix hlog h.applied_le).symm
  saved_le := h.saved_le.trans hlog.length_le
  saved_eq := h.saved_eq.trans (after_of_isPrefix hlog h.saved_le).symm
  waiters := h.waiters.mono (fun _ _ _ ha ↦ ha.mono hlog) fun _ _ _ ha ↦ ha.mono hlog

/-- The state and what is saved stay; the goroutines move on. -/
theorem moved (h : Inv svc log nd) {w : Waiters E O A K}
    (hw : w.Inv svc.calls (svc.Answered log) (svc.Answered log)) : Inv svc log (nd.moved w).node :=
  { h with waiters := hw }

theorem fresh (hle : nd.saved.2 ≤ log.length)
    (heq : svc.load svc.start nd.saved.1 = svc.after log nd.saved.2) :
    Inv svc log (nd.restart svc) where
  applied_le := hle
  state_eq := heq
  saved_le := hle
  saved_eq := heq
  waiters := .empty

theorem initial (svc : Service S E O A T K D) (log : List O) :
    Inv svc log { state := svc.start, saved := (svc.blank, 0) } where
  applied_le := Nat.zero_le _
  state_eq := rfl
  saved_le := Nat.zero_le _
  saved_eq := svc.load_blank
  waiters := .empty

/-! ### One action at a time -/

theorem handle (h : Inv svc log nd) (env : E) :
    Inv svc log (nd.handle svc env).node ∧
      ∀ r ∈ (nd.handle svc env).replies, svc.Justified log r.1 r.2 := by
  unfold Node.handle
  cases hearly : svc.early nd.state env with
  | some answer =>
      refine ⟨h, fun r hr ↦ ?_⟩
      rw [List.mem_singleton.mp hr]
      rw [h.state_eq] at hearly
      exact .early nd.applied h.applied_le hearly
  | none => exact ⟨h.moved (h.waiters.enter env), fun r hr ↦ absurd hr List.not_mem_nil⟩

theorem start (h : Inv svc log nd) {k : Nat} {index : Int} {isLeader : Bool}
    (hstep : nd.start svc k index isLeader = some out) :
    Inv svc log out.node ∧ ∀ r ∈ out.replies, svc.Justified log r.1 r.2 := by
  obtain ⟨⟨w, env⟩, hw, rfl⟩ := Option.map_eq_some_iff.mp hstep
  have hinv := h.moved (h.waiters.start hw)
  cases isLeader with
  | true => exact ⟨hinv, fun r hr ↦ absurd hr List.not_mem_nil⟩
  | false =>
      refine ⟨hinv, fun r hr ↦ ?_⟩
      rw [List.mem_singleton.mp hr]
      exact .refused rfl

theorem receive (h : Inv svc log nd) {k : Nat} (hstep : nd.receive svc k = some out) :
    Inv svc log out.node ∧ ∀ r ∈ out.replies, svc.Justified log r.1 r.2 := by
  obtain ⟨⟨w, env, answer⟩, hw, rfl⟩ := Option.map_eq_some_iff.mp hstep
  obtain ⟨hinv, index, hanswer⟩ := h.waiters.receive hw
  refine ⟨h.moved hinv, fun r hr ↦ ?_⟩
  rw [List.mem_singleton.mp hr]
  exact .answered index hanswer

theorem timeout (h : Inv svc log nd) {k : Nat} (hstep : nd.timeout svc k = some out) :
    Inv svc log out.node ∧ ∀ r ∈ out.replies, svc.Justified log r.1 r.2 := by
  obtain ⟨⟨w, env⟩, hw, rfl⟩ := Option.map_eq_some_iff.mp hstep
  refine ⟨h.moved (h.waiters.timeout hw), fun r hr ↦ ?_⟩
  rw [List.mem_singleton.mp hr]
  exact .refused rfl

/-- A section of a goroutine that answers nobody. -/
theorem silent (h : Inv svc log nd) {w? : Option (Waiters E O A K)}
    (hw : ∀ w, w? = some w → w.Inv svc.calls (svc.Answered log) (svc.Answered log))
    (hstep : w?.map nd.moved = some out) : Inv svc log out.node ∧ out.replies = [] := by
  obtain ⟨w, hsome, rfl⟩ := Option.map_eq_some_iff.mp hstep
  exact ⟨h.moved (hw w hsome), rfl⟩

theorem apply (h : Inv svc log nd) (hstep : nd.apply svc log = some out) :
    Inv svc log out.node ∧ out.replies = [] := by
  obtain ⟨op, hop, htake⟩ := Option.bind_eq_some_iff.mp hstep
  unfold Node.take at htake
  split at htake
  · rw [← Option.some.inj htake]
    have hstate : svc.after log (nd.applied + 1) = (svc.exec (svc.after log nd.applied) op).1 :=
      after_succ hop
    refine ⟨{ h with applied_le := ?_, state_eq := ?_, waiters := h.waiters.update_applier ?_ }, rfl⟩
    · exact (List.getElem?_eq_some_iff.mp hop).1
    · rw [hstate, ← h.state_eq]
    · refine ⟨nd.applied, op, hop, rfl, rfl, ?_⟩
      rw [← h.state_eq]
  · cases htake

theorem snapshot (h : Inv svc log nd) {full : Bool} (hstep : nd.snapshot svc full = some out) :
    Inv svc log out.node ∧ out.replies = [] := by
  obtain ⟨w, hw, rfl⟩ := Option.map_eq_some_iff.mp hstep
  have hinv := h.waiters.next hw
  split_ifs with hfull
  · refine ⟨{ h with saved_le := h.applied_le, saved_eq := ?_, waiters := hinv }, rfl⟩
    rw [svc.load_save]
    exact h.state_eq
  · exact ⟨{ h with waiters := hinv }, rfl⟩

/-- Every action keeps the invariant, and every answer that it gives is justified. -/
theorem step (h : Inv svc log nd) {action : NodeAction E}
    (hstep : nd.step svc log action = some out) :
    Inv svc log out.node ∧ ∀ r ∈ out.replies, svc.Justified log r.1 r.2 := by
  have hnobody : Inv svc log out.node ∧ out.replies = [] →
      Inv svc log out.node ∧ ∀ r ∈ out.replies, svc.Justified log r.1 r.2 := by
    rintro ⟨hinv, hnone⟩
    rw [hnone]
    exact ⟨hinv, fun r hr ↦ absurd hr List.not_mem_nil⟩
  cases action with
  | handle env => exact Option.some.inj hstep ▸ h.handle env
  | start k index isLeader => exact h.start hstep
  | getWaitChan k => exact hnobody (h.silent (fun _ ↦ h.waiters.handlerChan) hstep)
  | receive k => exact h.receive hstep
  | timeout k => exact h.timeout hstep
  | deleteWaitChan k => exact hnobody (h.silent (fun _ ↦ h.waiters.deleteWaitChan) hstep)
  | apply => exact hnobody (h.apply hstep)
  | getState isLeader => exact hnobody (h.silent (fun _ ↦ h.waiters.getState) hstep)
  | applierChan => exact hnobody (h.silent (fun _ ↦ h.waiters.applierChan) hstep)
  | send => exact hnobody (h.silent (fun _ ↦ h.waiters.send fun _ _ _ ↦ id) hstep)
  | snapshot full => exact hnobody (h.snapshot hstep)
  | restart =>
      refine hnobody ?_
      rw [← Option.some.inj hstep]
      exact ⟨fresh h.saved_le h.saved_eq, rfl⟩

end Inv

/-- The requests that a server works on, hands to the log and answers all satisfy `P`. -/
structure Sourced (svc : Service S E O A T K D) (P : E → Prop) (out : Outcome S E O A K D) :
    Prop where
  handlers : ∀ hd ∈ out.node.handlers, P hd.env
  started : ∀ op ∈ out.started, ∃ env, P env ∧ op = svc.request env := by simp
  replies : ∀ r ∈ out.replies, P r.1 := by simp

/-- A server deals with nothing but the requests it was given. -/
theorem step_sourced {P : E → Prop} {action : NodeAction E}
    (hhandlers : ∀ hd ∈ nd.handlers, P hd.env) (hhandle : ∀ env, action = .handle env → P env)
    (hstep : nd.step svc log action = some out) : Sourced svc P out := by
  -- a handler keeps its request
  have hmoves : ∀ w, nd.toWaiters.HandlerMoves w → ∀ hd ∈ w.handlers, P hd.env := by
    intro w hw hd hhd
    obtain ⟨hd₀, hmem, henv⟩ := hw.handlers hd hhd
    exact henv ▸ hhandlers hd₀ hmem
  have hheld : ∀ env, (∃ hd ∈ nd.handlers, hd.env = env) → P env := by
    rintro _ ⟨hd, hmem, rfl⟩
    exact hhandlers hd hmem
  -- the applier leaves the handlers alone
  have hkeeps : ∀ w, nd.toWaiters.ApplierMoves w → ∀ hd ∈ w.handlers, P hd.env :=
    fun w hw ↦ hw.handlers.symm ▸ hhandlers
  cases action with
  | handle env =>
      have henv := hhandle env rfl
      rw [← Option.some.inj hstep]
      unfold Node.handle
      cases svc.early nd.state env with
      | some answer => exact { handlers := hhandlers, replies := by simpa using henv }
      | none =>
          refine { handlers := fun hd hhd ↦ ?_ }
          rcases List.mem_append.mp hhd with hold | hnew
          · exact hhandlers hd hold
          · rw [List.mem_singleton.mp hnew]
            exact henv
  | start k index isLeader =>
      obtain ⟨⟨w, env⟩, hw, rfl⟩ := Option.map_eq_some_iff.mp hstep
      obtain ⟨hmove, hmem⟩ := Waiters.start_moves hw
      have henv := hheld env hmem
      cases isLeader with
      | true => exact { handlers := hmoves w hmove, started := by simpa using ⟨env, henv, rfl⟩ }
      | false => exact { handlers := hmoves w hmove, replies := by simpa using henv }
  | getWaitChan k =>
      obtain ⟨w, hw, rfl⟩ := Option.map_eq_some_iff.mp hstep
      exact { handlers := hmoves w (Waiters.handlerChan_moves hw) }
  | receive k =>
      obtain ⟨⟨w, env, answer⟩, hw, rfl⟩ := Option.map_eq_some_iff.mp hstep
      obtain ⟨hmove, hmem⟩ := Waiters.receive_moves hw
      have henv := hheld env hmem
      exact { handlers := hmoves w hmove, replies := by simpa using henv }
  | timeout k =>
      obtain ⟨⟨w, env⟩, hw, rfl⟩ := Option.map_eq_some_iff.mp hstep
      obtain ⟨hmove, hmem⟩ := Waiters.timeout_moves hw
      have henv := hheld env hmem
      exact { handlers := hmoves w hmove, replies := by simpa using henv }
  | deleteWaitChan k =>
      obtain ⟨w, hw, rfl⟩ := Option.map_eq_some_iff.mp hstep
      exact { handlers := hmoves w (Waiters.deleteWaitChan_moves hw) }
  | apply =>
      obtain ⟨op, _, htake⟩ := Option.bind_eq_some_iff.mp hstep
      unfold take at htake
      split at htake
      · rw [← Option.some.inj htake]
        exact { handlers := hhandlers }
      · cases htake
  | getState isLeader =>
      obtain ⟨w, hw, rfl⟩ := Option.map_eq_some_iff.mp hstep
      exact { handlers := hkeeps w (Waiters.getState_moves hw) }
  | applierChan =>
      obtain ⟨w, hw, rfl⟩ := Option.map_eq_some_iff.mp hstep
      exact { handlers := hkeeps w (Waiters.applierChan_moves hw) }
  | send =>
      obtain ⟨w, hw, rfl⟩ := Option.map_eq_some_iff.mp hstep
      exact { handlers := hkeeps w (Waiters.send_moves hw).1 }
  | snapshot full =>
      obtain ⟨w, hw, rfl⟩ := Option.map_eq_some_iff.mp hstep
      rw [(Waiters.next_eq hw).2]
      exact { handlers := hhandlers }
  | restart =>
      rw [← Option.some.inj hstep]
      exact { handlers := fun hd hhd ↦ absurd hhd List.not_mem_nil }

end Node

end Lab6824.Lib
