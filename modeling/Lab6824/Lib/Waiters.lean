import Lab6824.Lib.WaitChan

/-!
# Waiters — the goroutines around a table of channels

Any number of handlers, each waiting for the answer to its own request; those that delete channels;
and the applier, which looks for the channel of the operation that it has applied and sends the
answer there.  Each function is one section of one goroutine: what it does while it holds the lock,
a call into the log, or one channel operation.
-/

namespace Lab6824.Lib

/-- Who waits for what.  `T` tells calls apart; a request `E` is made by a call, an operation `O`
belongs to one, and the key of a channel names a call and an index. -/
structure Calls (E O T K : Type) where
  caller : E → T
  ident : O → T
  key : T → Int → K
  key_injective : Function.Injective2 key

/-- Where the goroutine of a handler stands. -/
inductive Stage where
  | checked
  | started (index : Int)
  | waiting (index : Int) (chan : Nat)

structure Handler (E : Type) where
  env : E
  stage : Stage

/-- Where the applier stands. -/
inductive Applier (O A : Type) where
  | idle
  | applied (op : O) (index : Int) (answer : A)
  | leading (op : O) (index : Int) (answer : A)
  | sending (op : O) (index : Int) (answer : A) (chan : Nat)
  | reported

/-- The index that the applier is at work on. -/
def Applier.current {O A : Type} : Applier O A → Option Int
  | .applied _ index _ => some index
  | .leading _ index _ => some index
  | .sending _ index _ _ => some index
  | _ => none

structure Waiters (E O A K : Type) where
  table : WaitTable K A := {}
  handlers : List (Handler E) := []
  /-- The keys of the goroutines that are going to delete a channel. -/
  deleting : List K := []
  applier : Applier O A := .idle

variable {E O A T K : Type}

namespace Waiters

section Sections

variable [DecidableEq K] (x : Calls E O T K) (w : Waiters E O A K)

/-! ## Handlers -/

def enter (env : E) : Waiters E O A K :=
  { w with handlers := w.handlers ++ [⟨env, .checked⟩] }

/-- The log has told the handler its index, or that this is not the leader. -/
def start (k : Nat) (index : Int) (isLeader : Bool) : Option (Waiters E O A K × E) :=
  match w.handlers[k]? with
  | some ⟨env, .checked⟩ =>
    if isLeader then some ({ w with handlers := w.handlers.set k ⟨env, .started index⟩ }, env)
    else some ({ w with handlers := w.handlers.eraseIdx k }, env)
  | _ => none

def handlerChan (k : Nat) : Option (Waiters E O A K) :=
  match w.handlers[k]? with
  | some ⟨env, .started index⟩ =>
    let found := w.table.getWaitChan (x.key (x.caller env) index)
    some { w with table := found.1, handlers := w.handlers.set k ⟨env, .waiting index found.2⟩ }
  | _ => none

/-- The handler returns, and leaves it to another goroutine to delete the channel. -/
def leave (k : Nat) (env : E) (index : Int) : Waiters E O A K :=
  { w with
    handlers := w.handlers.eraseIdx k
    deleting := x.key (x.caller env) index :: w.deleting }

def receive (k : Nat) : Option (Waiters E O A K × E × A) :=
  match w.handlers[k]? with
  | some ⟨env, .waiting index c⟩ =>
    match w.table.receive c with
    -- nothing has been sent yet
    | none => none
    | some (table, answer) => some (leave x { w with table := table } k env index, env, answer)
  | _ => none

/-- What the handler gets if it receives now: its request, its index and the answer. -/
def received (k : Nat) : Option (E × Int × A) :=
  match w.handlers[k]? with
  | some ⟨env, .waiting index c⟩ => (w.table.receive c).map fun result ↦ (env, index, result.2)
  | _ => none

def timeout (k : Nat) : Option (Waiters E O A K × E) :=
  match w.handlers[k]? with
  | some ⟨env, .waiting index _⟩ => some (leave x w k env index, env)
  | _ => none

def deleteWaitChan (k : Nat) : Option (Waiters E O A K) :=
  match w.deleting[k]? with
  | none => none
  | some key =>
    some { w with table := w.table.deleteWaitChan key, deleting := w.deleting.eraseIdx k }

/-! ## The applier -/

def getState (isLeader : Bool) : Option (Waiters E O A K) :=
  match w.applier with
  | .applied op index answer =>
    -- nobody waits at a server that is not the leader
    some { w with applier := if isLeader then .leading op index answer else .reported }
  | _ => none

def applierChan : Option (Waiters E O A K) :=
  match w.applier with
  | .leading op index answer =>
    let found := w.table.getWaitChan (x.key (x.ident op) index)
    some { w with table := found.1, applier := .sending op index answer found.2 }
  | _ => none

def send : Option (Waiters E O A K) :=
  match w.applier with
  | .sending _ _ answer c =>
    match w.table.send c answer with
    -- the slot is taken, and the applier blocks
    | none => none
    | some table => some { w with table := table, applier := .reported }
  | _ => none

/-- The end of the applier's loop. -/
def next : Option (Waiters E O A K) :=
  match w.applier with
  | .reported => some { w with applier := .idle }
  | _ => none

end Sections

/-! ## Who moves -/

/-- A handler has moved: the applier stands where it stood, and no handler has a new request. -/
structure HandlerMoves (w w' : Waiters E O A K) : Prop where
  applier : w'.applier = w.applier
  handlers : ∀ hd ∈ w'.handlers, ∃ hd₀ ∈ w.handlers, hd₀.env = hd.env

/-- The applier has moved within its loop: the handlers stand where they stood, and it is at work on
the same index or done with it. -/
structure ApplierMoves (w w' : Waiters E O A K) : Prop where
  handlers : w'.handlers = w.handlers
  busy : w.applier ≠ .idle
  busy' : w'.applier ≠ .idle
  current : w'.applier.current = w.applier.current ∨ w'.applier.current = none

section Moves

variable {w w' : Waiters E O A K} {k : Nat} {env : E} {answer : A}

theorem HandlerMoves.idle_iff (h : HandlerMoves w w') : w'.applier = .idle ↔ w.applier = .idle := by
  rw [h.applier]

theorem ApplierMoves.idle_iff (h : ApplierMoves w w') : w'.applier = .idle ↔ w.applier = .idle :=
  iff_of_false h.busy' h.busy

theorem HandlerMoves.of_mem (happlier : w'.applier = w.applier)
    (h : ∀ hd ∈ w'.handlers, hd ∈ w.handlers) : HandlerMoves w w' :=
  ⟨happlier, fun hd hhd ↦ ⟨hd, h hd hhd, rfl⟩⟩

/-- One handler goes on to another stage. -/
theorem HandlerMoves.of_set {stage stage' : Stage} (happlier : w'.applier = w.applier)
    (hk : w.handlers[k]? = some ⟨env, stage⟩)
    (h : w'.handlers = w.handlers.set k ⟨env, stage'⟩) : HandlerMoves w w' := by
  refine ⟨happlier, fun hd hhd ↦ ?_⟩
  rw [h] at hhd
  rcases List.mem_or_eq_of_mem_set hhd with hold | rfl
  · exact ⟨hd, hold, rfl⟩
  · exact ⟨_, List.mem_of_getElem? hk, rfl⟩

theorem start_moves {index : Int} {isLeader : Bool}
    (h : w.start k index isLeader = some (w', env)) :
    HandlerMoves w w' ∧ ∃ hd ∈ w.handlers, hd.env = env := by
  unfold start at h
  split at h
  · rename_i env' hk
    have hmem := List.mem_of_getElem? hk
    split at h
    · cases h
      exact ⟨.of_set rfl hk rfl, _, hmem, rfl⟩
    · cases h
      exact ⟨.of_mem rfl fun _ ↦ List.mem_of_mem_eraseIdx, _, hmem, rfl⟩
  · cases h

variable {x : Calls E O T K}

theorem receive_moves (h : w.receive x k = some (w', env, answer)) :
    HandlerMoves w w' ∧ ∃ hd ∈ w.handlers, hd.env = env := by
  unfold receive at h
  split at h
  · rename_i env' index c hk
    split at h
    · cases h
    · cases h
      exact ⟨.of_mem rfl fun _ ↦ List.mem_of_mem_eraseIdx, _, List.mem_of_getElem? hk, rfl⟩
  · cases h

theorem timeout_moves (h : w.timeout x k = some (w', env)) :
    HandlerMoves w w' ∧ ∃ hd ∈ w.handlers, hd.env = env := by
  unfold timeout at h
  split at h
  · rename_i env' index c hk
    cases h
    exact ⟨.of_mem rfl fun _ ↦ List.mem_of_mem_eraseIdx, _, List.mem_of_getElem? hk, rfl⟩
  · cases h

theorem getState_moves {isLeader : Bool} (h : w.getState isLeader = some w') :
    ApplierMoves w w' := by
  unfold getState at h
  split at h
  · rename_i op index answer happlier
    cases h
    cases isLeader with
    | true => exact ⟨rfl, by simp [happlier], by simp, Or.inl (by rw [happlier]; rfl)⟩
    | false => exact ⟨rfl, by simp [happlier], by simp, Or.inr rfl⟩
  · cases h

theorem send_moves (h : w.send = some w') : ApplierMoves w w' ∧ w'.applier = .reported := by
  unfold send at h
  split at h
  · rename_i op index answer c happlier
    split at h
    · cases h
    · cases h
      exact ⟨⟨rfl, by simp [happlier], by simp, Or.inr rfl⟩, rfl⟩
  · cases h

theorem next_eq (h : w.next = some w') :
    w.applier = .reported ∧ w' = { w with applier := .idle } := by
  unfold next at h
  split at h
  · rename_i happlier
    exact ⟨happlier, (Option.some.inj h).symm⟩
  · cases h

variable [DecidableEq K]

theorem handlerChan_moves (h : w.handlerChan x k = some w') : HandlerMoves w w' := by
  unfold handlerChan at h
  split at h
  · rename_i env' index hk
    cases h
    exact .of_set rfl hk rfl
  · cases h

theorem deleteWaitChan_moves (h : w.deleteWaitChan k = some w') : HandlerMoves w w' := by
  unfold deleteWaitChan at h
  split at h
  · cases h
  · cases h
    exact .of_mem rfl fun _ hhd ↦ hhd

theorem applierChan_moves (h : w.applierChan x = some w') : ApplierMoves w w' := by
  unfold applierChan at h
  split at h
  · rename_i op index answer happlier
    cases h
    exact ⟨rfl, by simp [happlier], by simp, Or.inl (by rw [happlier]; rfl)⟩
  · cases h

end Moves

/-! ## The invariant -/

/-- An answer that may stand under a key of the table. -/
def Right (x : Calls E O T K) (Good : T → Int → A → Prop) (key : K) (answer : A) : Prop :=
  ∃ t index, key = x.key t index ∧ Good t index answer

/-- A waiting handler holds a channel for its own call. -/
def HandlerOk (x : Calls E O T K) (table : WaitTable K A) (hd : Handler E) : Prop :=
  ∀ index c, hd.stage = .waiting index c → table.For c (x.key (x.caller hd.env) index)

/-- The applier holds an answer of its operation, and the channel for it. -/
def ApplierOk (x : Calls E O T K) (Has : T → Int → A → Prop) (table : WaitTable K A) :
    Applier O A → Prop
  | .applied op index answer => Has (x.ident op) index answer
  | .leading op index answer => Has (x.ident op) index answer
  | .sending op index answer c =>
    Has (x.ident op) index answer ∧ table.For c (x.key (x.ident op) index)
  | _ => True

/-- What stands in the table is `Good`, and the applier `Has` what it is going to send. -/
structure Inv [DecidableEq K] (x : Calls E O T K) (Good Has : T → Int → A → Prop)
    (w : Waiters E O A K) : Prop where
  table : w.table.Holds (Right x Good)
  handlers : ∀ hd ∈ w.handlers, HandlerOk x w.table hd
  applier : ApplierOk x Has w.table w.applier

variable {x : Calls E O T K} {Good Good' Has Has' : T → Int → A → Prop}
  {table table' : WaitTable K A} {w w' : Waiters E O A K} {k : Nat} {env : E} {answer : A}

theorem HandlerOk.of_checked : HandlerOk x table ⟨env, .checked⟩ := by
  intro index c hstage
  cases hstage

theorem HandlerOk.of_started {index : Int} : HandlerOk x table ⟨env, .started index⟩ := by
  intro index c hstage
  cases hstage

theorem ApplierOk.mono {ap : Applier O A} (h : ApplierOk x Has table ap)
    (hhas : ∀ t index answer, Has t index answer → Has' t index answer)
    (hfor : ∀ c key, table.For c key → table'.For c key) : ApplierOk x Has' table' ap := by
  cases ap with
  | applied op index answer => exact hhas _ _ _ h
  | leading op index answer => exact hhas _ _ _ h
  | sending op index answer c => exact ⟨hhas _ _ _ h.1, hfor c _ h.2⟩
  | _ => trivial

namespace Inv

variable [DecidableEq K]

theorem empty : Inv x Good Has ({} : Waiters E O A K) where
  table := .empty
  handlers := fun _ hhd ↦ absurd hhd List.not_mem_nil
  applier := trivial

theorem mono (h : Inv x Good Has w)
    (hgood : ∀ t index answer, Good t index answer → Good' t index answer)
    (hhas : ∀ t index answer, Has t index answer → Has' t index answer) : Inv x Good' Has' w where
  table := h.table.mono fun _ _ ⟨t, index, hkey, ha⟩ ↦ ⟨t, index, hkey, hgood _ _ _ ha⟩
  handlers := h.handlers
  applier := h.applier.mono hhas fun _ _ hfor ↦ hfor

/-- The goroutines move on, and no channel loses its key. -/
theorem update (h : Inv x Good Has w) {handlers : List (Handler E)} {deleting : List K}
    {applier : Applier O A} (htable : table.Holds (Right x Good))
    (hfor : ∀ c key, w.table.For c key → table.For c key)
    (hhandlers : ∀ hd ∈ handlers, hd ∈ w.handlers ∨ HandlerOk x table hd)
    (happlier : ApplierOk x Has table applier) :
    Inv x Good Has
      { table := table, handlers := handlers, deleting := deleting, applier := applier } where
  table := htable
  handlers := fun hd hhd ↦ (hhandlers hd hhd).elim
    (fun hold index c hstage ↦ hfor c _ (h.handlers hd hold index c hstage)) id
  applier := happlier

/-- Only the list of handlers changes. -/
theorem update_handlers (h : Inv x Good Has w) {handlers : List (Handler E)} {deleting : List K}
    (hhandlers : ∀ hd ∈ handlers, hd ∈ w.handlers ∨ HandlerOk x w.table hd) :
    Inv x Good Has { w with handlers := handlers, deleting := deleting } :=
  h.update h.table (fun _ _ hfor ↦ hfor) hhandlers h.applier

/-- Only the applier moves. -/
theorem update_applier (h : Inv x Good Has w) {applier : Applier O A}
    (happlier : ApplierOk x Has w.table applier) : Inv x Good Has { w with applier := applier } :=
  h.update h.table (fun _ _ hfor ↦ hfor) (fun _ ↦ Or.inl) happlier

/-- The key of a channel names the call and the index, so that the answer in it is for the handler
that holds it. -/
theorem good_of_receive (h : Inv x Good Has w) {index : Int} {c : Nat}
    (hk : w.handlers[k]? = some ⟨env, .waiting index c⟩)
    (hreceive : w.table.receive c = some (table, answer)) : Good (x.caller env) index answer := by
  have hfor := h.handlers _ (List.mem_of_getElem? hk) index c rfl
  obtain ⟨_, ⟨t, index', hkey, hgood⟩, _⟩ := h.table.receive hfor hreceive
  obtain ⟨hcall, hindex⟩ := x.key_injective hkey
  rw [hcall, hindex]
  exact hgood

/-! ### One section at a time -/

theorem enter (h : Inv x Good Has w) (env : E) : Inv x Good Has (w.enter env) := by
  refine h.update_handlers fun hd hhd ↦ ?_
  rcases List.mem_append.mp hhd with hold | hnew
  · exact Or.inl hold
  · rw [List.mem_singleton.mp hnew]
    exact Or.inr .of_checked

theorem start (h : Inv x Good Has w) {index : Int} {isLeader : Bool}
    (hstep : w.start k index isLeader = some (w', env)) : Inv x Good Has w' := by
  unfold Waiters.start at hstep
  split at hstep
  · split at hstep
    · cases hstep
      refine h.update_handlers fun hd hhd ↦ ?_
      rcases List.mem_or_eq_of_mem_set hhd with hold | rfl
      · exact Or.inl hold
      · exact Or.inr .of_started
    · cases hstep
      exact h.update_handlers fun hd hhd ↦ Or.inl (List.mem_of_mem_eraseIdx hhd)
  · cases hstep

theorem handlerChan (h : Inv x Good Has w) (hstep : w.handlerChan x k = some w') :
    Inv x Good Has w' := by
  unfold Waiters.handlerChan at hstep
  split at hstep
  · rename_i env index hk
    cases hstep
    obtain ⟨htable, hfound, hfor⟩ := h.table.getWaitChan (x.key (x.caller env) index)
    refine h.update htable hfor (fun hd hhd ↦ ?_) (h.applier.mono (fun _ _ _ ↦ id) hfor)
    rcases List.mem_or_eq_of_mem_set hhd with hold | rfl
    · exact Or.inl hold
    · -- the channel that it has been given is the one for its key
      right
      rintro index' c' ⟨⟩
      exact hfound
  · cases hstep

theorem leave (h : Inv x Good Has w) (k : Nat) (env : E) (index : Int) :
    Inv x Good Has (w.leave x k env index) :=
  h.update_handlers fun _ hhd ↦ Or.inl (List.mem_of_mem_eraseIdx hhd)

theorem receive (h : Inv x Good Has w) (hstep : w.receive x k = some (w', env, answer)) :
    Inv x Good Has w' ∧ ∃ index, Good (x.caller env) index answer := by
  unfold Waiters.receive at hstep
  split at hstep
  · rename_i env' index c hk
    split at hstep
    · cases hstep
    · rename_i table answer' hreceive
      cases hstep
      have hfor := h.handlers _ (List.mem_of_getElem? hk) index c rfl
      obtain ⟨htable, _, hkeep⟩ := h.table.receive hfor hreceive
      have hinv : Inv x Good Has { w with table := table } :=
        h.update htable hkeep (fun _ ↦ Or.inl) (h.applier.mono (fun _ _ _ ↦ id) hkeep)
      exact ⟨hinv.leave k env index, index, h.good_of_receive hk hreceive⟩
  · cases hstep

theorem timeout (h : Inv x Good Has w) (hstep : w.timeout x k = some (w', env)) :
    Inv x Good Has w' := by
  unfold Waiters.timeout at hstep
  split at hstep
  · cases hstep
    exact h.leave k _ _
  · cases hstep

theorem deleteWaitChan (h : Inv x Good Has w) (hstep : w.deleteWaitChan k = some w') :
    Inv x Good Has w' := by
  unfold Waiters.deleteWaitChan at hstep
  split at hstep
  · cases hstep
  · rename_i key _
    cases hstep
    exact h.update (h.table.deleteWaitChan key) (fun _ _ hfor ↦ hfor) (fun _ ↦ Or.inl)
      (h.applier.mono (fun _ _ _ ↦ id) fun _ _ hfor ↦ hfor)

theorem getState (h : Inv x Good Has w) {isLeader : Bool}
    (hstep : w.getState isLeader = some w') : Inv x Good Has w' := by
  unfold Waiters.getState at hstep
  split at hstep
  · rename_i op index answer happlier
    cases hstep
    have hok := h.applier
    rw [happlier] at hok
    apply h.update_applier
    cases isLeader with
    | true => exact hok
    | false => trivial
  · cases hstep

theorem applierChan (h : Inv x Good Has w) (hstep : w.applierChan x = some w') :
    Inv x Good Has w' := by
  unfold Waiters.applierChan at hstep
  split at hstep
  · rename_i op index answer happlier
    cases hstep
    have hok := h.applier
    rw [happlier] at hok
    obtain ⟨htable, hfound, hfor⟩ := h.table.getWaitChan (x.key (x.ident op) index)
    exact h.update htable hfor (fun _ ↦ Or.inl) ⟨hok, hfound⟩
  · cases hstep

/-- What the applier has is good once it is in the table. -/
theorem send (h : Inv x Good Has w)
    (hgood : ∀ t index answer, Has t index answer → Good t index answer)
    (hstep : w.send = some w') : Inv x Good Has w' := by
  unfold Waiters.send at hstep
  split at hstep
  · rename_i op index answer c happlier
    have hok := h.applier
    rw [happlier] at hok
    split at hstep
    · cases hstep
    · rename_i table hsend
      cases hstep
      obtain ⟨htable, hfor⟩ := h.table.send hok.2 ⟨_, index, rfl, hgood _ _ _ hok.1⟩ hsend
      exact h.update htable hfor (fun _ ↦ Or.inl) trivial
  · cases hstep

theorem next (h : Inv x Good Has w) (hstep : w.next = some w') : Inv x Good Has w' := by
  rw [(next_eq hstep).2]
  exact h.update_applier trivial

end Inv

end Waiters

end Lab6824.Lib
