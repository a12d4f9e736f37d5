import Lab6824.KvRaft.Server
import Lab6824.Lib.Sessions

/-!
# Once — every operation is executed once

A clerk repeats a request until it is answered, so the log may hold an operation many times.  A server
keeps one number for each client, the highest request id that it has had, and with that it executes
the first occurrence of every operation and no other; only a `Get` is looked up again.
-/

namespace Lab6824.KvRaft

/-! ## Operations without repetitions -/

/-- `Put` overwrites and `Append` concatenates, where an absent key counts as `""`. -/
def Op.perform (m : Store) (op : Op) : Store :=
  match op.op with
  | .put => m.insert op.key op.value
  | .append => m.insert op.key ((m.lookup op.key).getD "" ++ op.value)
  | .get => m

def performAll (ops : List Op) : Store :=
  ops.foldl Op.perform ∅

/-- The answer to a `Get`. -/
def lookupAnswer (m : Store) (key : String) : Answer :=
  match m.lookup key with
  | some value => { err := .ok, value := value }
  | none => { err := .errNoKey }

def Op.appendsTo (key : String) (op : Op) : Bool :=
  decide (op.op = .append ∧ op.key = key)

theorem performAll_append (ops ops' : List Op) :
    performAll (ops ++ ops') = ops'.foldl Op.perform (performAll ops) :=
  List.foldl_append

theorem Op.lookup_perform {op : Op} {key : String} (h : op.key = key → op.op ≠ .put) (m : Store) :
    ((op.perform m).lookup key).getD "" =
      (m.lookup key).getD "" ++ (if op.appendsTo key then op.value else "") := by
  unfold Op.perform Op.appendsTo
  by_cases hkey : op.key = key
  · subst hkey
    cases hop : op.op with
    | put => exact absurd hop (h rfl)
    | append => simp [Finmap.lookup_insert]
    | get => simp
  · cases op.op with
    | put => simp [Finmap.lookup_insert_of_ne _ (Ne.symm hkey)]
    | append => simp [hkey, Finmap.lookup_insert_of_ne _ (Ne.symm hkey)]
    | get => simp

/-- Where there is no `Put`, the values of the appends follow one another. -/
theorem lookup_foldl_perform {key : String} {ops : List Op}
    (h : ∀ op ∈ ops, op.key = key → op.op ≠ .put) (m : Store) :
    ((ops.foldl Op.perform m).lookup key).getD "" =
      (m.lookup key).getD "" ++ String.join ((ops.filter (Op.appendsTo key)).map Op.value) := by
  induction ops using List.reverseRecOn with
  | nil => simp [String.join]
  | append_singleton ops op ih =>
      rw [List.foldl_append, List.foldl_cons, List.foldl_nil, Op.lookup_perform (h op (by simp)),
        ih fun a ha ↦ h a (List.mem_append_left _ ha), List.filter_append, List.map_append]
      cases hop : op.appendsTo key with
      | true => simp [hop, String.join, String.append_assoc]
      | false => simp [hop, String.join]

/-! ## One operation of the log -/

namespace KVServer

/-- An operation with a new request id is executed. -/
theorem applyCommand_m_of_lt {kv : KVServer} {op : Op} (h : kv.lastRequest op.uId < op.requestId) :
    (kv.applyCommand op).1.m = op.perform kv.m := by
  rw [applyCommand_m]
  unfold execute Op.perform value
  rw [if_neg fun hskip ↦ absurd hskip.1 (not_le.mpr h)]
  cases op.op with
  | put => rfl
  | append => rfl
  | get =>
      dsimp only
      split <;> rfl

/-- A `Get` is answered from the map, whether it is repeated or not. -/
theorem applyCommand_get {kv : KVServer} {op : Op} (h : op.op = .get) :
    (kv.applyCommand op).2 = lookupAnswer kv.m op.key := by
  unfold applyCommand execute lookupAnswer
  rw [if_neg fun hskip ↦ hskip.2 h, h]
  dsimp only
  cases kv.m.lookup op.key with
  | none => rfl
  | some value => rfl

end KVServer

/-! ## The whole log -/

theorem stateAfter_concat (cs : List Op) (op : Op) :
    stateAfter (cs ++ [op]) (cs ++ [op]).length =
      ((stateAfter cs cs.length).applyCommand op).1 := by
  have hlast : (cs ++ [op])[cs.length]? = some op := List.getElem?_concat_length
  rw [List.length_append, List.length_singleton, stateAfter_succ hlast,
    stateAfter_append (le_refl _)]

/-- The number that a server keeps tells it which operations are repeated. -/
theorem repeated_iff_le_lastRequest {cs : List Op} {op : Op}
    (hseq : Lib.Sequential Op.ident (cs ++ [op])) :
    op.ident ∈ cs.map Op.ident ↔
      op.requestId ≤ (stateAfter cs cs.length).lastRequest op.uId := by
  have hpos : 1 ≤ op.requestId := hseq.positive op (by simp)
  rw [hseq.repeated_iff, le_lastRequest_iff]
  constructor
  · rintro ⟨b, hb, hclient, hle⟩
    obtain ⟨i, hi, hget⟩ := List.mem_iff_getElem.mp hb
    exact Or.inr ⟨i, b, hi, by rw [List.getElem?_eq_getElem hi, hget], hclient, hle⟩
  · rintro (hzero | ⟨i, b, _, hget, hclient, hle⟩)
    · omega
    · exact ⟨b, List.mem_of_getElem? hget, hclient, hle⟩

/-- The map of a server is that of the first occurrences. -/
theorem stateAfter_m {cs : List Op} (hseq : Lib.Sequential Op.ident cs) :
    (stateAfter cs cs.length).m = performAll (Lib.firsts Op.ident cs) := by
  induction cs using List.reverseRecOn with
  | nil => rfl
  | append_singleton cs op ih =>
      have hprev := ih hseq.of_append
      have hrep := repeated_iff_le_lastRequest hseq
      rw [stateAfter_concat, Lib.firsts_concat]
      by_cases hold : op.ident ∈ cs.map Op.ident
      · rw [if_pos hold, KVServer.applyCommand_of_le (hrep.mp hold), hprev]
      · rw [if_neg hold, KVServer.applyCommand_m_of_lt (not_le.mp (mt hrep.mpr hold)), hprev,
          performAll_append]
        rfl

/-- For every log in which each client's request ids are positive and occur for the first time in
increasing order, and in which a repeated operation is the same operation: the map is that of the
first occurrences, and every `Get` is answered from the map of those before it.  After the last `Put`
to a key its value grows by the appends among the first occurrences, which hold every operation of
the log once and those of a client in the order of their ids. -/
theorem operations_take_effect_once {cs : List Op} (hseq : Lib.Sequential Op.ident cs)
    (hsame : ∀ a ∈ cs, ∀ b ∈ cs, a.ident = b.ident → a = b) :
    (stateAfter cs cs.length).m = performAll (Lib.firsts Op.ident cs) ∧
      (∀ k op, cs[k]? = some op → op.op = .get →
        ((stateAfter cs k).applyCommand op).2 =
          lookupAnswer (performAll (Lib.firsts Op.ident (cs.take k))) op.key) ∧
      (∀ key before after, Lib.firsts Op.ident cs = before ++ after →
        (∀ op ∈ after, op.key = key → op.op ≠ .put) →
        (stateAfter cs cs.length).value key = ((performAll before).lookup key).getD "" ++
          String.join ((after.filter (Op.appendsTo key)).map Op.value)) ∧
      (∀ op ∈ cs, (Lib.firsts Op.ident cs).count op = 1) ∧
      ∀ uid, ((Lib.firsts Op.ident cs).filter fun op ↦ op.uId = uid).Pairwise
        fun a b ↦ a.requestId < b.requestId := by
  have hm := stateAfter_m hseq
  refine ⟨hm, fun k op hop hget ↦ ?_, fun key before after hsplit hput ↦ ?_, fun op hop ↦ ?_,
    fun uid ↦ ?_⟩
  · have htake : stateAfter cs k = stateAfter (cs.take k) (cs.take k).length := by
      unfold stateAfter Lib.after
      rw [List.take_length]
    rw [KVServer.applyCommand_get hget, htake, stateAfter_m (hseq.take k)]
  · rw [KVServer.value, hm, hsplit, performAll_append]
    exact lookup_foldl_perform hput _
  · exact Lib.count_firsts hop fun b hb hid ↦ hsame b hb op hop hid
  · -- two operations of one client in the list stand there in the order of their ids
    rw [List.pairwise_filter]
    refine hseq.increasing.imp fun {a b} hlt ha hb ↦ hlt ?_
    exact (of_decide_eq_true ha).trans (of_decide_eq_true hb).symm

/-- Two clients append to one key, with repetitions. -/
theorem operations_take_effect_once_two_clients :
    let a (uid id : Int) (value : String) : Op := ⟨"k", value, .append, id, uid⟩
    let get : Op := ⟨"k", "", .get, 2, 2⟩
    let cs := [a 1 1 "x", a 2 1 "y", a 1 1 "x", get, a 1 2 "z", a 2 1 "y", get]
    (stateAfter cs 7).value "k" = "xyz" ∧
      ((stateAfter cs 3).applyCommand get).2 = ⟨.ok, "xy"⟩ ∧
      ((stateAfter cs 6).applyCommand get).2 = ⟨.ok, "xyz"⟩ := by
  intro a get cs
  have hpos : ∀ op ∈ cs, 1 ≤ op.ident.2 := by decide
  have hinc : (Lib.firsts Op.ident cs).Pairwise
      fun a b ↦ a.ident.1 = b.ident.1 → a.ident.2 < b.ident.2 := by decide
  have hsame : ∀ a ∈ cs, ∀ b ∈ cs, a.ident = b.ident → a = b := by decide
  obtain ⟨_, hgets, hvalue, _⟩ := operations_take_effect_once ⟨hpos, hinc⟩ hsame
  refine ⟨?_, ?_, ?_⟩
  · exact hvalue "k" [] _ rfl (by decide)
  · exact hgets 3 get rfl rfl
  · exact hgets 6 get rfl rfl

end Lab6824.KvRaft
