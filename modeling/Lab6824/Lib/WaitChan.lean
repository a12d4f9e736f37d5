import Mathlib.Data.Finmap

/-!
# WaitChan — a table of one-slot channels

Whoever waits for an answer and whoever has it meet at a channel that the table keeps under a key.
A channel that has left the table still exists for those who hold it, so a channel is a position in
the list of all channels ever made; each remembers the key that it was made for, which no operation
reads.
-/

namespace Lab6824.Lib

structure Chan (K A : Type) where
  key : K
  slot : Option A := none

structure WaitTable (K A : Type) where
  waitChan : Finmap fun _ : K ↦ Nat := ∅
  chans : List (Chan K A) := []

namespace WaitTable

variable {K A : Type} [DecidableEq K]

/-- The channel under the key, which is made if there is none. -/
def getWaitChan (table : WaitTable K A) (key : K) : WaitTable K A × Nat :=
  match table.waitChan.lookup key with
  | some c => (table, c)
  | none =>
    ({ waitChan := table.waitChan.insert key table.chans.length
       chans := table.chans ++ [{ key := key }] }, table.chans.length)

def deleteWaitChan (table : WaitTable K A) (key : K) : WaitTable K A :=
  { table with waitChan := table.waitChan.erase key }

/-- A send into a full slot blocks. -/
def send (table : WaitTable K A) (c : Nat) (a : A) : Option (WaitTable K A) :=
  match table.chans[c]? with
  | some ⟨key, none⟩ => some { table with chans := table.chans.set c ⟨key, some a⟩ }
  | _ => none

/-- A receive from an empty slot blocks. -/
def receive (table : WaitTable K A) (c : Nat) : Option (WaitTable K A × A) :=
  match table.chans[c]? with
  | some ⟨key, some a⟩ => some ({ table with chans := table.chans.set c ⟨key, none⟩ }, a)
  | _ => none

/-- The channel `c` was made for the key. -/
def For (table : WaitTable K A) (c : Nat) (key : K) : Prop :=
  ∃ ch, table.chans[c]? = some ch ∧ ch.key = key

/-- The table leads to channels of the right key, and every answer in a slot is right for the key of
its channel. -/
structure Holds (P : K → A → Prop) (table : WaitTable K A) : Prop where
  labelled : ∀ key c, table.waitChan.lookup key = some c → table.For c key
  right : ∀ ch ∈ table.chans, ∀ a, ch.slot = some a → P ch.key a

variable {P : K → A → Prop} {table table' : WaitTable K A} {c c' : Nat} {key key' : K} {a : A}

omit [DecidableEq K] in
theorem For.append (h : table.For c key) (waitChan : Finmap fun _ : K ↦ Nat)
    (chans : List (Chan K A)) : WaitTable.For ⟨waitChan, table.chans ++ chans⟩ c key := by
  obtain ⟨ch, hch, hkey⟩ := h
  exact ⟨ch, List.getElem?_append_left (List.getElem?_eq_some_iff.mp hch).1 ▸ hch, hkey⟩

omit [DecidableEq K] in
/-- A slot is filled or emptied; the keys of the channels stay. -/
theorem For.set {slot slot' : Option A} (h : table.For c key)
    (hc : table.chans[c']? = some ⟨key', slot⟩) :
    WaitTable.For { table with chans := table.chans.set c' ⟨key', slot'⟩ } c key := by
  obtain ⟨ch, hch, hkey⟩ := h
  have hlt := (List.getElem?_eq_some_iff.mp hc).1
  by_cases heq : c' = c
  · subst heq
    rw [hc, Option.some.injEq] at hch
    exact ⟨⟨key', slot'⟩, List.getElem?_set_self hlt, by rw [← hkey, ← hch]⟩
  · exact ⟨ch, (List.getElem?_set_ne heq).trans hch, hkey⟩

theorem Holds.empty : Holds P ({} : WaitTable K A) where
  labelled := by
    intro key c h
    rw [Finmap.lookup_empty] at h
    cases h
  right := fun _ hch ↦ absurd hch List.not_mem_nil

theorem Holds.mono {Q : K → A → Prop} (h : Holds P table) (hPQ : ∀ key a, P key a → Q key a) :
    Holds Q table :=
  ⟨h.labelled, fun ch hch a ha ↦ hPQ _ _ (h.right ch hch a ha)⟩

/-- What `getWaitChan` returns is a channel for the key, and no channel loses its key. -/
theorem Holds.getWaitChan (h : Holds P table) (key : K) :
    Holds P (table.getWaitChan key).1 ∧
      (table.getWaitChan key).1.For (table.getWaitChan key).2 key ∧
      ∀ c key', table.For c key' → (table.getWaitChan key).1.For c key' := by
  unfold WaitTable.getWaitChan
  cases hlookup : table.waitChan.lookup key with
  | some c => exact ⟨h, h.labelled key c hlookup, fun _ _ hfor ↦ hfor⟩
  | none =>
      have hnew : WaitTable.For
          ⟨table.waitChan.insert key table.chans.length, table.chans ++ [{ key := key }]⟩
          table.chans.length key :=
        ⟨{ key := key }, List.getElem?_concat_length, rfl⟩
      refine ⟨⟨fun key' c hkey' ↦ ?_, fun ch hch a ha ↦ ?_⟩, hnew, fun c key' hfor ↦ hfor.append _ _⟩
      · by_cases heq : key' = key
        · subst heq
          rw [Finmap.lookup_insert, Option.some.injEq] at hkey'
          exact hkey' ▸ hnew
        · rw [Finmap.lookup_insert_of_ne _ heq] at hkey'
          exact (h.labelled key' c hkey').append _ _
      · rcases List.mem_append.mp hch with hold | hlast
        · exact h.right ch hold a ha
        · rw [List.mem_singleton.mp hlast] at ha
          cases ha

theorem Holds.deleteWaitChan (h : Holds P table) (key : K) :
    Holds P (table.deleteWaitChan key) := by
  refine ⟨fun key' c hkey' ↦ ?_, h.right⟩
  by_cases heq : key' = key
  · subst heq
    rw [WaitTable.deleteWaitChan, Finmap.lookup_erase] at hkey'
    cases hkey'
  · rw [WaitTable.deleteWaitChan, Finmap.lookup_erase_ne heq] at hkey'
    exact h.labelled key' c hkey'

theorem Holds.send (h : Holds P table) (hfor : table.For c key) (ha : P key a)
    (hsend : table.send c a = some table') :
    Holds P table' ∧ ∀ c' key', table.For c' key' → table'.For c' key' := by
  unfold WaitTable.send at hsend
  split at hsend
  · rename_i key₀ hc
    rw [Option.some.injEq] at hsend
    subst hsend
    refine ⟨⟨fun key' c' hkey' ↦ (h.labelled key' c' hkey').set hc, fun ch hch b hb ↦ ?_⟩,
      fun c' key' hfor' ↦ hfor'.set hc⟩
    rcases List.mem_or_eq_of_mem_set hch with hold | rfl
    · exact h.right ch hold b hb
    · obtain ⟨ch, hch', hkey⟩ := hfor
      rw [hc, Option.some.injEq] at hch'
      subst hch'
      rw [← Option.some.inj hb]
      exact hkey ▸ ha
  · cases hsend

theorem Holds.receive (h : Holds P table) (hfor : table.For c key)
    (hreceive : table.receive c = some (table', a)) :
    Holds P table' ∧ P key a ∧ ∀ c' key', table.For c' key' → table'.For c' key' := by
  unfold WaitTable.receive at hreceive
  split at hreceive
  · rename_i key₀ a₀ hc
    rw [Option.some.injEq, Prod.mk.injEq] at hreceive
    obtain ⟨rfl, rfl⟩ := hreceive
    refine ⟨⟨fun key' c' hkey' ↦ (h.labelled key' c' hkey').set hc, fun ch hch b hb ↦ ?_⟩, ?_,
      fun c' key' hfor' ↦ hfor'.set hc⟩
    · rcases List.mem_or_eq_of_mem_set hch with hold | rfl
      · exact h.right ch hold b hb
      · cases hb
    · obtain ⟨ch, hch, hkey⟩ := hfor
      rw [hc, Option.some.injEq] at hch
      subst hch
      exact hkey ▸ h.right _ (List.mem_of_getElem? hc) a₀ rfl
  · cases hreceive

end WaitTable

/-! ## Keys -/

/-- Three numbers in decimal, separated by commas. -/
def commaKey (a b c : Int) : String :=
  toString a ++ "," ++ toString b ++ "," ++ toString c

theorem toList_natRepr (n : Nat) : (Nat.repr n).toList = Nat.toDigits 10 n := by
  rw [Nat.repr, String.toList_ofList]

theorem notMem_toDigits {c : Char} (h : c.isDigit = false) (n : Nat) : c ∉ Nat.toDigits 10 n := by
  intro hmem
  rw [Nat.isDigit_of_mem_toDigits (by decide) (by decide) hmem] at h
  cases h

theorem toDigits_injective {m n : Nat} (h : Nat.toDigits 10 m = Nat.toDigits 10 n) : m = n := by
  have hvalue := congrArg (fun ds ↦ Nat.ofDigitChars 10 ds 0) h
  simpa only [Nat.ofDigitChars_toDigits (b := 10) (by decide) (by decide)] using hvalue

/-- The characters of a decimal numeral. -/
theorem toList_toString (a : Int) : (toString a).toList =
    if 0 ≤ a then Nat.toDigits 10 a.natAbs else '-' :: Nat.toDigits 10 a.natAbs := by
  cases a with
  | ofNat n =>
      rw [if_pos (show 0 ≤ Int.ofNat n from Int.natCast_nonneg n)]
      exact toList_natRepr n
  | negSucc n =>
      rw [if_neg (by omega)]
      change ("-" ++ Nat.repr (n + 1)).toList = _
      rw [String.toList_append, toList_natRepr]
      rfl

theorem comma_notMem_toString (a : Int) : ',' ∉ (toString a).toList := by
  rw [toList_toString]
  split_ifs
  · exact notMem_toDigits (by decide) _
  · rw [List.mem_cons]
    rintro (hminus | hdigit)
    · revert hminus
      decide
    · exact notMem_toDigits (by decide) _ hdigit

theorem toString_int_injective {a b : Int} (h : (toString a).toList = (toString b).toList) :
    a = b := by
  rw [toList_toString, toList_toString] at h
  have hminus : ∀ n : Nat, '-' ∉ Nat.toDigits 10 n := notMem_toDigits (by decide)
  split_ifs at h
  · have habs := toDigits_injective h
    omega
  · exact absurd (h ▸ List.mem_cons_self) (hminus _)
  · exact absurd (h ▸ List.mem_cons_self) (hminus _)
  · have habs := toDigits_injective (List.cons.inj h).2
    omega

theorem append_cons_cancel {c : Char} {xs xs' ys ys' : List Char} (h : c ∉ xs) (h' : c ∉ xs')
    (heq : xs ++ c :: ys = xs' ++ c :: ys') : xs = xs' ∧ ys = ys' := by
  induction xs generalizing xs' with
  | nil =>
      cases xs' with
      | nil => exact ⟨rfl, (List.cons.inj heq).2⟩
      | cons x xs' => exact absurd (List.cons.inj heq).1 fun hx ↦ h' (hx ▸ List.mem_cons_self)
  | cons x xs ih =>
      cases xs' with
      | nil => exact absurd (List.cons.inj heq).1 fun hx ↦ h (hx ▸ List.mem_cons_self)
      | cons x' xs' =>
          obtain ⟨rfl, hrest⟩ := List.cons.inj heq
          obtain ⟨rfl, rfl⟩ := ih (fun hc ↦ h (List.mem_cons_of_mem _ hc))
            (fun hc ↦ h' (List.mem_cons_of_mem _ hc)) hrest
          exact ⟨rfl, rfl⟩

theorem commaKey_injective {a b c a' b' c' : Int} (h : commaKey a b c = commaKey a' b' c') :
    a = a' ∧ b = b' ∧ c = c' := by
  have hlist := congrArg String.toList h
  simp only [commaKey, String.toList_append, List.append_assoc] at hlist
  obtain ⟨ha, hrest⟩ := append_cons_cancel (comma_notMem_toString a) (comma_notMem_toString a') hlist
  obtain ⟨hb, hc⟩ := append_cons_cancel (comma_notMem_toString b) (comma_notMem_toString b') hrest
  exact ⟨toString_int_injective ha, toString_int_injective hb, toString_int_injective hc⟩

theorem commaKey_injective2 :
    Function.Injective2 fun (call : Int × Int) (index : Int) ↦ commaKey call.1 call.2 index := by
  intro call call' index index' h
  obtain ⟨ha, hb, hc⟩ := commaKey_injective h
  exact ⟨Prod.ext ha hb, hc⟩

end Lab6824.Lib
