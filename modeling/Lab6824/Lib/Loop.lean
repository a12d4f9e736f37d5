import Lab6824.Lib.System

/-!
# Loop — loops that run until they return

The body of a loop either goes on with a new state or returns.  `loop` runs it for a limited number
of rounds; `loop_returns` says that a loop whose remaining work shrinks does return, in a state that
the invariant describes.  The body may look at the number of the round, which stands for whatever
other threads do between the rounds.  `run_bounded` is the same for runs of a step function.
-/

namespace Lab6824.Lib

inductive Progress (σ ρ : Type*) where
  | going (s : σ)
  | done (r : ρ)

variable {σ ρ : Type*}

def loop (body : Nat → σ → Progress σ ρ) : Nat → Nat → σ → Progress σ ρ
  | 0, _, s => .going s
  | fuel + 1, k, s =>
    match body k s with
    | .going t => loop body fuel (k + 1) t
    | .done r => .done r

/-- `Inv w s` describes the state `s` when work `w` is left. -/
theorem loop_returns (body : Nat → σ → Progress σ ρ) (Inv : Nat → σ → Prop)
    (hbody : ∀ k w s t, Inv w s → body k s = .going t → ∃ w' < w, Inv w' t)
    {fuel w : Nat} (hfuel : w < fuel) {s : σ} (hs : Inv w s) (k : Nat) :
    ∃ r k' w' t, k ≤ k' ∧ Inv w' t ∧ body k' t = .done r ∧ loop body fuel k s = .done r := by
  induction fuel generalizing w s k with
  | zero => exact absurd hfuel (Nat.not_lt_zero w)
  | succ fuel ih =>
      rw [loop]
      cases hstep : body k s with
      | done r => exact ⟨r, k, w, s, Nat.le_refl k, hs, hstep, rfl⟩
      | going t =>
          obtain ⟨w', hlt, ht⟩ := hbody k w s t hs hstep
          obtain ⟨r, k', w'', u, hk, hu⟩ := ih (by omega) ht (k + 1)
          exact ⟨r, k', w'', u, by omega, hu⟩

/-- If every step leaves less work, a run has no more steps than there was work. -/
theorem run_bounded {S A : Type*} {step : S → A → Option S} {Inv : Nat → S → Prop}
    (hstep : ∀ w s a t, Inv w s → step s a = some t → ∃ w' < w, Inv w' t) {w : Nat} {s t : S}
    {as : List A} (hs : Inv w s) (hrun : run step s as = some t) :
    as.length ≤ w ∧ ∃ w', Inv w' t := by
  induction as generalizing s w with
  | nil =>
      rw [run_nil, Option.some.injEq] at hrun
      exact ⟨Nat.zero_le w, w, hrun ▸ hs⟩
  | cons a as ih =>
      obtain ⟨v, hv, hrest⟩ := run_cons.mp hrun
      obtain ⟨w', hlt, hInv⟩ := hstep w s a v hs hv
      obtain ⟨hlen, hend⟩ := ih hInv hrest
      exact ⟨by rw [List.length_cons]; omega, hend⟩

end Lab6824.Lib
