import YlongRuntime.Executor.Counts

/-! `try_inc_searching_num` under concurrency. Its load with the check
`searching * 2 < active` and its `fetch_add` are two atomic steps, so callers that all load
before any of them adds all pass the check. The searching count then exceeds the cap, by at
most the number of callers. -/

namespace YlongRuntime

/-- Steps of `try_inc_searching_num` by the threads `t < k` and nothing else: the load and
its check, or the `fetch_add` of a caller that passed it. -/
def TryIncCaller (k : Nat) (s : Shared) (t : Nat) : Act → Prop
  | .tryIncSearchingNum => t < k
  | .resume => t < k ∧ s.pc t = .incChecked
  | _ => False

/-- The states that steps allowed by `allowed` reach from the state `s`. -/
inductive Runs (allowed : Shared → Nat → Act → Prop) (s : Shared) : Shared → Prop
  | refl : Runs allowed s s
  | step {s₁ s₂ : Shared} (t : Nat) (a : Act) : Runs allowed s s₁ → allowed s₁ t a →
      s₁.step t a = some s₂ → Runs allowed s s₂

section Cap

variable {k : Nat} {s₀ s : Shared}

/-- While `2 * searching ≥ active`, every call of `try_inc_searching_num` fails and changes
nothing. -/
theorem try_inc_fails_at_cap (h : Runs (TryIncCaller k) s₀ s)
    (hp : ∀ t, s₀.pc t ≠ .incChecked)
    (hcap : s₀.sleeper.record.loadState.1 ≤ s₀.sleeper.record.loadState.2 * 2) : s = s₀ := by
  induction h with
  | refl => rfl
  | step t a _ ha hs ih =>
    subst ih
    cases a <;> simp only [TryIncCaller] at ha
    case tryIncSearchingNum =>
      simp only [Shared.step, Record.loadState_eq] at hs hcap
      split_ifs at hs with h₁ h₂
      · omega
      · exact (Option.some.inj hs).symm
    case resume => exact absurd ha.2 (hp t)

/-- On `Sleeper::new(2)` worker 0 searches, which reaches the cap; then worker 1's call
fails. -/
theorem second_searcher_fails_at_cap :
    ∃ s₀ s, Runs (TryIncCaller 2) (Shared.init 2) s₀ ∧ s₀.sleeper.record.loadState = (2, 1) ∧
      s₀.step 1 .tryIncSearchingNum = some s ∧ s = s₀ := by
  have h₀ : Runs (TryIncCaller 2) (Shared.init 2) _ :=
    .step 0 .resume (.step 0 .tryIncSearchingNum .refl (by decide : 0 < 2) rfl) ⟨by decide, rfl⟩ rfl
  refine ⟨_, _, h₀, by decide, rfl,
    try_inc_fails_at_cap (.step 1 .tryIncSearchingNum .refl (by decide : 1 < 2) rfl) ?_ (by decide)⟩
  intro t
  simp only [Shared.setPc, Shared.setRecord, Shared.setHeld, Function.update_apply, Shared.init]
  split_ifs <;> decide

/-- The callers among the threads `t < k` that passed the check and have not added yet. -/
def Shared.pending (k : Nat) (s : Shared) : Nat :=
  ∑ t ∈ Finset.range k, if s.pc t = .incChecked then 1 else 0

theorem Shared.pending_setPc {t : Nat} (ht : t < k) (s : Shared) (p : Pc) :
    (s.setPc t p).pending k + (if s.pc t = .incChecked then 1 else 0) =
      s.pending k + (if p = .incChecked then 1 else 0) := by
  have hf : ∀ u, (if Function.update s.pc t p u = .incChecked then 1 else 0) =
      Function.update (fun u => if s.pc u = .incChecked then 1 else 0) t
        (if p = .incChecked then 1 else 0) u := by
    intro u
    by_cases hu : u = t
    · subst hu; simp
    · simp [hu]
  simp only [Shared.pending, Shared.setPc_pc, hf]
  exact sum_update_range ht _

@[simp] theorem Shared.pending_setRecord (s : Shared) (r : Record 64) :
    (s.setRecord r).pending k = s.pending k := rfl

@[simp] theorem Shared.pending_setHeld (s : Shared) (t n : Nat) :
    (s.setHeld t n).pending k = s.pending k := rfl

theorem Shared.pending_le (s : Shared) : s.pending k ≤ k :=
  sum_range_le (fun _ => by split <;> omega) k

/-- What callers of `try_inc_searching_num` keep, from a state whose active field is `a`:
the active field, and the searching field with the adds still pending within `b`. -/
structure CapInv (k a b : Nat) (s : Shared) : Prop where
  active : s.sleeper.record.word.toNat / 2 ^ 16 = a
  bound : s.sleeper.record.word.toNat % 2 ^ 16 + s.pending k ≤ b

theorem CapInv.step {a b t : Nat} {act : Act} {s' : Shared} (hi : CapInv k a b s)
    (hb : b < 2 ^ 16) (hab : (a - 1) / 2 + k ≤ b) (ha : TryIncCaller k s t act)
    (h : s.step t act = some s') : CapInv k a b s' := by
  obtain ⟨hact, hbound⟩ := hi
  have hw := s.sleeper.record.word.isLt
  cases act <;> simp only [TryIncCaller] at ha
  case tryIncSearchingNum =>
    simp only [Shared.step, Record.loadState_eq] at h
    split_ifs at h with hidle hchk
    · rw [← Option.some.inj h]
      have hp := Shared.pending_setPc ha s .incChecked
      have hle := (s.setPc t .incChecked).pending_le (k := k)
      simp only [hidle, if_neg (show Pc.idle ≠ .incChecked by decide), if_true] at hp
      exact ⟨hact, by simp only [Shared.setPc_sleeper]; omega⟩
    · exact Option.some.inj h ▸ ⟨hact, hbound⟩
  case resume =>
    obtain ⟨ht, hpc⟩ := ha
    simp only [Shared.step, hpc, Option.some.injEq] at h
    rw [← h]
    have hp := Shared.pending_setPc ht s .idle
    simp only [hpc, if_true, if_neg (show Pc.idle ≠ .incChecked by decide)] at hp
    have hr := s.sleeper.record.incSearchingNum_toNat (by omega)
    constructor <;> simp only [Shared.setHeld_sleeper, Shared.setRecord_sleeper_record, hr,
      Shared.pending_setHeld, Shared.pending_setRecord] <;> omega

end Cap

end YlongRuntime
