import YlongRuntime.Executor.SearchCap

/-! What `push_worker`, `pop_worker`, `dec_searching_num` and `is_parked` return under the
runtime's callers. `push_worker` returns true to the last worker to park, which then
drives the reactor. Another call returns true only after a `pop_worker` has taken a worker
off `idle_list`, so there is one driver at a time. `dec_searching_num` returns true to the
last worker holding a searching increment. `is_parked` reads true from a worker's
`push_worker` until a `pop_worker` returns it. -/

namespace YlongRuntime

/-- `push_worker` returns true at this step: its `dec_active_num` read one active worker. -/
def Shared.parksLast (s : Shared) (t : Nat) : Act → Bool
  | .resume =>
    match s.pc t with
    | .pushed => s.sleeper.record.decActiveNum.1
    | _ => false
  | _ => false

/-- `pop_worker` takes a worker off `idle_list` at this step, and will return it. -/
def Shared.wakes (s : Shared) (t : Nat) : Act → Bool
  | .resume =>
    match s.pc t, s.sleeper.idleList with
    | .popChecked, _ :: _ => true
    | _, _ => false
  | _ => false

/-- What `pop_worker` returns at this step: the worker its `idle_list.pop()` takes. -/
def Shared.popped (s : Shared) (t : Nat) : Act → Option Nat
  | .resume =>
    match s.pc t, s.sleeper.idleList with
    | .popChecked, i :: _ => some i
    | _, _ => none
  | _ => none

/-- The runs of the callers `allowed` from `s`, with the number of `push_worker` calls that
returned true (`parks`) and of `pop_worker` calls that took a worker (`wakes`). -/
inductive Shared.Trace (allowed : Shared → Nat → Act → Prop) (s : Shared) :
    Shared → Nat → Nat → Prop
  | refl : Trace allowed s s 0 0
  | step {s₁ s₂ : Shared} {parks wakes : Nat} (t : Nat) (a : Act) :
      Trace allowed s s₁ parks wakes → allowed s₁ t a → s₁.step t a = some s₂ →
      Trace allowed s s₂ (parks + (s₁.parksLast t a).toNat) (wakes + (s₁.wakes t a).toNat)

theorem Shared.Trace.reach {allowed : Shared → Nat → Act → Prop} {n : Nat} {s₀ s : Shared}
    {parks wakes : Nat} (h₀ : Reach allowed n s₀) (h : Trace allowed s₀ s parks wakes) :
    Reach allowed n s := by
  induction h with
  | refl => exact h₀
  | step t a _ ha hs ih => exact .step t a ih ha hs

/-- `1` while a worker can still park last with no wake first: some worker is not in
`idle_list`, or a `push_worker` holds the mutex. -/
def Shared.parkOpen (s : Shared) : Nat :=
  if s.sleeper.idleList.length < s.sleeper.numWorkers ∨ s.owed = -1 then 1 else 0

section Steps

variable {s s' : Shared} {t : Nat}

theorem Shared.parkOpen_le (s : Shared) : s.parkOpen ≤ 1 := by
  unfold Shared.parkOpen
  split <;> omega

theorem Shared.parkOpen_setPc (h : s.owner ≠ some t) (p : Pc) :
    (s.setPc t p).parkOpen = s.parkOpen := by
  simp only [Shared.parkOpen, owed_setPc h, Shared.setPc_sleeper]

@[simp] theorem Shared.parkOpen_setRecord (s : Shared) (r : Record 64) :
    (s.setRecord r).parkOpen = s.parkOpen := rfl

@[simp] theorem Shared.parkOpen_setHeld (s : Shared) (u k : Nat) :
    (s.setHeld u k).parkOpen = s.parkOpen := rfl

theorem WorkerInv.parkOpen_of_not_mem (hi : WorkerInv s) (ht : t < s.sleeper.numWorkers)
    (hm : t ∉ s.sleeper.idleList) : s.parkOpen = 1 := by
  have := length_le_of_nodup (List.nodup_cons.mpr ⟨hm, hi.nodup⟩)
    fun i hi' => (List.mem_cons.mp hi').elim (· ▸ ht) (hi.lt i)
  simp only [Shared.parkOpen, List.length_cons] at this ⊢
  rw [if_pos (.inl (by omega))]

theorem WorkerInv.parkOpen_of_owner (hi : WorkerInv s) (ho : s.owner = some t) :
    s.parkOpen = 1 := by
  have ha := hi.active
  have hl : s.sleeper.idleList.length < s.sleeper.numWorkers ∨ s.owed = -1 := by
    rcases (hi.owner t).mp ho with hp | hp
    · simp only [Shared.owed, ho, hp] at ha
      exact .inl (by omega)
    · exact .inr (by simp [Shared.owed, ho, hp])
  exact if_pos hl

theorem WorkerInv.parkOpen_step (hi : WorkerInv s) {a : Act} (ha : WorkerCaller s t a)
    (h : s.step t a = some s') :
    s'.parkOpen + (s.parksLast t a).toNat ≤ s.parkOpen + (s.wakes t a).toNat := by
  obtain ⟨hany, -⟩ := ha
  have hle := s'.parkOpen_le
  cases a with
  | popWorker | tryIncSearchingNum =>
    simp only [Shared.step, Record.loadState_eq] at h
    split_ifs at h with h1 h2 <;> cases h <;>
      simp [Shared.parksLast, Shared.wakes, Shared.parkOpen_setPc (hi.owner_ne (t := t) (by simp [h1]))]
  | pushWorker i =>
    simp only [Shared.step] at h
    split_ifs at h
    cases h
    simp only [Shared.parksLast, Shared.wakes, hi.parkOpen_of_not_mem hany.1 hany.2]
    exact Nat.add_le_add hle le_rfl
  | decSearchingNum =>
    simp only [Shared.step] at h
    split_ifs at h
    cases h
    simp [Shared.parksLast, Shared.wakes]
  | resume =>
    simp only [Shared.step] at h
    cases hp : s.pc t <;> simp only [hp] at h
    case idle => cases h
    case popChecked =>
      split_ifs at h with ho
      rcases hl : s.sleeper.idleList with _ | ⟨i, rest⟩ <;> simp only [hl, Option.some.injEq] at h <;>
        subst h <;> simp only [Shared.parksLast, Shared.wakes, hp, hl]
      · rw [Shared.parkOpen_setPc (by simp [ho])]
      · simp only [Bool.toNat_false, Bool.toNat_true]
        omega
    case popped =>
      obtain rfl := Option.some.inj h
      simp only [Shared.parksLast, Shared.wakes, hp, hi.parkOpen_of_owner ((hi.owner t).mpr (.inl hp))]
      exact Nat.add_le_add hle le_rfl
    case pushed =>
      obtain rfl := Option.some.inj h
      have ha := hi.active
      simp only [Shared.owed, (hi.owner t).mpr (.inr hp), hp] at ha
      simp only [Shared.parksLast, Shared.wakes, hp, hi.parkOpen_of_owner ((hi.owner t).mpr (.inr hp)),
        Record.decActiveNum_fst]
      by_cases h1 : s.sleeper.record.word.toNat / 2 ^ 16 = 1
      · have : (((s.setPc t .idle).setRecord s.sleeper.record.decActiveNum.2).setOwner none).parkOpen
            = 0 := by
          show (if s.sleeper.idleList.length < s.sleeper.numWorkers ∨ (0 : Int) = -1 then 1 else 0) = 0
          rw [if_neg (by omega)]
        rw [this, h1]
        decide
      · rw [decide_eq_false h1]
        exact Nat.add_le_add hle le_rfl
    case incChecked =>
      obtain rfl := Option.some.inj h
      simp [Shared.parksLast, Shared.wakes, hp,
        Shared.parkOpen_setPc (hi.owner_ne (t := t) (by simp [hp]))]

end Steps

theorem Shared.Trace.parks_add_parkOpen_le {n : Nat} (hn : n < 2 ^ 16) {s₀ s : Shared}
    {parks wakes : Nat} (h₀ : Reach WorkerCaller n s₀) (h : Trace WorkerCaller s₀ s parks wakes) :
    parks + s.parkOpen ≤ wakes + s₀.parkOpen := by
  induction h with
  | refl => exact le_rfl
  | step t a hr ha hs ih =>
    have := ((hr.reach h₀).workerInv hn).parkOpen_step ha hs
    omega

/-- With the runtime's callers, in any stretch of any run of `Sleeper::new(n)`, the
`push_worker` calls that return true outnumber the `pop_worker` calls that take a worker by
at most one: between two last parks a worker is woken, so one worker drives at a time. -/
theorem last_parks_le_wakes_add_one {n : Nat} (hn : n < 2 ^ 16) {s₀ s : Shared}
    {parks wakes : Nat} (h₀ : Reach WorkerCaller n s₀)
    (h : Shared.Trace WorkerCaller s₀ s parks wakes) : parks ≤ wakes + 1 := by
  have := h.parks_add_parkOpen_le hn h₀
  have := s₀.parkOpen_le
  omega

/-- `Sleeper::new(1)`: worker 0 parks, and its `push_worker` returns true. -/
theorem one_worker_parks_last :
    ∃ s, Shared.Trace WorkerCaller (Shared.init 1) s 1 0 ∧ 1 ≤ 0 + 1 := by
  have h₁ : Shared.Trace WorkerCaller (Shared.init 1) _ _ _ :=
    .step 0 (.pushWorker 0) .refl ⟨⟨by decide, List.not_mem_nil 0⟩, trivial⟩ rfl
  have h₂ := Shared.Trace.step 0 .resume h₁ ⟨trivial, trivial⟩ rfl
  exact ⟨_, h₂, last_parks_le_wakes_add_one (by decide) .init h₂⟩

/-- With the runtime's callers, the searching count `load_state` reads is the number of
increments the workers hold, at most `n`. A worker holding one gets true from
`dec_searching_num` exactly when no other worker holds one: it is the last searching thread. -/
theorem dec_searching_num_returns_last {n : Nat} (hn : n < 2 ^ 16) {s : Shared}
    (hs : Reach WorkerCaller n s) :
    s.sleeper.record.loadState.2 = ∑ u ∈ Finset.range n, s.held u ∧
      s.sleeper.record.loadState.2 ≤ n ∧
      ∀ t < n, 0 < s.held t →
        (s.sleeper.record.decSearchingNum.1 = true ↔ ∀ u < n, u ≠ t → s.held u = 0) := by
  have hi := hs.workerInv hn
  have hN := hs.numWorkers
  have hsum : s.sleeper.record.word.toNat % 2 ^ 16 = ∑ u ∈ Finset.range n, s.held u :=
    hN ▸ hi.searching
  have hle := hi.searching_le
  rw [hN, hsum] at hle
  simp only [Record.loadState_eq, Record.decSearchingNum_fst, decide_eq_true_iff, hsum]
  refine ⟨trivial, hle, fun t ht hh => ?_⟩
  rw [Finset.sum_eq_add_sum_diff_singleton (Finset.mem_range.mpr ht),
    le_antisymm (hi.heldLe t) hh, add_right_eq_self, Finset.sum_eq_zero_iff]
  simp only [Finset.mem_sdiff, Finset.mem_range, Finset.mem_singleton, and_imp]

/-- `Sleeper::new(2)` after worker 0's `try_inc_searching_num` returned true. -/
theorem one_searcher_returns_last :
    ∃ s, Reach WorkerCaller 2 s ∧ s.held 0 = 1 ∧
      s.sleeper.record.loadState.2 = ∑ u ∈ Finset.range 2, s.held u ∧
      s.sleeper.record.loadState.2 ≤ 2 ∧
      ∀ t < 2, 0 < s.held t →
        (s.sleeper.record.decSearchingNum.1 = true ↔ ∀ u < 2, u ≠ t → s.held u = 0) := by
  have h₁ : Reach WorkerCaller 2 _ :=
    .step 0 .tryIncSearchingNum .init ⟨trivial, by decide, rfl⟩ rfl
  have h₂ := Reach.step 0 .resume h₁ ⟨trivial, trivial⟩ rfl
  exact ⟨_, h₂, rfl, dec_searching_num_returns_last (by decide) h₂⟩

section IsParked

variable {s s' : Shared} {t : Nat} {a : Act}

theorem Shared.step_idleList (h : s.step t a = some s') :
    (∃ i, a = .pushWorker i ∧ s.popped t a = none ∧ s'.sleeper.idleList = i :: s.sleeper.idleList) ∨
      (∃ i, s.popped t a = some i ∧ s.sleeper.idleList = i :: s'.sleeper.idleList) ∨
      ((∀ i, a ≠ .pushWorker i) ∧ s.popped t a = none ∧
        s'.sleeper.idleList = s.sleeper.idleList) := by
  cases a with
  | popWorker | tryIncSearchingNum =>
    simp only [Shared.step, Record.loadState_eq] at h
    split_ifs at h <;> cases h <;> simp [Shared.popped]
  | pushWorker i =>
    simp only [Shared.step] at h
    split_ifs at h
    cases h
    exact .inl ⟨i, rfl, rfl, rfl⟩
  | decSearchingNum =>
    simp only [Shared.step] at h
    split_ifs at h
    cases h
    simp [Shared.popped]
  | resume =>
    simp only [Shared.step] at h
    cases hp : s.pc t <;> simp only [hp] at h
    case idle => cases h
    case popChecked =>
      split_ifs at h
      rcases hl : s.sleeper.idleList with _ | ⟨i, rest⟩ <;> simp only [hl, Option.some.injEq] at h <;>
        subst h
      · exact .inr (.inr ⟨nofun, by simp [Shared.popped, hp, hl], by simp [hl]⟩)
      · exact .inr (.inl ⟨i, by simp [Shared.popped, hp, hl], by simp⟩)
    -- `rw`, not `simp`: the kernel would check `simp`'s unfolding through the record arithmetic
    case popped | pushed =>
      obtain rfl := Option.some.inj h
      exact .inr (.inr ⟨nofun, by simp [Shared.popped, hp], by
        rw [Shared.setOwner_sleeper, Shared.setRecord_sleeper_idleList, Shared.setPc_sleeper]⟩)
    case incChecked =>
      obtain rfl := Option.some.inj h
      exact .inr (.inr ⟨nofun, by simp [Shared.popped, hp], by
        rw [Shared.setHeld_sleeper, Shared.setRecord_sleeper_idleList, Shared.setPc_sleeper]⟩)

theorem Shared.isParked_of_popped {x : Nat} (h : s.popped t a = some x) :
    s.sleeper.isParked x = true := by
  cases a <;> simp only [Shared.popped, reduceCtorEq] at h
  split at h <;> simp only [Option.some.injEq, reduceCtorEq] at h
  subst h
  simp [Sleeper.isParked, *]

theorem Shared.isParked_step (hd : s.sleeper.idleList.Nodup) (h : s.step t a = some s')
    (x : Nat) : s'.sleeper.isParked x =
      (decide (a = .pushWorker x) || s.sleeper.isParked x && decide (s.popped t a ≠ some x)) := by
  rcases Shared.step_idleList h with ⟨i, rfl, hp, hl⟩ | ⟨i, hp, hl⟩ | ⟨hne, hp, hl⟩
  · simp [Sleeper.isParked, hl, hp, eq_comm]
  · rw [hl, List.nodup_cons] at hd
    have ha : ∀ y, a ≠ .pushWorker y := by
      rintro y rfl
      simp [Shared.popped] at hp
    by_cases hx : x = i
    · simp [Sleeper.isParked, hl, hp, ha, hx, hd.1]
    · simp [Sleeper.isParked, hl, hp, ha, hx, Ne.symm hx]
  · simp [Sleeper.isParked, hl, hp, hne]

theorem Runs.isParked {allowed : Shared → Nat → Act → Prop} {x : Nat}
    (hr : Runs (fun s t a => allowed s t a ∧ s.popped t a ≠ some x) s s')
    (hx : s.sleeper.isParked x = true) : s'.sleeper.isParked x = true := by
  induction hr with
  | refl => exact hx
  | step t a _ ha hs ih =>
    rcases Shared.step_idleList hs with ⟨i, _, _, hl⟩ | ⟨i, hp, hl⟩ | ⟨_, _, hl⟩ <;>
      simp only [Sleeper.isParked, List.elem_iff, List.contains] at ih ⊢ <;> rw [hl] at *
    · exact List.mem_cons_of_mem i ih
    · exact (List.mem_cons.mp ih).resolve_left fun he => ha.2 (he ▸ hp)
    · exact ih

end IsParked

/-- With the runtime's callers of `Sleeper::new(n)`, in every reachable state: after any
step, `is_parked(x)` reads true exactly when the step is `push_worker(x)`, or it read true and
the step is not a `pop_worker` returning `x`; a `pop_worker` returns only a parked worker; and
in every run whose steps return `x` from no `pop_worker`, `is_parked(x)` stays true. -/
theorem is_parked_until_popped {n : Nat} (hn : n < 2 ^ 16) {s : Shared}
    (hs : Reach WorkerCaller n s) :
    (∀ {t a s'} (x : Nat), s.step t a = some s' → s'.sleeper.isParked x =
        (decide (a = .pushWorker x) || s.sleeper.isParked x && decide (s.popped t a ≠ some x))) ∧
      (∀ {t a} {x : Nat}, s.popped t a = some x → s.sleeper.isParked x = true) ∧
      ∀ {s'} (x : Nat), Runs (fun s t a => WorkerCaller s t a ∧ s.popped t a ≠ some x) s s' →
        s.sleeper.isParked x = true → s'.sleeper.isParked x = true :=
  ⟨fun x h => Shared.isParked_step (hs.workerInv hn).nodup h x, Shared.isParked_of_popped,
    fun _ hr hx => hr.isParked hx⟩

/-- `Sleeper::new(2)` after worker 1's `push_worker`: worker 1 is parked. -/
theorem pushed_worker_parked :
    ∃ s, Reach WorkerCaller 2 s ∧ s.sleeper.isParked 1 = true ∧
      (∀ {t a s'} (x : Nat), s.step t a = some s' → s'.sleeper.isParked x =
        (decide (a = .pushWorker x) || s.sleeper.isParked x && decide (s.popped t a ≠ some x))) ∧
      (∀ {t a} {x : Nat}, s.popped t a = some x → s.sleeper.isParked x = true) ∧
      ∀ {s'} (x : Nat), Runs (fun s t a => WorkerCaller s t a ∧ s.popped t a ≠ some x) s s' →
        s.sleeper.isParked x = true → s'.sleeper.isParked x = true := by
  have h₁ : Reach WorkerCaller 2 _ :=
    .step 1 (.pushWorker 1) .init ⟨⟨by decide, List.not_mem_nil 1⟩, trivial⟩ rfl
  have h₂ : Reach WorkerCaller 2 _ := .step 1 .resume h₁ ⟨trivial, trivial⟩ rfl
  exact ⟨_, h₂, by simp [Sleeper.isParked, Shared.init, Sleeper.new], is_parked_until_popped (by decide) h₂⟩

end YlongRuntime
