import YlongRuntime.Executor.Sleeper

/-! The counts of a `Sleeper` under the runtime's callers: the active field is
`n - |idle_list|` up to what the mutex holder still owes it, and the searching field counts
the workers that hold an increment. -/

namespace YlongRuntime

/-- What the mutex holder still owes the active field: `+1` after a pop, `-1` after a push. -/
def Shared.owed (s : Shared) : Int :=
  match s.owner with
  | some t =>
    match s.pc t with
    | .popped => 1
    | .pushed => -1
    | _ => 0
  | none => 0

theorem Shared.neg_one_le_owed (s : Shared) : -1 ≤ s.owed := by
  unfold Shared.owed; split <;> (try split) <;> omega

theorem sum_update_range {f : Nat → Nat} {t n : Nat} (ht : t < n) (b : Nat) :
    ∑ u ∈ Finset.range n, Function.update f t b u + f t = ∑ u ∈ Finset.range n, f u + b := by
  have hm := Finset.mem_range.mpr ht
  rw [Finset.sum_update_of_mem hm, Finset.sum_eq_add_sum_diff_singleton hm]
  omega

theorem sum_range_le {f : Nat → Nat} (h : ∀ u, f u ≤ 1) (n : Nat) :
    ∑ u ∈ Finset.range n, f u ≤ n := by
  simpa using Finset.sum_le_card_nsmul (Finset.range n) f 1 (fun u _ => h u)

theorem toFinset_subset_range {l : List Nat} {n : Nat} (hl : ∀ i ∈ l, i < n) :
    l.toFinset ⊆ Finset.range n :=
  fun i hi => Finset.mem_range.mpr (hl i (List.mem_toFinset.mp hi))

theorem length_le_of_nodup {l : List Nat} {n : Nat} (hd : l.Nodup) (hl : ∀ i ∈ l, i < n) :
    l.length ≤ n := by
  rw [← List.toFinset_card_of_nodup hd, ← Finset.card_range n]
  exact Finset.card_le_card (toFinset_subset_range hl)

/-- A list of distinct workers has length `n` exactly when every worker is in it. -/
theorem length_eq_iff_mem {l : List Nat} {n : Nat} (hd : l.Nodup) (hl : ∀ i ∈ l, i < n) :
    l.length = n ↔ ∀ i < n, i ∈ l := by
  rw [← List.toFinset_card_of_nodup hd]
  constructor
  · intro h i hi
    have := Finset.eq_of_subset_of_card_le (toFinset_subset_range hl) (by simp [h])
    exact List.mem_toFinset.mp (this ▸ Finset.mem_range.mpr hi)
  · intro h
    rw [Finset.Subset.antisymm (toFinset_subset_range hl)
      fun i hi => List.mem_toFinset.mpr (h i (Finset.mem_range.mp hi))]
    simp

/-- What holds of every state the runtime's callers reach: the shape of `idle_list`, each thread's
bookkeeping, and the two fields of the record. -/
structure WorkerInv (s : Shared) : Prop where
  nodup : s.sleeper.idleList.Nodup
  lt : ∀ i ∈ s.sleeper.idleList, i < s.sleeper.numWorkers
  heldLe : ∀ t, s.held t ≤ 1
  incChecked : ∀ t, s.pc t = .incChecked → s.held t = 0
  owner : ∀ t, s.owner = some t ↔ (s.pc t = .popped ∨ s.pc t = .pushed)
  searching : s.sleeper.record.word.toNat % 2 ^ 16 =
    ∑ t ∈ Finset.range s.sleeper.numWorkers, s.held t
  active : (s.sleeper.record.word.toNat / 2 ^ 16 : Int) + s.owed + s.sleeper.idleList.length =
    s.sleeper.numWorkers
  small : s.sleeper.numWorkers < 2 ^ 16
  pushedNe : ∀ t, s.pc t = .pushed → s.sleeper.idleList ≠ []
  searcherLt : ∀ t, 0 < s.held t ∨ s.pc t = .incChecked → t < s.sleeper.numWorkers

theorem workerInv_init {n : Nat} (hn : n < 2 ^ 16) : WorkerInv (Shared.init n) where
  nodup := List.nodup_nil
  lt := by simp [Shared.init, Sleeper.new]
  heldLe := by simp [Shared.init]
  incChecked := by simp [Shared.init]
  owner := by simp [Shared.init]
  searching := by simp [Shared.init, Sleeper.new, Record.new_toNat (w := 64) (by omega : n < 2 ^ 48)]
  active := by
    simp [Shared.init, Sleeper.new, Record.new_toNat (w := 64) (by omega : n < 2 ^ 48), Shared.owed]
  small := hn
  pushedNe := by simp [Shared.init]
  searcherLt := by simp [Shared.init]

section Steps

variable {s : Shared} {t : Nat}

theorem WorkerInv.owner_ne (hi : WorkerInv s) (h : s.pc t ≠ .popped ∧ s.pc t ≠ .pushed) :
    s.owner ≠ some t :=
  fun e => by rcases (hi.owner t).mp e with e' | e' <;> simp_all

theorem WorkerInv.length_le (hi : WorkerInv s) :
    s.sleeper.idleList.length ≤ s.sleeper.numWorkers :=
  length_le_of_nodup hi.nodup hi.lt

theorem WorkerInv.searching_le (hi : WorkerInv s) :
    s.sleeper.record.word.toNat % 2 ^ 16 ≤ s.sleeper.numWorkers :=
  hi.searching ▸ sum_range_le hi.heldLe _

theorem WorkerInv.word_lt (hi : WorkerInv s) : s.sleeper.record.word.toNat < 2 ^ 33 := by
  have := hi.active
  have := hi.small
  have := s.neg_one_le_owed
  omega

theorem owed_setPc {t : Nat} (h : s.owner ≠ some t) (p : Pc) : (s.setPc t p).owed = s.owed := by
  rcases ho : s.owner with _ | u
  · simp [Shared.owed, ho]
  · have : u ≠ t := fun e => h (by rw [ho, e])
    simp [Shared.owed, ho, Function.update_noteq this]

theorem WorkerInv.incChecked_setPc (hi : WorkerInv s) {p : Pc} (hp : p ≠ .incChecked) (u : Nat)
    (h : Function.update s.pc t p u = .incChecked) : s.held u = 0 := by
  by_cases hu : u = t
  · subst hu; simp [hp] at h
  · exact hi.incChecked u (by rwa [Function.update_noteq hu] at h)

theorem WorkerInv.searcherLt_setPc (hi : WorkerInv s) {p : Pc} (hp : p ≠ .incChecked) (u : Nat)
    (h : 0 < s.held u ∨ Function.update s.pc t p u = .incChecked) : u < s.sleeper.numWorkers := by
  by_cases hu : u = t
  · subst hu; simp only [Function.update_same, hp, or_false] at h; exact hi.searcherLt u (.inl h)
  · exact hi.searcherLt u (by rwa [Function.update_noteq hu] at h)

theorem WorkerInv.owner_setPc (hi : WorkerInv s) (ht : s.pc t ≠ .popped ∧ s.pc t ≠ .pushed)
    {p : Pc} (hp : p ≠ .popped ∧ p ≠ .pushed) (u : Nat) :
    s.owner = some u ↔ (Function.update s.pc t p u = .popped ∨ Function.update s.pc t p u = .pushed) := by
  by_cases hu : u = t
  · subst hu; simpa [hp.1, hp.2] using hi.owner_ne ht
  · rw [Function.update_noteq hu]; exact hi.owner u

theorem WorkerInv.owner_acquire (hi : WorkerInv s) (ho : s.owner = none) {p : Pc}
    (hp : p = .popped ∨ p = .pushed) (u : Nat) :
    some t = some u ↔ (Function.update s.pc t p u = .popped ∨ Function.update s.pc t p u = .pushed) := by
  by_cases hu : u = t
  · subst hu; simpa using hp
  · have := hi.owner u
    simp only [ho, reduceCtorEq, false_iff] at this
    simpa [Function.update_noteq hu, Ne.symm hu] using this

theorem WorkerInv.owner_release (hi : WorkerInv s) (ho : s.owner = some t) (u : Nat) :
    (none : Option Nat) = some u ↔
      (Function.update s.pc t .idle u = .popped ∨ Function.update s.pc t .idle u = .pushed) := by
  by_cases hu : u = t
  · subst hu; simp
  · have := hi.owner u
    simp only [ho, Option.some.injEq, Ne.symm hu, false_iff] at this
    simpa [Function.update_noteq hu] using this

/-- A thread moves between points of its call at which it holds no mutex, changing nothing
else. -/
theorem WorkerInv.setPc (hi : WorkerInv s) {p : Pc} (ht : s.pc t ≠ .popped ∧ s.pc t ≠ .pushed)
    (hp : p ≠ .popped ∧ p ≠ .pushed) (hc : p = .incChecked → s.held t = 0 ∧ t < s.sleeper.numWorkers) :
    WorkerInv (s.setPc t p) where
  nodup := hi.nodup
  lt := hi.lt
  heldLe := hi.heldLe
  incChecked u h := by
    by_cases hu : u = t
    · subst hu; exact (hc (by simpa using h)).1
    · exact hi.incChecked u (by simpa [Function.update_noteq hu] using h)
  owner := hi.owner_setPc ht hp
  searching := hi.searching
  active := by rw [owed_setPc (hi.owner_ne ht)]; exact hi.active
  small := hi.small
  pushedNe u h := by
    by_cases hu : u = t
    · subst hu; simp [hp.2] at h
    · exact hi.pushedNe u (by simpa [Function.update_noteq hu] using h)
  searcherLt u h := by
    by_cases hu : u = t
    · subst hu
      rcases h with h | h
      · exact hi.searcherLt u (.inl h)
      · exact (hc (by simpa using h)).2
    · exact hi.searcherLt u (by simpa [Function.update_noteq hu] using h)

/-- `pop_worker` takes the mutex and pops the head of `idle_list`. -/
theorem WorkerInv.pop (hi : WorkerInv s) (ho : s.owner = none) {i : Nat} {rest : List Nat}
    (hl : s.sleeper.idleList = i :: rest) :
    WorkerInv (((s.setPc t .popped).setIdleList rest).setOwner (some t)) where
  nodup := (hl ▸ hi.nodup).of_cons
  lt i' hi' := hi.lt i' (by rw [hl]; exact List.mem_cons_of_mem _ hi')
  heldLe := hi.heldLe
  incChecked := hi.incChecked_setPc (by decide)
  owner := hi.owner_acquire ho (.inl rfl)
  pushedNe u h := by
    by_cases hu : u = t
    · subst hu; simp at h
    · have := (hi.owner u).mpr (.inr (by simpa [Function.update_noteq hu] using h))
      simp [ho] at this
  searcherLt := hi.searcherLt_setPc (by decide)
  searching := hi.searching
  active := by
    have ha := hi.active
    simp only [Shared.owed, ho, hl, List.length_cons] at ha
    simp only [Shared.owed, Shared.setOwner_owner, Shared.setOwner_pc, Shared.setIdleList_pc,
      Shared.setPc_pc, Function.update_same, Shared.setOwner_sleeper,
      Shared.setIdleList_sleeper_record, Shared.setIdleList_sleeper_idleList,
      Shared.setIdleList_sleeper_numWorkers, Shared.setPc_sleeper]
    push_cast at ha ⊢
    omega
  small := hi.small

/-- `push_worker(i)` by thread `t` takes the mutex and pushes `i`. -/
theorem WorkerInv.push (hi : WorkerInv s) (ho : s.owner = none) {i : Nat}
    (hin : i < s.sleeper.numWorkers) (hm : i ∉ s.sleeper.idleList) :
    WorkerInv (((s.setPc t .pushed).setIdleList (i :: s.sleeper.idleList)).setOwner (some t)) where
  nodup := List.nodup_cons.mpr ⟨hm, hi.nodup⟩
  lt j hj := by
    rcases List.mem_cons.mp hj with rfl | hj
    · exact hin
    · exact hi.lt j hj
  heldLe := hi.heldLe
  incChecked := hi.incChecked_setPc (by decide)
  owner := hi.owner_acquire ho (.inr rfl)
  pushedNe _ _ := List.cons_ne_nil _ _
  searcherLt := hi.searcherLt_setPc (by decide)
  searching := hi.searching
  active := by
    have ha := hi.active
    simp only [Shared.owed, ho] at ha
    simp [Shared.owed]
    omega
  small := hi.small

/-- The mutex holder pays what it owes the active field and unlocks. -/
theorem WorkerInv.release (hi : WorkerInv s) (ho : s.owner = some t) {r : Record 64}
    (hr : (r.word.toNat : Int) = s.sleeper.record.word.toNat + 2 ^ 16 * s.owed) :
    WorkerInv (((s.setPc t .idle).setRecord r).setOwner none) where
  nodup := hi.nodup
  lt := hi.lt
  heldLe := hi.heldLe
  incChecked := hi.incChecked_setPc (by decide)
  owner := hi.owner_release ho
  pushedNe u h := absurd ((hi.owner_release ho u).mpr (.inr h)) (by simp)
  searcherLt := hi.searcherLt_setPc (by decide)
  searching := by
    have := hi.searching
    simp only [Shared.setOwner_sleeper, Shared.setRecord_sleeper_record,
      Shared.setRecord_sleeper_numWorkers, Shared.setPc_sleeper, Shared.setOwner_held,
      Shared.setRecord_held, Shared.setPc_held]
    omega
  active := by
    have := hi.active
    simp only [Shared.owed, Shared.setOwner_owner, Shared.setOwner_sleeper,
      Shared.setRecord_sleeper_record, Shared.setRecord_sleeper_idleList,
      Shared.setRecord_sleeper_numWorkers, Shared.setPc_sleeper]
    omega
  small := hi.small

/-- `pop_worker` increments the active field and unlocks. -/
theorem WorkerInv.incActive (hi : WorkerInv s) (ht : s.pc t = .popped) :
    WorkerInv (((s.setPc t .idle).setRecord s.sleeper.record.incActiveNum).setOwner none) := by
  have ho := (hi.owner t).mpr (.inl ht)
  have ho' : s.owed = 1 := by simp [Shared.owed, ho, ht]
  have := hi.active
  have := hi.searching_le
  have := hi.small
  refine hi.release ho ?_
  rw [s.sleeper.record.incActiveNum_toNat (by omega), ho']
  omega

/-- `push_worker` decrements the active field and unlocks; the field it reads is positive. -/
theorem WorkerInv.decActive (hi : WorkerInv s) (ht : s.pc t = .pushed) :
    WorkerInv (((s.setPc t .idle).setRecord s.sleeper.record.decActiveNum.2).setOwner none) := by
  have ho := (hi.owner t).mpr (.inr ht)
  have ho' : s.owed = -1 := by simp [Shared.owed, ho, ht]
  have := hi.active
  have := hi.length_le
  refine hi.release ho ?_
  rw [s.sleeper.record.decActiveNum_toNat (by omega), ho']
  omega

/-- A thread holding no mutex changes the searching field and its own count of increments
by the same amount. -/
theorem WorkerInv.search (hi : WorkerInv s) (ht : s.pc t ≠ .incChecked)
    (htn : t < s.sleeper.numWorkers) {r : Record 64} {k : Nat} (hk : k ≤ 1)
    (hr : (r.word.toNat : Int) = s.sleeper.record.word.toNat + k - s.held t) :
    WorkerInv ((s.setRecord r).setHeld t k) := by
  have hle : ∀ u, Function.update s.held t k u ≤ 1 := fun u => by
    by_cases hu : u = t
    · subst hu; simpa using hk
    · rw [Function.update_noteq hu]; exact hi.heldLe u
  have hsum := sum_update_range (f := s.held) htn k
  have := sum_range_le hle s.sleeper.numWorkers
  have := Finset.single_le_sum (fun u _ => Nat.zero_le (s.held u)) (Finset.mem_range.mpr htn)
  have := hi.searching
  have := hi.active
  have := hi.small
  exact {
    nodup := hi.nodup
    lt := hi.lt
    heldLe := hle
    incChecked := fun u hu => by
      by_cases h : u = t
      · subst h; exact absurd hu ht
      · simpa [Function.update_noteq h] using hi.incChecked u hu
    owner := hi.owner
    pushedNe := hi.pushedNe
    searcherLt := fun u hu => by
      by_cases h : u = t
      · subst h; exact htn
      · exact hi.searcherLt u (by simpa [Function.update_noteq h] using hu)
    searching := by
      show r.word.toNat % 2 ^ 16 =
        ∑ u ∈ Finset.range s.sleeper.numWorkers, Function.update s.held t k u
      omega
    active := by
      show (r.word.toNat / 2 ^ 16 : Int) + s.owed + s.sleeper.idleList.length =
        s.sleeper.numWorkers
      omega
    small := hi.small }

/-- `try_inc_searching_num` increments the searching field. -/
theorem WorkerInv.incSearching (hi : WorkerInv s) (ht : s.pc t = .incChecked) :
    WorkerInv (((s.setPc t .idle).setRecord s.sleeper.record.incSearchingNum).setHeld t
      (s.held t + 1)) := by
  have h0 := hi.incChecked t ht
  have hi' := hi.setPc (t := t) (p := .idle) (by simp [ht]) (by decide) (by simp)
  have := hi.word_lt
  refine hi'.search (k := s.held t + 1) (by simp) (hi.searcherLt t (.inr ht)) (by omega) ?_
  simp only [Shared.setPc_sleeper, Shared.setPc_held, h0]
  rw [s.sleeper.record.incSearchingNum_toNat (by omega)]
  omega

/-- `dec_searching_num` by a thread holding an increment. -/
theorem WorkerInv.decSearching (hi : WorkerInv s) (ht : s.pc t = .idle) (hh : 0 < s.held t) :
    WorkerInv ((s.setRecord s.sleeper.record.decSearchingNum.2).setHeld t (s.held t - 1)) := by
  have htn := hi.searcherLt t (.inl hh)
  have := hi.heldLe t
  have := Finset.single_le_sum (fun u _ => Nat.zero_le (s.held u)) (Finset.mem_range.mpr htn)
  have := hi.searching
  refine hi.search (k := s.held t - 1) (by simp [ht]) htn (by omega) ?_
  rw [s.sleeper.record.decSearchingNum_toNat (by omega)]
  omega

/-- Every step the runtime's callers may take keeps the invariant. -/
theorem WorkerInv.step (hi : WorkerInv s) {a : Act} {s' : Shared} (ha : WorkerCaller s t a)
    (h : s.step t a = some s') : WorkerInv s' := by
  obtain ⟨hany, hw⟩ := ha
  cases a with
  | popWorker =>
    simp only [Shared.step, Record.loadState_eq] at h
    split_ifs at h with h1 h2 <;> cases h
    · exact hi
    · exact hi.setPc (by simp [h1]) (by decide) (by simp)
  | pushWorker i =>
    simp only [Shared.step] at h
    split_ifs at h with h1
    cases h
    exact hi.push h1.2 hany.1 hany.2
  | tryIncSearchingNum =>
    simp only [Shared.step, Record.loadState_eq] at h
    split_ifs at h with h1 h2 <;> cases h
    · exact hi.setPc (by simp [h1]) (by decide) (fun _ => ⟨hw.2, hw.1⟩)
    · exact hi
  | decSearchingNum =>
    simp only [Shared.step] at h
    split_ifs at h with h1
    cases h
    exact hi.decSearching h1 hany
  | resume =>
    simp only [Shared.step] at h
    cases hp : s.pc t <;> simp only [hp] at h
    · cases h
    · split_ifs at h with ho
      split at h <;> cases h
      · exact hi.setPc (by simp [hp]) (by decide) (by simp)
      · exact hi.pop ho ‹_›
    · obtain rfl := Option.some.inj h; exact hi.incActive hp
    · obtain rfl := Option.some.inj h; exact hi.decActive hp
    · obtain rfl := Option.some.inj h; exact hi.incSearching hp

end Steps

theorem Shared.step_numWorkers {s s' : Shared} {t : Nat} {a : Act} (h : s.step t a = some s') :
    s'.sleeper.numWorkers = s.sleeper.numWorkers := by
  cases a <;> simp only [Shared.step, Record.loadState_eq] at h
  case resume =>
    cases hp : s.pc t <;> simp only [hp, Option.some.injEq] at h
    · cases h
    · split_ifs at h
      split at h <;> simp only [Option.some.injEq] at h <;> (rw [← h]; rfl)
    · rw [← h, Shared.setOwner_sleeper, Shared.setRecord_sleeper_numWorkers, Shared.setPc_sleeper]
    · rw [← h, Shared.setOwner_sleeper, Shared.setRecord_sleeper_numWorkers, Shared.setPc_sleeper]
    · rw [← h, Shared.setHeld_sleeper, Shared.setRecord_sleeper_numWorkers, Shared.setPc_sleeper]
  all_goals split_ifs at h <;> simp only [Option.some.injEq] at h <;> (rw [← h] <;> rfl)

theorem Reach.numWorkers {allowed : Shared → Nat → Act → Prop} {n : Nat} {s : Shared}
    (hs : Reach allowed n s) : s.sleeper.numWorkers = n := by
  induction hs with
  | init => rfl
  | step _ _ _ _ h ih => rw [Shared.step_numWorkers h, ih]

theorem Reach.workerInv {n : Nat} (hn : n < 2 ^ 16) {s : Shared} (hs : Reach WorkerCaller n s) :
    WorkerInv s := by
  induction hs with
  | init => exact workerInv_init hn
  | step _ _ _ ha h ih => exact ih.step ha h

/-- With the runtime's callers, `Sleeper::new(n)` keeps its counts. While the mutex is free
the active count `load_state` reads is `n - |idle_list|`, and `idle_list` has no duplicates.
The active count never exceeds `n`. The `dec_active_num` of `push_worker` reads a positive
active count, and returns true exactly when every worker is in `idle_list`. -/
theorem worker_counts_consistent {n : Nat} (hn : n < 2 ^ 16) {s : Shared}
    (hs : Reach WorkerCaller n s) :
    (s.owner = none →
      s.sleeper.record.loadState.1 = n - s.sleeper.idleList.length ∧ s.sleeper.idleList.Nodup) ∧
    s.sleeper.record.loadState.1 ≤ n ∧
    ∀ t, s.pc t = .pushed →
      1 ≤ s.sleeper.record.loadState.1 ∧
      (s.sleeper.record.decActiveNum.1 = true ↔ ∀ i < n, i ∈ s.sleeper.idleList) := by
  have hi := hs.workerInv hn
  have hN := hs.numWorkers
  have ha := hi.active
  have hl := hi.length_le
  rw [hN] at ha hl
  simp only [Record.loadState_eq]
  refine ⟨fun ho => ⟨?_, hi.nodup⟩, ?_, fun t ht => ?_⟩
  · simp only [Shared.owed, ho] at ha
    omega
  · unfold Shared.owed at ha
    split at ha
    · rename_i u hu
      rcases hp : s.pc u <;> simp only [hp] at ha <;> try omega
      have := List.length_pos.mpr (hi.pushedNe u hp)
      omega
    · omega
  · have ho := (hi.owner t).mpr (.inr ht)
    simp only [Shared.owed, ho, ht] at ha
    rw [Record.decActiveNum_fst, decide_eq_true_iff, ← length_eq_iff_mem hi.nodup (hN ▸ hi.lt)]
    omega

/-- `Sleeper::new(2)`: thread 9 parks worker 1, and thread 5, which is no worker, wakes it. -/
theorem waker_pops_pushed_worker :
    ∃ s, Reach WorkerCaller 2 s ∧ s.sleeper.idleList = [] ∧
      (s.owner = none →
        s.sleeper.record.loadState.1 = 2 - s.sleeper.idleList.length ∧
          s.sleeper.idleList.Nodup) ∧
      s.sleeper.record.loadState.1 ≤ 2 ∧
      ∀ t, s.pc t = .pushed →
        1 ≤ s.sleeper.record.loadState.1 ∧
        (s.sleeper.record.decActiveNum.1 = true ↔ ∀ i < 2, i ∈ s.sleeper.idleList) := by
  have h : Reach WorkerCaller 2 _ :=
    .step 5 .resume (.step 5 .resume (.step 5 .popWorker (.step 9 .resume
      (.step 9 (.pushWorker 1) .init ⟨⟨by decide, List.not_mem_nil 1⟩, trivial⟩ rfl)
      ⟨trivial, trivial⟩ rfl) ⟨trivial, trivial⟩ rfl) ⟨trivial, trivial⟩ rfl) ⟨trivial, trivial⟩ rfl
  exact ⟨_, h, rfl, worker_counts_consistent (by decide) h⟩

/-- Threads `0 … k-1` passed the check of `try_inc_searching_num` on `Sleeper::new(1)`. -/
def checkedAll (k : Nat) : Shared :=
  { Shared.init 1 with pc := fun t => if t < k then .incChecked else .idle }

/-- Then threads `0 … j-1` of the first `2 ^ 16` incremented. -/
def incrementedAll (j : Nat) : Shared :=
  { Shared.init 1 with
    sleeper := { Sleeper.new 1 with record := ⟨BitVec.ofNat 64 (2 ^ 16 + j)⟩ },
    pc := fun t => if j ≤ t ∧ t < 2 ^ 16 then .incChecked else .idle,
    held := fun t => if t < j then 1 else 0 }

theorem reach_checkedAll : ∀ k, Reach AnyCaller 1 (checkedAll k)
  | 0 => by
    have : checkedAll 0 = Shared.init 1 := by simp [checkedAll, Shared.init]
    exact this ▸ .init
  | k + 1 => by
    refine .step k .tryIncSearchingNum (reach_checkedAll k) trivial ?_
    have hl : (Shared.init 1).sleeper.record.loadState = (1, 0) := by decide
    simp only [Shared.step, checkedAll, lt_irrefl, if_false, hl, if_true, Shared.setPc]
    rw [if_pos (by decide)]
    congr
    funext t
    by_cases h : t = k
    · subst h; simp
    · rw [Function.update_noteq h]
      exact if_congr (by omega) rfl rfl

theorem checkedAll_eq : checkedAll (2 ^ 16) = incrementedAll 0 := by
  simp only [checkedAll, incrementedAll, Shared.init, Sleeper.new, Nat.zero_le, true_and,
    Nat.not_lt_zero, if_false]
  rfl

theorem reach_incrementedAll : ∀ j, j ≤ 2 ^ 16 → Reach AnyCaller 1 (incrementedAll j)
  | 0, _ => checkedAll_eq ▸ reach_checkedAll _
  | j + 1, hj => by
    refine .step j .resume (reach_incrementedAll j (by omega)) trivial ?_
    have hp : (incrementedAll j).pc j = .incChecked := by simp [incrementedAll]; omega
    simp only [Shared.step, hp, Shared.setPc, Shared.setRecord, Shared.setHeld, Option.some.injEq]
    simp only [incrementedAll, Shared.init, Sleeper.new, Shared.mk.injEq, Sleeper.mk.injEq,
      true_and]
    refine ⟨⟨?_, trivial⟩, ?_, ?_⟩
    · simp only [Record.incSearchingNum, Record.mk.injEq]
      apply BitVec.eq_of_toNat_eq
      simp only [BitVec.toNat_add, BitVec.toNat_ofNat, Record.one_toNat]
      omega
    · funext t
      by_cases h : t = j
      · subst h; simp
      · rw [Function.update_noteq h]
        exact if_congr (by omega) rfl rfl
    · funext t
      by_cases h : t = j
      · subst h; simp
      · rw [Function.update_noteq h]
        exact if_congr (by omega) rfl rfl

/-- Why only the workers search: with one worker, `2 ^ 16` threads pass the check of
`try_inc_searching_num` before any of them increments. The searching field carries into the
active field: with the mutex free and `idle_list` empty, `load_state` reads two active
workers and none searching. -/
theorem searching_carries_into_active :
    ∃ s, Reach AnyCaller 1 s ∧ s.owner = none ∧ s.sleeper.idleList = [] ∧
      s.sleeper.record.loadState = (2, 0) :=
  ⟨_, reach_incrementedAll _ le_rfl, rfl, rfl, by decide⟩

end YlongRuntime
