import YlongRuntime.Fs.Passes

/-! How many passes the poll loops take. `poll_read` and `poll_seek` return within three
passes whatever jobs end between them; `poll_write` on a busy state discards `Pending`
and passes again without end. -/

namespace YlongRuntime

/-- A bound on the passes `poll_read` still takes from a state. -/
def readRank : FileState → Nat
  | .idle (some b) => if b.remaining = 0 then 2 else 1
  | .writing (.running _) | .writing (.finished _ _) => 3
  | .seeking (.running _) | .seeking (.finished _ _) => 3
  | _ => 1

/-- A bound on the passes `poll_seek` still takes from a state. -/
def seekRank : FileState → Nat
  | .idle (some _) => 2
  | .reading (.running _) | .reading (.finished _ _) => 3
  | .writing (.running _) | .writing (.finished _ _) => 3
  | .reading (.failed _) | .writing (.failed _) => 2
  | _ => 1

theorem readRank_idle_le (b : Option FileBuf) : readRank (.idle b) ≤ 2 := by
  rcases b with _ | b
  · decide
  · by_cases hb : b.remaining = 0 <;> simp [readRank, hb]

theorem readRank_pos (s : FileState) : 0 < readRank s := by
  unfold readRank; split <;> (try split) <;> omega

theorem seekRank_pos (s : FileState) : 0 < seekRank s := by
  unfold seekRank; split <;> omega

theorem readRank_le (s : FileState) : readRank s ≤ 3 := by
  unfold readRank; split <;> (try split) <;> omega

theorem seekRank_le (s : FileState) : seekRank s ≤ 3 := by
  unfold seekRank; split <;> omega

theorem readPass_next_rank {limit room : Nat} {i i' : FileInner}
    (h : readPass limit room i = .next i') : readRank i'.state < readRank i.state := by
  rcases i with ⟨s, e, idx⟩
  cases s with
  | idle b =>
    rcases b with _ | b
    · simp [readPass] at h
    · by_cases hb : b.remaining = 0 <;> simp [readPass, hb] at h
      subst h
      simp [readRank, hb]
  | reading h' | writing h' | seeking h' =>
    rcases h' with _ | ⟨_, _ | _⟩ | _ | _ <;> simp [readPass, JoinHandle.poll] at h <;> subst h <;>
      exact lt_of_le_of_lt (readRank_idle_le _) (by simp [readRank])

theorem seekPass_next_rank {pos pos' : SeekFrom} {i i' : FileInner}
    (h : seekPass (pos, i) = .next (pos', i')) : seekRank i'.state < seekRank i.state := by
  rcases i with ⟨s, e, idx⟩
  cases s with
  | idle b =>
    rcases b with _ | b <;> simp [seekPass] at h
    simp [← h.2, seekRank]
  | reading h' | writing h' | seeking h' =>
    rcases h' with _ | ⟨_, _ | _⟩ | _ | _ <;>
      simp [seekPass, FileState.poll, JoinHandle.poll, FileState.getOp, FileState.withHandle] at h <;>
      simp [← h.2, seekRank]

/-- A blocking job in `state` ends: it finishes, or its join fails. -/
inductive Settles (s : FileState) : FileState → Prop
  | finish {job : Job} (b : FileBuf) (r : Except ErrorKind Nat) :
      s.handle = some (.running job) → Settles s (s.withHandle (.finished b r))
  | fail {job : Job} (e : ErrorKind) :
      s.handle = some (.running job) → Settles s (s.withHandle (.failed e))

theorem Settles.readRank_le {s s' : FileState} (h : Settles s s') : readRank s' ≤ readRank s := by
  rcases h with ⟨b, r, hs⟩ | ⟨e, hs⟩ <;>
    rcases s with _ | _ | _ | _ <;> simp [FileState.handle] at hs <;> subst hs <;>
    simp [readRank, FileState.withHandle]

theorem Settles.seekRank_le {s s' : FileState} (h : Settles s s') : seekRank s' ≤ seekRank s := by
  rcases h with ⟨b, r, hs⟩ | ⟨e, hs⟩ <;>
    rcases s with _ | _ | _ | _ <;> simp [FileState.handle] at hs <;> subst hs <;>
    simp [seekRank, FileState.withHandle]

/-- While a call is between passes and no future holds the mutex, a step other than a pass
keeps both, and at most lets the job in `state` end. -/
theorem step_during_call {limit : Nat} {w w' : World} {a : Action} (hc : w.call.isSome)
    (hh : w.holder = none) (h : step limit w a = some w') (ha : a ≠ .pass) :
    w'.call = w.call ∧ w'.holder = none ∧
      (w'.inner.state = w.inner.state ∨ Settles w.inner.state w'.inner.state) := by
  have hf : w.free = false := by cases hw : w.call <;> simp_all [World.free]
  cases a with
  | pass => exact absurd rfl ha
  | begin _ | flush | lock _ => simp [YlongRuntime.step, hf] at h
  | resume | drop => simp [YlongRuntime.step, hh] at h
  | finish s φ =>
    rcases s with _ | _ | i <;> simp only [YlongRuntime.step] at h
    · split at h <;> cases h
      exact ⟨rfl, hh, .inr (.finish _ _ ‹_›)⟩
    · simp [hh] at h
    · cases hj : w.detached[i]? <;> simp [hj] at h
      exact ⟨by rw [← h], by rw [← h, hh], .inl (by rw [← h])⟩
  | fail s e =>
    rcases s with _ | _ | i <;> simp only [YlongRuntime.step] at h
    · split at h <;> cases h
      exact ⟨rfl, hh, .inr (.fail _ ‹_›)⟩
    · simp [hh] at h
    · cases hj : w.detached[i]? <;> simp [hj] at h
      exact ⟨by rw [← h], by rw [← h, hh], .inl (by rw [← h])⟩

/-- The call `poll_write`, the one whose loop has no bound. -/
def Call.isWrite : Call → Bool
  | .write _ => true
  | _ => false

def Action.isBegin : Action → Bool
  | .begin _ => true
  | _ => false

/-- The passes a call of `poll_read` or `poll_seek` may still take. -/
def World.passesLeft (w : World) : Nat :=
  match w.call with
  | some (.read _) => readRank w.inner.state
  | some (.seek _) => seekRank w.inner.state
  | _ => 0

theorem resume_call (w : World) (hd : Holder) : (resume w hd).call = w.call := by
  cases hd <;> simp only [YlongRuntime.resume] <;> split <;>
    (try simp only [YlongRuntime.setLenFlushed]; split) <;> rfl

/-- Only `begin` and a pass change the call in progress. -/
theorem step_call {limit : Nat} {w w' : World} {a : Action} (h : step limit w a = some w')
    (hp : a ≠ .pass) (hb : a.isBegin = false) : w'.call = w.call := by
  cases a with
  | begin c => cases hb
  | pass => exact absurd rfl hp
  | flush => obtain ⟨-, rfl⟩ := step_flush h; rfl
  | lock m => obtain ⟨-, rfl⟩ := step_lock h; rfl
  | resume =>
    simp only [YlongRuntime.step] at h
    cases hh : w.holder <;> simp [hh] at h
    rw [← h, resume_call]
  | drop =>
    simp only [YlongRuntime.step] at h
    cases hh : w.holder <;> simp [hh] at h
    rw [← h]
  | finish s φ | fail s φ =>
    rcases s with _ | _ | i <;> simp only [YlongRuntime.step] at h
    all_goals first
      | (split at h <;> cases h; rfl)
      | (cases hj : w.detached[i]? <;> simp [hj] at h; rw [← h])

theorem run_call_none {limit : Nat} :
    ∀ {w w' : World} {l : List Action}, w.call = none → (∀ a ∈ l, a.isBegin = false) →
      run limit w l = some w' → w'.call = none
  | _, _, [], hc, _, h => by cases h; exact hc
  | w, _, a :: as, hc, hl, h => by
    simp only [YlongRuntime.run] at h
    cases hs : YlongRuntime.step limit w a with
    | none => simp [hs] at h
    | some w₁ =>
      rw [hs, Option.some_bind] at h
      have hp : a ≠ .pass := by rintro rfl; simp [YlongRuntime.step, hc] at hs
      exact run_call_none (by rw [step_call hs hp (hl a (by simp)), hc])
        (fun a ha => hl a (by simp [ha])) h

/-- One step while a `poll_read` or `poll_seek` call is in progress: a pass that does not
return lowers the passes left, and nothing else raises them. -/
theorem step_passesLeft {limit : Nat} {w w' : World} {a : Action} {c c' : Call}
    (hc : w.call = some c) (hr : c.isWrite = false) (hh : w.holder = none)
    (h : step limit w a = some w') (hc' : w'.call = some c') :
    c'.isWrite = false ∧ w'.holder = none ∧
      (if a = .pass then 1 else 0) + w'.passesLeft ≤ w.passesLeft := by
  by_cases ha : a = .pass
  · subst ha
    rcases c with room | bytes | pos <;> simp only [YlongRuntime.step, hc] at h
    · split at h <;> rename_i heq <;> cases h
      · cases hc'
        have := readPass_next_rank heq
        simp [World.passesLeft, hc, hh, Call.isWrite]
        omega
      · cases hc'
    · cases hr
    · split at h <;> rename_i heq <;> cases h
      · cases hc'
        have := seekPass_next_rank heq
        simp [World.passesLeft, hc, hh, Call.isWrite]
        omega
      · cases hc'
  · obtain ⟨hcall, hh', hst⟩ := step_during_call (by simp [hc]) hh h ha
    rw [hcall, hc] at hc'
    cases hc'
    refine ⟨hr, hh', ?_⟩
    simp only [World.passesLeft, hcall, hc, ha, if_false, Nat.zero_add]
    rcases c with room | bytes | pos
    · rcases hst with hst | hst
      · rw [hst]
      · exact hst.readRank_le
    · cases hr
    · rcases hst with hst | hst
      · rw [hst]
      · exact hst.seekRank_le

theorem run_passesLeft {limit : Nat} :
    ∀ {w w' : World} {l : List Action} {c c' : Call}, w.call = some c → c.isWrite = false →
      w.holder = none → (∀ a ∈ l, a.isBegin = false) → run limit w l = some w' →
      w'.call = some c' → c'.isWrite = false ∧ l.count .pass + w'.passesLeft ≤ w.passesLeft
  | _, _, [], _, _, hc, hr, _, _, h, hc' => by
    cases h
    rw [hc] at hc'
    cases hc'
    exact ⟨hr, by simp⟩
  | w, _, a :: as, _, _, hc, hr, hh, hl, h, hc' => by
    simp only [YlongRuntime.run] at h
    cases hs : YlongRuntime.step limit w a with
    | none => simp [hs] at h
    | some w₁ =>
      rw [hs, Option.some_bind] at h
      have hl' : ∀ a ∈ as, a.isBegin = false := fun a ha => hl a (by simp [ha])
      cases hc₁ : w₁.call with
      | none => simp [run_call_none hc₁ hl' h] at hc'
      | some c₁ =>
        obtain ⟨hr₁, hh₁, hle⟩ := step_passesLeft hc hr hh hs hc₁
        obtain ⟨hr', hle'⟩ := run_passesLeft hc₁ hr₁ hh₁ hl' h hc'
        refine ⟨hr', ?_⟩
        rw [List.count_cons]
        split at hle <;> simp_all <;> omega

theorem passesLeft_pos {w : World} {c : Call} (hc : w.call = some c) (hr : c.isWrite = false) :
    0 < w.passesLeft := by
  rcases c with room | bytes | pos <;> simp only [World.passesLeft, hc]
  · exact readRank_pos _
  · cases hr
  · exact seekRank_pos _

theorem passesLeft_le (w : World) : w.passesLeft ≤ 3 := by
  unfold World.passesLeft
  split
  · exact readRank_le _
  · exact seekRank_le _
  · omega

/-- `poll_read` and `poll_seek` return by their third pass, whatever blocking jobs end
between passes: while such a call is in progress, at most two passes have been taken. -/
theorem read_seek_passes_le_two {limit : Nat} {w w' : World} {l : List Action} {c c' : Call}
    (hc : w.call = some c) (hr : c.isWrite = false) (hh : w.holder = none)
    (hl : ∀ a ∈ l, a.isBegin = false) (h : run limit w l = some w') (hc' : w'.call = some c') :
    l.count .pass ≤ 2 := by
  obtain ⟨hr', hle⟩ := run_passesLeft hc hr hh hl h hc'
  have := passesLeft_pos hc' hr'
  have := passesLeft_le w
  omega

theorem read_returns_by_third_pass :
    [Action.pass, .finish .state Faults.none].count .pass ≤ 2 :=
  @read_seek_passes_le_two 8 { World.init ⟨[1], 0⟩ with call := some (.read 1) } _
    [.pass, .finish .state Faults.none] (.read 1) (.read 1) rfl rfl rfl (by decide) rfl rfl

/-- A pass of `poll_write` on a state whose job still runs gets `Pending` from the job,
discards it, and changes nothing. -/
theorem writePass_running (limit : Nat) (bytes : List UInt8) {i : FileInner} {job : Job}
    (hs : i.state.handle = some (.running job)) : writePass limit bytes i = .next i := by
  rcases i with ⟨s, e, idx⟩
  rcases s with _ | h | h | h <;> simp [FileState.handle] at hs <;> subst hs <;>
    simp [writePass, FileState.poll, JoinHandle.poll, FileState.withHandle]

theorem Pass.loop_of_next_self {σ α : Type} {body : σ → Pass σ α} {s : σ}
    (h : body s = .next s) : ∀ fuel, Pass.loop body fuel s = none
  | 0 => rfl
  | fuel + 1 => by simp only [Pass.loop, h]; exact Pass.loop_of_next_self h fuel

theorem step_write_running {limit : Nat} {w : World} {bytes : List UInt8} {job : Job}
    (hc : w.call = some (.write bytes)) (hs : w.inner.state.handle = some (.running job)) :
    step limit w .pass = some { w with reply := none } := by
  simp [YlongRuntime.step, hc, writePass_running limit bytes hs]

/-- A `poll_write` made while the previous write's job runs never returns `Pending`: its
pass leaves the world as it was, so the loop spins until the job ends. -/
theorem write_loop_spins (limit : Nat) (f : SyncFile) (b₁ b₂ : List UInt8) :
    ∃ w, Reachable limit w ∧ w.call = some (.write b₂) ∧ step limit w .pass = some w ∧
      ∀ fuel, Pass.loop (writePass limit b₂) fuel w.inner = none :=
  ⟨_, (Reachable.init f).run (l := [.begin (.write b₁), .pass, .begin (.write b₂)]) rfl, rfl,
    step_write_running rfl rfl, Pass.loop_of_next_self (writePass_running limit b₂ rfl)⟩

end YlongRuntime
