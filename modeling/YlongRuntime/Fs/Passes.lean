import YlongRuntime.Fs.World

/-! What one pass of a poll loop, or `poll_flush`, can do to `FileInner`. A pass never
touches a running job, never empties an `Idle` buffer, starts a job only from
`Idle(Some)` and never clears `write_err`. -/

namespace YlongRuntime

def Pass.state {σ α : Type} : Pass σ α → σ
  | .next s | .done _ s => s

@[simp] theorem Pass.state_next {σ α : Type} (s : σ) : (Pass.next s : Pass σ α).state = s := rfl

@[simp] theorem Pass.state_done {σ α : Type} (r : Poll α) (s : σ) :
    (Pass.done r s).state = s := rfl

/-- The facts about one pass that the invariants of a `File` rest on. -/
structure PassOk (i i' : FileInner) : Prop where
  running : ∀ job, i.state.handle = some (.running job) → i'.state = i.state
  spawn : ∀ job, i'.state.handle = some (.running job) →
    i'.state = i.state ∨ ∃ b, i.state = .idle (some b)
  idleNone : i'.state = .idle none ↔ i.state = .idle none
  writeErr : i.writeErr.isSome → i'.writeErr.isSome

theorem PassOk.refl (i : FileInner) : PassOk i i :=
  ⟨fun _ _ => rfl, fun _ _ => .inl rfl, Iff.rfl, id⟩

@[simp] theorem saveErr_ok {α : Type} (i : FileInner) (a : α) : i.saveErr (.ok a) = i := rfl

@[simp] theorem saveErr_error {α : Type} (i : FileInner) (e : ErrorKind) :
    i.saveErr (.error e : Except ErrorKind α) = { i with writeErr := some e } := rfl

@[simp] theorem saveErr_state {α : Type} (i : FileInner) (r : Except ErrorKind α) :
    (i.saveErr r).state = i.state := by
  cases r <;> rfl

theorem PassOk.saveErr {α : Type} {i i' : FileInner} (hp : PassOk i i') (r : Except ErrorKind α) :
    PassOk i (i'.saveErr r) := by
  cases r
  · exact ⟨hp.running, hp.spawn, hp.idleNone, fun _ => by simp⟩
  · exact hp

theorem readPass_ok (limit room : Nat) (i : FileInner) :
    PassOk i (readPass limit room i).state := by
  rcases i with ⟨s, e, idx⟩
  cases s with
  | idle b =>
    rcases b with _ | b
    · exact PassOk.refl _
    · by_cases hb : b.remaining = 0 <;> constructor <;> simp [readPass, hb, FileState.handle]
  | reading h | writing h | seeking h =>
    rcases h with _ | ⟨_, _ | _⟩ | _ | _ <;> constructor <;>
      simp [readPass, JoinHandle.poll, FileState.handle]

theorem writePass_ok (limit : Nat) (bytes : List UInt8) (i : FileInner) :
    PassOk i (writePass limit bytes i).state := by
  rcases i with ⟨s, e, idx⟩
  cases s with
  | idle b =>
    rcases b with _ | b
    · exact PassOk.refl _
    · constructor <;> simp [writePass, FileState.handle]
  | reading h | writing h | seeking h =>
    rcases h with _ | ⟨_, _ | _⟩ | _ | _ <;> constructor <;>
      simp [writePass, FileState.poll, JoinHandle.poll, FileState.handle, FileState.withHandle,
        FileState.getOp]

theorem seekPass_ok (pos : SeekFrom) (i : FileInner) :
    PassOk i (seekPass (pos, i)).state.2 := by
  rcases i with ⟨s, e, idx⟩
  cases s with
  | idle b =>
    rcases b with _ | b
    · exact PassOk.refl _
    · constructor <;> simp [seekPass, FileState.handle]
  | reading h | writing h | seeking h =>
    rcases h with _ | ⟨_, _ | _⟩ | _ | _ <;> constructor <;>
      simp [seekPass, FileState.poll, JoinHandle.poll, FileState.handle, FileState.withHandle,
        FileState.getOp]

theorem pollFlush_ok (i : FileInner) : PassOk i i.pollFlush.2 := by
  rcases i with ⟨s, _ | e, idx⟩
  · cases s with
    | idle b => exact PassOk.refl _
    | reading h | writing h | seeking h =>
      rcases h with _ | ⟨_, _ | _⟩ | _ | _ <;> constructor <;>
        simp [FileInner.pollFlush, FileState.poll, JoinHandle.poll, FileState.handle,
          FileState.withHandle]
  · exact PassOk.refl _

/-- A pass of the call in progress changes `FileInner` as `PassOk` says, and the call and
the reply, nothing else. -/
theorem step_pass {limit : Nat} {w w' : World} (h : step limit w .pass = some w') :
    w.call.isSome ∧ ∃ i' c' r, PassOk w.inner i' ∧ w' = { w with inner := i', call := c', reply := r } := by
  simp only [step] at h
  split at h
  · cases h
  all_goals rename_i c hc
  all_goals refine ⟨by simp [hc], ?_⟩
  · have hp := readPass_ok limit c w.inner
    split at h <;> rename_i heq <;> rw [heq] at hp <;> cases h <;> exact ⟨_, _, _, hp, rfl⟩
  · have hp := writePass_ok limit c w.inner
    split at h <;> rename_i heq <;> rw [heq] at hp <;> cases h <;> exact ⟨_, _, _, hp, rfl⟩
  · have hp := seekPass_ok c w.inner
    split at h <;> rename_i heq <;> rw [heq] at hp <;> cases h <;> exact ⟨_, _, _, hp, rfl⟩

theorem step_flush {limit : Nat} {w w' : World} (h : step limit w .flush = some w') :
    w.free ∧ w' = { w with inner := w.inner.pollFlush.2, reply := some (.flush w.inner.pollFlush.1) } := by
  simp only [step] at h
  split at h <;> simp_all

theorem step_begin {limit : Nat} {w w' : World} {c : Call} (h : step limit w (.begin c) = some w') :
    w.free ∧ ∃ c' r, w' = { w with call := c', reply := r } := by
  simp only [step] at h
  split at h
  · refine ⟨‹_›, ?_⟩
    split at h <;> cases h <;> exact ⟨_, _, rfl⟩
  · cases h

theorem step_lock {limit : Nat} {w w' : World} {m : Method} (h : step limit w (.lock m) = some w') :
    w.free ∧ w' = { w with holder := some m.start, reply := none } := by
  simp only [step] at h
  split at h <;> simp_all

/-- Every way a step changes `FileInner`: as a pass does, by `set_len` taking the buffer
into its job, by `set_len` putting the buffer back, or by the job in `state` ending. -/
inductive InnerStep (w w' : World) : Prop
  | pass : PassOk w.inner w'.inner → InnerStep w w'
  | take {i' : FileInner} {r : Except ErrorKind Unit} {size : Nat} {buf : FileBuf} :
      PassOk w.inner i' → (i'.saveErr r).state = .idle (some buf) →
      w'.inner = { i'.saveErr r with state := .idle none } →
      w'.holder = some (.setLenJob size (.running (.setLen size buf))) → InnerStep w w'
  | putBack {size : Nat} {b : FileBuf} {res : Except ErrorKind Nat} {idx : Nat} :
      w.holder = some (.setLenJob size (.finished b res)) →
      w'.inner = { w.inner with state := .idle (some b), idx } → InnerStep w w'
  | settle {job : Job} {h' : JoinHandle} : w.inner.state.handle = some (.running job) →
      w'.inner = { w.inner with state := w.inner.state.withHandle h' } → InnerStep w w'

theorem InnerStep.of_eq {w w' : World} (h : w'.inner = w.inner) : InnerStep w w' :=
  .pass (h ▸ PassOk.refl _)

theorem innerStep_resume {w : World} {hd : Holder} (hh : w.holder = some hd) :
    InnerStep w (resume w hd) := by
  cases hd with
  | setLenFlush size =>
    have hp := pollFlush_ok w.inner
    simp only [YlongRuntime.resume]
    split <;> rename_i heq <;> rw [heq] at hp
    · unfold YlongRuntime.setLenFlushed
      split
      · exact .take hp ‹_› rfl rfl
      · exact .pass (hp.saveErr _)
    · exact .pass hp
    · exact .pass hp
  | setLenJob size h =>
    simp only [YlongRuntime.resume]
    cases h with
    | finished b res => exact .putBack hh rfl
    | _ => exact .of_eq rfl
  | syncFlush kind =>
    have hp := pollFlush_ok w.inner
    simp only [YlongRuntime.resume]
    split <;> rename_i heq <;> rw [heq] at hp
    · exact .pass (hp.saveErr _)
    · exact .pass hp
    · exact .pass hp
  | syncJob h =>
    simp only [YlongRuntime.resume]
    split <;> exact .of_eq rfl

theorem step_inner {limit : Nat} {w w' : World} {a : Action} (h : step limit w a = some w') :
    InnerStep w w' := by
  cases a with
  | begin c => obtain ⟨-, c', r, rfl⟩ := step_begin h; exact .of_eq rfl
  | pass => obtain ⟨-, i', c', r, hp, rfl⟩ := step_pass h; exact .pass hp
  | flush => obtain ⟨-, rfl⟩ := step_flush h; exact .pass (pollFlush_ok _)
  | lock m => obtain ⟨-, rfl⟩ := step_lock h; exact .of_eq rfl
  | resume =>
    simp only [YlongRuntime.step] at h
    cases hh : w.holder with
    | none => simp [hh] at h
    | some hd =>
      simp only [hh, Option.map_some', Option.some.injEq] at h
      exact h ▸ innerStep_resume hh
  | drop =>
    simp only [YlongRuntime.step] at h
    cases hh : w.holder with
    | none => simp [hh] at h
    | some hd =>
      simp only [hh, Option.map_some', Option.some.injEq] at h
      exact .of_eq (h ▸ rfl)
  | finish s φ | fail s φ =>
    cases s with
    | state =>
      simp only [YlongRuntime.step] at h
      split at h
      · cases h
        exact .settle ‹_› rfl
      · cases h
    | holder =>
      simp only [YlongRuntime.step] at h
      split at h
      · cases h
        exact .of_eq rfl
      · cases h
    | detached i =>
      simp only [YlongRuntime.step] at h
      cases hj : w.detached[i]? with
      | none => simp [hj] at h
      | some job =>
        simp only [hj, Option.map_some', Option.some.injEq] at h
        exact .of_eq (h ▸ rfl)

end YlongRuntime
