import YlongRuntime.Fs.Ownership
import Mathlib.Logic.Relation

/-! The saved write error of a `File`. The result of a write job that failed is either
returned by the call that takes it or saved in `write_err`; nothing clears `write_err`,
and `poll_flush` returns it without waiting for the job in flight. -/

namespace YlongRuntime

/-- `w'` is reachable from `w`. -/
def Steps (limit : Nat) : World → World → Prop :=
  Relation.ReflTransGen fun w w' => ∃ a, step limit w a = some w'

theorem step_writeErr_isSome {limit : Nat} {w w' : World} {a : Action}
    (h : step limit w a = some w') (he : w.inner.writeErr.isSome) : w'.inner.writeErr.isSome := by
  rcases step_inner h with hp | ⟨hp, -, hi, -⟩ | ⟨-, hi⟩ | ⟨-, hi⟩
  · exact hp.writeErr he
  · simpa [hi] using (hp.saveErr _).writeErr he
  · simpa [hi] using he
  · simpa [hi] using he

theorem Steps.writeErr_isSome {limit : Nat} {w w' : World} (h : Steps limit w w')
    (he : w.inner.writeErr.isSome) : w'.inner.writeErr.isSome := by
  induction h with
  | refl => exact he
  | tail _ hs ih => exact step_writeErr_isSome hs.choose_spec ih

/-- `poll_write` with a saved error returns it and changes nothing. -/
theorem begin_write_of_writeErr {limit : Nat} {w : World} {e : ErrorKind} (hf : w.free)
    (he : w.inner.writeErr = some e) (bytes : List UInt8) :
    step limit w (.begin (.write bytes)) = some { w with reply := some (.write (.ready (.error e))) } := by
  simp [YlongRuntime.step, hf, writeCheck, he]

/-- One failed write makes every later `poll_write` fail: from a file whose write job failed
with `e` and whose error `sync_all` saved, every reachable file rejects every write. -/
theorem write_err_never_cleared (limit : Nat) (f : SyncFile) (e : ErrorKind) (b : List UInt8) :
    ∃ w, Reachable limit w ∧ w.inner = ⟨.idle (some FileBuf.empty), some e, 0⟩ ∧
      ∀ w', Steps limit w w' → w'.free → ∀ bytes, ∃ e',
        step limit w' (.begin (.write bytes)) = some { w' with reply := some (.write (.ready (.error e'))) } := by
  refine ⟨_, (Reachable.init f).run (l := [.begin (.write b), .pass,
    .finish .state ⟨none, some e⟩, .lock (.sync .all), .resume, .finish .holder ⟨none, none⟩,
    .resume]) rfl, rfl, fun w' hs hf bytes => ?_⟩
  obtain ⟨e', he'⟩ := Option.isSome_iff_exists.mp (hs.writeErr_isSome rfl)
  exact ⟨e', begin_write_of_writeErr hf he' bytes⟩

section FailedWrite

variable {i : FileInner} {b : FileBuf} {e : ErrorKind}

theorem readPass_failed_write (limit room : Nat) (hs : i.state = .writing (.finished b (.error e))) :
    readPass limit room i = .next { i with writeErr := some e, state := .idle (some b) } := by
  simp [readPass, hs, JoinHandle.poll]

theorem writePass_failed_write (limit : Nat) (bytes : List UInt8)
    (hs : i.state = .writing (.finished b (.error e))) :
    writePass limit bytes i = .done (.ready (.error e)) { i with state := .idle (some b) } := by
  simp [writePass, hs, FileState.poll, JoinHandle.poll, FileState.getOp]

theorem seekPass_failed_write (pos : SeekFrom) (hs : i.state = .writing (.finished b (.error e))) :
    seekPass (pos, i) = .next (pos, { i with writeErr := some e, state := .idle (some b) }) := by
  simp [seekPass, hs, FileState.poll, JoinHandle.poll, FileState.getOp]

theorem pollFlush_failed_write (hs : i.state = .writing (.finished b (.error e))) :
    i.pollFlush = match i.writeErr with
      | some e' => (.ready (.error e'), i)
      | none => (.ready (.error e), { i with state := .idle (some b) }) := by
  cases he : i.writeErr <;> simp [FileInner.pollFlush, he, hs, FileState.poll, JoinHandle.poll,
    FileState.getOp, Except.map]

end FailedWrite

/-- No write error is lost: the step that takes the result of a write job that failed with
`e` returns `e` from `poll_write` or `poll_flush`, or leaves it in `write_err`. -/
theorem write_error_handled {limit : Nat} {w w' : World} {a : Action} {b : FileBuf}
    {e : ErrorKind} (hw : Reachable limit w) (hs : w.inner.state = .writing (.finished b (.error e)))
    (h : step limit w a = some w') (hc : w'.inner.state ≠ w.inner.state) :
    w'.inner.writeErr = some e ∨ w'.reply = some (.write (.ready (.error e))) ∨
      w'.reply = some (.flush (.ready (.error e))) := by
  cases a with
  | begin c => obtain ⟨-, c', r, rfl⟩ := step_begin h; exact absurd rfl hc
  | lock m => obtain ⟨-, rfl⟩ := step_lock h; exact absurd rfl hc
  | pass =>
    simp only [YlongRuntime.step] at h
    rcases hcall : w.call with _ | room | bytes | pos <;> simp only [hcall] at h
    · cases h
    · rw [readPass_failed_write limit room hs] at h
      cases h
      simp
    · rw [writePass_failed_write limit bytes hs] at h
      cases h
      simp
    · rw [seekPass_failed_write pos hs] at h
      cases h
      simp
  | flush =>
    obtain ⟨-, rfl⟩ := step_flush h
    rw [pollFlush_failed_write hs] at hc ⊢
    cases he : w.inner.writeErr <;> simp [he] at hc ⊢
  | resume =>
    simp only [YlongRuntime.step] at h
    rcases hh : w.holder with _ | ⟨size⟩ | ⟨size, j⟩ | ⟨kind⟩ | ⟨j⟩ <;>
      simp only [hh, Option.map_none', Option.map_some', Option.some.injEq, reduceCtorEq] at h
    · subst h
      simp only [YlongRuntime.resume, pollFlush_failed_write hs] at hc ⊢
      cases he : w.inner.writeErr <;> simp [he, YlongRuntime.setLenFlushed, hs] at hc ⊢
    · have := hw.jobsOk.holderIdle (by simp [hh, Holder.ownsBuf])
      simp [this] at hs
    · subst h
      simp only [YlongRuntime.resume, pollFlush_failed_write hs] at hc ⊢
      cases he : w.inner.writeErr <;> simp [he, hs] at hc ⊢
    · subst h
      simp only [YlongRuntime.resume] at hc
      split at hc <;> exact absurd rfl hc
  | drop =>
    simp only [YlongRuntime.step] at h
    cases hh : w.holder <;> simp [hh] at h
    subst h
    exact absurd rfl hc
  | finish s φ | fail s φ =>
    rcases s with _ | _ | i
    all_goals simp only [YlongRuntime.step] at h
    · simp [hs, FileState.handle] at h
    · split at h <;> cases h
      exact absurd rfl hc
    · cases hj : w.detached[i]? <;> simp [hj] at h
      subst h
      exact absurd rfl hc

theorem flush_reports_failed_write :
    let w' : World := ⟨⟨.idle (some FileBuf.empty), none, 0⟩, ⟨[], 0⟩, none, none, [],
      some (.flush (.ready (.error (.other 5))))⟩
    w'.inner.writeErr = some (.other 5) ∨ w'.reply = some (.write (.ready (.error (.other 5)))) ∨
      w'.reply = some (.flush (.ready (.error (.other 5)))) :=
  write_error_handled (a := .flush)
    (w := ⟨⟨.writing (.finished FileBuf.empty (.error (.other 5))), none, 0⟩, ⟨[], 0⟩, none, none,
      [], none⟩)
    ((Reachable.init ⟨[], 0⟩ : Reachable 8 _).run (l := [.begin (.write [1]), .pass,
      .finish .state ⟨none, some (.other 5)⟩]) rfl) rfl rfl (by decide)

/-- A write job fails, `poll_read` saves its error and starts a read job, and the read is
dropped while pending. Then `poll_flush` returns the error with the read job in flight,
`into_std` cannot unwrap the file, and `set_len` reaches its `unreachable!()`. -/
theorem flush_leaves_job_in_flight (limit room size : Nat) (f : SyncFile) (e : ErrorKind) :
    ∃ w, Reachable limit w ∧ w.inner.state = .reading (.running (.read (FileBuf.empty.reserve room limit))) ∧
      w.inner.pollFlush = (.ready (.error e), w.inner) ∧ w.tryIntoStd = false ∧
      run limit w [.lock (.setLen size), .resume] = some { w with reply := some (.setLen .panic) } :=
  ⟨_, (Reachable.init f).run (l := [.begin (.write [1]), .pass, .finish .state ⟨none, some e⟩,
    .begin (.read room), .pass, .pass, .pass]) rfl, rfl, rfl, rfl, rfl⟩

end YlongRuntime
