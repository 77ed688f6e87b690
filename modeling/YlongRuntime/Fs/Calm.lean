import YlongRuntime.Fs.Ownership

/-! When a `File` panics. Each `unwrap()`, `unreachable!()` and poll of a spent `JoinHandle`
in `async_file.rs` needs one of three things first: a future holding the mutex dropped while
its job runs, a join that fails, or a syscall that fails. In a run with none of them no call
panics, and `poll_flush` is ready only once `state` is `Idle(Some)`, so `set_len` and
`into_std` find the file as they expect. -/

namespace YlongRuntime

/-- A step of a run in which no future holding the mutex is dropped, no join fails and every
syscall succeeds. -/
def Action.Calm : Action → Prop
  | .drop | .fail _ _ => False
  | .finish _ φ => φ = Faults.none
  | _ => True

instance decidableCalm : DecidablePred Action.Calm := fun a => by
  cases a <;> unfold Action.Calm <;> infer_instance

/-- The worlds a `File::new` reaches by calm steps. -/
inductive CalmReachable (limit : Nat) : World → Prop
  | init (f : SyncFile) : CalmReachable limit (World.init f)
  | step {w w' : World} (a : Action) : CalmReachable limit w → a.Calm →
      step limit w a = some w' → CalmReachable limit w'

theorem CalmReachable.run {limit : Nat} :
    ∀ {w w' : World} {l : List Action}, CalmReachable limit w → (∀ a ∈ l, a.Calm) →
      run limit w l = some w' → CalmReachable limit w'
  | _, _, [], hw, _, h => by cases h; exact hw
  | w, _, a :: as, hw, hl, h => by
    simp only [YlongRuntime.run] at h
    cases hs : YlongRuntime.step limit w a with
    | none => simp [hs] at h
    | some w₁ =>
      rw [hs] at h
      exact CalmReachable.run (hw.step a (hl a (List.mem_cons_self a as)) hs)
        (fun b hb => hl b (List.mem_cons_of_mem a hb)) h

def Poll.panics {α : Type} : Poll α → Bool
  | .panic => true
  | _ => false

/-- The call panicked. -/
def Reply.panics : Reply → Bool
  | .read r => r.panics
  | .write r => r.panics
  | .seek r => r.panics
  | .flush r => r.panics
  | .setLen r => r.panics
  | .sync r => r.panics

def Pass.panics {σ α : Type} : Pass σ α → Bool
  | .next _ => false
  | .done r _ => r.panics

/-- `state` in a calm run: a handle holds a job of the state's kind and has not been polled
out, a write job seeks back no further than the cursor, and a buffer that comes back to
`Idle` has no more unread bytes than the cursor has passed. -/
def FileState.CalmAt (pos : Nat) : FileState → Prop
  | .idle none => True
  | .idle (some b) => b.remaining ≤ pos
  | .reading (.running (.read _)) => True
  | .writing (.running (.write unread _)) => unread ≤ pos
  | .seeking (.running (.seek _ b)) => b.remaining = 0
  | .reading (.finished b _) | .seeking (.finished b _) => b.remaining ≤ pos
  | .writing (.finished b res) => b.remaining ≤ pos ∧ ∀ e, res ≠ .error e
  | _ => False

/-- The future holding the mutex in a calm run: its job is its own and has not been polled
out, and the buffer `set_len` holds has no more unread bytes than the cursor has passed. -/
def Holder.CalmAt (pos : Nat) : Holder → Prop
  | .setLenFlush _ | .syncFlush _ => True
  | .setLenJob _ (.running (.setLen _ b)) | .setLenJob _ (.finished b _) => b.remaining ≤ pos
  | .syncJob (.running (.sync _)) | .syncJob (.finished _ _) => True
  | _ => False

theorem FileBuf.appendTo_snd_remaining {b : FileBuf} {pos : Nat} (h : b.remaining ≤ pos)
    (room : Nat) : (b.appendTo room).2.remaining ≤ pos := by
  dsimp only [FileBuf.appendTo]
  split
  · exact Nat.zero_le _
  · simp only [FileBuf.remaining] at h ⊢
    omega

section Passes

variable {pos : Nat} {i : FileInner}

theorem FileState.poll_calm {s : FileState} (hs : s.CalmAt pos) (hb : s.handle.isSome) :
    s.poll = (.pending, s) ∨ ∃ b res, s.poll = (.ready res, .idle (some b)) ∧ b.remaining ≤ pos ∧
      (s.getOp = .writing → ∀ e, res ≠ .error e) := by
  rcases s with _ | h | h | h
  · simp [FileState.handle] at hb
  all_goals rcases h with ⟨_ | _ | _ | _ | _⟩ | ⟨b, res⟩ | _ | _ <;>
    simp only [FileState.CalmAt] at hs
  all_goals first
    | exact .inl rfl
    | exact .inr ⟨_, _, rfl, hs, nofun⟩
    | exact .inr ⟨_, _, rfl, hs.1, fun _ => hs.2⟩

theorem readPass_calm (limit room : Nat) (hi : i.state.CalmAt pos) (he : i.writeErr = none)
    (hn : i.state ≠ .idle none) :
    (readPass limit room i).state.state.CalmAt pos ∧ (readPass limit room i).state.writeErr = none ∧
      (readPass limit room i).state.state ≠ .idle none ∧ (readPass limit room i).panics = false := by
  rcases i with ⟨(_ | b) | h | h | h, e, idx⟩
  · exact absurd rfl hn
  · simp only [FileState.CalmAt] at hi
    by_cases hb : b.remaining = 0 <;>
      simp_all [readPass, FileState.CalmAt, Pass.panics, Poll.panics,
        FileBuf.appendTo_snd_remaining hi]
  all_goals rcases h with ⟨_ | _ | _ | _ | _⟩ | ⟨b, _ | _⟩ | _ | _ <;>
    simp_all [readPass, JoinHandle.poll, FileState.CalmAt, Pass.panics, Poll.panics,
      FileInner.saveErr, FileBuf.appendTo_snd_remaining]

theorem writePass_calm (limit : Nat) (bytes : List UInt8) (hi : i.state.CalmAt pos)
    (he : i.writeErr = none) (hn : i.state ≠ .idle none) :
    (writePass limit bytes i).state.state.CalmAt pos ∧
      (writePass limit bytes i).state.writeErr = none ∧
      (writePass limit bytes i).state.state ≠ .idle none ∧
      (writePass limit bytes i).panics = false := by
  rcases i with ⟨(_ | b) | h | h | h, e, idx⟩
  · exact absurd rfl hn
  · simp_all [writePass, FileState.CalmAt, Pass.panics, Poll.panics, FileBuf.dropUnread]
  all_goals
    rcases FileState.poll_calm hi (by simp [FileState.handle]) with hp | ⟨b, _ | _, hp, hb, -⟩ <;>
    simp only [writePass, hp, FileState.getOp, reduceCtorEq, if_true, if_false] <;>
    first
      | exact ⟨hi, he, nofun, rfl⟩
      | exact ⟨hb, he, nofun, rfl⟩

theorem seekPass_calm (p : SeekFrom) (hi : i.state.CalmAt pos) (he : i.writeErr = none)
    (hn : i.state ≠ .idle none) :
    (seekPass (p, i)).state.2.state.CalmAt pos ∧ (seekPass (p, i)).state.2.writeErr = none ∧
      (seekPass (p, i)).state.2.state ≠ .idle none ∧ (seekPass (p, i)).panics = false := by
  rcases i with ⟨(_ | b) | h | h | h, e, idx⟩
  · exact absurd rfl hn
  · simp_all [seekPass, FileState.CalmAt, Pass.panics]
  all_goals
    rcases FileState.poll_calm hi (by simp [FileState.handle]) with hp | ⟨b, _ | _, hp, hb, hr⟩ <;>
    simp only [seekPass, hp, FileState.getOp, saveErr_ok, saveErr_error] <;>
    first
      | exact ⟨hi, he, nofun, rfl⟩
      | exact ⟨hb, he, nofun, rfl⟩
      | exact absurd rfl (hr rfl _)

theorem pollFlush_calm (hi : i.state.CalmAt pos) (he : i.writeErr = none)
    (hn : i.state ≠ .idle none) :
    i.pollFlush = (.pending, i) ∨
      ∃ b, i.pollFlush = (.ready (.ok ()), { i with state := .idle (some b) }) ∧ b.remaining ≤ pos := by
  rcases i with ⟨(_ | b) | h | h | h, e, idx⟩
  · exact absurd rfl hn
  · subst he
    exact .inr ⟨b, rfl, hi⟩
  all_goals
    subst he
    rcases FileState.poll_calm hi (by simp [FileState.handle]) with hp | ⟨b, _ | _, hp, hb, hr⟩ <;>
    simp_all [FileInner.pollFlush, FileState.getOp, Except.map]

end Passes

section Jobs

variable {f : SyncFile}

theorem FileState.calmAt_finish {s : FileState} {job : Job} (hs : s.CalmAt f.pos)
    (hh : s.handle = some (.running job)) :
    (s.withHandle (.finished (job.run Faults.none f).1.1 (job.run Faults.none f).1.2)).CalmAt
      (job.run Faults.none f).2.pos := by
  rcases s with _ | h | h | h <;> simp only [FileState.handle, Option.some.injEq, reduceCtorEq] at hh
  all_goals subst hh
  all_goals rcases job with rBuf | ⟨unread, wBuf⟩ | ⟨p, rBuf⟩ | _ | _ <;>
    simp only [FileState.CalmAt] at hs
  · simp [FileState.withHandle, FileState.CalmAt, Job.run, FileBuf.read, Faults.none,
      FileBuf.remaining, FileBuf.ofBytes, SyncFile.read]
  · have : ¬ ((f.pos : Int) + -unread < 0) := by omega
    by_cases hu : unread = 0 <;>
      simp [FileState.withHandle, FileState.CalmAt, Job.run, Faults.none, syscall, hu,
        SyncFile.seek, SyncFile.target, this, FileBuf.write, Except.map]
  · simp only [Job.run, syscall, Faults.none]
    split <;> simp [FileState.withHandle, FileState.CalmAt, hs]

theorem Holder.calmAt_finish {hd : Holder} {job : Job} (hd' : hd.CalmAt f.pos)
    (hh : hd.handle = some (.running job)) :
    (job.run Faults.none f).2.pos = f.pos ∧
      (hd.withHandle (.finished (job.run Faults.none f).1.1 (job.run Faults.none f).1.2)).CalmAt
        f.pos := by
  rcases hd with _ | ⟨size, h⟩ | _ | h <;>
    simp only [Holder.handle, Option.some.injEq, reduceCtorEq] at hh
  all_goals subst hh
  all_goals rcases job with _ | _ | _ | ⟨size', b⟩ | kind <;> simp only [Holder.CalmAt] at hd'
  · have : ¬ ((f.pos : Int) < 0) := by omega
    by_cases hb : b.remaining = 0 <;>
      simp [Holder.withHandle, Holder.CalmAt, Job.run, Faults.none, syscall, hb,
        SyncFile.seek, SyncFile.target, this, FileBuf.dropUnread, SyncFile.setLen, hd']
  · simp [Holder.withHandle, Holder.CalmAt, Job.run, Faults.none, syscall]

theorem Holder.calmAt_of_ownsBuf {hd : Holder} {pos pos' : Nat} (h : hd.CalmAt pos)
    (ho : hd.ownsBuf = false) : hd.CalmAt pos' := by
  rcases hd with _ | ⟨_, ⟨_ | _ | _ | _ | _⟩ | _ | _ | _⟩ | _ | ⟨⟨_ | _ | _ | _ | _⟩ | _ | _ | _⟩ <;>
    simp_all [Holder.CalmAt, Holder.ownsBuf]

end Jobs

/-- What a calm run keeps of a `File`: its jobs as `JobsOk` says, no saved write error, no
detached job, calm handles, `Idle(None)` only under `set_len`, and no reply a panic. -/
structure CalmInv (w : World) : Prop where
  jobs : JobsOk w
  writeErr : w.inner.writeErr = none
  detached : w.detached = []
  state : w.inner.state.CalmAt w.file.pos
  holder : ∀ hd ∈ w.holder, hd.CalmAt w.file.pos
  idleNone : w.inner.state = .idle none → ∃ size h, w.holder = some (.setLenJob size h)
  reply : ∀ r ∈ w.reply, r.panics = false

section Steps

variable {limit : Nat} {w w' : World}

theorem CalmInv.state_ne (hw : CalmInv w) (hh : ∀ size h, w.holder ≠ some (.setLenJob size h)) :
    w.inner.state ≠ .idle none :=
  fun he => by
    obtain ⟨_, _, h⟩ := hw.idleNone he
    exact hh _ _ h

theorem CalmInv.of_pass (hw : CalmInv w) (hj : JobsOk w') (hh : w'.holder = none)
    (hf : w'.file = w.file) (hd : w'.detached = w.detached)
    (hi : w'.inner.state.CalmAt w.file.pos) (he : w'.inner.writeErr = none)
    (hn : w'.inner.state ≠ .idle none) (hr : ∀ r ∈ w'.reply, r.panics = false) : CalmInv w' :=
  ⟨hj, he, hd.trans hw.detached, hf ▸ hi, by simp [hh], fun h => absurd h hn, hr⟩

theorem CalmInv.resume (hw : CalmInv w) {hd : Holder} (hh : w.holder = some hd)
    (hj : JobsOk (resume w hd)) : CalmInv (resume w hd) := by
  have hc := hw.holder hd hh
  cases hd with
  | setLenFlush size =>
    rcases pollFlush_calm hw.state hw.writeErr (hw.state_ne (by simp [hh])) with hp | ⟨b, hp, hb⟩ <;>
      simp only [YlongRuntime.resume, hp, YlongRuntime.setLenFlushed, saveErr_ok] at hj ⊢
    · exact ⟨hj, hw.writeErr, hw.detached, hw.state, by simp [hh, Holder.CalmAt],
        fun he => absurd he (hw.state_ne (by simp [hh])), by simp⟩
    · exact ⟨hj, hw.writeErr, hw.detached, by simp [FileState.CalmAt],
        by simp [Holder.CalmAt, hb], fun _ => ⟨_, _, rfl⟩, by simp⟩
  | syncFlush kind =>
    rcases pollFlush_calm hw.state hw.writeErr (hw.state_ne (by simp [hh])) with hp | ⟨b, hp, hb⟩ <;>
      simp only [YlongRuntime.resume, hp, saveErr_ok] at hj ⊢
    · exact ⟨hj, hw.writeErr, hw.detached, hw.state, by simp [hh, Holder.CalmAt],
        fun he => absurd he (hw.state_ne (by simp [hh])), by simp⟩
    · exact ⟨hj, hw.writeErr, hw.detached, hb, by simp [Holder.CalmAt], by simp, by simp⟩
  | setLenJob size j | syncJob j =>
    rcases j with job | ⟨b, res⟩ | _ | _ <;> simp only [Holder.CalmAt] at hc <;>
      simp only [YlongRuntime.resume, JoinHandle.poll] at hj ⊢
    all_goals first
      | exact ⟨hj, hw.writeErr, hw.detached, hw.state, hh ▸ hw.holder, hh ▸ hw.idleNone, by simp⟩
      | exact ⟨hj, hw.writeErr, hw.detached, hc, by simp, by simp,
          by simp [Reply.panics, Poll.panics]⟩
      | exact ⟨hj, hw.writeErr, hw.detached, hw.state, by simp,
          fun he => by simpa [hh] using hw.idleNone he, by simp [Reply.panics, Poll.panics]⟩

theorem CalmInv.step (hw : CalmInv w) {a : Action} (ha : a.Calm) (h : step limit w a = some w') :
    CalmInv w' := by
  have hj := hw.jobs.step h
  cases a with
  | begin c =>
    simp only [YlongRuntime.step] at h
    split_ifs at h with hf
    have hh := World.free_holder hf
    split at h <;> cases h <;>
      exact hw.of_pass hj hh rfl rfl hw.state hw.writeErr (hw.state_ne (by simp [hh]))
        (by simp [Reply.panics, Poll.panics])
  | pass =>
    simp only [YlongRuntime.step] at h
    split at h
    · cases h
    all_goals rename_i c hc
    all_goals have hh := hw.jobs.callFree (by simp [hc])
    · obtain ⟨hi, he, hn, hp⟩ := readPass_calm limit c hw.state hw.writeErr (hw.state_ne (by simp [hh]))
      split at h <;> rename_i heq <;> rw [heq] at hi he hn hp <;> cases h
      · exact hw.of_pass hj hh rfl rfl hi he hn (by simp)
      · exact hw.of_pass hj hh rfl rfl hi he hn (by simpa [Reply.panics] using hp)
    · obtain ⟨hi, he, hn, hp⟩ := writePass_calm limit c hw.state hw.writeErr (hw.state_ne (by simp [hh]))
      split at h <;> rename_i heq <;> rw [heq] at hi he hn hp <;> cases h
      · exact hw.of_pass hj hh rfl rfl hi he hn (by simp)
      · exact hw.of_pass hj hh rfl rfl hi he hn (by simpa [Reply.panics] using hp)
    · obtain ⟨hi, he, hn, hp⟩ := seekPass_calm c hw.state hw.writeErr (hw.state_ne (by simp [hh]))
      split at h <;> rename_i heq <;> rw [heq] at hi he hn hp <;> cases h
      · exact hw.of_pass hj hh rfl rfl hi he hn (by simp)
      · exact hw.of_pass hj hh rfl rfl hi he hn (by simpa [Reply.panics] using hp)
  | flush =>
    obtain ⟨hf, rfl⟩ := step_flush h
    have hh := World.free_holder hf
    rcases pollFlush_calm hw.state hw.writeErr (hw.state_ne (by simp [hh])) with hp | ⟨b, hp, hb⟩ <;>
      rw [hp] at hj ⊢
    · exact hw.of_pass hj hh rfl rfl hw.state hw.writeErr (hw.state_ne (by simp [hh]))
        (by simp [Reply.panics, Poll.panics])
    · exact hw.of_pass hj hh rfl rfl hb hw.writeErr (by simp) (by simp [Reply.panics, Poll.panics])
  | lock m =>
    obtain ⟨hf, rfl⟩ := step_lock h
    have hh := World.free_holder hf
    exact ⟨hj, hw.writeErr, hw.detached, hw.state,
      by cases m <;> simp [Method.start, Holder.CalmAt], fun he => absurd he (hw.state_ne (by simp [hh])),
      by simp⟩
  | resume =>
    simp only [YlongRuntime.step] at h
    cases hh : w.holder with
    | none => simp [hh] at h
    | some hd =>
      simp only [hh, Option.map_some', Option.some.injEq] at h
      subst h
      exact hw.resume hh hj
  | drop | fail _ _ => exact ha.elim
  | finish s φ =>
    cases ha
    cases s with
    | state =>
      simp only [YlongRuntime.step] at h
      split at h
      · rename_i job hs
        cases h
        have hb := FileState.handle_withHandle (s := w.inner.state) (by simp [hs])
          (.finished ((job.run Faults.none w.file).1.1) (job.run Faults.none w.file).1.2)
        refine ⟨hj, hw.writeErr, hw.detached, FileState.calmAt_finish hw.state hs,
          fun hd hd' => Holder.calmAt_of_ownsBuf (hw.holder hd hd') ?_,
          fun he => by simpa [FileState.handle] using (congrArg FileState.handle he).symm.trans hb,
          by simp⟩
        by_contra ho
        have hd'' : w.holder = some hd := hd'
        have := hw.jobs.holderIdle (by simpa [hd''] using ho)
        simp [this, FileState.handle] at hs
      · cases h
    | holder =>
      simp only [YlongRuntime.step] at h
      split at h
      · rename_i hd job hh hs
        cases h
        simp only [hh, Option.some_bind] at hs
        obtain ⟨hp, hc⟩ := Holder.calmAt_finish (hw.holder hd hh) hs
        refine ⟨hj, hw.writeErr, hw.detached, hp ▸ hw.state, by simpa [hp] using hc,
          fun he => ?_, by simp⟩
        obtain ⟨size, j, hj'⟩ := hw.idleNone he
        rw [hh, Option.some.injEq] at hj'
        subst hj'
        exact ⟨size, _, rfl⟩
      · cases h
    | detached i =>
      simp [YlongRuntime.step, hw.detached] at h

end Steps

/-- A step of a run in which also no future of `metadata`, `set_permissions` or `try_clone`
is dropped while its job runs. -/
def SharedAction.Calm : SharedAction → Prop
  | .file a => a.Calm
  | .dropAux => False
  | _ => True

/-- The states a `File::new` reaches by calm steps, with the jobs of `metadata`,
`set_permissions` and `try_clone`. -/
inductive SharedFile.CalmReachable (limit : Nat) : SharedFile → Prop
  | init (f : SyncFile) : CalmReachable limit ⟨World.init f, 0, 0⟩
  | step {sf sf' : SharedFile} (a : SharedAction) : CalmReachable limit sf → a.Calm →
      sf.step limit a = some sf' → CalmReachable limit sf'

theorem SharedFile.CalmReachable.world {limit : Nat} {sf : SharedFile}
    (h : sf.CalmReachable limit) : YlongRuntime.CalmReachable limit sf.world ∧ sf.orphaned = 0 := by
  induction h with
  | init f => exact ⟨.init f, rfl⟩
  | step a _ ha hs ih =>
    cases a with
    | file a =>
      obtain ⟨w', hw', rfl⟩ := Option.map_eq_some'.mp hs
      exact ⟨ih.1.step a ha hw', ih.2⟩
    | spawnAux => cases hs; exact ih
    | finishAux =>
      simp only [SharedFile.step] at hs
      split_ifs at hs
      cases hs
      exact ih
    | dropAux => exact ha.elim
    | finishOrphan => simp [SharedFile.step, ih.2] at hs

end YlongRuntime
