import YlongRuntime.Fs.Passes

/-! `buf_size_limit` bounds the buffer of a `File`. A read reserves at most the limit, and a
write copies at most the limit into a buffer it has just emptied; every other step moves a
buffer, shrinks it or empties it. `set_buffer_size_limit` changes the limit between calls. As
long as no limit above `L` is set, no buffer of the `File`, in `state`, in a job, with the
future holding the mutex or in a detached job, holds more than `L` bytes. -/

namespace YlongRuntime

/-- The buffer given to a job. -/
def Job.buf : Job → Option FileBuf
  | .read b | .write _ b | .seek _ b | .setLen _ b => some b
  | .sync _ => none

/-- The buffer of a running job, or the one a finished job hands back. -/
def JoinHandle.buf : JoinHandle → Option FileBuf
  | .running job => job.buf
  | .finished b _ => some b
  | _ => none

def FileState.buf : FileState → Option FileBuf
  | .idle b => b
  | .reading h | .writing h | .seeking h => h.buf

def Holder.buf (hd : Holder) : Option FileBuf := hd.handle.bind JoinHandle.buf

/-- Every buffer of a `File`: in `state`, with the future holding the mutex, and in the
detached jobs. -/
def World.bufs (w : World) : List FileBuf :=
  w.inner.state.buf.toList ++ (w.holder.bind Holder.buf).toList ++ w.detached.filterMap Job.buf

/-- The buffer, if there is one, holds at most `L` bytes. -/
def BufWithin (L : Nat) (o : Option FileBuf) : Prop := ∀ b ∈ o, b.buf.length ≤ L

section Lemmas

variable {L : Nat}

@[simp] theorem bufWithin_none (L : Nat) : BufWithin L none := fun _ h => nomatch h

@[simp] theorem bufWithin_some {b : FileBuf} : BufWithin L (some b) ↔ b.buf.length ≤ L :=
  ⟨fun h => h b rfl, fun h _ e => Option.some.inj e ▸ h⟩

theorem FileBuf.appendTo_snd_le {b : FileBuf} (h : b.buf.length ≤ L) (room : Nat) :
    (b.appendTo room).2.buf.length ≤ L := by
  dsimp only [FileBuf.appendTo]
  split
  · exact Nat.zero_le _
  · exact h

@[simp] theorem FileBuf.write_fst_fst (b : FileBuf) (fault : Option ErrorKind) (f : SyncFile) :
    (b.write fault f).1.1 = FileBuf.empty := by
  cases fault <;> rfl

/-- A job hands back its own buffer, a part of it, or an empty one. -/
theorem Job.run_buf_le {job : Job} (hj : BufWithin L job.buf) (φ : Faults) (f : SyncFile) :
    (job.run φ f).1.1.buf.length ≤ L := by
  cases job with
  | read rBuf =>
    have := SyncFile.read_length_le f rBuf.buf.length
    simp only [Job.buf, bufWithin_some] at hj
    cases h : φ.io
    · simpa [Job.run, FileBuf.read, h, FileBuf.ofBytes] using this.trans hj
    · simp [Job.run, FileBuf.read, h, FileBuf.empty]
  | write unread wBuf =>
    simp only [Job.buf, bufWithin_some] at hj
    simp only [Job.run]
    split
    · exact hj
    · simp [FileBuf.empty]
  | seek pos rBuf =>
    simp only [Job.buf, bufWithin_some] at hj
    simp only [Job.run]
    split <;> exact hj
  | setLen size buf =>
    simp only [Job.buf, bufWithin_some] at hj
    simp only [Job.run]
    split
    · split
      · simp [FileBuf.empty]
      · split <;> simp [FileBuf.empty]
    · split <;> exact hj
  | sync kind =>
    simp only [Job.run]
    split <;> simp [FileBuf.empty]

theorem FileState.buf_withHandle {s : FileState} (hs : s.handle.isSome) (h : JoinHandle) :
    (s.withHandle h).buf = h.buf := by
  cases s <;> simp_all [FileState.handle, FileState.withHandle, FileState.buf]

theorem Holder.buf_withHandle {hd : Holder} (hs : hd.handle.isSome) (h : JoinHandle) :
    (hd.withHandle h).buf = h.buf := by
  cases hd <;> simp_all [Holder.handle, Holder.withHandle, Holder.buf]

theorem FileState.buf_of_handle {s : FileState} {h : JoinHandle} (hs : s.handle = some h) :
    s.buf = h.buf := by
  cases s <;> simp_all [FileState.handle, FileState.buf]

end Lemmas

section Passes

variable {L : Nat} {i : FileInner}

theorem readPass_bufWithin (limit room : Nat) (hl : limit ≤ L) (hi : BufWithin L i.state.buf) :
    BufWithin L (readPass limit room i).state.state.buf := by
  rcases i with ⟨s, e, idx⟩
  cases s with
  | idle b =>
    rcases b with _ | b
    · exact hi
    · simp only [FileState.buf, bufWithin_some] at hi
      by_cases hb : b.remaining = 0 <;>
        simp [readPass, hb, FileState.buf, JoinHandle.buf, Job.buf, FileBuf.reserve,
          FileBuf.ofBytes, FileBuf.appendTo_snd_le hi]
      omega
  | reading h | writing h | seeking h =>
    rcases h with _ | ⟨b, _ | _⟩ | _ | _ <;>
      simp_all [readPass, JoinHandle.poll, FileState.buf, JoinHandle.buf, FileBuf.appendTo_snd_le]

theorem writePass_bufWithin (limit : Nat) (bytes : List UInt8) (hl : limit ≤ L)
    (hi : BufWithin L i.state.buf) : BufWithin L (writePass limit bytes i).state.state.buf := by
  rcases i with ⟨s, e, idx⟩
  cases s with
  | idle b =>
    rcases b with _ | b
    · exact hi
    · simp [writePass, FileState.buf, JoinHandle.buf, Job.buf, FileBuf.append,
        FileBuf.dropUnread, FileBuf.empty]
      omega
  | reading h | writing h | seeking h =>
    rcases h with _ | ⟨_, _ | _⟩ | _ | _ <;>
      simp_all [writePass, FileState.poll, JoinHandle.poll, FileState.buf, JoinHandle.buf,
        FileState.withHandle, FileState.getOp]

theorem seekPass_bufWithin (pos : SeekFrom) (hi : BufWithin L i.state.buf) :
    BufWithin L (seekPass (pos, i)).state.2.state.buf := by
  rcases i with ⟨s, e, idx⟩
  cases s with
  | idle b =>
    rcases b with _ | b
    · exact hi
    · simp [seekPass, FileState.buf, JoinHandle.buf, Job.buf, FileBuf.empty]
  | reading h | writing h | seeking h =>
    rcases h with _ | ⟨_, _ | _⟩ | _ | _ <;>
      simp_all [seekPass, FileState.poll, JoinHandle.poll, FileState.buf, JoinHandle.buf,
        FileState.withHandle, FileState.getOp]

theorem pollFlush_bufWithin (hi : BufWithin L i.state.buf) :
    BufWithin L i.pollFlush.2.state.buf := by
  rcases i with ⟨s, _ | e, idx⟩
  · cases s with
    | idle b => exact hi
    | reading h | writing h | seeking h =>
      rcases h with _ | ⟨_, _ | _⟩ | _ | _ <;>
        simp_all [FileInner.pollFlush, FileState.poll, JoinHandle.poll, FileState.buf,
          JoinHandle.buf, FileState.withHandle]
  · exact hi

end Passes

/-- Every buffer of the world holds at most `L` bytes. -/
structure BufsWithin (L : Nat) (w : World) : Prop where
  state : BufWithin L w.inner.state.buf
  holder : BufWithin L (w.holder.bind Holder.buf)
  detached : ∀ job ∈ w.detached, BufWithin L job.buf

section Steps

variable {L limit : Nat} {w w' : World}

theorem bufsWithin_init (f : SyncFile) : BufsWithin L (World.init f) :=
  ⟨by simp [World.init, FileInner.new, FileState.buf, FileBuf.empty], by simp [World.init],
    by simp [World.init]⟩

/-- The jobs a dropped future leaves running hold the buffer it held. -/
theorem Holder.orphans_bufWithin {hd : Holder} (hh : BufWithin L hd.buf) :
    ∀ job ∈ hd.orphans, BufWithin L job.buf := by
  rcases hd with _ | ⟨_, _ | _ | _ | _⟩ | _ | ⟨_ | _ | _ | _⟩ <;>
    simp_all [Holder.orphans, Holder.buf, Holder.handle, JoinHandle.buf]

theorem BufsWithin.resume (hw : BufsWithin L w) {hd : Holder} (hh : w.holder = some hd) :
    BufsWithin L (resume w hd) := by
  have hhd : BufWithin L hd.buf := by simpa [hh] using hw.holder
  cases hd with
  | setLenFlush size =>
    have hp := pollFlush_bufWithin hw.state
    simp only [YlongRuntime.resume]
    split <;> rename_i heq <;> rw [heq] at hp
    · unfold YlongRuntime.setLenFlushed
      split
      · rename_i buf hs
        rw [saveErr_state] at hs
        exact ⟨by simp [FileState.buf], by simpa [Holder.buf, Holder.handle, JoinHandle.buf,
          Job.buf, FileState.buf, hs] using hp, hw.detached⟩
      · exact ⟨by simpa using hp, by simp, hw.detached⟩
    · exact ⟨hp, hw.holder, hw.detached⟩
    · exact ⟨hp, by simp, hw.detached⟩
  | setLenJob size h =>
    cases h <;> simp only [YlongRuntime.resume, JoinHandle.poll]
    case running job => exact ⟨hw.state, hhd, hw.detached⟩
    case finished b res =>
      exact ⟨bufWithin_some.mpr (by simpa [Holder.buf, Holder.handle, JoinHandle.buf] using hhd),
        by simp, hw.detached⟩
    all_goals exact ⟨hw.state, by simp, hw.detached⟩
  | syncFlush kind =>
    have hp := pollFlush_bufWithin hw.state
    simp only [YlongRuntime.resume]
    split <;> rename_i heq <;> rw [heq] at hp
    · exact ⟨by simpa using hp, by simp [Holder.buf, Holder.handle, JoinHandle.buf, Job.buf],
        hw.detached⟩
    · exact ⟨hp, hw.holder, hw.detached⟩
    · exact ⟨hp, by simp, hw.detached⟩
  | syncJob h =>
    cases h <;> simp only [YlongRuntime.resume, JoinHandle.poll]
    case running job => exact ⟨hw.state, hhd, hw.detached⟩
    all_goals exact ⟨hw.state, by simp, hw.detached⟩

/-- Every step keeps the buffers within `L` while the limit is at most `L`. -/
theorem BufsWithin.step (hw : BufsWithin L w) (hl : limit ≤ L) {a : Action}
    (h : step limit w a = some w') : BufsWithin L w' := by
  cases a with
  | begin c =>
    obtain ⟨-, c', r, rfl⟩ := step_begin h
    exact ⟨hw.state, hw.holder, hw.detached⟩
  | pass =>
    simp only [YlongRuntime.step] at h
    split at h
    · cases h
    all_goals rename_i c _
    · have hp := readPass_bufWithin limit c hl hw.state
      split at h <;> rename_i heq <;> rw [heq] at hp <;> cases h <;>
        exact ⟨hp, hw.holder, hw.detached⟩
    · have hp := writePass_bufWithin limit c hl hw.state
      split at h <;> rename_i heq <;> rw [heq] at hp <;> cases h <;>
        exact ⟨hp, hw.holder, hw.detached⟩
    · have hp := seekPass_bufWithin c hw.state
      split at h <;> rename_i heq <;> rw [heq] at hp <;> cases h <;>
        exact ⟨hp, hw.holder, hw.detached⟩
  | flush =>
    obtain ⟨-, rfl⟩ := step_flush h
    exact ⟨pollFlush_bufWithin hw.state, hw.holder, hw.detached⟩
  | lock m =>
    obtain ⟨-, rfl⟩ := step_lock h
    exact ⟨hw.state, by cases m <;> simp [Method.start, Holder.buf, Holder.handle], hw.detached⟩
  | resume =>
    simp only [YlongRuntime.step] at h
    cases hh : w.holder with
    | none => simp [hh] at h
    | some hd =>
      simp only [hh, Option.map_some', Option.some.injEq] at h
      exact h ▸ hw.resume hh
  | drop =>
    simp only [YlongRuntime.step] at h
    cases hh : w.holder with
    | none => simp [hh] at h
    | some hd =>
      simp only [hh, Option.map_some', Option.some.injEq] at h
      subst h
      refine ⟨hw.state, by simp, fun job hj => ?_⟩
      rcases List.mem_append.mp hj with hj | hj
      · exact Holder.orphans_bufWithin (by simpa [hh] using hw.holder) job hj
      · exact hw.detached job hj
  | finish s φ =>
    cases s with
    | state =>
      simp only [YlongRuntime.step] at h
      split at h
      · rename_i job hs
        cases h
        refine ⟨?_, hw.holder, hw.detached⟩
        rw [FileState.buf_withHandle (by simp [hs])]
        have hj := hw.state
        rw [FileState.buf_of_handle hs] at hj
        exact bufWithin_some.mpr (Job.run_buf_le hj φ _)
      · cases h
    | holder =>
      simp only [YlongRuntime.step] at h
      split at h
      · rename_i hd job hh hs
        cases h
        simp only [hh, Option.some_bind] at hs
        have hj : BufWithin L job.buf := by simpa [hh, Holder.buf, hs, JoinHandle.buf] using hw.holder
        refine ⟨hw.state, ?_, hw.detached⟩
        simpa [Holder.buf_withHandle (show hd.handle.isSome by simp [hs]), JoinHandle.buf] using Job.run_buf_le hj φ _
      · cases h
    | detached i =>
      simp only [YlongRuntime.step] at h
      cases hj : w.detached[i]? with
      | none => simp [hj] at h
      | some job =>
        simp only [hj, Option.map_some', Option.some.injEq] at h
        subst h
        exact ⟨hw.state, hw.holder, fun job hj => hw.detached job (List.mem_of_mem_eraseIdx hj)⟩
  | fail s e =>
    cases s with
    | state =>
      simp only [YlongRuntime.step] at h
      split at h
      · rename_i job hs
        cases h
        refine ⟨?_, hw.holder, hw.detached⟩
        rw [FileState.buf_withHandle (by simp [hs])]
        simp [JoinHandle.buf]
      · cases h
    | holder =>
      simp only [YlongRuntime.step] at h
      split at h
      · rename_i hd job hh hs
        cases h
        simp only [hh, Option.some_bind] at hs
        refine ⟨hw.state, ?_, hw.detached⟩
        simp [Holder.buf_withHandle (show hd.handle.isSome by simp [hs]), JoinHandle.buf]
      · cases h
    | detached i =>
      simp only [YlongRuntime.step] at h
      cases hj : w.detached[i]? with
      | none => simp [hj] at h
      | some job =>
        simp only [hj, Option.map_some', Option.some.injEq] at h
        subst h
        exact ⟨hw.state, hw.holder, fun job hj => hw.detached job (List.mem_of_mem_eraseIdx hj)⟩

theorem BufsWithin.mem_bufs (hw : BufsWithin L w) : ∀ b ∈ w.bufs, b.buf.length ≤ L := by
  intro b hb
  simp only [World.bufs, List.mem_append, Option.mem_toList, List.mem_filterMap] at hb
  rcases hb with (hb | hb) | ⟨job, hj, hb⟩
  · exact hw.state b hb
  · exact hw.holder b hb
  · exact hw.detached job hj b hb

end Steps

/-- A `File` with its `buf_size_limit`. -/
structure LimitedFile where
  limit : Nat
  world : World

/-- What a task does to a `File`: a step of its calls and jobs, or
`set_buffer_size_limit(n)`. -/
inductive FileAction
  | act (a : Action)
  | setBufferSizeLimit (n : Nat)

/-- `set_buffer_size_limit` takes `&mut self`: no call is between passes of its loop, and no
future holding the mutex borrows the file. -/
def LimitedFile.step (lf : LimitedFile) : FileAction → Option LimitedFile
  | .act a => (YlongRuntime.step lf.limit lf.world a).map fun w => { lf with world := w }
  | .setBufferSizeLimit n => if lf.world.free then some { lf with limit := n } else none

/-- The limit a step sets, if it sets one, is at most `L`. -/
def FileAction.SetsAtMost (L : Nat) : FileAction → Prop
  | .act _ => True
  | .setBufferSizeLimit n => n ≤ L

/-- The states of a `File::new` whose limit is never set above `L`. -/
inductive LimitedFile.Reachable (L : Nat) : LimitedFile → Prop
  | init (f : SyncFile) : Reachable L ⟨defaultBufLimit, World.init f⟩
  | step {lf lf' : LimitedFile} (a : FileAction) : Reachable L lf → a.SetsAtMost L →
      lf.step a = some lf' → Reachable L lf'

theorem LimitedFile.Reachable.bufsWithin {L : Nat} (hL : defaultBufLimit ≤ L) {lf : LimitedFile}
    (h : lf.Reachable L) : lf.limit ≤ L ∧ BufsWithin L lf.world := by
  induction h with
  | init f => exact ⟨hL, bufsWithin_init f⟩
  | step a _ ha hs ih =>
    cases a with
    | act a =>
      obtain ⟨w', hw', rfl⟩ := Option.map_eq_some'.mp hs
      exact ⟨ih.1, ih.2.step ih.1 hw'⟩
    | setBufferSizeLimit n =>
      simp only [LimitedFile.step] at hs
      split_ifs at hs
      cases hs
      exact ⟨ha, ih.2⟩

/-- While no limit above `L` is set, and `L` is at least the default 2 MiB, every buffer of a
`File` holds at most `L` bytes: the one in `state`, the one of a running or finished job, the
one `set_len` holds, and those of the jobs of dropped futures. -/
theorem buffers_within_limit {L : Nat} (hL : defaultBufLimit ≤ L) {lf : LimitedFile}
    (h : lf.Reachable L) : ∀ b ∈ lf.world.bufs, b.buf.length ≤ L :=
  (h.bufsWithin hL).2.mem_bufs

/-- `set_buffer_size_limit(4)`, then a write of six bytes: its job gets the first four. -/
theorem small_limit_write_buffer :
    ∃ lf, LimitedFile.Reachable defaultBufLimit lf ∧
      lf.world.bufs.map FileBuf.buf = [[1, 2, 3, 4]] ∧
      ∀ b ∈ lf.world.bufs, b.buf.length ≤ defaultBufLimit := by
  have h : LimitedFile.Reachable defaultBufLimit _ :=
    .step (.act .pass) (.step (.act (.begin (.write [1, 2, 3, 4, 5, 6])))
      (.step (.setBufferSizeLimit 4) (.init ⟨[], 0⟩) (show 4 ≤ defaultBufLimit by decide) rfl)
      trivial rfl) trivial rfl
  exact ⟨_, h, rfl, buffers_within_limit le_rfl h⟩

end YlongRuntime
