import YlongRuntime.Fs.World

/-! The async `File` against a synchronous file with one cursor. A task awaits each call to
`Ready` before it starts the next, no join of a blocking job fails and every syscall
succeeds. Each call then returns, once the task has polled it and its jobs have finished, and
returns what the synchronous file returns. Between two calls the file lags the synchronous one
only while the last call was a write whose job still runs. -/

namespace YlongRuntime

/-- A call a task awaits: `poll_read` with `room` bytes free, `poll_write`, `poll_seek`,
`poll_flush` or `set_len`. -/
inductive Op
  | read (room : Nat)
  | write (bytes : List UInt8)
  | seek (pos : SeekFrom)
  | flush
  | setLen (size : Nat)
deriving DecidableEq

/-- Modelled from the spec: the synchronous file with one cursor that the async `File` is
compared with. A read of `room` bytes returns the next `m ≤ room` bytes, at least one when
`room` is positive and the cursor is before the end; a write of `bytes` writes its first
`min |bytes| limit` bytes at the cursor. -/
def Op.Reference (limit : Nat) : Op → SyncFile → Reply → SyncFile → Prop
  | .read room, f, r, f' =>
    ∃ bytes, r = .read (.ready (.ok bytes)) ∧
      bytes = (f.content.drop f.pos).take bytes.length ∧ bytes.length ≤ room ∧
      (0 < room → f.pos < f.content.length → 0 < bytes.length) ∧
      f' = { f with pos := f.pos + bytes.length }
  | .write bytes, f, r, f' =>
    r = .write (.ready (.ok (min bytes.length limit))) ∧ f' = f.writeAll (bytes.take limit)
  | .seek pos, f, r, f' =>
    match f.seek pos with
    | .ok (p, g) => r = .seek (.ready (.ok p)) ∧ f' = g
    | .error e => r = .seek (.ready (.error e)) ∧ f' = f
  | .flush, f, r, f' => r = .flush (.ready (.ok ())) ∧ f' = f
  | .setLen size, f, r, f' => r = .setLen (.ready (.ok ())) ∧ f' = f.setLen size

/-- The reference file takes the calls `ops` from `f` to `f'`, returning `rs`. -/
inductive Op.ReferenceRun (limit : Nat) : SyncFile → List Op → List Reply → SyncFile → Prop
  | nil (f : SyncFile) : ReferenceRun limit f [] [] f
  | cons {f f₁ f' : SyncFile} {op : Op} {ops : List Op} {r : Reply} {rs : List Reply} :
      op.Reference limit f r f₁ → ReferenceRun limit f₁ ops rs f' →
      ReferenceRun limit f (op :: ops) (r :: rs) f'

/-- The steps a run takes while a task awaits `op`: polls of `op` by the task, and blocking
jobs finishing with every syscall succeeding. -/
def Op.Allowed : Op → Action → Prop
  | .read room, .begin c => c = .read room
  | .write bytes, .begin c => c = .write bytes
  | .seek pos, .begin c => c = .seek pos
  | .flush, .flush => True
  | .setLen size, .lock m => m = .setLen size
  | _, .pass | _, .resume => True
  | _, .finish _ φ => φ = Faults.none
  | _, _ => False

def Reply.isReady : Reply → Bool
  | .read (.ready _) | .write (.ready _) | .seek (.ready _) | .flush (.ready _)
  | .setLen (.ready _) | .sync (.ready _) => true
  | _ => false

/-- A task awaits `op` from `w` to `w'`: allowed steps, the last one the first to return
`Ready`. -/
inductive Drive (limit : Nat) (op : Op) : World → World → Prop
  | last {w w' : World} (a : Action) : op.Allowed a → step limit w a = some w' →
      w'.reply.any Reply.isReady = true → Drive limit op w w'
  | cons {w w₁ w' : World} (a : Action) : op.Allowed a → step limit w a = some w₁ →
      w₁.reply.any Reply.isReady = false → Drive limit op w₁ w' → Drive limit op w w'

/-- A task awaits `ops` one after the other from `w` to `w'`, getting `rs`. -/
inductive Awaits (limit : Nat) : World → List Op → List Reply → World → Prop
  | nil (w : World) : Awaits limit w [] [] w
  | cons {w w₁ w' : World} {op : Op} {ops : List Op} {r : Reply} {rs : List Reply} :
      Drive limit op w w₁ → w₁.reply = some r → Awaits limit w₁ ops rs w' →
      Awaits limit w (op :: ops) (r :: rs) w'

/-- A world with nothing in `write_err` and no detached job. -/
def World.quiet (s : FileState) (idx : Nat) (file : SyncFile) (call : Option Call)
    (holder : Option Holder) (reply : Option Reply) : World :=
  ⟨⟨s, none, idx⟩, file, call, holder, [], reply⟩

/-- The state and the file, given that the file is `f` once the write job last started
lands. -/
inductive Lag (f : SyncFile) : FileState → SyncFile → Prop
  | landed : Lag f (.idle (some .empty)) f
  | running {file : SyncFile} (wBuf : FileBuf) : file.writeAll wBuf.buf = f →
      Lag f (.writing (.running (.write 0 wBuf))) file
  | finished : Lag f (.writing (.finished .empty (.ok 0))) f

/-- Between two awaited calls, `w` stands for the reference file `f`. -/
inductive Sim (f : SyncFile) : World → Prop
  | mk {s idx file reply} : Lag f s file → Sim f (World.quiet s idx file none none reply)

theorem Sim.init (f : SyncFile) : Sim f (World.init f) := .mk .landed

/-- While a task awaits `poll_read`, `poll_write` or `poll_seek` with the call `c`, between
two of its polls or during one: state and file as `P` allows. -/
inductive InCall (P : FileState → SyncFile → Prop) (c : Call) : World → Prop
  | mk {s idx file call reply} : P s file → (call = none ∨ call = some c) →
      InCall P c (World.quiet s idx file call none reply)

section Drive

variable {limit : Nat} {op : Op} {Mid Done : World → Prop}

/-- Awaiting `op` from a world in `Mid` ends in `Done` when every allowed step from `Mid`
either stays in `Mid` without returning `Ready`, or ends in `Done`, which is `Ready`. -/
theorem Drive.done
    (hstep : ∀ {w a w'}, Mid w → op.Allowed a → step limit w a = some w' →
      (Mid w' ∧ w'.reply.any Reply.isReady = false) ∨ Done w')
    (hready : ∀ {w}, Done w → w.reply.any Reply.isReady = true) {w w' : World}
    (h : Drive limit op w w') (hw : Mid w) : Done w' := by
  induction h with
  | last a ha hs hr =>
    rcases hstep hw ha hs with ⟨-, hn⟩ | hd
    · exact absurd hr (by simp [hn])
    · exact hd
  | cons a ha hs hn _ ih =>
    rcases hstep hw ha hs with ⟨hm, -⟩ | hd
    · exact ih hm
    · exact absurd (hready hd) (by simp [hn])

/-- How far the call a task awaits is from returning: the job in `state` that has to finish
first, the mutex `set_len` has to take and its job, and the poll the task has to make. -/
def FileState.rank : FileState → Nat
  | .writing (.running _) => 4
  | .writing _ => 3
  | .idle _ => 2
  | .reading (.running _) | .seeking (.running _) => 1
  | _ => 0

def holderRank : Option Holder → Nat
  | none => 3
  | some (.setLenJob _ (.running _)) => 1
  | some (.setLenJob _ _) => 0
  | some _ => 2

def World.rank (w : World) : Nat :=
  8 * w.inner.state.rank + 2 * holderRank w.holder + w.call.isNone.toNat

/-- The step from `w` to `w'` returns `Ready` or brings the call closer to returning. -/
def Advances (w w' : World) : Prop := w'.reply.any Reply.isReady = true ∨ w'.rank < w.rank

/-- Awaiting `op` from `Mid` returns when, as for `Drive.done`, steps stay in `Mid` or end in
`Done`, and from every world in `Mid` some allowed step advances. -/
theorem Drive.exists
    (hstep : ∀ {w a w'}, Mid w → op.Allowed a → step limit w a = some w' →
      (Mid w' ∧ w'.reply.any Reply.isReady = false) ∨ Done w')
    (hready : ∀ {w}, Done w → w.reply.any Reply.isReady = true)
    (hprog : ∀ {w}, Mid w → ∃ a, op.Allowed a ∧ ∃ w', step limit w a = some w' ∧ Advances w w')
    {w : World} (hw : Mid w) : ∃ w', Drive limit op w w' ∧ Done w' := by
  generalize hr : w.rank = n
  induction n using Nat.strong_induction_on generalizing w with
  | _ n ih =>
    obtain ⟨a, ha, w₁, hs, hadv⟩ := hprog hw
    rcases hstep hw ha hs with ⟨hm, hn⟩ | hd
    · have hlt : w₁.rank < n := by
        rcases hadv with hr' | hr'
        · simp [hn] at hr'
        · omega
      obtain ⟨w', hd, hdone⟩ := ih _ hlt hm rfl
      exact ⟨w', .cons a ha hs hn hd, hdone⟩
    · exact ⟨w₁, .last a ha hs (hready hd), hd⟩

end Drive

theorem step_begin_quiet {limit : Nat} (s : FileState) (idx : Nat) (file : SyncFile)
    (reply : Option Reply) (c : Call) :
    step limit (World.quiet s idx file none none reply) (.begin c) =
      some (World.quiet s idx file (some c) none none) := by
  cases c <;> rfl

theorem advances_begin_quiet {limit : Nat} (s : FileState) (idx : Nat) (file : SyncFile)
    (reply : Option Reply) (c : Call) :
    ∃ w', step limit (World.quiet s idx file none none reply) (.begin c) = some w' ∧
      Advances (World.quiet s idx file none none reply) w' :=
  ⟨_, step_begin_quiet s idx file reply c, .inr (by simp [World.rank, World.quiet])⟩

/-! ### Blocking jobs with every syscall succeeding -/

namespace Job

theorem run_read_none (b : FileBuf) (f : SyncFile) :
    (Job.read b).run Faults.none f =
      ((.ofBytes (f.read b.buf.length).1, .ok 0), (f.read b.buf.length).2) := rfl

theorem run_write_none (wBuf : FileBuf) (f : SyncFile) :
    (Job.write 0 wBuf).run Faults.none f = ((.empty, .ok 0), f.writeAll wBuf.buf) := rfl

theorem run_seek_none (pos : SeekFrom) (b : FileBuf) (f : SyncFile) :
    (Job.seek pos b).run Faults.none f =
      match f.seek pos with
      | .error e => ((b, .error e), f)
      | .ok (p, g) => ((b, .ok p), g) := rfl

theorem run_setLen_none (size : Nat) (f : SyncFile) :
    (Job.setLen size .empty).run Faults.none f = ((.empty, .ok 0), f.setLen size) := by
  have : ¬ (f.pos : Int) < 0 := by omega
  simp [Job.run, syscall, SyncFile.seek, SyncFile.target, FileBuf.dropUnread, Faults.none, this]

end Job

theorem FileBuf.reserve_length (b : FileBuf) (size limit : Nat) :
    (b.reserve size limit).buf.length = min size limit := by
  simp [FileBuf.reserve, FileBuf.ofBytes]

/-! ### `poll_read` -/

/-- While a task awaits `poll_read` with `room` bytes free: the job reads `min room limit`
bytes of `f`. -/
inductive ReadPhase (limit room : Nat) (f : SyncFile) : FileState → SyncFile → Prop
  | lag {s file} : Lag f s file → ReadPhase limit room f s file
  | reserved :
    ReadPhase limit room f (.reading (.running (.read (FileBuf.empty.reserve room limit)))) f
  | got : ReadPhase limit room f
      (.reading (.finished (.ofBytes (f.read (min room limit)).1) (.ok 0)))
      (f.read (min room limit)).2

theorem read_step {limit room : Nat} {f : SyncFile} {w w' : World} {a : Action}
    (hw : InCall (ReadPhase limit room f) (.read room) w) (ha : (Op.read room).Allowed a)
    (h : step limit w a = some w') :
    (InCall (ReadPhase limit room f) (.read room) w' ∧ w'.reply.any Reply.isReady = false) ∨
      ∃ idx, w' = World.quiet (.idle (some .empty)) idx (f.read (min room limit)).2 none none
        (some (.read (.ready (.ok (f.read (min room limit)).1)))) := by
  obtain ⟨hp, hc⟩ := hw
  cases a with
  | begin c =>
    cases ha
    rcases hc with rfl | rfl <;> simp [step, World.quiet, World.free] at h
    subst h
    exact .inl ⟨.mk hp (.inr rfl), rfl⟩
  | pass =>
    rcases hc with rfl | rfl
    · simp [step, World.quiet] at h
    rcases hp with (_ | ⟨wBuf, hb⟩ | _) | _ | _ <;>
      simp [step, World.quiet, readPass, JoinHandle.poll, FileInner.saveErr] at h <;> subst h
    · exact .inl ⟨.mk .reserved (.inr rfl), rfl⟩
    · exact .inl ⟨.mk (.lag (.running wBuf hb)) (.inl rfl), rfl⟩
    · exact .inl ⟨.mk (.lag .landed) (.inr rfl), rfl⟩
    · exact .inl ⟨.mk .reserved (.inl rfl), rfl⟩
    · have hr : (FileBuf.ofBytes (f.read (min room limit)).1).remaining ≤ room := by
        have := f.read_length_le (min room limit)
        simp only [FileBuf.remaining, FileBuf.ofBytes]
        omega
      rw [FileBuf.appendTo_of_remaining_le hr]
      exact .inr ⟨_, rfl⟩
  | finish s φ =>
    cases ha
    rcases s with _ | _ | i
    · rcases hp with (_ | ⟨wBuf, hb⟩ | _) | _ | _ <;>
        simp [step, World.quiet, FileState.handle, Job.run_write_none, Job.run_read_none,
          FileState.withHandle, FileBuf.reserve_length] at h <;> subst h
      · exact .inl ⟨hb ▸ .mk (.lag .finished) hc, rfl⟩
      · exact .inl ⟨.mk .got hc, rfl⟩
    all_goals simp [step, World.quiet] at h
  | resume => simp [step, World.quiet] at h
  | _ => cases ha

theorem read_progress {limit room : Nat} {f : SyncFile} {w : World}
    (hw : InCall (ReadPhase limit room f) (.read room) w) :
    ∃ a, (Op.read room).Allowed a ∧ ∃ w', step limit w a = some w' ∧ Advances w w' := by
  obtain ⟨hp, hc⟩ := hw
  rcases hc with rfl | rfl
  · exact ⟨.begin (.read room), rfl, advances_begin_quiet _ _ _ _ _⟩
  rcases hp with (_ | ⟨wBuf, hb⟩ | _) | _ | _
  · exact ⟨.pass, trivial, by simp [step, World.quiet, readPass, Advances, World.rank,
      FileState.rank]⟩
  · exact ⟨.finish .state .none, rfl, by simp [step, World.quiet, FileState.handle,
      FileState.withHandle, Advances, World.rank, FileState.rank]⟩
  · exact ⟨.pass, trivial, by simp [step, World.quiet, readPass, JoinHandle.poll,
      FileInner.saveErr, Advances, World.rank, FileState.rank]⟩
  · exact ⟨.finish .state .none, rfl, by simp [step, World.quiet, FileState.handle,
      FileState.withHandle, Advances, World.rank, FileState.rank]⟩
  · exact ⟨.pass, trivial, by simp [step, World.quiet, readPass, JoinHandle.poll, Advances,
      Reply.isReady]⟩

/-! ### `poll_write` -/

theorem write_step {limit : Nat} {bytes : List UInt8} {f : SyncFile} {w w' : World} {a : Action}
    (hw : InCall (Lag f) (.write bytes) w) (ha : (Op.write bytes).Allowed a)
    (h : step limit w a = some w') :
    (InCall (Lag f) (.write bytes) w' ∧ w'.reply.any Reply.isReady = false) ∨
      ∃ idx wBuf, wBuf.buf = bytes.take limit ∧
        w' = World.quiet (.writing (.running (.write 0 wBuf))) idx f none none
          (some (.write (.ready (.ok (min bytes.length limit))))) := by
  obtain ⟨hp, hc⟩ := hw
  cases a with
  | begin c =>
    cases ha
    rcases hc with rfl | rfl <;> simp [step, World.quiet, World.free, writeCheck] at h
    subst h
    exact .inl ⟨.mk hp (.inr rfl), rfl⟩
  | pass =>
    rcases hc with rfl | rfl
    · simp [step, World.quiet] at h
    rcases hp with _ | ⟨wBuf, hb⟩ | _ <;>
      simp [step, World.quiet, writePass, FileState.poll, JoinHandle.poll, FileState.withHandle,
        FileBuf.dropUnread, FileBuf.append] at h <;> subst h
    · exact .inr ⟨_, _, by simp [FileBuf.empty], rfl⟩
    · exact .inl ⟨.mk (.running wBuf hb) (.inr rfl), rfl⟩
    · exact .inl ⟨.mk .landed (.inr rfl), rfl⟩
  | finish s φ =>
    cases ha
    rcases s with _ | _ | i
    · rcases hp with _ | ⟨wBuf, hb⟩ | _ <;>
        simp [step, World.quiet, FileState.handle, Job.run_write_none, FileState.withHandle] at h
      subst h
      exact .inl ⟨hb ▸ .mk .finished hc, rfl⟩
    all_goals simp [step, World.quiet] at h
  | resume => simp [step, World.quiet] at h
  | _ => cases ha

theorem write_progress {limit : Nat} {bytes : List UInt8} {f : SyncFile} {w : World}
    (hw : InCall (Lag f) (.write bytes) w) :
    ∃ a, (Op.write bytes).Allowed a ∧ ∃ w', step limit w a = some w' ∧ Advances w w' := by
  obtain ⟨hp, hc⟩ := hw
  rcases hc with rfl | rfl
  · exact ⟨.begin (.write bytes), rfl, advances_begin_quiet _ _ _ _ _⟩
  rcases hp with _ | ⟨wBuf, hb⟩ | _
  · exact ⟨.pass, trivial, by simp [step, World.quiet, writePass, FileBuf.dropUnread, Advances,
      Reply.isReady]⟩
  · exact ⟨.finish .state .none, rfl, by simp [step, World.quiet, FileState.handle,
      FileState.withHandle, Advances, World.rank, FileState.rank]⟩
  · exact ⟨.pass, trivial, by simp [step, World.quiet, writePass, FileState.poll, JoinHandle.poll,
      FileState.withHandle, Advances, World.rank, FileState.rank]⟩

/-! ### `poll_seek` -/

/-- While a task awaits `poll_seek` to `pos`: the job seeks `f`. -/
inductive SeekPhase (pos : SeekFrom) (f : SyncFile) : FileState → SyncFile → Prop
  | lag {s file} : Lag f s file → SeekPhase pos f s file
  | seeking : SeekPhase pos f (.seeking (.running (.seek pos .empty))) f
  | sought {p g} : f.seek pos = .ok (p, g) → SeekPhase pos f (.seeking (.finished .empty (.ok p))) g
  | refused {e} : f.seek pos = .error e →
      SeekPhase pos f (.seeking (.finished .empty (.error e))) f

theorem seekPass_empty (pos : SeekFrom) (idx : Nat) :
    seekPass (pos, ⟨.idle (some .empty), none, idx⟩) =
      .next (pos, ⟨.seeking (.running (.seek pos .empty)), none, idx⟩) := by
  cases pos <;> simp [seekPass, FileBuf.dropUnread]

theorem seek_step {limit : Nat} {pos : SeekFrom} {f : SyncFile} {w w' : World} {a : Action}
    (hw : InCall (SeekPhase pos f) (.seek pos) w) (ha : (Op.seek pos).Allowed a)
    (h : step limit w a = some w') :
    (InCall (SeekPhase pos f) (.seek pos) w' ∧ w'.reply.any Reply.isReady = false) ∨
      ∃ idx, (∃ p g, f.seek pos = .ok (p, g) ∧
          w' = World.quiet (.idle (some .empty)) idx g none none (some (.seek (.ready (.ok p))))) ∨
        (∃ e, f.seek pos = .error e ∧
          w' = World.quiet (.idle (some .empty)) idx f none none
            (some (.seek (.ready (.error e))))) := by
  obtain ⟨hp, hc⟩ := hw
  cases a with
  | begin c =>
    cases ha
    rcases hc with rfl | rfl <;> simp [step, World.quiet, World.free] at h
    subst h
    exact .inl ⟨.mk hp (.inr rfl), rfl⟩
  | pass =>
    rcases hc with rfl | rfl
    · simp [step, World.quiet] at h
    rcases hp with (_ | ⟨wBuf, hb⟩ | _) | _ | ⟨hs⟩ | ⟨hs⟩
    · simp [step, World.quiet, seekPass_empty] at h
      subst h
      exact .inl ⟨.mk .seeking (.inr rfl), rfl⟩
    all_goals
      simp [step, World.quiet, seekPass, FileState.poll, JoinHandle.poll, FileState.withHandle,
        FileState.getOp, FileInner.saveErr] at h
      subst h
    · exact .inl ⟨.mk (.lag (.running wBuf hb)) (.inl rfl), rfl⟩
    · exact .inl ⟨.mk (.lag .landed) (.inr rfl), rfl⟩
    · exact .inl ⟨.mk .seeking (.inl rfl), rfl⟩
    · exact .inr ⟨_, .inl ⟨_, _, hs, rfl⟩⟩
    · exact .inr ⟨_, .inr ⟨_, hs, rfl⟩⟩
  | finish s φ =>
    cases ha
    rcases s with _ | _ | i
    · rcases hp with (_ | ⟨wBuf, hb⟩ | _) | _ | _ | _ <;>
        simp [step, World.quiet, FileState.handle, Job.run_write_none, Job.run_seek_none,
          FileState.withHandle] at h
      · subst h
        exact .inl ⟨hb ▸ .mk (.lag .finished) hc, rfl⟩
      · cases hs : f.seek pos with
        | error e =>
          simp only [hs] at h
          subst h
          exact .inl ⟨.mk (.refused hs) hc, rfl⟩
        | ok pg =>
          obtain ⟨p, g⟩ := pg
          simp only [hs] at h
          subst h
          exact .inl ⟨.mk (.sought hs) hc, rfl⟩
    all_goals simp [step, World.quiet] at h
  | resume => simp [step, World.quiet] at h
  | _ => cases ha

theorem seek_progress {limit : Nat} {pos : SeekFrom} {f : SyncFile} {w : World}
    (hw : InCall (SeekPhase pos f) (.seek pos) w) :
    ∃ a, (Op.seek pos).Allowed a ∧ ∃ w', step limit w a = some w' ∧ Advances w w' := by
  obtain ⟨hp, hc⟩ := hw
  rcases hc with rfl | rfl
  · exact ⟨.begin (.seek pos), rfl, advances_begin_quiet _ _ _ _ _⟩
  rcases hp with (_ | ⟨wBuf, hb⟩ | _) | _ | _ | _
  · exact ⟨.pass, trivial, by simp [step, World.quiet, seekPass_empty, Advances, World.rank,
      FileState.rank]⟩
  · exact ⟨.finish .state .none, rfl, by simp [step, World.quiet, FileState.handle,
      FileState.withHandle, Advances, World.rank, FileState.rank]⟩
  · exact ⟨.pass, trivial, by simp [step, World.quiet, seekPass, FileState.poll, JoinHandle.poll,
      FileState.withHandle, FileState.getOp, FileInner.saveErr, Advances, World.rank,
      FileState.rank]⟩
  · exact ⟨.finish .state .none, rfl, by simp [step, World.quiet, FileState.handle,
      FileState.withHandle, Advances, World.rank, FileState.rank]⟩
  all_goals exact ⟨.pass, trivial, by simp [step, World.quiet, seekPass, FileState.poll,
    JoinHandle.poll, FileState.getOp, Advances, Reply.isReady]⟩

/-! ### `poll_flush` -/

theorem flush_step {limit : Nat} {f : SyncFile} {w w' : World} {a : Action}
    (hw : Sim f w) (ha : Op.flush.Allowed a) (h : step limit w a = some w') :
    (Sim f w' ∧ w'.reply.any Reply.isReady = false) ∨
      ∃ idx, w' = World.quiet (.idle (some .empty)) idx f none none
        (some (.flush (.ready (.ok ())))) := by
  obtain ⟨hp⟩ := hw
  cases a with
  | flush =>
    rcases hp with _ | ⟨wBuf, hb⟩ | _ <;>
      simp [step, World.quiet, World.free, FileInner.pollFlush, FileState.poll, JoinHandle.poll,
        FileState.withHandle, FileState.getOp] at h <;> subst h
    · exact .inr ⟨_, rfl⟩
    · exact .inl ⟨.mk (.running wBuf hb), rfl⟩
    · exact .inr ⟨_, rfl⟩
  | finish s φ =>
    cases ha
    rcases s with _ | _ | i
    · rcases hp with _ | ⟨wBuf, hb⟩ | _ <;>
        simp [step, World.quiet, FileState.handle, Job.run_write_none, FileState.withHandle] at h
      subst h
      exact .inl ⟨hb ▸ .mk .finished, rfl⟩
    all_goals simp [step, World.quiet] at h
  | pass => simp [step, World.quiet] at h
  | resume => simp [step, World.quiet] at h
  | _ => cases ha

theorem flush_progress {limit : Nat} {f : SyncFile} {w : World} (hw : Sim f w) :
    ∃ a, Op.flush.Allowed a ∧ ∃ w', step limit w a = some w' ∧ Advances w w' := by
  obtain ⟨hp⟩ := hw
  rcases hp with _ | ⟨wBuf, hb⟩ | _
  · exact ⟨.flush, trivial, by simp [step, World.quiet, World.free, FileInner.pollFlush,
      Advances, Reply.isReady]⟩
  · exact ⟨.finish .state .none, rfl, by simp [step, World.quiet, FileState.handle,
      FileState.withHandle, Advances, World.rank, FileState.rank]⟩
  · exact ⟨.flush, trivial, by simp [step, World.quiet, World.free, FileInner.pollFlush,
      FileState.poll, JoinHandle.poll, FileState.getOp, Advances, Reply.isReady]⟩

/-! ### `set_len` -/

/-- While a task awaits `set_len(size)`: flushing before or after it takes the mutex, then
its job resizing `f`. -/
inductive SetLenMid (size : Nat) (f : SyncFile) : World → Prop
  | flushing {s idx file holder reply} : Lag f s file →
      (holder = none ∨ holder = some (.setLenFlush size)) →
      SetLenMid size f (World.quiet s idx file none holder reply)
  | job {idx reply} : SetLenMid size f (World.quiet (.idle none) idx f none
      (some (.setLenJob size (.running (.setLen size .empty)))) reply)
  | jobDone {idx reply} : SetLenMid size f (World.quiet (.idle none) idx (f.setLen size) none
      (some (.setLenJob size (.finished .empty (.ok 0)))) reply)

theorem setLen_step {limit size : Nat} {f : SyncFile} {w w' : World} {a : Action}
    (hw : SetLenMid size f w) (ha : (Op.setLen size).Allowed a)
    (h : step limit w a = some w') :
    (SetLenMid size f w' ∧ w'.reply.any Reply.isReady = false) ∨
      ∃ idx, w' = World.quiet (.idle (some .empty)) idx (f.setLen size) none none
        (some (.setLen (.ready (.ok ())))) := by
  cases a with
  | lock m =>
    cases ha
    rcases hw with ⟨hp, rfl | rfl⟩ | _ | _ <;> simp [step, World.quiet, World.free] at h
    subst h
    exact .inl ⟨.flushing hp (.inr rfl), rfl⟩
  | resume =>
    rcases hw with ⟨hp, rfl | rfl⟩ | _ | _
    · simp [step, World.quiet] at h
    · rcases hp with _ | ⟨wBuf, hb⟩ | _ <;>
        simp [step, World.quiet, resume, FileInner.pollFlush, FileState.poll, JoinHandle.poll,
          FileState.withHandle, FileState.getOp, setLenFlushed, FileInner.saveErr] at h <;>
        subst h
      · exact .inl ⟨.job, rfl⟩
      · exact .inl ⟨.flushing (.running wBuf hb) (.inr rfl), rfl⟩
      · exact .inl ⟨.job, rfl⟩
    all_goals simp [step, World.quiet, resume, JoinHandle.poll] at h; subst h
    · exact .inl ⟨.job, rfl⟩
    · exact .inr ⟨_, rfl⟩
  | finish s φ =>
    cases ha
    rcases s with _ | _ | i
    · rcases hw with ⟨_ | ⟨wBuf, hb⟩ | _, hh⟩ | _ | _ <;>
        simp [step, World.quiet, FileState.handle, Job.run_write_none, FileState.withHandle] at h
      subst h
      exact .inl ⟨hb ▸ .flushing .finished hh, rfl⟩
    · rcases hw with ⟨_, rfl | rfl⟩ | _ | _ <;>
        simp [step, World.quiet, Holder.handle, Job.run_setLen_none, Holder.withHandle] at h
      subst h
      exact .inl ⟨.jobDone, rfl⟩
    · rcases hw with ⟨_, _⟩ | _ | _ <;> simp [step, World.quiet] at h
  | pass => rcases hw with ⟨_, _⟩ | _ | _ <;> simp [step, World.quiet] at h
  | _ => cases ha

theorem setLen_progress {limit size : Nat} {f : SyncFile} {w : World} (hw : SetLenMid size f w) :
    ∃ a, (Op.setLen size).Allowed a ∧ ∃ w', step limit w a = some w' ∧ Advances w w' := by
  rcases hw with ⟨hp, rfl | rfl⟩ | _ | _
  · exact ⟨.lock (.setLen size), rfl, by simp [step, World.quiet, World.free, Method.start,
      Advances, World.rank, holderRank]⟩
  rcases hp with _ | ⟨wBuf, hb⟩ | _
  · exact ⟨.resume, trivial, by simp [step, World.quiet, resume, FileInner.pollFlush,
      setLenFlushed, FileInner.saveErr, Except.map, Advances, World.rank, FileState.rank,
      holderRank]⟩
  · exact ⟨.finish .state .none, rfl, by simp [step, World.quiet, FileState.handle,
      FileState.withHandle, Advances, World.rank, FileState.rank]⟩
  · exact ⟨.resume, trivial, by simp [step, World.quiet, resume, FileInner.pollFlush,
      FileState.poll, JoinHandle.poll, FileState.withHandle, FileState.getOp, setLenFlushed,
      FileInner.saveErr, Except.map, Advances, World.rank, FileState.rank, holderRank]⟩
  · exact ⟨.finish .holder .none, rfl, by simp [step, World.quiet, Holder.handle,
      Holder.withHandle, Advances, World.rank, FileState.rank, holderRank]⟩
  · exact ⟨.resume, trivial, by simp [step, World.quiet, resume, JoinHandle.poll, Advances,
      Reply.isReady]⟩

/-! ### Each awaited call, and a run of them -/

variable {limit : Nat}

theorem Drive.refines (hl : 1 ≤ limit) {op : Op} {f : SyncFile} {w w' : World} {r : Reply}
    (hw : Sim f w) (h : Drive limit op w w') (hr : w'.reply = some r) :
    ∃ f', op.Reference limit f r f' ∧ Sim f' w' ∧ ((∃ bytes, op = .write bytes) ∨ w'.file = f') := by
  obtain ⟨hlag⟩ := hw
  cases op with
  | read room =>
    obtain ⟨idx, rfl⟩ := h.done read_step (by rintro _ ⟨_, rfl⟩; rfl) (.mk (.lag hlag) (.inl rfl))
    cases hr
    have hpos (hk : 0 < room) (hp : f.pos < f.content.length) :
        0 < (f.read (min room limit)).1.length :=
      f.read_length_pos (by omega) hp
    exact ⟨_, ⟨_, rfl, f.read_fst _, (f.read_length_le _).trans (min_le_left _ _), hpos,
      f.read_pos _⟩, .mk .landed, .inr rfl⟩
  | write bytes =>
    obtain ⟨idx, wBuf, hb, rfl⟩ :=
      h.done write_step (by rintro _ ⟨_, _, _, rfl⟩; rfl) (.mk hlag (.inl rfl))
    cases hr
    exact ⟨_, ⟨rfl, rfl⟩, .mk (.running wBuf (by rw [hb])), .inl ⟨bytes, rfl⟩⟩
  | seek pos =>
    obtain ⟨idx, ⟨p, g, hs, rfl⟩ | ⟨e, hs, rfl⟩⟩ := h.done seek_step
      (by rintro _ ⟨_, ⟨_, _, _, rfl⟩ | ⟨_, _, rfl⟩⟩ <;> rfl) (.mk (.lag hlag) (.inl rfl))
    · cases hr
      exact ⟨g, by simp only [Op.Reference, hs, and_self], .mk .landed, .inr rfl⟩
    · cases hr
      exact ⟨f, by simp only [Op.Reference, hs, and_self], .mk .landed, .inr rfl⟩
  | flush =>
    obtain ⟨idx, rfl⟩ := h.done flush_step (by rintro _ ⟨_, rfl⟩; rfl) (.mk hlag)
    cases hr
    exact ⟨f, ⟨rfl, rfl⟩, .mk .landed, .inr rfl⟩
  | setLen size =>
    obtain ⟨idx, rfl⟩ :=
      h.done setLen_step (by rintro _ ⟨_, rfl⟩; rfl) (.flushing hlag (.inl rfl))
    cases hr
    exact ⟨_, ⟨rfl, rfl⟩, .mk .landed, .inr rfl⟩

theorem Drive.exists_of_sim (op : Op) {f : SyncFile} {w : World} (hw : Sim f w) :
    ∃ w' r, Drive limit op w w' ∧ w'.reply = some r := by
  obtain ⟨hlag⟩ := hw
  cases op with
  | read room =>
    obtain ⟨_, hd, _, rfl⟩ := Drive.exists read_step (by rintro _ ⟨_, rfl⟩; rfl) read_progress
      (.mk (.lag hlag) (.inl rfl))
    exact ⟨_, _, hd, rfl⟩
  | write bytes =>
    obtain ⟨_, hd, _, _, _, rfl⟩ := Drive.exists write_step (by rintro _ ⟨_, _, _, rfl⟩; rfl)
      write_progress (.mk hlag (.inl rfl))
    exact ⟨_, _, hd, rfl⟩
  | seek pos =>
    obtain ⟨_, hd, _, ⟨_, _, _, rfl⟩ | ⟨_, _, rfl⟩⟩ := Drive.exists seek_step
      (by rintro _ ⟨_, ⟨_, _, _, rfl⟩ | ⟨_, _, rfl⟩⟩ <;> rfl) seek_progress
      (.mk (.lag hlag) (.inl rfl))
    all_goals exact ⟨_, _, hd, rfl⟩
  | flush =>
    obtain ⟨_, hd, _, rfl⟩ := Drive.exists flush_step (by rintro _ ⟨_, rfl⟩; rfl) flush_progress
      (.mk hlag)
    exact ⟨_, _, hd, rfl⟩
  | setLen size =>
    obtain ⟨_, hd, _, rfl⟩ := Drive.exists setLen_step (by rintro _ ⟨_, rfl⟩; rfl)
      setLen_progress (.flushing hlag (.inl rfl))
    exact ⟨_, _, hd, rfl⟩

theorem Awaits.refines (hl : 1 ≤ limit) {w w' : World} {ops : List Op} {rs : List Reply}
    (h : Awaits limit w ops rs w') :
    ∀ {f}, Sim f w → ∃ f', Op.ReferenceRun limit f ops rs f' ∧ Sim f' w' ∧
      (ops = [] ∨ (∃ bytes, ops.getLast? = some (.write bytes)) ∨ w'.file = f') := by
  induction h with
  | nil w => exact fun hw => ⟨_, .nil _, hw, .inl rfl⟩
  | cons hd hr ha ih =>
    intro f hw
    obtain ⟨f₁, href, hw₁, hlast₁⟩ := hd.refines hl hw hr
    obtain ⟨f', hrun, hw', hlast⟩ := ih hw₁
    refine ⟨f', .cons href hrun, hw', .inr ?_⟩
    rcases hlast with rfl | ⟨bytes, hb⟩ | hf
    · cases ha
      cases hrun
      exact hlast₁.imp (fun ⟨bytes, hb⟩ => ⟨bytes, by simp [hb]⟩) id
    · exact .inl ⟨bytes, by simp [List.getLast?_cons, hb]⟩
    · exact .inr hf

theorem Awaits.exists (hl : 1 ≤ limit) :
    ∀ (ops : List Op) {f : SyncFile} {w : World}, Sim f w → ∃ rs w', Awaits limit w ops rs w'
  | [], _, w, _ => ⟨[], w, .nil w⟩
  | op :: ops, _, _, hw =>
    let ⟨_, r, hd, hr⟩ := Drive.exists_of_sim op hw
    let ⟨_, _, hw₁, _⟩ := hd.refines hl hw hr
    let ⟨rs, w', ha⟩ := Awaits.exists hl ops hw₁
    ⟨r :: rs, w', .cons hd hr ha⟩

/-- Calls awaited one after the other never leave unread bytes in the buffer, so the
corrections for read-ahead in `poll_write`, `poll_seek` and `set_len` are never needed. -/
theorem awaited_calls_leave_no_read_ahead (hl : 1 ≤ limit) (f : SyncFile) {ops : List Op}
    {rs : List Reply} {w : World} (h : Awaits limit (World.init f) ops rs w) {b : FileBuf}
    (hb : w.inner.state = .idle (some b)) : b.remaining = 0 := by
  obtain ⟨_, _, ⟨hlag⟩, _⟩ := h.refines hl (Sim.init f)
  cases hlag <;> cases hb
  rfl

/-- `read(2)` on a file holding `[1, 2, 3]`, with a `buf_size_limit` of eight: the job reads
two bytes and the call hands out both. -/
theorem read_leaves_no_read_ahead :
    ∃ w b, Awaits 8 (World.init ⟨[1, 2, 3], 0⟩) [.read 2] [.read (.ready (.ok [1, 2]))] w ∧
      w.inner.state = .idle (some b) ∧ b.remaining = 0 := by
  have h : Awaits 8 (World.init ⟨[1, 2, 3], 0⟩) [.read 2] [.read (.ready (.ok [1, 2]))] _ :=
    .cons (.cons (.begin (.read 2)) rfl rfl rfl (.cons .pass trivial rfl rfl
      (.cons (.finish .state .none) rfl rfl rfl (.last .pass trivial rfl rfl)))) rfl (.nil _)
  exact ⟨_, _, h, rfl, awaited_calls_leave_no_read_ahead (by decide) _ h rfl⟩

end YlongRuntime
