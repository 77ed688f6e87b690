import YlongRuntime.Fs.Passes

/-! Who owns the buffer of a `File`. At most one job that reads, writes, seeks or sets
the length runs at a time, and one whose handle is not in `state` runs only while the
file is `Idle(None)`. `set_len` keeps its job in its future, not in `state`. -/

namespace YlongRuntime

def Job.usesBuf : Job → Bool
  | .sync _ => false
  | _ => true

/-- `1` when the handle's job still runs and will hand a buffer back. -/
def JoinHandle.busy : JoinHandle → Nat
  | .running job => if job.usesBuf then 1 else 0
  | _ => 0

def FileState.busy (s : FileState) : Nat := (s.handle.map JoinHandle.busy).getD 0

def Holder.busy (h : Holder) : Nat := (h.handle.map JoinHandle.busy).getD 0

/-- The running buffer jobs whose handle is not in `state`. -/
def World.outside (w : World) : Nat :=
  (w.holder.map Holder.busy).getD 0 + (w.detached.filter Job.usesBuf).length

def Holder.ownsBuf : Holder → Bool
  | .setLenJob _ _ => true
  | _ => false

structure JobsOk (w : World) : Prop where
  callFree : w.call.isSome → w.holder = none
  atMostOne : w.inner.state.busy + w.outside ≤ 1
  detachedIdle : (w.detached.filter Job.usesBuf).length ≠ 0 →
    w.inner.state = .idle none ∧ (w.holder.map Holder.ownsBuf).getD false = false
  holderIdle : (w.holder.map Holder.ownsBuf).getD false = true → w.inner.state = .idle none
  holderBusy : (w.holder.map Holder.busy).getD 0 ≠ 0 → (w.holder.map Holder.ownsBuf).getD false = true

theorem jobsOk_init (f : SyncFile) : JobsOk (World.init f) :=
  ⟨by simp [World.init], by simp [World.init, FileInner.new, World.outside, FileState.busy,
    FileState.handle], by simp [World.init], by simp [World.init], by simp [World.init]⟩

theorem JoinHandle.busy_le_one (h : JoinHandle) : h.busy ≤ 1 := by
  unfold JoinHandle.busy
  split
  · split <;> omega
  · omega

theorem FileState.busy_le_one (s : FileState) : s.busy ≤ 1 := by
  unfold FileState.busy
  cases s.handle with
  | none => simp
  | some h => exact h.busy_le_one

theorem FileState.busy_of_passOk {i i' : FileInner} (hp : PassOk i i') :
    i'.state.busy ≤ i.state.busy ∨ ∃ b, i.state = .idle (some b) := by
  cases hs : i'.state.handle with
  | none => simp [FileState.busy, hs]
  | some h =>
    cases h with
    | running job =>
      rcases hp.spawn job hs with he | he
      · exact .inl (by rw [he])
      · exact .inr he
    | _ => simp [FileState.busy, hs, JoinHandle.busy]

/-- A step that changes `FileInner` as a pass can, with the mutex held by no future that
owns the buffer before and after. -/
theorem JobsOk.of_pass {w : World} (hw : JobsOk w) {i' : FileInner} (hp : PassOk w.inner i')
    (hh : (w.holder.map Holder.ownsBuf).getD false = false) (c' : Option Call)
    (holder' : Option Holder) (hh' : (holder'.map Holder.ownsBuf).getD false = false)
    (hb : (holder'.map Holder.busy).getD 0 = 0)
    (hc : c'.isSome → holder' = none) (r : Option Reply) :
    JobsOk { w with inner := i', call := c', holder := holder', reply := r } := by
  have ho := hw.atMostOne
  have hb0 : (w.holder.map Holder.busy).getD 0 = 0 := by
    by_contra hne
    simp [hw.holderBusy hne] at hh
  refine ⟨hc, ?_, ?_, fun h => absurd h (by simp [hh']), fun h => absurd hb h⟩
  · rcases FileState.busy_of_passOk hp with hle | ⟨b, hb'⟩
    · simp only [World.outside] at ho ⊢
      omega
    · have hd : (w.detached.filter Job.usesBuf).length = 0 := by
        by_contra hne
        simp [(hw.detachedIdle hne).1] at hb'
      have hs : w.inner.state.busy = 0 := by simp [hb', FileState.busy, FileState.handle]
      have hi := i'.state.busy_le_one
      simp only [World.outside] at ho ⊢
      omega
  · intro hd
    exact ⟨hp.idleNone.mpr (hw.detachedIdle hd).1, hh'⟩

theorem Holder.orphans_busy (h : Holder) : (h.orphans.filter Job.usesBuf).length = h.busy := by
  rcases h with _ | ⟨_, _ | _ | _ | _⟩ | _ | ⟨_ | _ | _ | _⟩ <;>
    simp [Holder.orphans, Holder.busy, Holder.handle, JoinHandle.busy, List.filter_cons] <;> split <;> rfl

theorem JobsOk.drop {w : World} (hw : JobsOk w) (h : Holder) (hh : w.holder = some h) :
    JobsOk { w with holder := none, detached := h.orphans ++ w.detached, reply := none } := by
  have ho := hw.atMostOne
  have hb := h.orphans_busy
  refine ⟨by simp, ?_, ?_, by simp, by simp⟩
  · simp only [World.outside, hh, Option.map_some', Option.getD_some, List.filter_append,
      List.length_append] at ho ⊢
    simp
    omega
  · intro hd
    simp only [List.filter_append, List.length_append] at hd
    refine ⟨?_, by simp⟩
    by_cases hz : (h.orphans.filter Job.usesBuf).length = 0
    · exact (hw.detachedIdle (by omega)).1
    · exact hw.holderIdle (hw.holderBusy (by simp [hh]; omega))

/-- A step that only lets the future holding the mutex go, or changes nothing but the
reply. -/
theorem JobsOk.release {w : World} (hw : JobsOk w) (holder' : Option Holder)
    (hh : holder' = none ∨ holder' = w.holder) (r : Option Reply) :
    JobsOk { w with holder := holder', reply := r } := by
  rcases hh with rfl | rfl
  · have ho := hw.atMostOne
    refine ⟨by simp, ?_, fun hd => ⟨(hw.detachedIdle hd).1, by simp⟩, by simp, by simp⟩
    simp only [World.outside, Option.map_none', Option.getD_none] at ho ⊢
    omega
  · exact ⟨hw.callFree, hw.atMostOne, hw.detachedIdle, hw.holderIdle, hw.holderBusy⟩

theorem JobsOk.setLenFlushed {w : World} (hw : JobsOk w) {size : Nat} (hh : w.holder = some (.setLenFlush size))
    {i' : FileInner} (hp : PassOk w.inner i') (r : Except ErrorKind Unit) :
    JobsOk (setLenFlushed w size i' r) := by
  have hc : w.call = none := by
    cases hcall : w.call
    · rfl
    · simp [hw.callFree (by simp [hcall])] at hh
  have hown : (w.holder.map Holder.ownsBuf).getD false = false := by simp [hh, Holder.ownsBuf]
  unfold YlongRuntime.setLenFlushed
  split
  · rename_i buf hs
    have hd : (w.detached.filter Job.usesBuf).length = 0 := by
      by_contra hne
      have := hp.idleNone.mpr (hw.detachedIdle hne).1
      rw [saveErr_state, this] at hs
      cases hs
    refine ⟨by simp [hc], ?_, fun h => absurd hd h, fun _ => rfl, fun _ => rfl⟩
    simp [World.outside, hd, FileState.busy, FileState.handle, Holder.busy, Holder.handle,
      JoinHandle.busy, Job.usesBuf]
  · exact hw.of_pass (hp.saveErr r) hown w.call none rfl rfl (fun _ => rfl) _

theorem JobsOk.call_none {w : World} (hw : JobsOk w) {h : Holder} (hh : w.holder = some h) :
    w.call = none := by
  cases hc : w.call
  · rfl
  · simp [hw.callFree (by simp [hc])] at hh

/-- The buffer that `set_len`'s job hands back goes into `state`; no other buffer job runs. -/
theorem JobsOk.setLenDone {w : World} (hw : JobsOk w) {size : Nat} {j : JoinHandle}
    (hh : w.holder = some (.setLenJob size j)) (b : FileBuf) (idx : Nat) (r : Option Reply) :
    JobsOk { w with inner := { w.inner with state := .idle (some b), idx }, holder := none,
                    reply := r } := by
  have hd : (w.detached.filter Job.usesBuf).length = 0 := by
    by_contra hne
    have := (hw.detachedIdle hne).2
    simp [hh, Holder.ownsBuf] at this
  refine ⟨by simp, ?_, fun h => absurd hd h, by simp, by simp⟩
  simp [World.outside, hd, FileState.busy, FileState.handle]

theorem JobsOk.resume {w : World} (hw : JobsOk w) {h : Holder} (hh : w.holder = some h) :
    JobsOk (resume w h) := by
  have hc := hw.call_none hh
  cases h with
  | setLenFlush size =>
    have hp := pollFlush_ok w.inner
    have hown : (w.holder.map Holder.ownsBuf).getD false = false := by simp [hh, Holder.ownsBuf]
    simp only [YlongRuntime.resume]
    split <;> rename_i heq <;> rw [heq] at hp
    · exact hw.setLenFlushed hh hp _
    · exact hw.of_pass hp hown w.call w.holder hown (by simp [hh, Holder.busy, Holder.handle])
        (by simp [hc]) _
    · exact hw.of_pass hp hown w.call none rfl rfl (fun _ => rfl) _
  | setLenJob size j =>
    cases j with
    | running job => exact hw.release _ (.inr hh.symm) _
    | finished b res => exact hw.setLenDone hh b _ _
    | failed e => exact hw.release none (.inl rfl) _
    | taken => exact hw.release none (.inl rfl) _
  | syncFlush kind =>
    have hp := pollFlush_ok w.inner
    have hown : (w.holder.map Holder.ownsBuf).getD false = false := by simp [hh, Holder.ownsBuf]
    simp only [YlongRuntime.resume]
    split <;> rename_i heq <;> rw [heq] at hp
    · exact hw.of_pass (hp.saveErr _) hown w.call _ (by simp [Holder.ownsBuf])
        (by simp [Holder.busy, Holder.handle, JoinHandle.busy, Job.usesBuf]) (by simp [hc]) _
    · exact hw.of_pass hp hown w.call w.holder hown (by simp [hh, Holder.busy, Holder.handle])
        (by simp [hc]) _
    · exact hw.of_pass hp hown w.call none rfl rfl (fun _ => rfl) _
  | syncJob j =>
    cases j with
    | running job => exact hw.release _ (.inr hh.symm) _
    | _ => exact hw.release none (.inl rfl) _

theorem FileState.handle_withHandle {s : FileState} (hs : s.handle.isSome)
    (h' : JoinHandle) : (s.withHandle h').handle = some h' := by
  cases s <;> simp_all [FileState.handle, FileState.withHandle]

theorem Holder.withHandle_busy {hd : Holder} {h : JoinHandle} (hs : hd.handle = some h)
    (h' : JoinHandle) : (hd.withHandle h').busy = h'.busy := by
  cases hd <;> simp_all [Holder.handle, Holder.withHandle, Holder.busy]

theorem Holder.withHandle_ownsBuf (hd : Holder) (h' : JoinHandle) :
    (hd.withHandle h').ownsBuf = hd.ownsBuf := by
  cases hd <;> rfl

/-- A job whose handle is in `state` returns, or its join fails. -/
theorem JobsOk.settleState {w : World} (hw : JobsOk w) {job : Job}
    (hs : w.inner.state.handle = some (.running job)) {h' : JoinHandle} (hb : h'.busy = 0)
    (f : SyncFile) (r : Option Reply) :
    JobsOk { w with inner := { w.inner with state := w.inner.state.withHandle h' }, file := f,
                    reply := r } := by
  have hn : w.inner.state ≠ .idle none := fun he => by simp [he, FileState.handle] at hs
  have ho := hw.atMostOne
  have hw' : (w.inner.state.withHandle h').handle = some h' :=
    FileState.handle_withHandle (by simp [hs]) h'
  refine ⟨hw.callFree, ?_, fun hd => absurd (hw.detachedIdle hd).1 hn,
    fun h => absurd (hw.holderIdle h) hn, hw.holderBusy⟩
  simp only [World.outside, FileState.busy, hw', hb, Option.map_some', Option.getD_some] at ho ⊢
  omega

/-- A job awaited by the future holding the mutex returns, or its join fails. -/
theorem JobsOk.settleHolder {w : World} (hw : JobsOk w) {hd : Holder} (hh : w.holder = some hd)
    {job : Job} (hs : hd.handle = some (.running job)) {h' : JoinHandle} (hb : h'.busy = 0)
    (f : SyncFile) (r : Option Reply) :
    JobsOk { w with holder := some (hd.withHandle h'), file := f, reply := r } := by
  have hc := hw.call_none hh
  have ho := hw.atMostOne
  have hown : ((some (hd.withHandle h')).map Holder.ownsBuf).getD false =
      (w.holder.map Holder.ownsBuf).getD false := by simp [hh, Holder.withHandle_ownsBuf]
  refine ⟨by simp [hc], ?_, fun h => hown ▸ hw.detachedIdle h, fun h => hw.holderIdle (hown ▸ h),
    fun h => by simp [Holder.withHandle_busy hs, hb] at h⟩
  simp only [World.outside, hh, Option.map_some', Option.getD_some, Holder.withHandle_busy hs,
    hb] at ho ⊢
  omega

/-- A detached job returns, or its join fails. -/
theorem JobsOk.settleDetached {w : World} (hw : JobsOk w) (i : Nat) (f : SyncFile)
    (r : Option Reply) : JobsOk { w with detached := w.detached.eraseIdx i, file := f, reply := r } := by
  have hle : ((w.detached.eraseIdx i).filter Job.usesBuf).length ≤
      (w.detached.filter Job.usesBuf).length :=
    ((List.eraseIdx_sublist _ _).filter _).length_le
  have ho := hw.atMostOne
  refine ⟨hw.callFree, ?_, fun h => hw.detachedIdle (by simp only at h; omega), hw.holderIdle,
    hw.holderBusy⟩
  simp only [World.outside] at ho ⊢
  omega

theorem World.free_iff {w : World} : w.free ↔ w.call = none ∧ w.holder = none := by
  simp [World.free]

theorem World.free_holder {w : World} (h : w.free) : w.holder = none := (World.free_iff.mp h).2

theorem JobsOk.step {limit : Nat} {w w' : World} {a : Action} (hw : JobsOk w)
    (h : step limit w a = some w') : JobsOk w' := by
  have hown : w.holder = none → (w.holder.map Holder.ownsBuf).getD false = false := by
    intro hh; simp [hh]
  cases a with
  | begin c =>
    obtain ⟨hf, c', r, rfl⟩ := step_begin h
    have hh := World.free_holder hf
    exact hw.of_pass (PassOk.refl _) (hown hh) c' w.holder (hown hh) (by simp [hh])
      (fun _ => hh) r
  | pass =>
    obtain ⟨hc, i', c', r, hp, rfl⟩ := step_pass h
    have hh := hw.callFree hc
    exact hw.of_pass hp (hown hh) c' w.holder (hown hh) (by simp [hh]) (fun _ => hh) r
  | flush =>
    obtain ⟨hf, rfl⟩ := step_flush h
    have hh := World.free_holder hf
    exact hw.of_pass (pollFlush_ok _) (hown hh) w.call w.holder (hown hh) (by simp [hh])
      (fun _ => hh) _
  | lock m =>
    obtain ⟨hf, rfl⟩ := step_lock h
    have hh := World.free_holder hf
    have hc := (World.free_iff.mp hf).1
    exact hw.of_pass (PassOk.refl _) (hown hh) w.call _
      (by cases m <;> simp [Method.start, Holder.ownsBuf])
      (by cases m <;> simp [Method.start, Holder.busy, Holder.handle]) (by simp [hc]) _
  | resume =>
    simp only [YlongRuntime.step] at h
    cases hh : w.holder with
    | none => simp [hh] at h
    | some hd =>
      simp only [hh, Option.map_some', Option.some.injEq] at h
      exact h ▸ hw.resume hh
  | drop =>
    simp only [YlongRuntime.step] at h
    cases hh : w.holder with
    | none => simp [hh] at h
    | some hd =>
      simp only [hh, Option.map_some', Option.some.injEq] at h
      exact h ▸ hw.drop hd hh
  | finish s _ | fail s _ =>
    cases s with
    | state =>
      simp only [YlongRuntime.step] at h
      split at h
      · rename_i job hs
        cases h
        exact hw.settleState hs (by simp [JoinHandle.busy]) _ _
      · cases h
    | holder =>
      simp only [YlongRuntime.step] at h
      split at h
      · rename_i hd job hh hs
        cases h
        exact hw.settleHolder hh (by simpa [hh] using hs) (by simp [JoinHandle.busy]) _ _
      · cases h
    | detached i =>
      simp only [YlongRuntime.step] at h
      cases hj : w.detached[i]? with
      | none => simp [hj] at h
      | some job =>
        simp only [hj, Option.map_some', Option.some.injEq] at h
        exact h ▸ hw.settleDetached i _ _

theorem Reachable.jobsOk {limit : Nat} {w : World} (h : Reachable limit w) : JobsOk w := by
  induction h with
  | init f => exact jobsOk_init f
  | step _ _ hs ih => exact ih.step hs

/-- In every reachable world at most one job that uses the buffer runs, and one whose handle
is not in `state` runs only while `state` is `Idle(None)`: no two jobs share the buffer. -/
theorem buffer_jobs_exclusive {limit : Nat} {w : World} (h : Reachable limit w) :
    w.inner.state.busy + w.outside ≤ 1 ∧ (w.outside ≠ 0 → w.inner.state = .idle none) := by
  have hw := h.jobsOk
  refine ⟨hw.atMostOne, fun ho => ?_⟩
  by_cases hd : (w.detached.filter Job.usesBuf).length = 0
  · have hb : (w.holder.map Holder.busy).getD 0 ≠ 0 := by
      simp only [World.outside, hd, Nat.add_zero] at ho
      exact ho
    exact hw.holderIdle (hw.holderBusy hb)
  · exact (hw.detachedIdle hd).1

/-- A `set_len` future dropped while its job runs: that job is the one buffer job. -/
theorem set_len_job_exclusive :
    let w : World := ⟨⟨.idle none, none, 0⟩, ⟨[], 0⟩, none, none, [.setLen 0 .empty], none⟩
    w.inner.state.busy + w.outside ≤ 1 ∧ (w.outside ≠ 0 → w.inner.state = .idle none) :=
  @buffer_jobs_exclusive 1 _
    ((Reachable.init ⟨[], 0⟩).run (l := [.lock (.setLen 0), .resume, .drop]) rfl)

/-- A `set_len` future dropped while its job runs takes the buffer with it: the file is left
`Idle(None)`, and the next `poll_read` panics at `take().unwrap()`. -/
theorem set_len_drop_leaves_idle_none (limit size : Nat) (f : SyncFile) :
    ∃ w, Reachable limit w ∧ w.inner.state = .idle none ∧
      ∀ room, run limit w [.begin (.read room), .pass] = some { w with reply := some (.read .panic) } :=
  ⟨_, (Reachable.init f).run (l := [.lock (.setLen size), .resume, .drop]) rfl, rfl,
    fun _ => rfl⟩

/-- After that drop the job runs on, holding the buffer, with its handle neither in `state`
nor awaited by a future holding the mutex. -/
theorem set_len_drop_detaches_job (limit size : Nat) (f : SyncFile) :
    ∃ w, Reachable limit w ∧ w.inner.state.handle = none ∧ w.holder = none ∧
      w.detached = [.setLen size FileBuf.empty] :=
  ⟨_, (Reachable.init f).run (l := [.lock (.setLen size), .resume, .drop]) rfl, rfl, rfl, rfl⟩

end YlongRuntime
