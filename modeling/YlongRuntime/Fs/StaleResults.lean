import YlongRuntime.Fs.Loops

/-! What a call returns after an earlier call was dropped with its job in flight.
`poll_seek` in `Seeking` returns the earlier seek's result whatever its own `pos`, and a
write job whose seek back fails hands back the bytes written, which `poll_read` then
serves as file data. `set_len` seeks back over the read-ahead only when there is none
(`buf.remaining() == 0`), so read-ahead it finds survives the resize and is served after
it, also when the file no longer holds those bytes. -/

namespace YlongRuntime

theorem seekPass_seeking {i : FileInner} {h : JoinHandle} (hs : i.state = .seeking h) :
    ∃ r i', ∀ pos, seekPass (pos, i) = .done r (pos, i') := by
  rcases i with ⟨s, e, idx⟩
  cases hs
  rcases h with _ | ⟨_, _ | _⟩ | _ | _ <;>
    simp only [seekPass, FileState.poll, JoinHandle.poll, FileState.getOp, FileState.withHandle] <;>
    exact ⟨_, _, fun _ => rfl⟩

/-- In `Seeking`, the pass of `poll_seek(pos)` takes the same step for every `pos`. So a
`poll_seek(Start(p))` that returns `Pending` and is dropped, its job ending after that, makes
the next `poll_seek(Start(q))` return `Ok(p)` and leave the cursor at `p`, for every `q`. -/
theorem seek_returns_dropped_seek (limit : Nat) :
    (∀ (w : World) (h : JoinHandle), w.inner.state = .seeking h → ∀ pos pos' : SeekFrom,
      step limit { w with call := some (.seek pos) } .pass =
        step limit { w with call := some (.seek pos') } .pass) ∧
    ∀ (f : SyncFile) (p q : Nat), ∃ w,
      run limit (World.init f) [.begin (.seek (.start p)), .pass, .pass] = some w ∧
        w.reply = some (.seek .pending) ∧ w.free = true ∧
      ∃ w', run limit w [.finish .state Faults.none, .begin (.seek (.start q)), .pass] = some w' ∧
        w'.reply = some (.seek (.ready (.ok p))) ∧ w'.file.pos = p ∧ w'.inner.idx = p := by
  refine ⟨fun w h hs pos pos' => ?_, fun f p q => ⟨_, rfl, rfl, rfl, _, rfl, rfl, rfl, rfl⟩⟩
  obtain ⟨r, i', he⟩ := seekPass_seeking hs
  simp only [step, he]

theorem Job.run_write_seek_fails {unread : Int} {wBuf : FileBuf} {φ : Faults} {e : ErrorKind}
    (hu : unread ≠ 0) (he : φ.seek = some e) (f : SyncFile) :
    (Job.write unread wBuf).run φ f = ((wBuf, .error e), f) := by
  simp [Job.run, syscall, hu, he]

/-- From every world with no call in flight whose write job has unread bytes to seek back
over, if that seek fails, the next `poll_read` serves the bytes the write appended to its
buffer, with no read job. A read of two bytes of `[1, 2, 3]`, abandoned while its job runs,
and a read of one byte leave `[2]` unread; `write([9])` returns `Ok(1)`, its job's seek back
fails with `e`, and the next `poll_read` returns `[9]`, which the file never held. -/
theorem read_returns_written_bytes :
    (∀ {limit room : Nat} {w : World} {unread : Int} {wBuf : FileBuf} {φ : Faults}
      {e : ErrorKind}, w.free = true → unread ≠ 0 → φ.seek = some e → wBuf.remaining ≠ 0 →
      w.inner.state = .writing (.running (.write unread wBuf)) →
      (run limit w [.finish .state φ, .begin (.read room), .pass, .pass]).map World.reply =
        some (some (.read (.ready (.ok (wBuf.appendTo room).1))))) ∧
    ∀ e : ErrorKind, ∃ w₁, run defaultBufLimit (World.init ⟨[1, 2, 3], 0⟩)
        [.begin (.read 2), .pass, .pass, .finish .state Faults.none, .begin (.read 1), .pass] =
          some w₁ ∧ w₁.reply = some (.read (.ready (.ok [1]))) ∧
      ∃ w₂, run defaultBufLimit w₁ [.begin (.write [9]), .pass] = some w₂ ∧
        w₂.reply = some (.write (.ready (.ok 1))) ∧
        w₂.inner.state = .writing (.running (.write 1 (.ofBytes [9]))) ∧
      ∃ w₃, run defaultBufLimit w₂ [.finish .state ⟨some e, none⟩] = some w₃ ∧
        w₃.inner.state = .writing (.finished (.ofBytes [9]) (.error e)) ∧
        w₃.file = ⟨[1, 2, 3], 2⟩ ∧
        (run defaultBufLimit w₃ [.begin (.read 1), .pass, .pass]).map World.reply =
          some (some (.read (.ready (.ok [9])))) := by
  refine ⟨fun hf hu he hr hs => ?_,
    fun e => ⟨_, rfl, rfl, _, rfl, rfl, rfl, _, rfl, rfl, rfl, rfl⟩⟩
  obtain ⟨hc, hh⟩ : _ ∧ _ := Bool.and_eq_true_iff.mp hf
  simp [run, step, hs, FileState.handle, FileState.withHandle, Job.run_write_seek_fails hu he,
    World.free, Option.isNone_iff_eq_none.mp hc, Option.isNone_iff_eq_none.mp hh, readPass,
    JoinHandle.poll, hr]

theorem Job.run_setLen_keeps_buffer {size : Nat} {b : FileBuf} (hr : b.remaining ≠ 0)
    (f : SyncFile) : (Job.setLen size b).run Faults.none f = ((b, .ok 0), f.setLen size) := by
  simp [Job.run, syscall, hr, Faults.none]

theorem FileInner.pollFlush_idle {i : FileInner} {buf : Option FileBuf}
    (hs : i.state = .idle buf) : ∃ r, i.pollFlush = (.ready r, i) := by
  unfold FileInner.pollFlush
  rw [hs]
  split <;> exact ⟨_, rfl⟩

/-- From any world with no call in flight and unread read-ahead `b` in the `Idle` buffer,
an awaited `set_len(size)` returns `Ok(())` and resizes the file, and the next `poll_read`
returns `b`'s bytes, whatever `size` cut off. -/
theorem set_len_keeps_read_ahead (limit : Nat) {w : World} (hf : w.free = true) {b : FileBuf}
    (hb : w.inner.state = .idle (some b)) (hr : b.remaining ≠ 0) (size room : Nat) :
    ∃ w', run limit w [.lock (.setLen size), .resume, .finish .holder Faults.none, .resume] =
        some w' ∧ w'.reply = some (.setLen (.ready (.ok ()))) ∧ w'.file = w.file.setLen size ∧
      (run limit w' [.begin (.read room), .pass]).map World.reply =
        some (some (.read (.ready (.ok (b.appendTo room).1)))) := by
  obtain ⟨hc, hh⟩ : w.call = none ∧ w.holder = none := by simpa [World.free] using hf
  obtain ⟨r, hp⟩ := FileInner.pollFlush_idle hb
  refine ⟨{ w with
      inner := ⟨.idle (some b), (w.inner.saveErr r).writeErr, 0⟩, file := w.file.setLen size,
      reply := some (.setLen (.ready (.ok ()))) }, ?_, rfl, rfl, ?_⟩
  · simp [run, step, hf, hh, resume, hp, setLenFlushed, hb, Method.start, Holder.handle,
      Holder.withHandle, Job.run_setLen_keeps_buffer hr, JoinHandle.poll, Except.map]
  · simp [run, step, World.free, hc, hh, readPass, hr]

/-- Five bytes read ahead and two handed out: `set_len(1)` cuts the file to one byte, and
the next `poll_read` of three bytes returns the three bytes cut off. -/
theorem truncated_bytes_read_back :
    let w : World := ⟨⟨.idle (some ⟨[1, 2, 3, 4, 5], 2, by decide⟩), none, 0⟩,
      ⟨[1, 2, 3, 4, 5], 5⟩, none, none, [], some (.read (.ready (.ok [1, 2])))⟩
    Reachable defaultBufLimit w ∧
      ∃ w', run defaultBufLimit w [.lock (.setLen 1), .resume, .finish .holder Faults.none,
          .resume] = some w' ∧ w'.reply = some (.setLen (.ready (.ok ()))) ∧
        w'.file = ⟨[1], 5⟩ ∧ (run defaultBufLimit w' [.begin (.read 3), .pass]).map World.reply =
          some (some (.read (.ready (.ok [3, 4, 5])))) := by
  intro w
  exact ⟨(Reachable.init ⟨[1, 2, 3, 4, 5], 0⟩).run (l := [.begin (.read 5), .pass, .pass,
    .finish .state Faults.none, .begin (.read 2), .pass]) rfl,
    set_len_keeps_read_ahead defaultBufLimit (w := w) rfl rfl (by decide) 1 3⟩

end YlongRuntime
