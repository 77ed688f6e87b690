import YlongRuntime.Fs.Passes

/-! `FileInner::idx`. A finished seek writes its position there, and a finished `set_len`
writes `0`, but no code reads it. Worlds that differ only in `idx` take the same steps, give
the same replies, leave the std file the same, and still differ only in `idx`. -/

namespace YlongRuntime

def FileInner.eraseIdx (i : FileInner) : FileInner := { i with idx := 0 }

def World.eraseIdx (w : World) : World := { w with inner := w.inner.eraseIdx }

/-- A pass with its state mapped by `f`. -/
def Pass.map {σ α : Type} (f : σ → σ) : Pass σ α → Pass σ α
  | .next s => .next (f s)
  | .done r s => .done r (f s)

theorem Pass.map_eq_map {σ α : Type} {f : σ → σ} {p q : Pass σ α} (h : p.map f = q.map f) :
    (∃ s t, p = .next s ∧ q = .next t ∧ f s = f t) ∨
      ∃ r s t, p = .done r s ∧ q = .done r t ∧ f s = f t := by
  cases p <;> cases q <;> simp only [Pass.map, Pass.next.injEq, Pass.done.injEq, reduceCtorEq] at h
  · exact .inl ⟨_, _, rfl, rfl, h⟩
  · exact .inr ⟨_, _, _, rfl, h.1 ▸ rfl, h.2⟩

section Passes

variable (i : FileInner)

theorem readPass_eraseIdx (limit room : Nat) :
    (readPass limit room i.eraseIdx).map FileInner.eraseIdx =
      (readPass limit room i).map FileInner.eraseIdx := by
  rcases i with ⟨(_ | b) | h | h | h, e, idx⟩
  · rfl
  · by_cases hb : b.remaining = 0 <;> simp [readPass, hb, Pass.map, FileInner.eraseIdx]
  all_goals rcases h with _ | ⟨_, _ | _⟩ | _ | _ <;> rfl

theorem writePass_eraseIdx (limit : Nat) (bytes : List UInt8) :
    (writePass limit bytes i.eraseIdx).map FileInner.eraseIdx =
      (writePass limit bytes i).map FileInner.eraseIdx := by
  rcases i with ⟨(_ | b) | h | h | h, e, idx⟩
  · rfl
  · rfl
  all_goals rcases h with _ | ⟨_, _ | _⟩ | _ | _ <;> rfl

theorem seekPass_eraseIdx (pos : SeekFrom) :
    (seekPass (pos, i.eraseIdx)).map (Prod.map id FileInner.eraseIdx) =
      (seekPass (pos, i)).map (Prod.map id FileInner.eraseIdx) := by
  rcases i with ⟨(_ | b) | h | h | h, e, idx⟩
  · rfl
  · rfl
  all_goals rcases h with _ | ⟨_, _ | _⟩ | _ | _ <;> rfl

theorem pollFlush_eraseIdx :
    i.eraseIdx.pollFlush.1 = i.pollFlush.1 ∧
      i.eraseIdx.pollFlush.2.eraseIdx = i.pollFlush.2.eraseIdx := by
  rcases i with ⟨(_ | b) | h | h | h, _ | e, idx⟩
  all_goals try exact ⟨rfl, rfl⟩
  all_goals rcases h with _ | ⟨_, _ | _⟩ | _ | _ <;> exact ⟨rfl, rfl⟩

end Passes

section World

@[simp] theorem World.eraseIdx_inner (w : World) : w.eraseIdx.inner = w.inner.eraseIdx := rfl

theorem FileInner.eraseIdx_eq {i₁ i₂ : FileInner} (h : i₁.eraseIdx = i₂.eraseIdx) :
    i₁.state = i₂.state ∧ i₁.writeErr = i₂.writeErr :=
  ⟨by simpa [FileInner.eraseIdx] using congrArg FileInner.state h,
    by simpa [FileInner.eraseIdx] using congrArg FileInner.writeErr h⟩

theorem setLenFlushed_eraseIdx (w : World) {i₁ i₂ : FileInner} (h : i₁.eraseIdx = i₂.eraseIdx)
    (size : Nat) (r : Except ErrorKind Unit) :
    (setLenFlushed w.eraseIdx size i₁ r).eraseIdx = (setLenFlushed w size i₂ r).eraseIdx := by
  obtain ⟨hs, he⟩ := FileInner.eraseIdx_eq h
  unfold YlongRuntime.setLenFlushed
  rw [saveErr_state, saveErr_state, hs]
  cases r <;> split <;> simp_all [World.eraseIdx, FileInner.eraseIdx, FileInner.saveErr]

theorem resume_eraseIdx (w : World) (hd : Holder) :
    (resume w.eraseIdx hd).eraseIdx = (resume w hd).eraseIdx := by
  cases hd with
  | setLenFlush size | syncFlush size =>
    obtain ⟨h1, h2⟩ := pollFlush_eraseIdx w.inner
    simp only [YlongRuntime.resume, World.eraseIdx_inner]
    generalize w.inner.eraseIdx.pollFlush = p₁ at h1 h2 ⊢
    generalize w.inner.pollFlush = p₂ at h1 h2 ⊢
    obtain ⟨r, i₁⟩ := p₁
    obtain ⟨_, i₂⟩ := p₂
    subst h1
    have hs := FileInner.eraseIdx_eq h2
    rcases r with (_ | _) | _ | _
    all_goals first
      | exact setLenFlushed_eraseIdx w h2 _ _
      | simp_all [World.eraseIdx, FileInner.eraseIdx, FileInner.saveErr]
  | setLenJob size h | syncJob h =>
    rcases h with _ | ⟨_, _ | _⟩ | _ | _ <;> rfl

@[simp] theorem World.eraseIdx_free (w : World) : w.eraseIdx.free = w.free := rfl

@[simp] theorem World.eraseIdx_call (w : World) : w.eraseIdx.call = w.call := rfl

@[simp] theorem World.eraseIdx_holder (w : World) : w.eraseIdx.holder = w.holder := rfl

@[simp] theorem World.eraseIdx_detached (w : World) : w.eraseIdx.detached = w.detached := rfl

@[simp] theorem FileInner.eraseIdx_state (i : FileInner) : i.eraseIdx.state = i.state := rfl

@[simp] theorem writeCheck_eraseIdx (i : FileInner) : writeCheck i.eraseIdx = writeCheck i := rfl

/-- A step from the world with `idx` erased is the step from the world, up to `idx`. -/
theorem step_eraseIdx (limit : Nat) (w : World) (a : Action) :
    (step limit w.eraseIdx a).map World.eraseIdx = (step limit w a).map World.eraseIdx := by
  cases a with
  | begin c =>
    simp only [YlongRuntime.step, World.eraseIdx_free, World.eraseIdx_inner, writeCheck_eraseIdx]
    split_ifs
    · split <;> rfl
    · rfl
  | pass =>
    simp only [YlongRuntime.step, World.eraseIdx_call, World.eraseIdx_inner]
    rcases w.call with _ | room | bytes | pos
    · rfl
    · rcases Pass.map_eq_map (readPass_eraseIdx w.inner limit room) with
        ⟨_, _, hs, ht, he⟩ | ⟨_, _, _, hs, ht, he⟩ <;>
        simp only [hs, ht, Option.map_some', World.eraseIdx, he]
    · rcases Pass.map_eq_map (writePass_eraseIdx w.inner limit bytes) with
        ⟨_, _, hs, ht, he⟩ | ⟨_, _, _, hs, ht, he⟩ <;>
        simp only [hs, ht, Option.map_some', World.eraseIdx, he]
    · rcases Pass.map_eq_map (seekPass_eraseIdx w.inner pos) with
        ⟨⟨_, _⟩, ⟨_, _⟩, hs, ht, he⟩ | ⟨_, ⟨_, _⟩, ⟨_, _⟩, hs, ht, he⟩ <;>
        simp only [Prod.map, id, Prod.mk.injEq] at he <;>
        simp only [hs, ht, Option.map_some', World.eraseIdx, he]
  | flush =>
    obtain ⟨h1, h2⟩ := pollFlush_eraseIdx w.inner
    simp only [YlongRuntime.step, World.eraseIdx_free, World.eraseIdx_inner, h1]
    split_ifs
    · simp only [Option.map_some', World.eraseIdx, h2]
    · rfl
  | lock m =>
    simp only [YlongRuntime.step, World.eraseIdx_free]
    split_ifs <;> rfl
  | resume =>
    simp only [YlongRuntime.step, World.eraseIdx_holder]
    cases w.holder
    · rfl
    · exact congrArg some (resume_eraseIdx w _)
  | drop =>
    simp only [YlongRuntime.step, World.eraseIdx_holder]
    cases w.holder <;> rfl
  | finish s φ | fail s φ =>
    cases s <;> simp only [YlongRuntime.step, World.eraseIdx_holder, World.eraseIdx_inner,
      World.eraseIdx_detached, FileInner.eraseIdx_state]
    all_goals first
      | (split <;> rfl)
      | (cases w.detached[‹Nat›]? <;> rfl)

end World

/-- No code reads `idx`: runs of the same steps from two worlds that differ only in `idx`
are taken from both or from neither, and end in worlds that differ only in `idx`, with the
same replies, the same std file and the same jobs. -/
theorem idx_never_read (limit : Nat) {w₁ w₂ : World} (h : w₁.eraseIdx = w₂.eraseIdx)
    (l : List Action) : (run limit w₁ l).map World.eraseIdx = (run limit w₂ l).map World.eraseIdx := by
  induction l generalizing w₁ w₂ with
  | nil => exact congrArg some h
  | cons a as ih =>
    have hs : (step limit w₁ a).map World.eraseIdx = (step limit w₂ a).map World.eraseIdx := by
      rw [← step_eraseIdx, h, step_eraseIdx]
    simp only [YlongRuntime.run]
    cases h₁ : step limit w₁ a <;> cases h₂ : step limit w₂ a <;>
      simp only [h₁, h₂, Option.map_none', Option.map_some', Option.some.injEq, reduceCtorEq] at hs
    · rfl
    · exact ih hs

/-- A new `File`, and one whose `idx` is `7`, under a seek and a read. -/
theorem idx_seven_never_read :
    (run 8 (World.init ⟨[1, 2, 3], 0⟩) [.begin (.seek (.current 1)), .pass, .pass,
      .finish .state Faults.none, .pass, .begin (.read 4), .pass]).map World.eraseIdx =
    (run 8 { World.init ⟨[1, 2, 3], 0⟩ with inner := { FileInner.new with idx := 7 } }
      [.begin (.seek (.current 1)), .pass, .pass, .finish .state Faults.none, .pass,
        .begin (.read 4), .pass]).map World.eraseIdx :=
  idx_never_read 8 rfl _

end YlongRuntime
