import YlongRuntime.Executor.Sleeper

/-! `Record` against the two counters it packs. Each call is one `fetch_add`, `fetch_sub`
or load of the word. While both counters
stay inside their fields no call carries or borrows across the boundary, and the word holds
`active * 2 ^ 16 + searching` after every call. -/

namespace YlongRuntime

/-- A call that changes the record: `inc_active_num`, `dec_active_num`,
`inc_searching_num` or `dec_searching_num`. -/
inductive RecordOp
  | incActive
  | decActive
  | incSearching
  | decSearching
deriving DecidableEq

namespace RecordOp

variable {w : Nat}

/-- What the call returns (a flag from the decrements, nothing from the increments) and the
record after it. -/
def call : RecordOp → Record w → Option Bool × Record w
  | .incActive, r => (none, r.incActiveNum)
  | .decActive, r => (some r.decActiveNum.1, r.decActiveNum.2)
  | .incSearching, r => (none, r.incSearchingNum)
  | .decSearching, r => (some r.decSearchingNum.1, r.decSearchingNum.2)

/-- Modelled from the spec: the call on the counters `(active, searching)` themselves; a
decrement says whether its counter reached zero. -/
def count : RecordOp → Nat × Nat → Option Bool × (Nat × Nat)
  | .incActive, (a, s) => (none, (a + 1, s))
  | .decActive, (a, s) => (some (decide (a - 1 = 0)), (a - 1, s))
  | .incSearching, (a, s) => (none, (a, s + 1))
  | .decSearching, (a, s) => (some (decide (s - 1 = 0)), (a, s - 1))

/-- The call decrements no zero counter, and leaves each counter below the size of its
field. -/
def Fits (w : Nat) : RecordOp → Nat × Nat → Prop
  | .incActive, (a, _) => a + 1 < 2 ^ (w - 16)
  | .decActive, (a, _) => 0 < a
  | .incSearching, (_, s) => s + 1 < 2 ^ 16
  | .decSearching, (_, s) => 0 < s

instance (w : Nat) (op : RecordOp) (c : Nat × Nat) : Decidable (op.Fits w c) :=
  match op, c with
  | .incActive, (a, _) => inferInstanceAs (Decidable (a + 1 < 2 ^ (w - 16)))
  | .decActive, (a, _) => inferInstanceAs (Decidable (0 < a))
  | .incSearching, (_, s) => inferInstanceAs (Decidable (s + 1 < 2 ^ 16))
  | .decSearching, (_, s) => inferInstanceAs (Decidable (0 < s))

end RecordOp

/-- The calls `ops` one after the other, from the record `r` and the counters `c` to `r'`
and `c'`, each call fitting the counters it finds. -/
inductive RecordRun (w : Nat) : Record w → Nat × Nat → List RecordOp → Record w → Nat × Nat →
    Prop
  | nil (r : Record w) (c : Nat × Nat) : RecordRun w r c [] r c
  | cons {r r' : Record w} {c c' : Nat × Nat} {op : RecordOp} {ops : List RecordOp} :
      op.Fits w c → RecordRun w (op.call r).2 (op.count c).2 ops r' c' →
      RecordRun w r c (op :: ops) r' c'

/-- The word of `r` packs the counters `c`, each inside its field. -/
structure Record.Holds {w : Nat} (r : Record w) (c : Nat × Nat) : Prop where
  word : r.word.toNat = c.1 * 2 ^ 16 + c.2
  active : c.1 < 2 ^ (w - 16)
  searching : c.2 < 2 ^ 16

section Holds

variable {w : Nat} [Fact (16 < w)] {r : Record w} {c : Nat × Nat}

theorem Record.holds_new {a : Nat} (ha : a < 2 ^ (w - 16)) :
    (Record.new a : Record w).Holds (a, 0) where
  word := by simpa using Record.new_toNat ha
  active := ha
  searching := Nat.two_pow_pos 16

theorem Record.Holds.loadState (h : r.Holds c) : r.loadState = c := by
  have := h.searching
  rw [Record.loadState_eq, h.word]
  ext <;> simp only <;> omega

theorem two_pow_eq : 2 ^ w = 2 ^ (w - 16) * 2 ^ 16 := by
  rw [← Nat.pow_add, Nat.sub_add_cancel (Fact.out : 16 < w).le]

/-- One call that fits the counters returns what the counters return and keeps the packing:
the word never carries or borrows across the field boundary. -/
theorem RecordOp.call_holds {op : RecordOp} (h : r.Holds c) (hf : op.Fits w c) :
    (op.call r).1 = (op.count c).1 ∧ (op.call r).2.Holds (op.count c).2 := by
  obtain ⟨a, s⟩ := c
  obtain ⟨hword, ha, hs⟩ := h
  dsimp only at hword ha hs
  have hp := two_pow_eq (w := w)
  cases op <;> simp only [RecordOp.Fits] at hf
  case incActive =>
    have hlt : (a + 2) * 2 ^ 16 ≤ 2 ^ w := by rw [hp]; exact Nat.mul_le_mul_right _ hf
    refine ⟨rfl, ⟨?_, hf, hs⟩⟩
    rw [RecordOp.call, r.incActiveNum_toNat (by omega), hword]
    simp only [RecordOp.count]
    omega
  case decActive =>
    refine ⟨?_, ⟨?_, by simp only [RecordOp.count]; omega, hs⟩⟩
    · simp only [RecordOp.call, RecordOp.count, r.decActiveNum_fst, hword, Option.some.injEq,
        decide_eq_decide]
      omega
    · have : 2 ^ 16 ≤ a * 2 ^ 16 := Nat.le_mul_of_pos_left _ hf
      rw [RecordOp.call, r.decActiveNum_toNat (by omega), hword]
      simp only [RecordOp.count, Nat.sub_mul, Nat.one_mul]
      omega
  case incSearching =>
    have hlt : (a + 1) * 2 ^ 16 ≤ 2 ^ w := by rw [hp]; exact Nat.mul_le_mul_right _ ha
    refine ⟨rfl, ⟨?_, ha, hf⟩⟩
    rw [RecordOp.call, r.incSearchingNum_toNat (by omega), hword]
    simp only [RecordOp.count]
    omega
  case decSearching =>
    refine ⟨?_, ⟨?_, ha, by simp only [RecordOp.count]; omega⟩⟩
    · simp only [RecordOp.call, RecordOp.count, r.decSearchingNum_fst, hword, Option.some.injEq,
        decide_eq_decide]
      omega
    · rw [RecordOp.call, r.decSearchingNum_toNat (by omega), hword]
      simp only [RecordOp.count]
      omega

theorem RecordRun.holds {ops : List RecordOp} {r' : Record w} {c' : Nat × Nat}
    (h : RecordRun w r c ops r' c') (hr : r.Holds c) : r'.Holds c' := by
  induction h with
  | nil => exact hr
  | cons hf _ ih => exact ih (RecordOp.call_holds hr hf).2

end Holds

/-- From `Record::new(a0)` with `a0 < 2 ^ (w - 16)`, after any calls that keep the counters
`(active, searching)` inside their fields and decrement none at zero, `load_state` returns
the counters, and the next such call returns what it returns on the counters: a decrement
returns true exactly when its counter reaches zero. -/
theorem record_tracks_counters {w a₀ : Nat} (hw : 16 < w) (ha : a₀ < 2 ^ (w - 16))
    {ops : List RecordOp} {r : Record w} {c : Nat × Nat}
    (h : RecordRun w (Record.new a₀) (a₀, 0) ops r c) :
    r.loadState = c ∧ ∀ op : RecordOp, op.Fits w c →
      (op.call r).1 = (op.count c).1 ∧ (op.call r).2.loadState = (op.count c).2 := by
  have : Fact (16 < w) := ⟨hw⟩
  have hr := h.holds (Record.holds_new ha)
  exact ⟨hr.loadState, fun op hf =>
    ⟨(RecordOp.call_holds hr hf).1, (RecordOp.call_holds hr hf).2.loadState⟩⟩

/-- On a 32-bit `usize`, `Record::new(1)` and then `dec_active_num`. -/
theorem record_tracks_one_worker :
    ((Record.new 1 : Record 32).decActiveNum.2).loadState = (0, 0) ∧
      ∀ op : RecordOp, op.Fits 32 (0, 0) →
        (op.call (Record.new 1 : Record 32).decActiveNum.2).1 = (op.count (0, 0)).1 ∧
        (op.call (Record.new 1 : Record 32).decActiveNum.2).2.loadState = (op.count (0, 0)).2 :=
  @record_tracks_counters 32 1 (by decide) (Nat.one_lt_two_pow (by decide)) [.decActive] _ _
    (.cons (by decide) (.nil _ _))

end YlongRuntime
