import Mathlib.Data.BitVec

/-! `from_linger` and `into_linger` of `ylong_io`'s `sys/unix/tcp/socket.rs`, which convert
between the `SO_LINGER` payload `libc::linger` and `Option<Duration>`. `into_linger` casts the
`u64` seconds to `c_int` with `as`, which keeps the low 32 bits, and `from_linger` casts the
`c_int` back to `u64`, which sign-extends it. -/

namespace YlongRuntime

/-- `libc::linger`: `l_onoff` and `l_linger` are `c_int`, 32 bits. -/
structure Linger where
  lOnoff : BitVec 32
  lLinger : BitVec 32
deriving DecidableEq

/-- `std::time::Duration`: whole seconds as a `u64`, and the nanoseconds below one second. -/
structure Duration where
  secs : BitVec 64
  nanos : Nat
  nanos_lt : nanos < 1000000000
deriving DecidableEq

/-- `Duration::from_secs`. -/
def Duration.fromSecs (secs : BitVec 64) : Duration := ⟨secs, 0, by decide⟩

/-- `from_linger`. -/
def fromLinger (linger : Linger) : Option Duration :=
  if linger.lOnoff = 0 then none else some (Duration.fromSecs (linger.lLinger.signExtend 64))

/-- `into_linger`. -/
def intoLinger : Option Duration → Linger
  | none => ⟨0, 0⟩
  | some dur => ⟨1, dur.secs.setWidth 32⟩

/-- `c_int as u64`: a negative `c_int` becomes `2 ^ 64` plus it. -/
theorem signExtend_toNat (x : BitVec 32) :
    (x.signExtend 64).toNat = if x.toNat < 2 ^ 31 then x.toNat else x.toNat + (2 ^ 64 - 2 ^ 32) := by
  have hx := x.isLt
  rw [BitVec.signExtend, BitVec.toNat_ofInt, BitVec.toInt_eq_toNat_cond]
  split_ifs with h₁ h₂ h₂ <;> omega

theorem setWidth_signExtend (x : BitVec 32) : (x.signExtend 64).setWidth 32 = x := by
  have hx := x.isLt
  apply BitVec.eq_of_toNat_eq
  rw [BitVec.toNat_setWidth, signExtend_toNat]
  split_ifs <;> omega

/-- `into_linger` then `from_linger` gives back a duration's whole seconds exactly when they
are below `2 ^ 31` or at least `2 ^ 64 - 2 ^ 31`: the `c_int` cast wraps the others. The other
way round, `from_linger` then `into_linger` keeps `l_linger` of every set `linger`. -/
theorem linger_round_trip :
    (∀ d : Duration, fromLinger (intoLinger (some d)) = some (Duration.fromSecs d.secs) ↔
      d.secs.toNat < 2 ^ 31 ∨ 2 ^ 64 - 2 ^ 31 ≤ d.secs.toNat) ∧
    ∀ l : Linger, l.lOnoff ≠ 0 → intoLinger (fromLinger l) = ⟨1, l.lLinger⟩ := by
  refine ⟨fun d => ?_, fun l hl => ?_⟩
  · have hd := d.secs.isLt
    simp only [intoLinger, fromLinger, show (1 : BitVec 32) ≠ 0 by decide, if_false,
      Option.some.injEq, Duration.fromSecs, Duration.mk.injEq, and_true, BitVec.toNat_eq,
      signExtend_toNat, BitVec.toNat_setWidth]
    split_ifs <;> omega
  · simp only [fromLinger, hl, if_false, intoLinger, Duration.fromSecs, setWidth_signExtend]

/-- A linger time of `2 ^ 31` seconds comes back as `2 ^ 64 - 2 ^ 31` seconds. -/
example : fromLinger (intoLinger (some (Duration.fromSecs (2 ^ 31)))) =
    some (Duration.fromSecs (2 ^ 64 - 2 ^ 31)) := by
  decide

end YlongRuntime
