import Mathlib.Data.BitVec
import Mathlib.Data.Nat.Bitwise

/-! `Record` of `executor/sleeper.rs`: the active and searching worker counts packed in one
`AtomicUsize`, changed by wrapping `fetch_add` and `fetch_sub`. `usize` has `w` bits, 32 or
64; the lemmas hold for every width above the 16 bits of the searching field. -/

namespace YlongRuntime

def activeWorkerShift : Nat := 16

def searchingMask (w : Nat) : BitVec w := ((1 : BitVec w) <<< activeWorkerShift) - 1

def activeMask (w : Nat) : BitVec w := ~~~searchingMask w

/-- `Record(AtomicUsize)`: `| ... | working num (16 bits) | searching num (16 bits) |`. -/
structure Record (w : Nat) where
  word : BitVec w
deriving DecidableEq

namespace Record

variable {w : Nat}

def new (activeNum : Nat) : Record w := ⟨BitVec.ofNat w activeNum <<< activeWorkerShift⟩

/-- Whether the caller was the last searching thread, and the record after `fetch_sub(1)`. -/
def decSearchingNum (r : Record w) : Bool × Record w :=
  let ret := r.word
  ((ret &&& searchingMask w) == 1, ⟨ret - 1⟩)

def incSearchingNum (r : Record w) : Record w := ⟨r.word + 1⟩

def incActiveNum (r : Record w) : Record w :=
  let inc := (1 : BitVec w) <<< activeWorkerShift
  ⟨r.word + inc⟩

/-- Whether no worker is left active, and the record after `fetch_sub(1 << 16)`. The
`- 1` is `usize` subtraction: it underflows when the active field of `ret` is `0`. -/
def decActiveNum (r : Record w) : Bool × Record w :=
  let dec := (1 : BitVec w) <<< activeWorkerShift
  let ret := r.word
  let activeNum := ((ret &&& activeMask w) >>> activeWorkerShift) - 1
  (activeNum == 0, ⟨ret - dec⟩)

/-- `(active_num, searching_num)`. -/
def loadState (r : Record w) : Nat × Nat :=
  let unionNum := r.word
  let searchingNum := unionNum &&& searchingMask w
  let activeNum := (unionNum &&& activeMask w) >>> activeWorkerShift
  (activeNum.toNat, searchingNum.toNat)

end Record

section Width

variable {w : Nat} [hw : Fact (16 < w)]

theorem two_pow_lt : 2 ^ 16 < 2 ^ w := Nat.pow_lt_pow_of_lt (by decide) hw.out

theorem Record.one_toNat : (1 : BitVec w).toNat = 1 := by
  have : 1 < 2 ^ w := Nat.one_lt_two_pow (by have := hw.out; omega)
  simp [Nat.mod_eq_of_lt this]

theorem Record.inc_toNat : ((1 : BitVec w) <<< activeWorkerShift).toNat = 2 ^ 16 := by
  rw [BitVec.toNat_shiftLeft, Record.one_toNat, Nat.shiftLeft_eq, Nat.one_mul]
  exact Nat.mod_eq_of_lt two_pow_lt

theorem searchingMask_toNat : (searchingMask w).toNat = 2 ^ 16 - 1 := by
  rw [searchingMask, BitVec.toNat_sub_of_le
    (by rw [BitVec.le_def, Record.inc_toNat, Record.one_toNat]; omega),
    Record.inc_toNat, Record.one_toNat]

theorem searchingMask_eq : searchingMask w = BitVec.ofNat w (2 ^ 16 - 1) := by
  rw [BitVec.toNat_eq, searchingMask_toNat, BitVec.toNat_ofNat,
    Nat.mod_eq_of_lt (by have := two_pow_lt (w := w); omega)]

theorem toNat_and_searchingMask (x : BitVec w) :
    (x &&& searchingMask w).toNat = x.toNat % 2 ^ 16 := by
  rw [BitVec.toNat_and, searchingMask_toNat, Nat.and_pow_two_sub_one_eq_mod]

/-- Masking off the searching field before the shift changes nothing. -/
theorem and_activeMask_shift (x : BitVec w) :
    (x &&& activeMask w) >>> activeWorkerShift = x >>> activeWorkerShift := by
  ext i
  simp only [BitVec.getLsbD_ushiftRight, BitVec.getLsbD_and, activeMask, BitVec.getLsbD_not,
    searchingMask_eq, BitVec.getLsbD_ofNat, Nat.testBit_two_pow_sub_one, activeWorkerShift]
  by_cases h : 16 + (i : Nat) < w
  · simp [h]
  · simp [h, BitVec.getLsbD_ge x _ (by omega : w ≤ 16 + (i : Nat))]

theorem toNat_active (x : BitVec w) :
    ((x &&& activeMask w) >>> activeWorkerShift).toNat = x.toNat / 2 ^ 16 := by
  rw [and_activeMask_shift, BitVec.toNat_ushiftRight, Nat.shiftRight_eq_div_pow]
  rfl

namespace Record

variable (r : Record w)

/-- `load_state` reads the two fields of the word, whatever it holds. -/
@[simp] theorem loadState_eq : r.loadState = (r.word.toNat / 2 ^ 16, r.word.toNat % 2 ^ 16) := by
  simp only [loadState, toNat_active, toNat_and_searchingMask]

theorem new_toNat {n : Nat} (hn : n < 2 ^ (w - 16)) : (new n : Record w).word.toNat = n * 2 ^ 16 := by
  have hw' : 2 ^ (w - 16) * 2 ^ 16 = 2 ^ w := by rw [← Nat.pow_add, Nat.sub_add_cancel hw.out.le]
  have hlt : n * 2 ^ 16 < 2 ^ w := hw' ▸ Nat.mul_lt_mul_of_pos_right hn (by decide)
  have hn' : n < 2 ^ w := lt_of_le_of_lt (Nat.le_mul_of_pos_right n (by decide)) hlt
  rw [new, BitVec.toNat_shiftLeft, BitVec.toNat_ofNat, Nat.mod_eq_of_lt hn', Nat.shiftLeft_eq]
  exact Nat.mod_eq_of_lt hlt

theorem incSearchingNum_toNat (h : r.word.toNat + 1 < 2 ^ w) :
    r.incSearchingNum.word.toNat = r.word.toNat + 1 := by
  rw [incSearchingNum, BitVec.toNat_add, one_toNat, Nat.mod_eq_of_lt h]

theorem decSearchingNum_toNat (h : 1 ≤ r.word.toNat) :
    r.decSearchingNum.2.word.toNat = r.word.toNat - 1 := by
  rw [decSearchingNum, BitVec.toNat_sub_of_le (by rw [BitVec.le_def, one_toNat]; exact h),
    one_toNat]

theorem incActiveNum_toNat (h : r.word.toNat + 2 ^ 16 < 2 ^ w) :
    r.incActiveNum.word.toNat = r.word.toNat + 2 ^ 16 := by
  rw [incActiveNum, BitVec.toNat_add, inc_toNat, Nat.mod_eq_of_lt h]

theorem decActiveNum_toNat (h : 2 ^ 16 ≤ r.word.toNat) :
    r.decActiveNum.2.word.toNat = r.word.toNat - 2 ^ 16 := by
  rw [decActiveNum, BitVec.toNat_sub_of_le (by rw [BitVec.le_def, inc_toNat]; exact h), inc_toNat]

/-- `dec_searching_num` returns true exactly when the searching field it read was `1`. -/
theorem decSearchingNum_fst : r.decSearchingNum.1 = decide (r.word.toNat % 2 ^ 16 = 1) := by
  rw [decSearchingNum, beq_eq_decide, decide_eq_decide, BitVec.toNat_eq, toNat_and_searchingMask,
    one_toNat]

/-- `dec_active_num` returns true exactly when the active field it read was `1`. -/
theorem decActiveNum_fst : r.decActiveNum.1 = decide (r.word.toNat / 2 ^ 16 = 1) := by
  rw [decActiveNum, beq_eq_decide, decide_eq_decide, sub_eq_zero, BitVec.toNat_eq, toNat_active,
    one_toNat]

end Record

end Width

end YlongRuntime
