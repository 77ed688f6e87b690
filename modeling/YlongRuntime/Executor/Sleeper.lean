import YlongRuntime.Executor.Record
import Mathlib.Algebra.Order.BigOperators.Group.Finset

/-! `Sleeper` of `executor/sleeper.rs` shared by threads, each at one point of one call. A
step is one atomic piece of a call. Taking the `idle_list` mutex is merged with the list
operation after it, and `inc_active_num` or `dec_active_num` with the unlock after it: no
other thread sees the list in between, and an unlock moves earlier past any step of another
thread. -/

namespace YlongRuntime

/-- `usize` of the targets the runtime is modelled on: 64 bits. -/
instance usizeWidth : Fact (16 < 64) := ⟨by decide⟩

/-- `Sleeper`. The `Vec` `idle_list` is used as a stack; its last element is the head here. -/
structure Sleeper where
  record : Record 64
  idleList : List Nat
  numWorkers : Nat
deriving DecidableEq

def Sleeper.new (numWorkers : Nat) : Sleeper := ⟨Record.new numWorkers, [], numWorkers⟩

/-- `Sleeper::is_parked`, read while holding the `idle_list` mutex. -/
def Sleeper.isParked (s : Sleeper) (workerIndex : Nat) : Bool := s.idleList.contains workerIndex

/-- Where a thread is in its call. -/
inductive Pc
  | idle
  /-- `pop_worker` passed its `load_state` check and waits for the mutex. -/
  | popChecked
  /-- `pop_worker` holds the mutex and has popped a worker; `inc_active_num` is next. -/
  | popped
  /-- `push_worker` holds the mutex and has pushed; `dec_active_num` is next. -/
  | pushed
  /-- `try_inc_searching_num` passed its check; `inc_searching_num` is next. -/
  | incChecked
deriving DecidableEq

/-- A `Sleeper` and the threads calling it. `held t` counts the successful
`try_inc_searching_num` calls of thread `t` that no `dec_searching_num` has matched. -/
structure Shared where
  sleeper : Sleeper
  owner : Option Nat
  pc : Nat → Pc
  held : Nat → Nat

/-- A call a thread starts, or `resume` for the next atomic step of the call it is in. -/
inductive Act
  | popWorker
  | pushWorker (i : Nat)
  | tryIncSearchingNum
  | decSearchingNum
  | resume
deriving DecidableEq

namespace Shared

def init (n : Nat) : Shared := ⟨Sleeper.new n, none, fun _ => .idle, fun _ => 0⟩

@[simps] def setPc (s : Shared) (t : Nat) (p : Pc) : Shared :=
  { s with pc := Function.update s.pc t p }

@[simps] def setRecord (s : Shared) (r : Record 64) : Shared :=
  { s with sleeper := { s.sleeper with record := r } }

@[simps] def setIdleList (s : Shared) (l : List Nat) : Shared :=
  { s with sleeper := { s.sleeper with idleList := l } }

@[simps] def setOwner (s : Shared) (o : Option Nat) : Shared := { s with owner := o }

@[simps] def setHeld (s : Shared) (t k : Nat) : Shared :=
  { s with held := Function.update s.held t k }

/-- Thread `t` takes a step; `none` when it cannot. -/
def step (s : Shared) (t : Nat) : Act → Option Shared
  | .popWorker =>
    if s.pc t = .idle then
      let (activeNum, searchingNum) := s.sleeper.record.loadState
      if s.sleeper.numWorkers ≤ activeNum ∨ 0 < searchingNum then some s
      else some (s.setPc t .popChecked)
    else none
  | .pushWorker i =>
    if s.pc t = .idle ∧ s.owner = none then
      some (((s.setPc t .pushed).setIdleList (i :: s.sleeper.idleList)).setOwner (some t))
    else none
  | .tryIncSearchingNum =>
    if s.pc t = .idle then
      let (activeNum, searchingNum) := s.sleeper.record.loadState
      if searchingNum * 2 < activeNum then some (s.setPc t .incChecked) else some s
    else none
  | .decSearchingNum =>
    if s.pc t = .idle then
      some ((s.setRecord s.sleeper.record.decSearchingNum.2).setHeld t (s.held t - 1))
    else none
  | .resume =>
    match s.pc t with
    | .popChecked =>
      if s.owner = none then
        match s.sleeper.idleList with
        | [] => some (s.setPc t .idle)
        | _ :: rest => some (((s.setPc t .popped).setIdleList rest).setOwner (some t))
      else none
    | .popped => some (((s.setPc t .idle).setRecord s.sleeper.record.incActiveNum).setOwner none)
    | .pushed =>
      some (((s.setPc t .idle).setRecord s.sleeper.record.decActiveNum.2).setOwner none)
    | .incChecked =>
      some (((s.setPc t .idle).setRecord s.sleeper.record.incSearchingNum).setHeld t
        (s.held t + 1))
    | .idle => none

end Shared

/-- The callers the invariant is stated for: any thread may call, `push_worker(i)` only with
`i < n` not in `idle_list`, and `dec_searching_num` only while holding an increment. -/
def AnyCaller (s : Shared) (t : Nat) : Act → Prop
  | .pushWorker i => i < s.sleeper.numWorkers ∧ i ∉ s.sleeper.idleList
  | .decSearchingNum => 0 < s.held t
  | _ => True

/-- The runtime's callers: any thread may call `pop_worker` and `push_worker`, as the wakers
and the parking workers do, but only the workers `t < n` search, each holding at most one
increment. -/
def WorkerCaller (s : Shared) (t : Nat) (a : Act) : Prop :=
  AnyCaller s t a ∧
    match a with
    | .tryIncSearchingNum => t < s.sleeper.numWorkers ∧ s.held t = 0
    | _ => True

/-- The states that callers allowed by `allowed` reach from `Sleeper::new(n)`. -/
inductive Reach (allowed : Shared → Nat → Act → Prop) (n : Nat) : Shared → Prop
  | init : Reach allowed n (Shared.init n)
  | step {s s' : Shared} (t : Nat) (a : Act) : Reach allowed n s → allowed s t a →
      s.step t a = some s' → Reach allowed n s'

end YlongRuntime
