import YlongRuntime.Fs.AsyncFile

/-! One async `File` and everything its methods touch. A step is one atomic piece of a
run: a pass of a poll loop, a poll of `poll_flush` or of a mutex-holding future, a
future dropped after `Pending`, or a blocking job returning. -/

namespace YlongRuntime

/-- A `poll_read`, `poll_write` or `poll_seek` call between two passes of its loop. -/
inductive Call
  | read (room : Nat)
  | write (bytes : List UInt8)
  | seek (pos : SeekFrom)
deriving DecidableEq

/-- The future of a method that holds the file's mutex, at its suspension point. -/
inductive Holder
  | setLenFlush (size : Nat)
  | setLenJob (size : Nat) (h : JoinHandle)
  | syncFlush (kind : SyncKind)
  | syncJob (h : JoinHandle)
deriving DecidableEq

/-- The methods that take the mutex: `set_len(size)`, `sync_all` and `sync_data`. -/
inductive Method
  | setLen (size : Nat)
  | sync (kind : SyncKind)
deriving DecidableEq

/-- The future of a method as it takes the mutex: about to flush. -/
def Method.start : Method → Holder
  | .setLen size => .setLenFlush size
  | .sync kind => .syncFlush kind

/-- What a call returned to its task. -/
inductive Reply
  | read (r : Poll (Except ErrorKind (List UInt8)))
  | write (r : Poll (Except ErrorKind Nat))
  | seek (r : Poll (Except ErrorKind Nat))
  | flush (r : Poll (Except ErrorKind Unit))
  | setLen (r : Poll (Except ErrorKind Unit))
  | sync (r : Poll (Except ErrorKind Unit))
deriving DecidableEq

/-- Where a blocking job's handle is: in `state`, in the future holding the mutex, or
dropped with its future (the `i`-th detached job). -/
inductive Slot
  | state
  | holder
  | detached (i : Nat)
deriving DecidableEq

inductive Action
  | begin (c : Call)
  | pass
  | flush
  | lock (m : Method)
  | resume
  | drop
  | finish (s : Slot) (φ : Faults)
  | fail (s : Slot) (e : ErrorKind)
deriving DecidableEq

structure World where
  inner : FileInner
  file : SyncFile
  call : Option Call
  holder : Option Holder
  detached : List Job
  reply : Option Reply
deriving DecidableEq

/-- A new `File` on the std file `f`. -/
def World.init (f : SyncFile) : World := ⟨FileInner.new, f, none, none, [], none⟩

def FileState.handle : FileState → Option JoinHandle
  | .idle _ => none
  | .reading h | .writing h | .seeking h => some h

def Holder.handle : Holder → Option JoinHandle
  | .setLenJob _ h | .syncJob h => some h
  | _ => none

def Holder.withHandle : Holder → JoinHandle → Holder
  | .setLenJob size _, h => .setLenJob size h
  | .syncJob _, h => .syncJob h
  | holder, _ => holder

/-- The jobs still running when a future is dropped, which nobody will join. -/
def Holder.orphans : Holder → List Job
  | .setLenJob _ (.running job) | .syncJob (.running job) => [job]
  | _ => []

/-- The rest of `set_len` once `file.flush().await` is ready with `r`. -/
def setLenFlushed (w : World) (size : Nat) (inner : FileInner) (r : Except ErrorKind Unit) :
    World :=
  match (inner.saveErr r).state with
  | .idle (some buf) =>
    { w with inner := { inner.saveErr r with state := .idle none },
             holder := some (.setLenJob size (.running (.setLen size buf))), reply := none }
  | _ => { w with inner := inner.saveErr r, holder := none, reply := some (.setLen .panic) }

/-- A poll of the future holding the mutex. -/
def resume (w : World) : Holder → World
  | .setLenFlush size =>
    match w.inner.pollFlush with
    | (.ready r, inner) => setLenFlushed w size inner r
    | (.pending, inner) => { w with inner, reply := none }
    | (.panic, inner) => { w with inner, holder := none, reply := some (.setLen .panic) }
  | .setLenJob size h =>
    match h.poll with
    | (.ready (.ok (buf, res)), _) =>
      { w with inner := { w.inner with state := .idle (some buf),
                                       idx := match res with | .ok u => u | .error _ => w.inner.idx },
               holder := none, reply := some (.setLen (.ready (res.map fun _ => ()))) }
    | (.ready (.error e), _) => { w with holder := none, reply := some (.setLen (.ready (.error e))) }
    | (.pending, h) => { w with holder := some (.setLenJob size h), reply := none }
    | (.panic, _) => { w with holder := none, reply := some (.setLen .panic) }
  | .syncFlush kind =>
    match w.inner.pollFlush with
    | (.ready r, inner) =>
      { w with inner := inner.saveErr r, holder := some (.syncJob (.running (.sync kind))),
               reply := none }
    | (.pending, inner) => { w with inner, reply := none }
    | (.panic, inner) => { w with inner, holder := none, reply := some (.sync .panic) }
  | .syncJob h =>
    match h.poll with
    | (.ready (.ok (_, res)), _) => { w with holder := none, reply := some (.sync (.ready (res.map fun _ => ()))) }
    | (.ready (.error e), _) => { w with holder := none, reply := some (.sync (.ready (.error e))) }
    | (.pending, h) => { w with holder := some (.syncJob h), reply := none }
    | (.panic, _) => { w with holder := none, reply := some (.sync .panic) }

/-- A task may poll a method only while no call is between passes and no future holds
the mutex (the methods take `&mut self`, or the mutex). -/
def World.free (w : World) : Bool := w.call.isNone && w.holder.isNone

/-- The step from `w`, if it can be taken; `limit` is the file's `buf_size_limit`. -/
def step (limit : Nat) (w : World) : Action → Option World
  | .begin c =>
    if w.free then
      match c, writeCheck w.inner with
      | .write _, some r => some { w with reply := some (.write (.ready r)) }
      | c, _ => some { w with call := some c, reply := none }
    else none
  | .pass =>
    match w.call with
    | none => none
    | some (.read room) =>
      match readPass limit room w.inner with
      | .next inner => some { w with inner, reply := none }
      | .done r inner => some { w with inner, call := none, reply := some (.read r) }
    | some (.write bytes) =>
      match writePass limit bytes w.inner with
      | .next inner => some { w with inner, reply := none }
      | .done r inner => some { w with inner, call := none, reply := some (.write r) }
    | some (.seek pos) =>
      match seekPass (pos, w.inner) with
      | .next (pos, inner) => some { w with inner, call := some (.seek pos), reply := none }
      | .done r (_, inner) => some { w with inner, call := none, reply := some (.seek r) }
  | .flush =>
    if w.free then
      some { w with inner := w.inner.pollFlush.2, reply := some (.flush w.inner.pollFlush.1) }
    else none
  | .lock m =>
    if w.free then
      some { w with holder := some m.start, reply := none }
    else none
  | .resume => w.holder.map (resume w)
  | .drop =>
    w.holder.map fun h => { w with holder := none, detached := h.orphans ++ w.detached, reply := none }
  | .finish .state φ =>
    match w.inner.state.handle with
    | some (.running job) =>
      let ((buf, res), file) := job.run φ w.file
      some { w with inner := { w.inner with state := w.inner.state.withHandle (.finished buf res) },
                    file, reply := none }
    | _ => none
  | .finish .holder φ =>
    match w.holder, w.holder.bind Holder.handle with
    | some holder, some (.running job) =>
      let ((buf, res), file) := job.run φ w.file
      some { w with holder := some (holder.withHandle (.finished buf res)), file, reply := none }
    | _, _ => none
  | .finish (.detached i) φ =>
    w.detached[i]?.map fun job =>
      { w with detached := w.detached.eraseIdx i, file := (job.run φ w.file).2, reply := none }
  | .fail .state e =>
    match w.inner.state.handle with
    | some (.running _) =>
      some { w with inner := { w.inner with state := w.inner.state.withHandle (.failed e) },
                    reply := none }
    | _ => none
  | .fail .holder e =>
    match w.holder, w.holder.bind Holder.handle with
    | some holder, some (.running _) =>
      some { w with holder := some (holder.withHandle (.failed e)), reply := none }
    | _, _ => none
  | .fail (.detached i) _ =>
    w.detached[i]?.map fun _ => { w with detached := w.detached.eraseIdx i, reply := none }

/-- The running blocking jobs of the file's own calls, each holding a clone of its
`Arc<SyncFile>`. `SharedFile.clones` also counts those of `metadata`, `set_permissions` and
`try_clone`. -/
def World.clones (w : World) : Nat :=
  (match w.inner.state.handle with | some (.running _) => 1 | _ => 0) +
  (match w.holder.bind Holder.handle with | some (.running _) => 1 | _ => 0) + w.detached.length

/-- `Arc::try_unwrap` of the file in `try_into_std`, and in `into_std` after its flush, while
no job of `metadata`, `set_permissions` or `try_clone` runs. -/
def World.tryIntoStd (w : World) : Bool := w.clones == 0

/-- A `File` with the jobs of `metadata`, `set_permissions` and `try_clone`. These take
`&self` and move a clone of the `Arc<SyncFile>` into a blocking job (`async_op`) without
taking the mutex; the job keeps the clone until it ends, also when its future is dropped. -/
structure SharedFile where
  world : World
  /-- Running jobs whose futures still await them. -/
  awaited : Nat
  /-- Running jobs whose futures were dropped. -/
  orphaned : Nat

/-- A step of the file's own calls and jobs, or of the jobs of `metadata`, `set_permissions`
and `try_clone`. -/
inductive SharedAction
  | file (a : Action)
  /-- The future's first poll clones the `Arc` and spawns the job. -/
  | spawnAux
  /-- An awaited job ends and drops its clone; its future returns. -/
  | finishAux
  /-- A future awaiting its job is dropped; the job runs on. -/
  | dropAux
  /-- The job of a dropped future ends. -/
  | finishOrphan

def SharedFile.step (limit : Nat) (sf : SharedFile) : SharedAction → Option SharedFile
  | .file a => (YlongRuntime.step limit sf.world a).map fun w => { sf with world := w }
  | .spawnAux => some { sf with awaited := sf.awaited + 1 }
  | .finishAux => if 0 < sf.awaited then some { sf with awaited := sf.awaited - 1 } else none
  | .dropAux =>
    if 0 < sf.awaited then
      some { sf with awaited := sf.awaited - 1, orphaned := sf.orphaned + 1 }
    else none
  | .finishOrphan =>
    if 0 < sf.orphaned then some { sf with orphaned := sf.orphaned - 1 } else none

/-- The running blocking jobs, each holding a clone of the file's `Arc<SyncFile>`. -/
def SharedFile.clones (sf : SharedFile) : Nat := sf.world.clones + sf.awaited + sf.orphaned

/-- `Arc::try_unwrap` of the file in `try_into_std`, and in `into_std` after its flush. -/
def SharedFile.tryIntoStd (sf : SharedFile) : Bool := sf.clones == 0

/-- The worlds a `File` on some std file can be in. -/
inductive Reachable (limit : Nat) : World → Prop
  | init (f : SyncFile) : Reachable limit (World.init f)
  | step {w w' : World} (a : Action) : Reachable limit w → step limit w a = some w' →
      Reachable limit w'

/-- Takes the steps of a list in order. -/
def run (limit : Nat) : World → List Action → Option World
  | w, [] => some w
  | w, a :: as => (step limit w a).bind (run limit · as)

theorem Reachable.run {limit : Nat} :
    ∀ {w w' : World} {l : List Action}, Reachable limit w → run limit w l = some w' →
      Reachable limit w'
  | _, _, [], hw, h => by cases h; exact hw
  | w, _, a :: as, hw, h => by
    simp only [YlongRuntime.run] at h
    cases hs : YlongRuntime.step limit w a with
    | none => simp [hs] at h
    | some w₁ =>
      rw [hs] at h
      exact Reachable.run (hw.step a hs) h

end YlongRuntime
