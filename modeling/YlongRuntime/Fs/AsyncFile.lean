import YlongRuntime.Fs.FileBuf

/-! The state machine of `fs/async_file.rs`: `FileState`, `FileInner` and one pass of
the loops of `poll_read`, `poll_write` and `poll_seek`, and `FileInner::poll_flush`.
Each pass runs with the blocking jobs' statuses fixed; jobs finish between passes. -/

namespace YlongRuntime

/-- A syscall the environment may make fail with `fault`; a failed one changes nothing. -/
def syscall {α : Type} (fault : Option ErrorKind) (r : Except ErrorKind (α × SyncFile)) :
    Except ErrorKind (α × SyncFile) :=
  match fault with
  | some e => .error e
  | none => r

inductive SyncKind
  | all
  | data
deriving DecidableEq

/-- The closure given to `spawn_blocking`. -/
inductive Job
  | read (rBuf : FileBuf)
  | write (unread : Int) (wBuf : FileBuf)
  | seek (pos : SeekFrom) (rBuf : FileBuf)
  | setLen (size : Nat) (buf : FileBuf)
  | sync (kind : SyncKind)
deriving DecidableEq

/-- Runs a blocking job on the shared file: the buffer it hands back, its result
(`io::Result<()>` is `Ok 0`) and the file after it. -/
def Job.run : Job → Faults → SyncFile → (FileBuf × Except ErrorKind Nat) × SyncFile
  | .read rBuf, φ, f =>
    let ((b, r), f) := rBuf.read φ.io f
    ((b, r.map fun _ => 0), f)
  | .write unread wBuf, φ, f =>
    match (if unread ≠ 0 then syscall φ.seek (f.seek (.current (-unread))) else .ok (0, f)) with
    | .error e => ((wBuf, .error e), f)
    | .ok (_, f) =>
      let ((b, r), f) := wBuf.write φ.io f
      ((b, r.map fun _ => 0), f)
  | .seek pos rBuf, φ, f =>
    match syscall φ.seek (f.seek pos) with
    | .error e => ((rBuf, .error e), f)
    | .ok (p, f) => ((rBuf, .ok p), f)
  | .setLen size buf, φ, f =>
    if buf.remaining = 0 then
      match syscall φ.seek (f.seek (.current buf.dropUnread.1)) with
      | .error e => ((buf.dropUnread.2, .error e), f)
      | .ok (_, f) =>
        match syscall φ.io (.ok (0, f.setLen size)) with
        | .error e => ((buf.dropUnread.2, .error e), f)
        | .ok (_, f) => ((buf.dropUnread.2, .ok 0), f)
    else
      match syscall φ.io (.ok (0, f.setLen size)) with
      | .error e => ((buf, .error e), f)
      | .ok (_, f) => ((buf, .ok 0), f)
  | .sync _, φ, f =>
    match syscall φ.io (.ok (0, f)) with
    | .error e => ((FileBuf.empty, .error e), f)
    | .ok _ => ((FileBuf.empty, .ok 0), f)

/-- `std::task::Poll` of a call, with `panic` for a call that panics. -/
inductive Poll (α : Type)
  | ready (a : α)
  | pending
  | panic
deriving DecidableEq

/-- Modelled from the spec: `crate::task::JoinHandle` of a blocking job, "a handle to a
scheduled blocking computation that, when complete, yields back (buffer, outcome)".
`failed` is a join error, `taken` a handle whose output an earlier poll took. -/
inductive JoinHandle
  | running (job : Job)
  | finished (buf : FileBuf) (res : Except ErrorKind Nat)
  | failed (e : ErrorKind)
  | taken
deriving DecidableEq

/-- Polling a `JoinHandle`; a second poll after its output is outside the `Future`
contract and panics. -/
def JoinHandle.poll : JoinHandle →
    Poll (Except ErrorKind (FileBuf × Except ErrorKind Nat)) × JoinHandle
  | .running job => (.pending, .running job)
  | .finished b r => (.ready (.ok (b, r)), .taken)
  | .failed e => (.ready (.error e), .taken)
  | .taken => (.panic, .taken)

inductive FileState
  | idle (buf : Option FileBuf)
  | reading (h : JoinHandle)
  | writing (h : JoinHandle)
  | seeking (h : JoinHandle)
deriving DecidableEq

inductive FileOp
  | reading
  | writing
  | seeking
deriving DecidableEq

structure FileInner where
  state : FileState
  writeErr : Option ErrorKind
  idx : Nat
deriving DecidableEq

namespace FileState

/-- `FileState::get_op`, called on busy states only (`Idle` is `unreachable!()`). -/
def getOp : FileState → FileOp
  | .idle _ | .reading _ => .reading
  | .writing _ => .writing
  | .seeking _ => .seeking

/-- A busy state with its handle replaced. -/
def withHandle : FileState → JoinHandle → FileState
  | .writing _, h => .writing h
  | .seeking _, h => .seeking h
  | _, h => .reading h

/-- `impl Future for FileState`: a finished job puts its buffer back as `Idle`; a join
error returns through `?` and leaves the state busy. -/
def poll (s : FileState) : Poll (Except ErrorKind Nat) × FileState :=
  match s with
  | .idle b => (.panic, .idle b)
  | .reading h | .writing h | .seeking h =>
    match h.poll with
    | (.ready (.ok (b, res)), _) => (.ready res, .idle (some b))
    | (.ready (.error e), h) => (.ready (.error e), s.withHandle h)
    | (.pending, h) => (.pending, s.withHandle h)
    | (.panic, h) => (.panic, s.withHandle h)

end FileState

namespace FileInner

/-- `File::new`. -/
def new : FileInner := ⟨.idle (some FileBuf.empty), none, 0⟩

end FileInner

/-- `DEFAULT_BUF_LIMIT`, the `buf_size_limit` of a new `File`. -/
def defaultBufLimit : Nat := 2 * 1024 * 1024

namespace FileInner

/-- `if let Err(e) = res { write_err = Some(e.kind()) }`. -/
def saveErr {α : Type} (inner : FileInner) : Except ErrorKind α → FileInner
  | .error e => { inner with writeErr := some e }
  | .ok _ => inner

/-- `FileInner::poll_flush`. -/
def pollFlush (inner : FileInner) : Poll (Except ErrorKind Unit) × FileInner :=
  match inner.writeErr with
  | some e => (.ready (.error e), inner)
  | none =>
    match inner.state with
    | .idle _ => (.ready (.ok ()), inner)
    | state =>
      match state.poll with
      | (.pending, _) => (.pending, inner)
      | (.panic, state') => (.panic, { inner with state := state' })
      | (.ready res, state') =>
        (.ready (if state.getOp = .writing then res.map fun _ => () else .ok ()),
          { inner with state := state' })

end FileInner

/-- One pass of a poll loop: round again from a new state, or return. -/
inductive Pass (σ α : Type)
  | next (s : σ)
  | done (r : Poll α) (s : σ)

/-- Runs a poll loop for at most `fuel` passes with no job finishing in between;
`none` while it is still looping. -/
def Pass.loop {σ α : Type} (body : σ → Pass σ α) : Nat → σ → Option (Poll α × σ)
  | 0, _ => none
  | fuel + 1, s =>
    match body s with
    | .next s' => Pass.loop body fuel s'
    | .done r s' => some (r, s')

/-- One pass of the loop of `poll_read` into a `ReadBuf` with `room` bytes free: the
bytes it appends. -/
def readPass (limit room : Nat) (inner : FileInner) :
    Pass FileInner (Except ErrorKind (List UInt8)) :=
  match inner.state with
  | .idle none => .done .panic inner
  | .idle (some rBuf) =>
    if rBuf.remaining ≠ 0 then
      .done (.ready (.ok (rBuf.appendTo room).1))
        { inner with state := .idle (some (rBuf.appendTo room).2) }
    else .next { inner with state := .reading (.running (.read (rBuf.reserve room limit))) }
  | .reading h =>
    match h.poll with
    | (.ready (.ok (fileBuf, res)), _) =>
      match res with
      | .ok _ =>
        .done (.ready (.ok (fileBuf.appendTo room).1))
          { inner with state := .idle (some (fileBuf.appendTo room).2) }
      | .error e => .done (.ready (.error e)) { inner with state := .idle (some fileBuf) }
    | (.ready (.error e), h) => .done (.ready (.error e)) { inner with state := .reading h }
    | (.pending, h) => .done .pending { inner with state := .reading h }
    | (.panic, h) => .done .panic { inner with state := .reading h }
  | .writing h =>
    match h.poll with
    | (.ready (.ok (fileBuf, res)), _) =>
      .next { inner.saveErr res with state := .idle (some fileBuf) }
    | (.ready (.error e), h) => .done (.ready (.error e)) { inner with state := .writing h }
    | (.pending, h) => .done .pending { inner with state := .writing h }
    | (.panic, h) => .done .panic { inner with state := .writing h }
  | .seeking h =>
    match h.poll with
    | (.ready (.ok (fileBuf, res)), _) =>
      .next { inner with state := .idle (some fileBuf),
                         idx := match res with | .ok i => i | .error _ => inner.idx }
    | (.ready (.error e), h) => .done (.ready (.error e)) { inner with state := .seeking h }
    | (.pending, h) => .done .pending { inner with state := .seeking h }
    | (.panic, h) => .done .panic { inner with state := .seeking h }

/-- One pass of the loop of `poll_write`; the `write_err` check before the loop is
`writeCheck`. -/
def writePass (limit : Nat) (bytes : List UInt8) (inner : FileInner) :
    Pass FileInner (Except ErrorKind Nat) :=
  match inner.state with
  | .idle none => .done .panic inner
  | .idle (some wBuf) =>
    let (unread, wBuf) := wBuf.dropUnread
    let (n, wBuf) := wBuf.append bytes limit
    .done (.ready (.ok n)) { inner with state := .writing (.running (.write unread wBuf)) }
  | state =>
    match state.poll with
    | (.ready (.error e), state') =>
      if state.getOp = .writing then .done (.ready (.error e)) { inner with state := state' }
      else .next { inner with state := state' }
    | (.panic, state') => .done .panic { inner with state := state' }
    | (_, state') => .next { inner with state := state' }

/-- The `write_err` check at the top of `poll_write`. -/
def writeCheck (inner : FileInner) : Option (Except ErrorKind Nat) :=
  inner.writeErr.map .error

/-- One pass of the loop of `poll_seek`, which also carries the `mut pos` it adjusts. Offsets
are unbounded here, so `*idx -= unread` does not overflow as the `i64` can. -/
def seekPass : SeekFrom × FileInner → Pass (SeekFrom × FileInner) (Except ErrorKind Nat)
  | (pos, inner) =>
    match inner.state with
    | .idle none => .done .panic (pos, inner)
    | .idle (some rBuf) =>
      let (unread, rBuf) := rBuf.dropUnread
      let pos := match pos with
        | .current d => if unread ≠ 0 then .current (d - unread) else .current d
        | pos => pos
      .next (pos, { inner with state := .seeking (.running (.seek pos rBuf)) })
    | state =>
      match state.poll with
      | (.pending, _) => .done .pending (pos, inner)
      | (.panic, state') => .done .panic (pos, { inner with state := state' })
      | (.ready res, state') =>
        match state.getOp with
        | .reading => .next (pos, { inner with state := state' })
        | .writing => .next (pos, { inner.saveErr res with state := state' })
        | .seeking =>
          .done (.ready res)
            (pos, { inner with state := state',
                               idx := match res with | .ok i => i | .error _ => inner.idx })

end YlongRuntime
