/-
The children of a process in nl-filesys.c: `mySpawnList`, the set `myFdSet` of their
sockets, and the primitives `spawn`, `sync` and `abort` that keep the two.  What the
system calls answer is a parameter of each function.
-/
import NewLispNeo.Cell
import Mathlib.Data.Finset.Image
import Mathlib.Data.List.Nodup

namespace NewLispNeo

namespace Spawn

/-- An entry of `SPAWN_LIST`.  The address of the shared page stands for the page. -/
structure SpawnEntry where
  result_addr : ℕ
  symbolPtr : Symbol
  pid : ℤ
  socket : ℕ
deriving DecidableEq

/-- How a child ended: by `exit`, or by a signal with a status. -/
inductive WaitStatus where
  | exited
  | signalled (result : ℤ)
deriving DecidableEq

/-- What happens on `SIGCHLD`. -/
inductive Disposition where
  | default
  | signal_handler
deriving DecidableEq

/-- A process: the globals of nl-filesys.c, the contents of symbols, and what the system
keeps of it, the open descriptors, the children that have not been waited for, how those
that have ended did so, and the values that `readWriteShared` reads from the pages. -/
structure Process where
  mySpawnList : List SpawnEntry
  myFdSet : Finset ℕ
  thisSocket : ℕ
  parentPid : ℤ
  sigchld : Disposition
  contents : Symbol → Cell
  descriptors : Finset ℕ
  children : Finset ℤ
  ended : ℤ → Option WaitStatus
  shared : ℕ → Cell

/-- The size of an `fd_set`. -/
def FD_SETSIZE : ℕ := 1024

/-- `addSpawnedChild`. -/
def addSpawnedChild (addr : ℕ) (sPtr : Symbol) (pid : ℤ) (socket : ℕ) (s : Process) :
    Process :=
  { s with mySpawnList := ⟨addr, sPtr, pid, socket⟩ :: s.mySpawnList }

/-- `getSpawnedChild`. -/
def getSpawnedChild (pid : ℤ) (s : Process) : Option SpawnEntry :=
  s.mySpawnList.find? (·.pid = pid)

/-- `close`. -/
def close (fd : ℕ) (s : Process) : Process :=
  { s with descriptors := s.descriptors.erase fd }

/-- `if(fd) close(fd)`. -/
def closeSocket (fd : ℕ) (s : Process) : Process := if fd = 0 then s else close fd s

/-- A child that `waitpid` has given up is no child any more. -/
def reap (pid : ℤ) (s : Process) : Process :=
  { s with
    children := s.children.erase pid
    ended := Function.update s.ended pid none }

/-- `purgeSpawnList`. -/
def purgeSpawnList (sockFlag : Bool) (s : Process) : Process :=
  { s with
    descriptors :=
      if sockFlag then s.descriptors \ (s.mySpawnList.map SpawnEntry.socket).toFinset
      else s.descriptors
    mySpawnList := [] }

/-- The modes of `processSpawnList`, with the status of an abnormal end. -/
inductive SpawnMode where
  | result
  | abort
  | abnormalEnd (result : ℤ)
deriving DecidableEq

/-- The text of `ABEND` with a status. -/
def abendText (result : ℤ) : List UInt8 :=
  (s!"ERR: abnormal process end {result}").toUTF8.toList

/-- `processSpawnList`. -/
def processSpawnList (pid : ℤ) (mode : SpawnMode) (s : Process) : Process :=
  match getSpawnedChild pid s with
  | none => s
  | some child =>
      let s := { s with mySpawnList := s.mySpawnList.eraseP (·.pid = pid) }
      closeSocket child.socket <|
        match mode with
        | .result =>
            { s with
              contents := Function.update s.contents child.symbolPtr
                (s.shared child.result_addr) }
        -- `FD_CLR`, `kill` and `waitpid`
        | .abort => reap pid { s with myFdSet := s.myFdSet.erase child.socket }
        | .abnormalEnd result =>
            { s with
              contents := Function.update s.contents child.symbolPtr
                (.string (abendText result)) }

/-- What `fork` answers: nothing, the pid of the child to the parent, or that this is
the child. -/
inductive ForkAnswer where
  | failed
  | parent (pid : ℤ)
  | child
deriving DecidableEq

/-- What the system calls of `p_spawn` answer. -/
structure SpawnAnswers where
  mmap : Option ℕ
  socketpair : Option (ℕ × ℕ)
  fork : ForkAnswer
  getpid : ℤ

inductive SpawnError where
  | symbolProtected
  | cannotOpenSocketpair
deriving DecidableEq

/-- What a call returns, or the error it raises. -/
abbrev Reply := Except SpawnError Cell

/-- `fork` and what `p_spawn` does behind it, with the descriptors in `sockets`. -/
def forkChild (address : ℕ) (symPtr : Symbol) (sockets : ℕ × ℕ) (sys : SpawnAnswers)
    (s : Process) : Process × Reply :=
  let s := { s with sigchld := .default }
  match sys.fork with
  | .failed => (closeSocket sockets.2 (closeSocket sockets.1 s), .ok .nil)
  | .child =>
      let s := closeSocket sockets.1
        { s with parentPid := sys.getpid, children := ∅, ended := fun _ => none }
      (purgeSpawnList false { s with thisSocket := sockets.2 }, .ok .nil)
  | .parent pid =>
      let s :=
        { s with
          children := insert pid s.children
          ended := Function.update s.ended pid none }
      (addSpawnedChild address symPtr pid sockets.1 (closeSocket sockets.2 s),
        .ok (.long (.ofInt 64 pid)))

/-- `p_spawn` for a symbol and the value of its third parameter.  There is no result
where `FD_SET` writes behind the set.  A child goes on with the expression. -/
def p_spawn (isProtected : Symbol → Bool) (symPtr : Symbol) (flag : Bool)
    (sys : SpawnAnswers) (s : Process) : Option (Process × Reply) :=
  match sys.mmap with
  | none => some (s, .ok .nil)
  | some address =>
      if isProtected symPtr then some (s, .error .symbolProtected)
      else
        let s := { s with contents := Function.update s.contents symPtr .nil }
        if flag then
          match sys.socketpair with
          | none => some (s, .error .cannotOpenSocketpair)
          | some sockets =>
              let s := { s with descriptors := insert sockets.1 (insert sockets.2 s.descriptors) }
              let s := if s.mySpawnList = [] then { s with myFdSet := ∅ } else s
              if sockets.1 < FD_SETSIZE then
                some (forkChild address symPtr sockets sys
                  { s with myFdSet := insert sockets.1 s.myFdSet })
              else none
        else some (forkChild address symPtr (0, 0) sys s)

/-- What `waitpid(-1, &result, WNOHANG)` answers: an error when there is no child, no
child that has ended, or one that has. -/
inductive WaitAnswer where
  | noChild
  | noneEnded
  | collected (pid : ℤ) (status : WaitStatus)
deriving DecidableEq

/-- One pass of the loop of `p_sync` up to the inlet. -/
def syncPass (answer : WaitAnswer) (s : Process) : Process :=
  match answer with
  | .noneEnded => s
  | .noChild => processSpawnList (-1) .result s
  | .collected pid .exited => processSpawnList pid .result (reap pid s)
  | .collected pid (.signalled result) =>
      processSpawnList pid (.abnormalEnd result) (reap pid s)

/-- `p_sync` with a timeout before its loop, with an inlet function or without. -/
def syncBegin (inlet : Bool) (s : Process) : Process :=
  if s.mySpawnList = [] ∨ inlet then s else { s with sigchld := .default }

/-- The end of `p_sync` and of `p_abort`: `put initial behaviour back`. -/
def restoreHandler (s : Process) : Process := { s with sigchld := .signal_handler }

/-- The loop of `p_abort`, with a bound on its passes. -/
def abortAll : ℕ → Process → Process
  | 0, s => s
  | passes + 1, s =>
      match s.mySpawnList with
      | [] => s
      | child :: _ => abortAll passes (processSpawnList child.pid .abort s)

/-- `p_abort` with a pid and without. -/
def p_abort (pid : Option ℤ) (s : Process) : Process :=
  match pid with
  | some pid => processSpawnList pid .abort s
  | none => restoreHandler (abortAll s.mySpawnList.length s)

/-- `select` on the set of descriptors: an error for one that is not open, or when a
signal comes. -/
def select (descriptors : Finset ℕ) (ready : ℕ → Bool) (interrupted : Bool)
    (fdset : Finset ℕ) : Option (Finset ℕ) :=
  if interrupted ∨ ¬ fdset ⊆ descriptors then none else some (fdset.filter (ready ·))

/-- `getSelectReadyList`, the value of `(receive)` and `(send)`. -/
def getSelectReadyList (ready : ℕ → Bool) (interrupted : Bool) (s : Process) : List ℤ :=
  match select s.descriptors ready interrupted s.myFdSet with
  | none => []
  | some thisFdSet =>
      (s.mySpawnList.filter (·.socket ∈ thisFdSet)).map SpawnEntry.pid

/-- What happens to a process: a child ends and leaves its result, the signal handler
waits for a child, and the steps of the primitives, in any order. -/
inductive Event where
  | exits (pid : ℤ) (status : WaitStatus) (result : Cell)
  | handled (pid : ℤ)
  | spawn (symPtr : Symbol) (flag : Bool) (sys : SpawnAnswers)
  | syncBegin (inlet : Bool)
  | syncPass (answer : WaitAnswer)
  | syncEnd
  | abort (pid : Option ℤ)

/-- What the system may answer: the descriptors of a socket pair are free, a new child has
the pid of no other, and `waitpid` finds a child that has ended. -/
def Event.Possible (s : Process) : Event → Prop
  | .exits pid _ _ => pid ∈ s.children ∧ s.ended pid = none
  | .handled pid => s.sigchld = .signal_handler ∧ pid ∈ s.children ∧ s.ended pid ≠ none
  | .spawn _ _ sys =>
      (∀ sockets, sys.socketpair = some sockets →
        sockets.1 ∉ s.descriptors ∧ sockets.2 ∉ s.descriptors ∧ sockets.1 ≠ sockets.2) ∧
      ∀ pid, sys.fork = .parent pid → 0 < pid ∧ pid ∉ s.children
  | .syncPass answer => s.mySpawnList ≠ [] ∧
      match answer with
      | .noChild => s.children = ∅
      | .noneEnded => ∀ pid ∈ s.children, s.ended pid = none
      | .collected pid status => pid ∈ s.children ∧ s.ended pid = some status
  | .syncEnd => s.mySpawnList = []
  | .syncBegin _ | .abort _ => True

/-- A child writes its result to the page of its entry and ends. -/
def exits (pid : ℤ) (status : WaitStatus) (result : Cell) (s : Process) : Process :=
  { s with
    ended := Function.update s.ended pid (some status)
    shared :=
      match getSpawnedChild pid s with
      | none => s.shared
      | some child => Function.update s.shared child.result_addr result }

/-- One step.  A write behind an `fd_set` may lead anywhere. -/
inductive Step (isProtected : Symbol → Bool) (s : Process) : Event → Process → Prop
  | exits {pid : ℤ} {status : WaitStatus} {result : Cell} :
      (Event.exits pid status result).Possible s →
      Step isProtected s (.exits pid status result) (exits pid status result s)
  | handled {pid : ℤ} : (Event.handled pid).Possible s →
      Step isProtected s (.handled pid) (reap pid s)
  | spawn {symPtr : Symbol} {flag : Bool} {sys : SpawnAnswers} {s' : Process} {reply : Reply} :
      (Event.spawn symPtr flag sys).Possible s →
      p_spawn isProtected symPtr flag sys s = some (s', reply) →
      Step isProtected s (.spawn symPtr flag sys) s'
  | overrun {symPtr : Symbol} {flag : Bool} {sys : SpawnAnswers} {s' : Process} :
      (Event.spawn symPtr flag sys).Possible s →
      p_spawn isProtected symPtr flag sys s = none →
      Step isProtected s (.spawn symPtr flag sys) s'
  | syncBegin {inlet : Bool} : Step isProtected s (.syncBegin inlet) (syncBegin inlet s)
  | syncPass {answer : WaitAnswer} : (Event.syncPass answer).Possible s →
      Step isProtected s (.syncPass answer) (syncPass answer s)
  | syncEnd : Event.syncEnd.Possible s → Step isProtected s .syncEnd (restoreHandler s)
  | abort {pid : Option ℤ} : Step isProtected s (.abort pid) (p_abort pid s)

/-- A process at its start: no children, and no descriptors of any. -/
def Process.Fresh (s : Process) : Prop := s.mySpawnList = [] ∧ s.myFdSet = ∅

/-- A run, with the process, the event and the process behind each step. -/
inductive Run (isProtected : Symbol → Bool) (s : Process) :
    List (Process × Event × Process) → Process → Prop
  | start : Run isProtected s [] s
  | step {steps : List (Process × Event × Process)} {s₁ s₂ : Process} {e : Event} :
      Run isProtected s steps s₁ → Step isProtected s₁ e s₂ →
      Run isProtected s (steps ++ [(s₁, e, s₂)]) s₂

end Spawn

end NewLispNeo
