import PowerLawRocksdb.LazyQueue
import PowerLawRocksdb.Transitions
import PowerLawRocksdb.Numerals

/-!
# The writer queue of a database

Every call of `Write` puts a writer, which lives in the stack frame of the call, at
the end of a linked list. The list is extended without a lock, by a loop around a
compare-and-swap on `newest_writer_`, and its links point from newer to older
writers. The oldest writer is the leader. It fills in the links in the other
direction, takes the writers behind it into a group as far as they fit, writes the
log and the memtable for all of them, makes the first writer behind the group the
next leader, and completes the members of its group. In a parallel group every
member inserts its own batch, and the last one to finish acts for the leader. A
completed writer returns, and its frame is gone.

Each access to shared memory that another thread can get in between is a step of its
own. Loops over the links, which only the leader touches, are one step. A step is
undefined when it follows a null link, reaches into a frame that is gone or fails an
assertion. What a thread does to wait for its state to change is not modelled here.
Writes are not pipelined, and every insertion into the memtables succeeds: a member of
a parallel group whose insertion fails would also lock `StateMutex` of the leader, for
which the leader need not have made its mutex, and its status would fail what
`ExitAsBatchGroupFollower` asserts.
-/
namespace PowerLawRocksdb.WriteThread
open Numerals

/-- What a call asks for. A writer without a batch waits for a turn of its own. -/
structure Request where
  batch : Option Bytes
  sync : Bool
  noSlowdown : Bool
  disableWal : Bool
  /-- What `AllowWriteBatching` of the callback answers, if there is a callback. -/
  callback : Option Bool
deriving DecidableEq, Repr

inductive WriterState where
  | init
  | groupLeader
  | parallelMemtableWriter
  | completed
deriving DecidableEq, Repr

structure WriteGroup where
  leader : ℕ
  lastWriter : ℕ
  size : ℕ
  running : ℕ
deriving DecidableEq, Repr

/-- Where a thread is in `WriteImpl`, or between `EnterUnbatched` and `ExitUnbatched`,
with the local variables that are in use there. -/
inductive Pc where
  | start
  /-- At the head of the loop of `LinkOne`, with the writers that it has loaded. -/
  | linkOne (writers : Option ℕ)
  | awaitState
  | leader
  | writeStall
  | enterAsBatchGroupLeader (newestWriter : ℕ)
  | write
  /-- In the loop of `LaunchParallelMemTableWriters`. -/
  | launch (w : Option ℕ)
  | insertInto
  | awaitCompleted
  /-- The last member of a parallel group, before it exits for the leader. -/
  | lastWorker (leader : ℕ)
  | exitAsBatchGroupLeader (leader head : ℕ)
  /-- In the loop that completes the members of the group. -/
  | complete (leader lastWriter : ℕ)
  | unbatched
  | returned
deriving DecidableEq, Repr

/-- The stack frame of a call: its writer apart from the links, the group that it
leads, and where it is. The ticket is the number of writers that were linked before. -/
structure Frame where
  request : Request
  ticket : ℕ
  state : WriterState
  writeGroup : Option ℕ
  group : Option WriteGroup
  pc : Pc
deriving DecidableEq, Repr

abbrev Links := LazyQueue.Links ℕ

abbrev Memory (α : Type) := ℕ → Option α

/-- The last three fields are the history: the requests in the order in which their
writers were linked, the tickets of the groups in the order in which they had their
turn, and the tickets of the writers that a write stall made fail. -/
structure State where
  frames : Memory Frame
  links : Memory Links
  newestWriter : Option ℕ
  joined : List Request
  turns : List (List ℕ)
  failed : List ℕ

/-- The address of `write_stall_dummy_`, which is in no frame. -/
def dummy : ℕ := 0

def unbatchedRequest : Request := ⟨none, false, false, false, none⟩

def newFrame (request : Request) : Frame := ⟨request, 0, .init, none, none, .start⟩

def State.init : State where
  frames := fun _ => none
  links := Function.update (fun _ => none) dummy (some ⟨none, none⟩)
  newestWriter := none
  joined := []
  turns := []
  failed := []

def State.bound (s : State) : ℕ := s.joined.length

def State.setFrame (s : State) (a : ℕ) (f : Frame) : State :=
  { s with frames := Function.update s.frames a (some f) }

def State.setLinks (s : State) (a : ℕ) (l : Links) : State :=
  { s with links := Function.update s.links a (some l) }

def State.setState (s : State) (a : ℕ) (state : WriterState) : Option State :=
  (s.frames a).map fun f => s.setFrame a { f with state := state }

def State.call (s : State) (a : ℕ) (request : Request) : State :=
  (s.setFrame a (newFrame request)).setLinks a ⟨none, none⟩

def State.load (s : State) (a : ℕ) (f : Frame) : State :=
  s.setFrame a { f with pc := .linkOne s.newestWriter }

/-- The frame after the compare-and-swap of `LinkOne` has succeeded. A writer that finds
the list empty is a leader, and needs no other thread to tell it. -/
def Frame.linked (f : Frame) (ticket : ℕ) (writers : Option ℕ) : Frame :=
  match writers, f.request.batch with
  | none, some _ => { f with ticket := ticket, state := .groupLeader, pc := .leader }
  | none, none => { f with ticket := ticket, pc := .unbatched }
  | some _, _ => { f with ticket := ticket, pc := .awaitState }

def State.link (s : State) (a : ℕ) (f : Frame) (writers : Option ℕ) : State :=
  { s.setFrame a (f.linked s.joined.length writers) with
    newestWriter := some a
    joined := s.joined ++ [f.request] }

/-- One iteration of the loop of `LinkOne`. The weak compare-and-swap may fail although
the list has not changed. -/
def State.linkOne (s : State) (a : ℕ) (f : Frame) (writers : Option ℕ) (spurious : Bool) :
    Option State :=
  if f.state ≠ .init then none
  else if writers = some dummy then
    if f.request.noSlowdown then
      some (s.setFrame a { f with state := .completed, pc := .returned })
    else some (s.setFrame a { f with pc := .linkOne s.newestWriter })
  else
    (s.links a).map fun l =>
      let s := s.setLinks a { l with older := writers }
      if s.newestWriter = writers ∧ spurious = false then s.link a f writers
      else s.setFrame a { f with pc := .linkOne s.newestWriter }

def State.wake (s : State) (a : ℕ) (f : Frame) : State :=
  match f.state with
  | .init => s
  | .groupLeader =>
      s.setFrame a { f with pc := if f.request.batch.isSome then .leader else .unbatched }
  | .parallelMemtableWriter => s.setFrame a { f with pc := .insertInto }
  | .completed => s.setFrame a { f with pc := .returned }

/-- The end of the `AwaitState` in `CompleteParallelMemTableWriter`. -/
def State.wakeCompleted (s : State) (a : ℕ) (f : Frame) : State :=
  if f.state = .completed then s.setFrame a { f with pc := .returned } else s

def createMissingNewerLinks : ℕ → Memory Links → ℕ → Option (Memory Links)
  | 0, _, _ => none
  | fuel + 1, links, head => do
      match (← links head).older with
      | none => some links
      | some next =>
          let l ← links next
          match l.newer with
          | some newer => if newer = head then some links else none
          | none =>
              createMissingNewerLinks fuel
                (Function.update links next (some { l with newer := some head })) next

/-- The loop of `BeginWriteStall` over the writers that are in no group. -/
def failPending : ℕ → State → ℕ → Option ℕ → Option State
  | 0, _, _, _ => none
  | _ + 1, s, _, none => some s
  | fuel + 1, s, prev, some w => do
      let f ← s.frames w
      let l ← s.links w
      if f.writeGroup ≠ none then some s
      else if f.request.noSlowdown then
        let p ← s.links prev
        let s := s.setLinks prev { p with older := l.older }
        let s ← s.setState w .completed
        failPending fuel { s with failed := s.failed ++ [f.ticket] } prev l.older
      else failPending fuel s w l.older

def State.beginWriteStall (s : State) (a : ℕ) (f : Frame) : Option State := do
  let d ← s.links dummy
  let s := s.setFrame a { f with pc := .writeStall }
  let t := { s.setLinks dummy { d with older := s.newestWriter } with newestWriter := some dummy }
  failPending (s.bound + 1) t dummy s.newestWriter

def State.endWriteStall (s : State) (a : ℕ) (f : Frame) : Option State :=
  if s.newestWriter ≠ some dummy then none
  else (s.links dummy).map fun d =>
    { s.setFrame a { f with pc := .leader } with newestWriter := d.older }

/-- The load of `newest_writer_` in `EnterAsBatchGroupLeader`. -/
def State.enter (s : State) (a : ℕ) (f : Frame) : Option State :=
  s.newestWriter.map fun newest =>
    s.setFrame a { f with pc := .enterAsBatchGroupLeader newest }

def maxGroupSize (size : ℕ) : ℕ := if size ≤ 131072 then size + 131072 else 1048576

def mayFollow (leader w : Request) : Bool :=
  !(w.sync && !leader.sync) && w.noSlowdown == leader.noSlowdown &&
    !(!w.disableWal && leader.disableWal) && w.callback != some false

/-- The loop of `EnterAsBatchGroupLeader`. -/
def extendGroup (links : Memory Links) (request : Request) (newestWriter maxSize : ℕ) :
    ℕ → Memory Frame → WriteGroup → ℕ → Option (Memory Frame × WriteGroup)
  | 0, _, _, _ => none
  | fuel + 1, frames, group, size =>
      if group.lastWriter = newestWriter then some (frames, group)
      else do
        let w ← (← links group.lastWriter).newer
        let f ← frames w
        match f.request.batch with
        | none => some (frames, group)
        | some batch =>
            if mayFollow request f.request && decide (size + batch.length ≤ maxSize) then
              extendGroup links request newestWriter maxSize fuel
                (Function.update frames w (some { f with writeGroup := some group.leader }))
                { group with lastWriter := w, size := group.size + 1 } (size + batch.length)
            else some (frames, group)

def groupTickets (frames : Memory Frame) (links : Memory Links) (lastWriter : ℕ) :
    ℕ → ℕ → Option (List ℕ)
  | 0, _ => none
  | fuel + 1, w => do
      let f ← frames w
      if w = lastWriter then some [f.ticket]
      else
        let next ← (← links w).newer
        let tickets ← groupTickets frames links lastWriter fuel next
        some (f.ticket :: tickets)

def State.enterAsBatchGroupLeader (s : State) (a : ℕ) (f : Frame) (newestWriter : ℕ) :
    Option State := do
  let own ← s.links a
  let batch ← f.request.batch
  if own.older ≠ none then none
  let links ← createMissingNewerLinks (s.bound + 1) s.links newestWriter
  let frames := Function.update s.frames a (some { f with writeGroup := some a })
  let (frames, group) ← extendGroup links f.request newestWriter (maxGroupSize batch.length)
    (s.bound + 1) frames ⟨a, a, 1, 0⟩ batch.length
  let f ← frames a
  let tickets ← groupTickets frames links group.lastWriter (s.bound + 1) a
  some { s with
    frames := Function.update frames a (some { f with group := some group, pc := .write })
    links := links
    turns := s.turns ++ [tickets] }

def State.launch (s : State) (a : ℕ) (f : Frame) : Option State :=
  f.group.map fun group => s.setFrame a
    { f with group := some { group with running := group.size }, pc := .launch (some group.leader) }

/-- One iteration of the loop of `LaunchParallelMemTableWriters`, or its end. -/
def State.launchNext (s : State) (a : ℕ) (w : Option ℕ) : Option State :=
  match w with
  | none => (s.frames a).map fun f => s.setFrame a { f with pc := .insertInto }
  | some w => do
      let s ← s.setState w .parallelMemtableWriter
      let l ← s.links w
      let f ← s.frames a
      let group ← f.group
      let next := if w = group.lastWriter then none else l.newer
      some (s.setFrame a { f with pc := .launch next })

/-- `CompleteParallelMemTableWriter` of a member whose batch has been inserted. -/
def State.completeParallelMemTableWriter (s : State) (a : ℕ) (f : Frame) : Option State := do
  let leader ← f.writeGroup
  let l ← s.frames leader
  let group ← l.group
  if group.running = 0 then none
  let s := s.setFrame leader { l with group := some { group with running := group.running - 1 } }
  let f ← s.frames a
  some (s.setFrame a
    { f with pc := if group.running > 1 then .awaitCompleted else .lastWorker leader })

def State.exit (s : State) (a : ℕ) (f : Frame) (leader : ℕ) : Option State :=
  s.newestWriter.map fun head => s.setFrame a { f with pc := .exitAsBatchGroupLeader leader head }

def State.promote (s : State) (w : ℕ) : Option State := do
  let next ← (← s.links w).newer
  let l ← s.links next
  (s.setLinks next { l with older := none }).setState next .groupLeader

/-- `ExitAsBatchGroupLeader` up to the loop. If `head` was the last writer of the group
and another one has been linked since then, the compare-and-swap loads it. -/
def State.exitAsBatchGroupLeader (s : State) (a leader head : ℕ) : Option State := do
  let group ← (← s.frames leader).group
  if (← s.links leader).older ≠ none then none
  let s ←
    if head = group.lastWriter ∧ s.newestWriter = some head then
      some { s with newestWriter := none }
    else
      let head ← if head = group.lastWriter then s.newestWriter else some head
      if head = group.lastWriter then none
      let links ← createMissingNewerLinks (s.bound + 1) s.links head
      let next ← (← links group.lastWriter).newer
      if (← links next).older ≠ some group.lastWriter then none
      { s with links := links }.promote group.lastWriter
  let f ← s.frames a
  some (s.setFrame a { f with pc := .complete leader group.lastWriter })

/-- One iteration of the loop that completes the members of the group, or its end. There
a member that has acted for the leader completes the leader as well. -/
def State.complete (s : State) (a leader lastWriter : ℕ) : Option State := do
  if lastWriter = leader then
    let s ← if a = leader then some s else s.setState leader .completed
    let f ← s.frames a
    if a ≠ leader ∧ f.state ≠ .completed then none
    some (s.setFrame a { f with pc := .returned })
  else
    let next ← (← s.links lastWriter).older
    let s ← s.setState lastWriter .completed
    let f ← s.frames a
    some (s.setFrame a { f with pc := .complete leader next })

def State.exitUnbatched (s : State) (a : ℕ) (f : Frame) : Option State := do
  let s ←
    if s.newestWriter = some a then some { s with newestWriter := none }
    else
      let newest ← s.newestWriter
      let links ← createMissingNewerLinks (s.bound + 1) s.links newest
      { s with links := links }.promote a
  some { s.setFrame a { f with pc := .returned } with turns := s.turns ++ [[f.ticket]] }

def State.ret (s : State) (a : ℕ) : State :=
  { s with
    frames := Function.update s.frames a none
    links := Function.update s.links a none }

/-- The next step of the thread at `a`. The choice stands for what is not modelled: a
compare-and-swap that fails for no reason, a leader that has to wait until writes may go
on, and a group that is inserted in parallel. A thread whose state has not changed yet
goes on waiting. -/
def State.next (s : State) (a : ℕ) (f : Frame) (choice : Bool) : Option State :=
  match f.pc with
  | .start => some (s.load a f)
  | .linkOne writers => s.linkOne a f writers choice
  | .awaitState => some (s.wake a f)
  | .leader =>
      -- `DelayWrite` returns at once if the write must not be delayed
      if choice && !f.request.noSlowdown then s.beginWriteStall a f else s.enter a f
  | .writeStall => s.endWriteStall a f
  | .enterAsBatchGroupLeader newest => s.enterAsBatchGroupLeader a f newest
  | .write =>
      if choice && decide (1 < (f.group.map WriteGroup.size).getD 0) then s.launch a f
      else s.exit a f a
  | .launch w => s.launchNext a w
  | .insertInto => s.completeParallelMemTableWriter a f
  | .awaitCompleted => some (s.wakeCompleted a f)
  | .lastWorker leader => s.exit a f leader
  | .exitAsBatchGroupLeader leader head => s.exitAsBatchGroupLeader a leader head
  | .complete leader lastWriter => s.complete a leader lastWriter
  | .unbatched => s.exitUnbatched a f
  | .returned => some (s.ret a)

inductive Action where
  | call (a : ℕ) (request : Request)
  | step (a : ℕ) (choice : Bool)
deriving DecidableEq, Repr

def State.step (s : State) : Action → Option State
  | .call a request =>
      if a = dummy ∨ (s.frames a).isSome then none else some (s.call a request)
  | .step a choice => (s.frames a).bind fun f => s.next a f choice

end PowerLawRocksdb.WriteThread
