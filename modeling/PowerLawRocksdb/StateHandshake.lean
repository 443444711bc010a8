import PowerLawRocksdb.Transitions
import Mathlib.Data.Nat.Bitwise

/-!
# Waiting for the state of a writer

A thread waits until another one has set the state of its writer. It looks at the
state for a while, and then blocks: it makes a mutex and a condition variable, replaces
the state by a mark, and sleeps until the mark is gone. The thread that sets the state
uses the mutex only if it finds the mark, and it must not touch the writer any more
once the waiting thread can have seen the new state, because then the writer is gone.

A step is one access to the state or to the mutex. It is undefined when it fails an
assertion, uses a mutex that has not been made, or reaches into a writer that is gone.
-/
namespace PowerLawRocksdb.StateHandshake
open Transitions

def lockedWaiting : ℕ := 32

inductive Party where
  | waiter
  | waker
deriving DecidableEq, Repr

/-- Where the thread is in `AwaitState`, with the state that it has loaded. -/
inductive WaiterPc where
  | spin
  | createMutex
  | load
  | compareExchange (state : ℕ)
  | lock
  | check
  | asleep
  | read
  | unlock (state : ℕ)
  | returned (state : ℕ)
deriving DecidableEq, Repr

inductive WakerPc where
  | load
  | compareExchange (state : ℕ)
  | lock
  | store
  | notify
  | unlock
  | returned
deriving DecidableEq, Repr

structure State where
  state : ℕ
  madeWaitable : Bool
  mutex : Option Party
  /-- The sleeping thread has been notified. -/
  notified : Bool
  waiter : WaiterPc
  waker : WakerPc
deriving DecidableEq, Repr

def State.init (state : ℕ) (madeWaitable : Bool) : State :=
  ⟨state, madeWaitable, none, false, .spin, .load⟩

def met (goalMask state : ℕ) : Bool := decide (state &&& goalMask ≠ 0)

/-- A step of `AwaitState` and `BlockingAwaitState`. The choice is whether the thread gives
up looking at the state, and whether it wakes up for no reason. -/
def State.await (s : State) (goalMask : ℕ) (choice : Bool) : Option State :=
  match s.waiter with
  | .spin =>
      if met goalMask s.state then some { s with waiter := .returned s.state }
      else some { s with waiter := if choice then .createMutex else .spin }
  | .createMutex => some { s with madeWaitable := true, waiter := .load }
  | .load =>
      if s.state = lockedWaiting then none
      else if met goalMask s.state then some { s with waiter := .returned s.state }
      else some { s with waiter := .compareExchange s.state }
  | .compareExchange state =>
      if s.state = state then some { s with state := lockedWaiting, waiter := .lock }
      else if met goalMask s.state then some { s with waiter := .returned s.state }
      else none
  | .lock =>
      if s.madeWaitable = false then none
      else if s.mutex = none then some { s with mutex := some .waiter, waiter := .check }
      else some s
  | .check =>
      if s.state = lockedWaiting then
        -- the mutex is released while the thread sleeps
        some { s with mutex := none, notified := false, waiter := .asleep }
      else some { s with waiter := .read }
  | .asleep => if s.notified || choice then some { s with waiter := .lock } else some s
  | .read => some { s with waiter := .unlock s.state }
  | .unlock state =>
      if met goalMask state then some { s with mutex := none, waiter := .returned state } else none
  | .returned _ => some s

/-- The call of the waiting thread has returned, and with it the writer. -/
def WaiterPc.gone : WaiterPc → Bool
  | .returned _ => true
  | _ => false

def State.set (s : State) (newState : ℕ) : Option State :=
  if s.waker = .returned then some s
  else if s.waiter.gone then none
  else
    match s.waker with
    | .load =>
        if s.state = lockedWaiting then some { s with waker := .lock }
        else some { s with waker := .compareExchange s.state }
    | .compareExchange state =>
        if s.state = state then some { s with state := newState, waker := .returned }
        else if s.state = lockedWaiting then some { s with waker := .lock }
        else none
    | .lock =>
        if s.madeWaitable = false then none
        else if s.mutex = none then some { s with mutex := some .waker, waker := .store }
        else some s
    | .store =>
        if s.state = newState then none
        else some { s with state := newState, waker := .notify }
    | .notify => some { s with notified := decide (s.waiter = .asleep), waker := .unlock }
    | .unlock => some { s with mutex := none, waker := .returned }
    | .returned => some s

inductive Action where
  | await (choice : Bool)
  | set
deriving DecidableEq, Repr

def State.step (goalMask newState : ℕ) (s : State) : Action → Option State
  | .await choice => s.await goalMask choice
  | .set => s.set newState

/-- The waiting thread has not put the mark in place of the state. -/
def Early (old : ℕ) (madeWaitable : Bool) (waiter : WaiterPc) : Prop :=
  waiter = .spin ∨ waiter = .createMutex ∨
    madeWaitable = true ∧ (waiter = .load ∨ waiter = .compareExchange old)

/-- The phases of a wait for a change from `old` to `new`. -/
inductive Phase (old new : ℕ) : State → Prop where
  | before {made notified : Bool} {waiter : WaiterPc} {waker : WakerPc}
      (hwaiter : Early old made waiter) (hwaker : waker = .load ∨ waker = .compareExchange old) :
      Phase old new ⟨old, made, none, notified, waiter, waker⟩
  /-- The state has been exchanged without the mutex. -/
  | exchanged {made notified : Bool} {waiter : WaiterPc} (hwaiter : Early old made waiter) :
      Phase old new ⟨new, made, none, notified, waiter, .returned⟩
  | marked {mutex : Option Party} {notified : Bool} {waiter : WaiterPc} {waker : WakerPc}
      (hwaiter : (waiter = .lock ∨ waiter = .asleep) ∧ mutex = none ∨
        waiter = .check ∧ mutex = some .waiter)
      (hwaker : waker = .load ∨ waker = .compareExchange old ∨ waker = .lock) :
      Phase old new ⟨lockedWaiting, true, mutex, notified, waiter, waker⟩
  | storing {notified : Bool} {waiter : WaiterPc} (hwaiter : waiter = .lock ∨ waiter = .asleep) :
      Phase old new ⟨lockedWaiting, true, some .waker, notified, waiter, .store⟩
  | notifying {notified : Bool} {waiter : WaiterPc} (hwaiter : waiter = .lock ∨ waiter = .asleep) :
      Phase old new ⟨new, true, some .waker, notified, waiter, .notify⟩
  | unlocking {notified : Bool} {waiter : WaiterPc}
      (hwaiter : waiter = .lock ∨ waiter = .asleep ∧ notified = true) :
      Phase old new ⟨new, true, some .waker, notified, waiter, .unlock⟩
  | woken {mutex : Option Party} {notified : Bool} {waiter : WaiterPc}
      (hwaiter : (waiter = .lock ∨ waiter = .asleep ∧ notified = true) ∧ mutex = none ∨
        (waiter = .check ∨ waiter = .read ∨ waiter = .unlock new) ∧ mutex = some .waiter) :
      Phase old new ⟨new, true, mutex, notified, waiter, .returned⟩
  | finished {made notified : Bool} :
      Phase old new ⟨new, made, none, notified, .returned new, .returned⟩

/-- A wait whose goal is not met by the old state, and a change that meets it. -/
structure Awaits (goalMask old new : ℕ) : Prop where
  old_not_met : met goalMask old = false
  new_met : met goalMask new = true
  old_ne : old ≠ lockedWaiting
  new_ne : new ≠ lockedWaiting

variable {goalMask old new : ℕ} {s : State}

theorem Awaits.ne (h : Awaits goalMask old new) : new ≠ old := by
  rintro rfl
  have hmet := h.new_met
  rw [h.old_not_met] at hmet
  cases hmet

def WakerPc.left : WakerPc → ℕ
  | .load => 6
  | .compareExchange _ => 5
  | .lock => 4
  | .store => 3
  | .notify => 2
  | .unlock => 1
  | .returned => 0

def WaiterPc.left : WaiterPc → ℕ
  | .asleep => 5
  | .lock => 4
  | .check => 3
  | .createMutex | .read => 2
  | .spin | .load | .compareExchange _ | .unlock _ => 1
  | .returned _ => 0

/-- `SetState` does not have to wait for the mutex. -/
def State.Free (s : State) : Prop := s.mutex ≠ some .waiter ∨ s.waker = .returned

theorem Phase.await_before {made notified : Bool} {waiter : WaiterPc} {waker : WakerPc}
    (h : Awaits goalMask old new) (hwaiter : Early old made waiter)
    (hwaker : waker = .load ∨ waker = .compareExchange old) (choice : Bool) :
    ∃ t, State.await ⟨old, made, none, notified, waiter, waker⟩ goalMask choice = some t ∧
      Phase old new t := by
  have hold := h.old_not_met
  rcases hwaiter with rfl | rfl | ⟨rfl, rfl | rfl⟩
  · refine ⟨⟨old, made, none, notified, if choice then .createMutex else .spin, waker⟩,
      by simp [State.await, hold], .before ?_ hwaker⟩
    cases choice
    · exact Or.inl rfl
    · exact Or.inr (Or.inl rfl)
  · exact ⟨_, rfl, .before (Or.inr (Or.inr ⟨rfl, Or.inl rfl⟩)) hwaker⟩
  · exact ⟨⟨old, true, none, notified, .compareExchange old, waker⟩,
      by simp [State.await, hold, h.old_ne], .before (Or.inr (Or.inr ⟨rfl, Or.inr rfl⟩)) hwaker⟩
  · exact ⟨⟨lockedWaiting, true, none, notified, .lock, waker⟩, by simp [State.await],
      .marked (Or.inl ⟨Or.inl rfl, rfl⟩) (hwaker.imp id Or.inl)⟩

theorem Phase.await_exchanged {made notified : Bool} {waiter : WaiterPc}
    (h : Awaits goalMask old new) (hwaiter : Early old made waiter) (choice : Bool) :
    ∃ t, State.await ⟨new, made, none, notified, waiter, .returned⟩ goalMask choice = some t ∧
      Phase old new t ∧ t.waker = .returned ∧ t.waiter.left ≤ waiter.left - 1 := by
  have hnew := h.new_met
  rcases hwaiter with rfl | rfl | ⟨rfl, rfl | rfl⟩
  · exact ⟨⟨new, made, none, notified, .returned new, .returned⟩, by simp [State.await, hnew],
      .finished, rfl, Nat.le_refl 0⟩
  · exact ⟨_, rfl, .exchanged (Or.inr (Or.inr ⟨rfl, Or.inl rfl⟩)), rfl, Nat.le_refl 1⟩
  · exact ⟨⟨new, true, none, notified, .returned new, .returned⟩,
      by simp [State.await, hnew, h.new_ne], .finished, rfl, Nat.le_refl 0⟩
  · exact ⟨⟨new, true, none, notified, .returned new, .returned⟩,
      by simp [State.await, hnew, h.ne], .finished, rfl, Nat.le_refl 0⟩

theorem await_locked {state : ℕ} {notified choice : Bool} {waiter : WaiterPc} {waker : WakerPc}
    (hwaiter : waiter = .lock ∨ waiter = .asleep) :
    ∃ waiter', (waiter' = .lock ∨ waiter' = .asleep) ∧
      State.await ⟨state, true, some .waker, notified, waiter, waker⟩ goalMask choice =
        some ⟨state, true, some .waker, notified, waiter', waker⟩ := by
  rcases hwaiter with rfl | rfl
  · exact ⟨.lock, Or.inl rfl, by simp [State.await]⟩
  · cases hwake : notified || choice with
    | true => exact ⟨.lock, Or.inl rfl, by simp [State.await, hwake]⟩
    | false => exact ⟨.asleep, Or.inr rfl, by simp [State.await, hwake]⟩

theorem Phase.await_marked {mutex : Option Party} {notified : Bool} {waiter : WaiterPc}
    {waker : WakerPc} (hwaiter : (waiter = .lock ∨ waiter = .asleep) ∧ mutex = none ∨
      waiter = .check ∧ mutex = some .waiter)
    (hwaker : waker = .load ∨ waker = .compareExchange old ∨ waker = .lock) (choice : Bool) :
    ∃ t, State.await ⟨lockedWaiting, true, mutex, notified, waiter, waker⟩ goalMask choice =
      some t ∧ Phase old new t := by
  rcases hwaiter with ⟨rfl | rfl, rfl⟩ | ⟨rfl, rfl⟩
  · exact ⟨_, rfl, .marked (Or.inr ⟨rfl, rfl⟩) hwaker⟩
  · cases hwake : notified || choice with
    | true =>
        exact ⟨⟨lockedWaiting, true, none, notified, .lock, waker⟩, by simp [State.await, hwake],
          .marked (Or.inl ⟨Or.inl rfl, rfl⟩) hwaker⟩
    | false =>
        exact ⟨⟨lockedWaiting, true, none, notified, .asleep, waker⟩, by simp [State.await, hwake],
          .marked (Or.inl ⟨Or.inr rfl, rfl⟩) hwaker⟩
  · exact ⟨_, rfl, .marked (Or.inl ⟨Or.inr rfl, rfl⟩) hwaker⟩

theorem Phase.await_woken {mutex : Option Party} {notified : Bool} {waiter : WaiterPc}
    (h : Awaits goalMask old new)
    (hwaiter : (waiter = .lock ∨ waiter = .asleep ∧ notified = true) ∧ mutex = none ∨
      (waiter = .check ∨ waiter = .read ∨ waiter = .unlock new) ∧ mutex = some .waiter)
    (choice : Bool) :
    ∃ t, State.await ⟨new, true, mutex, notified, waiter, .returned⟩ goalMask choice = some t ∧
      Phase old new t ∧ t.waker = .returned ∧ t.waiter.left ≤ waiter.left - 1 := by
  rcases hwaiter with ⟨rfl | ⟨rfl, rfl⟩, rfl⟩ | ⟨rfl | rfl | rfl, rfl⟩
  · exact ⟨_, rfl, .woken (Or.inr ⟨Or.inl rfl, rfl⟩), rfl, Nat.le_refl 3⟩
  · exact ⟨_, rfl, .woken (Or.inl ⟨Or.inl rfl, rfl⟩), rfl, Nat.le_refl 4⟩
  · exact ⟨⟨new, true, some .waiter, notified, .read, .returned⟩, by simp [State.await, h.new_ne],
      .woken (Or.inr ⟨Or.inr (Or.inl rfl), rfl⟩), rfl, Nat.le_refl 2⟩
  · exact ⟨_, rfl, .woken (Or.inr ⟨Or.inr (Or.inr rfl), rfl⟩), rfl, Nat.le_refl 1⟩
  · exact ⟨⟨new, true, none, notified, .returned new, .returned⟩,
      by simp [State.await, h.new_met], .finished, rfl, Nat.le_refl 0⟩

theorem Phase.await (hs : Phase old new s) (h : Awaits goalMask old new) (choice : Bool) :
    ∃ t, s.await goalMask choice = some t ∧ Phase old new t := by
  cases hs with
  | before hwaiter hwaker => exact Phase.await_before h hwaiter hwaker choice
  | exchanged hwaiter =>
      obtain ⟨t, ht, hphase, -⟩ := Phase.await_exchanged h hwaiter choice
      exact ⟨t, ht, hphase⟩
  | marked hwaiter hwaker => exact Phase.await_marked hwaiter hwaker choice
  | storing hwaiter =>
      obtain ⟨waiter, hwaiter, heq⟩ := await_locked hwaiter
      exact ⟨_, heq, .storing hwaiter⟩
  | notifying hwaiter =>
      obtain ⟨waiter, hwaiter, heq⟩ := await_locked hwaiter
      exact ⟨_, heq, .notifying hwaiter⟩
  | unlocking hwaiter =>
      rcases hwaiter with rfl | ⟨rfl, rfl⟩
      · exact ⟨_, rfl, .unlocking (Or.inl rfl)⟩
      · exact ⟨_, rfl, .unlocking (Or.inl rfl)⟩
  | woken hwaiter =>
      obtain ⟨t, ht, hphase, -⟩ := Phase.await_woken h hwaiter choice
      exact ⟨t, ht, hphase⟩
  | finished => exact ⟨_, rfl, .finished⟩

theorem Phase.await_left (hs : Phase old new s) (h : Awaits goalMask old new)
    (hwaker : s.waker = .returned) (choice : Bool) :
    ∃ t, s.await goalMask choice = some t ∧ Phase old new t ∧ t.waker = .returned ∧
      t.waiter.left ≤ s.waiter.left - 1 := by
  cases hs with
  | before _ hwaker' => rcases hwaker' with rfl | rfl <;> cases hwaker
  | exchanged hwaiter => exact Phase.await_exchanged h hwaiter choice
  | marked _ hwaker' => rcases hwaker' with rfl | rfl | rfl <;> cases hwaker
  | storing => cases hwaker
  | notifying => cases hwaker
  | unlocking => cases hwaker
  | woken hwaiter => exact Phase.await_woken h hwaiter choice
  | finished => exact ⟨_, rfl, .finished, rfl, Nat.le_refl 0⟩

theorem Early.not_gone {made : Bool} {waiter : WaiterPc} (h : Early old made waiter) :
    waiter.gone = false := by
  rcases h with rfl | rfl | ⟨-, rfl | rfl⟩ <;> rfl

theorem Phase.set_marked {mutex : Option Party} {notified : Bool} {waiter : WaiterPc}
    {waker : WakerPc} (h : Awaits goalMask old new)
    (hwaiter : (waiter = .lock ∨ waiter = .asleep) ∧ mutex = none ∨
      waiter = .check ∧ mutex = some .waiter)
    (hwaker : waker = .load ∨ waker = .compareExchange old ∨ waker = .lock) :
    ∃ t, State.set ⟨lockedWaiting, true, mutex, notified, waiter, waker⟩ new = some t ∧
      Phase old new t ∧ (mutex ≠ some .waiter → t.Free ∧ t.waker.left ≤ waker.left - 1) := by
  have hgone : waiter.gone = false := by
    rcases hwaiter with ⟨rfl | rfl, -⟩ | ⟨rfl, -⟩ <;> rfl
  rcases hwaker with rfl | rfl | rfl
  · exact ⟨⟨lockedWaiting, true, mutex, notified, waiter, .lock⟩, by simp [State.set, hgone],
      .marked hwaiter (Or.inr (Or.inr rfl)), fun hmutex => ⟨Or.inl hmutex, Nat.le_succ 4⟩⟩
  · exact ⟨⟨lockedWaiting, true, mutex, notified, waiter, .lock⟩,
      by simp [State.set, hgone, h.old_ne.symm], .marked hwaiter (Or.inr (Or.inr rfl)),
      fun hmutex => ⟨Or.inl hmutex, Nat.le_refl 4⟩⟩
  · rcases hwaiter with ⟨hwaiter, rfl⟩ | ⟨rfl, rfl⟩
    · exact ⟨⟨lockedWaiting, true, some .waker, notified, waiter, .store⟩,
        by simp [State.set, hgone], .storing hwaiter,
        fun _ => ⟨Or.inl (by simp), Nat.le_refl 3⟩⟩
    · exact ⟨_, rfl, .marked (Or.inr ⟨rfl, rfl⟩) (Or.inr (Or.inr rfl)),
        fun hmutex => absurd rfl hmutex⟩

theorem Phase.set (hs : Phase old new s) (h : Awaits goalMask old new) :
    ∃ t, s.set new = some t ∧ Phase old new t ∧
      (s.Free → t.Free ∧ t.waker.left ≤ s.waker.left - 1) := by
  cases hs with
  | @before made notified waiter _ hwaiter hwaker =>
      have hgone := hwaiter.not_gone
      rcases hwaker with rfl | rfl
      · exact ⟨⟨old, made, none, notified, waiter, .compareExchange old⟩,
          by simp [State.set, hgone, h.old_ne], .before hwaiter (Or.inr rfl),
          fun _ => ⟨Or.inl (by simp), Nat.le_refl 5⟩⟩
      · exact ⟨⟨new, made, none, notified, waiter, .returned⟩, by simp [State.set, hgone],
          .exchanged hwaiter, fun _ => ⟨Or.inr rfl, Nat.zero_le _⟩⟩
  | exchanged hwaiter => exact ⟨_, rfl, .exchanged hwaiter, fun _ => ⟨Or.inr rfl, Nat.le_refl 0⟩⟩
  | marked hwaiter hwaker =>
      obtain ⟨t, ht, hphase, hleft⟩ := Phase.set_marked h hwaiter hwaker
      refine ⟨t, ht, hphase, fun hfree => hleft (hfree.resolve_right ?_)⟩
      rcases hwaker with rfl | rfl | rfl <;> simp
  | @storing notified waiter hwaiter =>
      refine ⟨⟨new, true, some .waker, notified, waiter, .notify⟩, ?_, .notifying hwaiter,
        fun _ => ⟨Or.inl (by simp), Nat.le_refl 2⟩⟩
      rcases hwaiter with rfl | rfl <;> simp [State.set, WaiterPc.gone, h.new_ne.symm]
  | notifying hwaiter =>
      rcases hwaiter with rfl | rfl
      · exact ⟨_, rfl, .unlocking (Or.inl rfl), fun _ => ⟨Or.inl (by simp), Nat.le_refl 1⟩⟩
      · exact ⟨_, rfl, .unlocking (Or.inr ⟨rfl, rfl⟩), fun _ => ⟨Or.inl (by simp), Nat.le_refl 1⟩⟩
  | unlocking hwaiter =>
      rcases hwaiter with rfl | ⟨rfl, rfl⟩
      · exact ⟨_, rfl, .woken (Or.inl ⟨Or.inl rfl, rfl⟩), fun _ => ⟨Or.inr rfl, Nat.le_refl 0⟩⟩
      · exact ⟨_, rfl, .woken (Or.inl ⟨Or.inr ⟨rfl, rfl⟩, rfl⟩),
          fun _ => ⟨Or.inr rfl, Nat.le_refl 0⟩⟩
  | woken hwaiter => exact ⟨_, rfl, .woken hwaiter, fun _ => ⟨Or.inr rfl, Nat.le_refl 0⟩⟩
  | finished => exact ⟨_, rfl, .finished, fun _ => ⟨Or.inr rfl, Nat.le_refl 0⟩⟩

theorem Phase.run (hs : Phase old new s) (h : Awaits goalMask old new) (actions : List Action) :
    ∃ t, run (State.step goalMask new) s actions = some t ∧ Phase old new t := by
  have hstep : ∀ s action, Phase old new s → True →
      ∃ t, State.step goalMask new s action = some t ∧ Phase old new t := by
    intro s action hs _
    cases action with
    | await choice => exact hs.await h choice
    | set =>
        obtain ⟨t, ht, hphase, -⟩ := hs.set h
        exact ⟨t, ht, hphase⟩
  obtain ⟨⟨t, ht⟩, hthroughout⟩ := run_defined hstep (fun _ hi => hi) hs (along_trivial s actions)
  exact ⟨t, ht, hthroughout.last ht⟩

theorem phase_init (old new : ℕ) (madeWaitable : Bool) :
    Phase old new (State.init old madeWaitable) :=
  .before (Or.inl rfl) (Or.inl rfl)

theorem Phase.result {state : ℕ} (hs : Phase old new s) (hstate : s.waiter = .returned state) :
    state = new ∧ s.waker = .returned := by
  cases hs with
  | before hwaiter _ => rcases hwaiter with rfl | rfl | ⟨-, rfl | rfl⟩ <;> cases hstate
  | exchanged hwaiter => rcases hwaiter with rfl | rfl | ⟨-, rfl | rfl⟩ <;> cases hstate
  | marked hwaiter _ => rcases hwaiter with ⟨rfl | rfl, -⟩ | ⟨rfl, -⟩ <;> cases hstate
  | storing hwaiter => rcases hwaiter with rfl | rfl <;> cases hstate
  | notifying hwaiter => rcases hwaiter with rfl | rfl <;> cases hstate
  | unlocking hwaiter => rcases hwaiter with rfl | ⟨rfl, -⟩ <;> cases hstate
  | woken hwaiter =>
      rcases hwaiter with ⟨rfl | ⟨rfl, -⟩, -⟩ | ⟨rfl | rfl | rfl, -⟩ <;> cases hstate
  | finished =>
      cases hstate
      exact ⟨rfl, rfl⟩

/-- In every interleaving of `AwaitState` and `SetState` all steps are defined: all
assertions hold, the mutex exists when it is used, and nobody reaches into the writer
once its call has returned. The call returns the new state. -/
theorem await_returns_new_state (h : Awaits goalMask old new) (madeWaitable : Bool)
    (actions : List Action) :
    ∃ s, run (State.step goalMask new) (State.init old madeWaitable) actions = some s ∧
      ∀ state, s.waiter = .returned state → state = new ∧ s.waker = .returned := by
  obtain ⟨s, hs, hphase⟩ := (phase_init old new madeWaitable).run h actions
  exact ⟨s, hs, fun state hstate => hphase.result hstate⟩

/-- A writer that joins the queue waits to be the leader, to insert its batch or to be
completed. -/
theorem await_returns_new_state_completed :
    Awaits (2 ||| 4 ||| 8 ||| 16) 1 16 ∧
      ∃ s, run (State.step (2 ||| 4 ||| 8 ||| 16) 16) (State.init 1 false)
          [.await true, .await false, .await false, .set, .await false, .set, .await false, .set,
            .await false, .set, .await true, .set, .set] = some s ∧
        ∀ state, s.waiter = .returned state → state = 16 ∧ s.waker = .returned :=
  have h : Awaits (2 ||| 4 ||| 8 ||| 16) 1 16 :=
    ⟨by decide, by decide, by decide, by decide⟩
  ⟨h, await_returns_new_state h false _⟩

/-- Unless the other thread has the mutex, `SetState` comes to its end. -/
theorem Phase.set_finishes {n : ℕ} (hs : Phase old new s) (h : Awaits goalMask old new)
    (hfree : s.Free) (hn : s.waker.left ≤ n) :
    ∃ t, Transitions.run (State.step goalMask new) s (List.replicate n .set) = some t ∧
      Phase old new t ∧ t.waker = .returned := by
  induction n generalizing s with
  | zero =>
      refine ⟨s, rfl, hs, ?_⟩
      cases hwaker : s.waker <;> simp [hwaker, WakerPc.left] at hn ⊢
  | succ n ih =>
      obtain ⟨t, ht, hphase, hleft⟩ := hs.set h
      obtain ⟨hfree', hleft⟩ := hleft hfree
      obtain ⟨u, hu, hend⟩ := ih hphase hfree' (by omega)
      exact ⟨u, by rw [List.replicate_succ, run_cons]; exact ⟨t, ht, hu⟩, hend⟩

/-- After `SetState`, the waiting thread comes to its end without the help of others. -/
theorem Phase.await_finishes {n : ℕ} (hs : Phase old new s) (h : Awaits goalMask old new)
    (hwaker : s.waker = .returned) (hn : s.waiter.left ≤ n) :
    ∃ t, Transitions.run (State.step goalMask new) s (List.replicate n (.await false)) = some t ∧
      Phase old new t ∧ t.waker = .returned ∧ t.waiter.left = 0 := by
  induction n generalizing s with
  | zero => exact ⟨s, rfl, hs, hwaker, Nat.le_zero.mp hn⟩
  | succ n ih =>
      obtain ⟨t, ht, hphase, hwaker', hleft⟩ := hs.await_left h hwaker false
      obtain ⟨u, hu, hend⟩ := ih hphase hwaker' (by omega)
      exact ⟨u, by rw [List.replicate_succ, run_cons]; exact ⟨t, ht, hu⟩, hend⟩

theorem WakerPc.left_le (waker : WakerPc) : waker.left ≤ 6 := by
  cases waker <;> simp [WakerPc.left]

theorem WaiterPc.left_le (waiter : WaiterPc) : waiter.left ≤ 5 := by
  cases waiter <;> simp [WaiterPc.left]

/-- The waiting thread gives back the mutex in its next step, unless it has been woken. -/
theorem Phase.exists_free (hs : Phase old new s) (goalMask : ℕ) :
    ∃ k ≤ 1, ∃ t, Transitions.run (State.step goalMask new) s (List.replicate k (.await false)) =
      some t ∧ t.Free := by
  by_cases hfree : s.Free
  · exact ⟨0, Nat.zero_le 1, s, rfl, hfree⟩
  · cases hs with
    | before => exact absurd (Or.inl (by simp)) hfree
    | exchanged => exact absurd (Or.inr rfl) hfree
    | marked hwaiter hwaker =>
        rcases hwaiter with ⟨-, rfl⟩ | ⟨rfl, rfl⟩
        · exact absurd (Or.inl (by simp)) hfree
        · exact ⟨1, Nat.le_refl 1, _, rfl, Or.inl (by simp)⟩
    | storing => exact absurd (Or.inl (by simp)) hfree
    | notifying => exact absurd (Or.inl (by simp)) hfree
    | unlocking => exact absurd (Or.inl (by simp)) hfree
    | woken => exact absurd (Or.inr rfl) hfree
    | finished => exact absurd (Or.inr rfl) hfree

/-- No wake-up is lost. Wherever the two threads are, both of them finish: the waiting one
only has to give back the mutex first, if it has it. -/
theorem await_and_set_finish (h : Awaits goalMask old new) (madeWaitable : Bool)
    (actions : List Action)
    (hrun : run (State.step goalMask new) (State.init old madeWaitable) actions = some s) :
    ∃ k ≤ 1, ∃ t, run (State.step goalMask new) s (List.replicate k (.await false) ++
      List.replicate 6 .set ++ List.replicate 5 (.await false)) = some t ∧
        t.waiter = .returned new ∧ t.waker = .returned := by
  obtain ⟨s', hs', hphase⟩ := (phase_init old new madeWaitable).run h actions
  obtain rfl : s = s' := Option.some.inj (hrun.symm.trans hs')
  obtain ⟨k, hk, t, ht, hfree⟩ := hphase.exists_free goalMask
  obtain ⟨t', ht', hphase⟩ := hphase.run h (List.replicate k (.await false))
  obtain rfl : t = t' := Option.some.inj (ht.symm.trans ht')
  obtain ⟨u, hu, hphase, hwaker⟩ := hphase.set_finishes h hfree (WakerPc.left_le _)
  obtain ⟨v, hv, hphase, hwaker, hleft⟩ := hphase.await_finishes h hwaker (WaiterPc.left_le _)
  refine ⟨k, hk, v, ?_, ?_, hwaker⟩
  · rw [run_append, run_append, ht, Option.bind_some, hu, Option.bind_some]
    exact hv
  · cases hwaiter : v.waiter with
    | returned state => rw [(hphase.result hwaiter).1]
    | _ => simp [hwaiter, WaiterPc.left] at hleft

/-- A member of a parallel group sleeps when it is completed. -/
theorem await_and_set_finish_asleep :
    run (State.step 16 16) (State.init 8 true)
        [.await true, .await false, .await false, .await false, .await false, .await false, .set] =
          some ⟨32, true, none, false, .asleep, .lock⟩ ∧
      ∃ k ≤ 1, ∃ t, run (State.step 16 16) ⟨32, true, none, false, .asleep, .lock⟩
        (List.replicate k (.await false) ++ List.replicate 6 .set ++
          List.replicate 5 (.await false)) = some t ∧
            t.waiter = .returned 16 ∧ t.waker = .returned :=
  have h : Awaits 16 8 16 := ⟨by decide, by decide, by decide, by decide⟩
  ⟨by decide, await_and_set_finish h true
    [.await true, .await false, .await false, .await false, .await false, .await false, .set]
    (by decide)⟩

end PowerLawRocksdb.StateHandshake
