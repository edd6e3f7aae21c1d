/-
  The lock of a run: exclusive for an open handle of the lock file, and released
  when the handle is closed or the process dies.

  `acquire` opens a handle and tries to lock it until the deadline; other
  processes may take their steps between two tries.
-/
import Mathlib.Data.Rat.Defs
import Mathlib.Logic.Function.Basic

namespace ResumableBatch

/-! ## The lock file -/

/-- An open handle of the lock file. -/
abbrev Handle := ℕ

/-- The lock file, as the operating system sees it. -/
structure LockFile where
  owner : Option Handle := none
  /-- how many handles have been opened -/
  opened : ℕ := 0

namespace LockFile

/-- `os.open(self.lockfile, ..)`. -/
def openHandle (f : LockFile) : Handle × LockFile := (f.opened, { f with opened := f.opened + 1 })

/-- `_try_lock`: exclusive, and without waiting. -/
def tryLock (f : LockFile) (fd : Handle) : Bool × LockFile :=
  match f.owner with
  | none => (true, { f with owner := some fd })
  | some owner => (owner = fd, f)

/-- `os.close(fd)`, with or without `_unlock` before it. -/
def close (f : LockFile) (fd : Handle) : LockFile :=
  if f.owner = some fd then { f with owner := none } else f

theorem close_opened (f : LockFile) (fd : Handle) : (f.close fd).opened = f.opened := by
  unfold close
  split_ifs <;> rfl

/-- A handle that still owns the lock is none that was closed. -/
theorem owner_close {f : LockFile} {fd h : Handle} :
    (f.close fd).owner = some h ↔ f.owner = some h ∧ h ≠ fd := by
  unfold close
  split_ifs with ho
  · rw [ho]
    simp [eq_comm]
  · constructor
    · intro hf
      refine ⟨hf, ?_⟩
      rintro rfl
      exact ho hf
    · exact And.left

end LockFile

/-! ## The provider -/

/-- `LockProvider`. -/
structure LockProvider where
  timeout : ℚ := 30
  /-- `_fd` -/
  fd : Option Handle := none
  held : Bool := false

/-- The variables of `acquire` while it waits. -/
structure Acquiring where
  fd : Handle
  deadline : ℚ

/-- What a try of `acquire` leads to. -/
inductive Tried where
  | acquired (lock : LockProvider)
  /-- `CacheLockedError` -/
  | cacheLocked
  | again

namespace LockProvider

/-- `acquire`, as far as the loop. -/
def beginAcquire (lock : LockProvider) (now : ℚ) (f : LockFile) : Acquiring × LockFile :=
  let (fd, f) := f.openHandle
  (⟨fd, now + lock.timeout⟩, f)

/-- One turn of the loop in `acquire`; `now` is what the clock answers. -/
def tryAcquire (lock : LockProvider) (a : Acquiring) (now : ℚ) (f : LockFile) : Tried × LockFile :=
  match f.tryLock a.fd with
  | (true, f) => (.acquired { lock with fd := some a.fd, held := true }, f)
  | (false, f) => if a.deadline ≤ now then (.cacheLocked, f.close a.fd) else (.again, f)

/-- `release`. -/
def release (lock : LockProvider) (f : LockFile) : LockProvider × LockFile :=
  match lock.fd with
  | some fd => ({ lock with fd := none, held := false }, f.close fd)
  | none => (lock, f)

end LockProvider

/-! ## Processes -/

/-- A process that uses the lock. -/
structure Party where
  lock : LockProvider := {}
  /-- the call of `acquire` that is running -/
  acquiring : Option Acquiring := none
  alive : Bool := true

/-- The process dies, and the operating system closes its handles. -/
def Party.die (p : Party) (f : LockFile) : Party × LockFile :=
  let f := p.lock.fd.elim f f.close
  let f := p.acquiring.elim f fun a => f.close a.fd
  ({ p with lock := { p.lock with fd := none, held := false }, acquiring := none, alive := false }, f)

end ResumableBatch
