import Ferrosync.Engine.Receiver

set_option autoImplicit false

/-! # The atomic file writer

`AtomicFileWriter` of `atomic_writer.rs`: data goes to a temporary file that is renamed to the
destination when the writer is finished. The only caller of `finish_inner` is `Drop`, so the
rename also happens when the writer is dropped on an error path.

The file system is reduced to the contents of regular files by path; which of its operations fail
is an input.
-/

namespace Ferrosync

open ByteStream

/-- Contents of regular files. -/
abbrev Files (π : Type) : Type := π → Option (List UInt8)

/-- Which operations of one receive fail. `write k = some n` says that the `k`-th `write_all`
fails after `n` bytes have been taken. -/
structure WriteFaults where
  create : Bool
  write : Nat → Option Nat
  flush : Bool
  chmod : Bool
  rename : Bool
  remove : Bool

def WriteFaults.none : WriteFaults := ⟨false, fun _ => .none, false, false, false, false⟩

/-- `AtomicFileWriter`. `accepted` is everything the buffered writer has taken so far, whether it
has reached the temporary file yet or not. -/
structure AtomicFileWriter (π : Type) where
  tmpPath : π
  destPath : π
  mode : Option Nat
  accepted : List UInt8
  writes : Nat
  finished : Bool

section Writer

variable {π : Type}

/-- `write_all` on the buffered writer. -/
def atomicWriteAll (faults : WriteFaults) : WriteAll (AtomicFileWriter π) := fun w data =>
  match faults.write w.writes with
  | .none => .ok { w with accepted := w.accepted ++ data, writes := w.writes + 1 }
  | some n =>
    .error (.other, { w with accepted := w.accepted ++ data.take n, writes := w.writes + 1 })

variable [DecidableEq π]

/-- `UnixFileSystem::write_file_stream`: create the temporary file. -/
def writeFileStream (faults : WriteFaults) (files : Files π) (tmp dest : π) (mode : Option Nat) :
    Except Failure (AtomicFileWriter π × Files π) :=
  if faults.create then .error (.fs .other)
  else .ok (⟨tmp, dest, mode, [], 0, false⟩, Function.update files tmp (some []))

/-- `finish_inner`: flush, set the permissions, rename. -/
def finishInner (faults : WriteFaults) (files : Files π) (w : AtomicFileWriter π) :
    Except IoKind Unit × Files π :=
  if w.finished then (.ok (), files)
  else if faults.flush then (.error .other, files)
  else
    let files := Function.update files w.tmpPath (some w.accepted)
    if w.mode.isSome ∧ faults.chmod = true then (.error .other, files)
    else if faults.rename then (.error .other, files)
    else
      (.ok (), Function.update (Function.update files w.tmpPath none) w.destPath
        (files w.tmpPath))

def discardTmp (faults : WriteFaults) (files : Files π) (w : AtomicFileWriter π) : Files π :=
  if faults.remove then files else Function.update files w.tmpPath none

/-- `Drop for AtomicFileWriter`: finish, and remove the temporary file if that fails. -/
def dropWriter (faults : WriteFaults) (files : Files π) (w : AtomicFileWriter π) : Files π :=
  match finishInner faults files w with
  | (.ok (), files) => files
  | (.error _, files) => discardTmp faults files w

/-- One of the steps of the commit fails: the flush, the mode if there is one to set, or the rename.
-/
def CommitFails (faults : WriteFaults) (mode : Option Nat) : Prop :=
  faults.flush = true ∨ (mode.isSome ∧ faults.chmod = true) ∨ faults.rename = true

instance (faults : WriteFaults) (mode : Option Nat) : Decidable (CommitFails faults mode) :=
  inferInstanceAs (Decidable (_ ∨ _))

variable {faults : WriteFaults} {files : Files π} {w : AtomicFileWriter π}

/-- **Dropping commits**: whatever has been accepted becomes the destination's content. -/
theorem dropWriter_commits (hfin : w.finished = false) (h : ¬ CommitFails faults w.mode) :
    dropWriter faults files w w.destPath = some w.accepted := by
  simp only [CommitFails, not_or] at h
  obtain ⟨hflush, hchmod, hrename⟩ := h
  simp [dropWriter, finishInner, hfin, hflush, hchmod, hrename]

theorem discardTmp_dest (htmp : w.destPath ≠ w.tmpPath) :
    discardTmp faults files w w.destPath = files w.destPath := by
  unfold discardTmp
  split_ifs
  · rfl
  · exact Function.update_of_ne htmp _ _

/-- A commit that fails leaves the destination alone. -/
theorem dropWriter_keeps (hfin : w.finished = false) (htmp : w.destPath ≠ w.tmpPath)
    (h : CommitFails faults w.mode) :
    dropWriter faults files w w.destPath = files w.destPath := by
  have hflushed : Function.update files w.tmpPath (some w.accepted) w.destPath = files w.destPath :=
    Function.update_of_ne htmp _ _
  by_cases hflush : faults.flush = true
  · simp [dropWriter, finishInner, hfin, hflush, discardTmp_dest htmp]
  by_cases hchmod : w.mode.isSome ∧ faults.chmod = true
  · simp [dropWriter, finishInner, hfin, hflush, hchmod, discardTmp_dest htmp, hflushed]
  · have hrename : faults.rename = true := by
      rcases h with h | h | h
      · exact absurd h hflush
      · exact absurd h hchmod
      · exact h
    simp only [dropWriter, finishInner, hfin, hflush, if_neg hchmod, hrename, if_true,
      Bool.false_eq_true, if_false, discardTmp_dest htmp, hflushed]

end Writer

end Ferrosync
