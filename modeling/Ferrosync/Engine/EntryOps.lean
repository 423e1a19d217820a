import Ferrosync.Engine.ReceiverEngine

set_option autoImplicit false

/-! # What the receiver can do for one entry

`EntryOp E e op` lists every operation the engine may ask for while it handles the entry `e`,
each with the facts under which it does. The theorems below say so for each of the engine's
functions; everything that is proved about the receiver's effects starts from this list and not
from the functions.
-/

namespace Ferrosync

open UnixPath Interaction

def ReceiverOp.looks : ReceiverOp → Bool
  | .lexists _ | .lstat _ | .stat _ | .mapFile _ | .findFuzzyBasis _ => true
  | .uniqueTmpName => true
  | _ => false

/-- Operations that change no file and are not on the channel. -/
def ReceiverOp.reads : ReceiverOp → Bool
  | .writeRequest _ _ | .readHeader _ | .readDelta _ _ _ | .writeSuccess _ => true
  | op => op.looks

theorem ReceiverOp.reads_of_looks {op : ReceiverOp} (h : op.looks = true) : op.reads = true := by
  cases op <;> first | rfl | cases h

/-- Operations that belong to writing a received file: opening it, putting it in its place, making
room for it, setting its attributes. -/
def ReceiverOp.writesFile : ReceiverOp → Bool
  | .createTmp _ | .commitTmp _ _ _ _ | .openInplace _ _ | .openAppend _ | .writeFile _ _ _ => true
  | .rename _ _ | .setMetadata _ _ => true
  | _ => false

/-- The four ways in which `receive_transfer` gets data into a file. -/
inductive WriteMode where
  | sparse
  | append
  | inplace
  /-- A temporary file that is renamed in the end. -/
  | fresh
  deriving DecidableEq

namespace ReceiverEngine

def writeMode (E : ReceiverEngine) : WriteMode :=
  if E.options.sparse then .sparse
  else if E.options.append ∨ E.options.appendVerify then .append
  else if E.options.inplace then .inplace
  else .fresh

/-- Nothing in the options or the entry keeps it from being transferred; what is on the disk still
may. -/
structure Transfers (E : ReceiverEngine) (e : FileEntry) : Prop where
  isFile : e.isFile = true
  unlinked : e.hlinkSource = none
  wet : E.options.dryRun = false
  existence : ¬ (E.options.existing = true ∧ E.options.ignoreExisting = true)
  size : checkSizeLimits E.options e = false

/-- Files that are replaced are backed up. -/
def Backs (E : ReceiverEngine) : Prop := E.options.backup = true ∧ E.writeMode ≠ .append

/-- Data goes into the partial directory first, if there is one. -/
def UsesPartialDir (E : ReceiverEngine) : Prop := E.writeMode = .fresh ∨ E.writeMode = .sparse

/-- The file that `finish_file` moves to the destination. -/
def partialFile (E : ReceiverEngine) (e : FileEntry) (dir : Path) : Path :=
  dir.join (partialName (E.destPath e).fileName)

instance (E : ReceiverEngine) (e : FileEntry) : Decidable (E.Transfers e) :=
  decidable_of_iff (e.isFile = true ∧ e.hlinkSource = none ∧ E.options.dryRun = false ∧
      ¬ (E.options.existing = true ∧ E.options.ignoreExisting = true) ∧
      checkSizeLimits E.options e = false)
    ⟨fun ⟨h₁, h₂, h₃, h₄, h₅⟩ => ⟨h₁, h₂, h₃, h₄, h₅⟩,
      fun h => ⟨h.isFile, h.unlinked, h.wet, h.existence, h.size⟩⟩

instance (E : ReceiverEngine) : Decidable E.Backs := inferInstanceAs (Decidable (_ ∧ _))

end ReceiverEngine

/-- Where the data of an entry is written first: the destination, or a file in the partial
directory. -/
inductive WriteTarget (E : ReceiverEngine) (e : FileEntry) : Path → Prop where
  | dest (h : E.options.partialDir = none) : WriteTarget E e (E.destPath e)
  | inPartialDir {dir : Path} {name : List UInt8} (h : E.options.partialDir = some dir) :
      WriteTarget E e (dir.join (.single name))

/-- The same for `--sparse`, which falls back to the partial directory itself where the
destination has no file name. -/
inductive SparseTarget (E : ReceiverEngine) (e : FileEntry) : Path → Prop where
  | target {dst : Path} (h : WriteTarget E e dst) : SparseTarget E e dst
  | partialDir {dir : Path} (h : E.options.partialDir = some dir) :
      SparseTarget E e (dir.join ⟨false, []⟩)

/-- The operations for an entry. -/
inductive EntryOp (E : ReceiverEngine) (e : FileEntry) : ReceiverOp → Prop where
  | read {op : ReceiverOp} (h : op.looks = true) : EntryOp E e op
  | makeParent {parent : Path} (hfile : e.isFile = true)
      (h : (E.destPath e).parent = some parent) : EntryOp E e (.mkdir parent 0o755)
  | makeDirectory {mode : UInt32} (hdir : e.isDir = true) :
      EntryOp E e (.mkdir (E.destPath e) mode)
  | makeSymlink (hlink : e.isSymlink = true) (hlinks : E.options.preserveLinks = true) :
      EntryOp E e (.createSymlink e.linkTarget (E.destPath e))
  | unlink : EntryOp E e (.removeFile (E.destPath e))
  | link {target : Path} : EntryOp E e (.hardLink target (E.destPath e))
  | copy {src : Path} (hfile : e.isFile = true) : EntryOp E e (.copyFile src (E.destPath e))
  | makeBackupDir {dir : Path} (he : E.Transfers e) (hbacks : E.Backs)
      (h : E.backupDir = some dir) : EntryOp E e (.mkdir dir 0o755)
  | backupIn {dir : Path} (he : E.Transfers e) (hbacks : E.Backs) (h : E.backupDir = some dir) :
      EntryOp E e (.rename (E.destPath e)
        (dir.join (backupName (E.destPath e) E.options.suffix)))
  | backupBeside (he : E.Transfers e) (hbacks : E.Backs) (h : E.backupDir = none) :
      EntryOp E e (.rename (E.destPath e)
        ((E.destPath e).withFileName (backupName (E.destPath e) E.options.suffix)))
  | makePartialDir {dir : Path} (he : E.Transfers e) (huses : E.UsesPartialDir)
      (h : E.options.partialDir = some dir) : EntryOp E e (.mkdir dir 0o755)
  | createTmp {dst : Path} {name : FileName} (he : E.Transfers e) (hmode : E.writeMode = .fresh)
      (h : WriteTarget E e dst) : EntryOp E e (.createTmp (ReceiverEngine.tmpBeside dst name))
  | commitTmp {dst : Path} {name : FileName} {mode : Option UInt32} {data : List UInt8}
      (he : E.Transfers e) (hmode : E.writeMode = .fresh) (h : WriteTarget E e dst) :
      EntryOp E e (.commitTmp (ReceiverEngine.tmpBeside dst name) dst mode data)
  | openInplace {mode : Option UInt32} (he : E.Transfers e) (h : E.options.inplace = true) :
      EntryOp E e (.openInplace (E.destPath e) mode)
  | openAppend (he : E.Transfers e) : EntryOp E e (.openAppend (E.destPath e))
  | writeSparse {dst : Path} {data : List UInt8} {mode : Option UInt32} (he : E.Transfers e)
      (hmode : E.writeMode = .sparse) (h : SparseTarget E e dst) :
      EntryOp E e (.writeFile dst data mode)
  | movePartial {src dir : Path} (he : E.Transfers e) (hdir : E.options.partialDir = some dir)
      (hsrc : src = E.partialFile e dir ∨ E.writeMode = .sparse) (h : SparseTarget E e src) :
      EntryOp E e (.rename src (E.destPath e))
  | setMetadata : EntryOp E e (.setMetadata (E.destPath e) e)

/-- The operations for an entry before any data is asked for; they write no file's data. -/
def DispatchOp (E : ReceiverEngine) (e : FileEntry) (op : ReceiverOp) : Prop :=
  EntryOp E e op ∧ op.writesFile = false

section Engine

variable {E : ReceiverEngine} {e : FileEntry} {Q : ReceiverOp → Prop}
  {R : (op : ReceiverOp) → op.Reply → Prop}

/-- A query is safe if it is in the list. -/
theorem safeE_query {op : ReceiverOp} {post : op.Reply → Prop} (hop : Q op)
    (h : ∀ r, R op r → post r) : SafeE Q R post (query op) := by
  refine SafeE.lift ?_
  exact ⟨hop, h⟩

theorem safeE_query_bind {α : Type} {op : ReceiverOp} {post : α → Prop}
    {f : op.Reply → ReceiverM α} (hop : Q op) (hf : ∀ r, R op r → SafeE Q R post (f r)) :
    SafeE Q R post (query op >>= f) :=
  SafeE.bind (safeE_query hop fun _ hr => hr) hf

theorem safeE_require (ok : Bool) : SafeE Q R (fun _ => True) (require ok) := by
  unfold require
  split_ifs
  · exact SafeE.pure trivial
  · exact SafeE.throw _

theorem safeE_effect {op : ReceiverOp} (hop : Q op) (succeeded : op.Reply → Bool) :
    SafeE Q R (fun _ => True) (effect op succeeded) :=
  safeE_query_bind hop fun _ _ => safeE_require _

theorem safeE_effect_bind {α : Type} {op : ReceiverOp} {succeeded : op.Reply → Bool}
    {post : α → Prop} {f : Unit → ReceiverM α} (hop : Q op) (hf : SafeE Q R post (f ())) :
    SafeE Q R post (effect op succeeded >>= f) :=
  SafeE.bind (safeE_effect hop succeeded) fun _ _ => hf

end Engine

/-! ## The functions, one by one -/

section Functions

variable {E : ReceiverEngine} {e : FileEntry} {R : (op : ReceiverOp) → op.Reply → Prop}

section Looks

variable {Q : ReceiverOp → Prop} (hlooks : ∀ op, op.looks = true → Q op)

include hlooks

theorem checkAltDest_looks (options : TransferConfig) :
    ∀ dirs, SafeE Q R (fun _ => True) (checkAltDest options e dirs)
  | [] => SafeE.pure trivial
  | dir :: dirs => by
    refine safeE_query_bind (hlooks _ rfl) ?_
    intro m _
    split_ifs
    · exact SafeE.pure trivial
    · exact checkAltDest_looks options dirs

theorem quickCheck_looks : SafeE Q R (fun _ => True) (E.quickCheck e) := by
  unfold ReceiverEngine.quickCheck
  split_ifs
  · exact SafeE.pure trivial
  · refine safeE_query_bind (hlooks _ rfl) ?_
    intro m _
    exact SafeE.pure trivial

theorem keepsDirlink_looks (path : Path) : SafeE Q R (fun _ => True) (E.keepsDirlink path) := by
  unfold ReceiverEngine.keepsDirlink
  split_ifs
  · refine safeE_query_bind (hlooks _ rfl) ?_
    intro link _
    split_ifs
    · refine safeE_query_bind (hlooks _ rfl) ?_
      intro target _
      exact SafeE.pure trivial
    · exact SafeE.pure trivial
  · exact SafeE.pure trivial

end Looks

theorem dispatchOp_of_looks (op : ReceiverOp) (h : op.looks = true) : DispatchOp E e op :=
  ⟨.read h, by cases op <;> first | rfl | cases h⟩

theorem createDirectory_ops (hdir : e.isDir = true) :
    SafeE (DispatchOp E e) R (fun _ => True) (E.createDirectory e) := by
  refine SafeE.bind (keepsDirlink_looks dispatchOp_of_looks _) ?_
  intro keep _
  split_ifs
  · exact safeE_effect ⟨.makeDirectory hdir, rfl⟩ _
  · exact SafeE.pure trivial

theorem createSymlink_ops (hlink : e.isSymlink = true) (hlinks : E.options.preserveLinks = true) :
    SafeE (DispatchOp E e) R (fun _ => True) (E.createSymlink e) := by
  unfold ReceiverEngine.createSymlink
  split_ifs
  · exact SafeE.pure trivial
  · refine safeE_effect_bind ⟨.makeSymlink hlink hlinks, rfl⟩ ?_
    exact SafeE.pure trivial
  · exact SafeE.pure trivial

theorem tryLinkDest_ops : SafeE (DispatchOp E e) R (fun _ => True) (E.tryLinkDest e) := by
  unfold ReceiverEngine.tryLinkDest
  split_ifs
  · exact SafeE.pure trivial
  refine SafeE.bind (checkAltDest_looks dispatchOp_of_looks E.options _) ?_
  intro alt _
  cases alt with
  | none => exact SafeE.pure trivial
  | some alt =>
    refine safeE_query_bind ⟨.unlink, rfl⟩ ?_
    intro _ _
    exact safeE_query ⟨.link, rfl⟩ fun _ _ => trivial

theorem tryCopyDest_ops (hfile : e.isFile = true) :
    SafeE (DispatchOp E e) R (fun _ => True) (E.tryCopyDest e) := by
  unfold ReceiverEngine.tryCopyDest
  split_ifs
  · exact SafeE.pure trivial
  refine SafeE.bind (checkAltDest_looks dispatchOp_of_looks E.options _) ?_
  intro alt _
  cases alt with
  | none => exact SafeE.pure trivial
  | some alt => exact safeE_query ⟨.copy hfile, rfl⟩ fun _ _ => trivial

theorem ensureParent_ops (hfile : e.isFile = true) :
    SafeE (DispatchOp E e) R (fun _ => True) (E.ensureParent e) := by
  unfold ReceiverEngine.ensureParent
  cases h : (E.destPath e).parent with
  | none => exact SafeE.pure trivial
  | some parent =>
    refine safeE_query_bind ⟨.read rfl, rfl⟩ ?_
    intro present _
    split_ifs
    · exact SafeE.pure trivial
    · exact safeE_effect ⟨.makeParent hfile h, rfl⟩ _

/-- An entry that needs a transfer may be transferred. -/
def EntryAction.For (E : ReceiverEngine) (e : FileEntry) : EntryAction → Prop
  | .needsTransfer _ => E.Transfers e
  | _ => True

/-- What is not skipped passes the options. -/
theorem shouldSkip_false : SafeE (DispatchOp E e) R (fun skip => skip = false →
    ¬ (E.options.existing = true ∧ E.options.ignoreExisting = true) ∧
      checkSizeLimits E.options e = false) (E.shouldSkip e) := by
  refine safeE_query_bind (dispatchOp_of_looks _ rfl) ?_
  intro destExists _
  refine SafeE.ite (fun _ => SafeE.pure fun h => by cases h) fun hexists => ?_
  refine SafeE.ite (fun _ => SafeE.pure fun h => by cases h) fun hsize => ?_
  have hpass : ¬ (E.options.existing = true ∧ E.options.ignoreExisting = true) ∧
      checkSizeLimits E.options e = false := by
    refine ⟨?_, by simpa using hsize⟩
    rintro ⟨hexisting, hignore⟩
    rw [checkExistenceSkip, hexisting, hignore] at hexists
    cases destExists <;> exact hexists rfl
  refine SafeE.bind (checkAltDest_looks dispatchOp_of_looks E.options _) ?_
  intro alt _
  split_ifs
  · exact SafeE.pure fun h => by cases h
  · exact (quickCheck_looks dispatchOp_of_looks).mono fun _ _ _ => hpass

theorem dispatchFile_ops (hfile : e.isFile = true) (hlink : e.hlinkSource = none) :
    SafeE (DispatchOp E e) R (EntryAction.For E e) (E.dispatchFile e) := by
  refine SafeE.bind shouldSkip_false ?_
  intro skip hskip
  refine SafeE.ite (fun _ => SafeE.pure trivial) fun hnot => ?_
  obtain ⟨hexistence, hsize⟩ := hskip (Bool.eq_false_of_not_eq_true hnot)
  refine SafeE.bind tryLinkDest_ops ?_
  intro linked _
  refine SafeE.ite (fun _ => SafeE.pure trivial) fun _ => ?_
  refine SafeE.bind (tryCopyDest_ops hfile) ?_
  intro copied _
  refine SafeE.ite (fun _ => SafeE.pure trivial) fun _ => ?_
  refine SafeE.ite (fun _ => SafeE.pure trivial) fun hdry => ?_
  refine safeE_query_bind ⟨.read rfl, rfl⟩ ?_
  intro basis _
  exact SafeE.pure ⟨hfile, hlink, Bool.eq_false_of_not_eq_true hdry, hexistence, hsize⟩

theorem dispatchEntry_ops : SafeE (DispatchOp E e) R (EntryAction.For E e) (E.dispatchEntry e) := by
  unfold ReceiverEngine.dispatchEntry
  split_ifs with hdir hlink hfile
  · refine SafeE.bind (createDirectory_ops hdir) ?_
    intro _ _
    exact SafeE.pure trivial
  · refine SafeE.bind (createSymlink_ops hlink.1 hlink.2) ?_
    intro created _
    refine SafeE.pure ?_
    split_ifs <;> trivial
  · exact SafeE.pure trivial
  · cases hsource : e.hlinkSource with
    | some sourceName => exact SafeE.pure trivial
    | none => exact dispatchFile_ops (by simpa using hfile) hsource

/-! ## Writing -/

theorem backupExisting_ops (he : E.Transfers e) (hmode : E.writeMode ≠ .append) :
    SafeE (EntryOp E e) R (fun _ => True) (E.backupExisting (E.destPath e)) := by
  unfold ReceiverEngine.backupExisting
  split_ifs with hbackup
  · refine safeE_query_bind (.read rfl) ?_
    intro present _
    split_ifs
    · cases h : E.backupDir with
      | some dir =>
        refine safeE_effect_bind (.makeBackupDir he ⟨hbackup, hmode⟩ h) ?_
        exact safeE_effect (.backupIn he ⟨hbackup, hmode⟩ h) _
      | none => exact safeE_effect (.backupBeside he ⟨hbackup, hmode⟩ h) _
    · exact SafeE.pure trivial
  · exact SafeE.pure trivial

/-- The writer of an entry is one that `EntryOp` lets be committed. -/
def ReceiverWriter.For (E : ReceiverEngine) (e : FileEntry) : ReceiverWriter → Prop
  | .atomic tmp dst _ => E.writeMode = .fresh ∧ WriteTarget E e dst ∧
      ∃ name, tmp = ReceiverEngine.tmpBeside dst name
  | .direct => True

theorem writeFileStream_ops (he : E.Transfers e) (hmode : E.writeMode = .fresh) {dst : Path}
    (h : WriteTarget E e dst) (mode : Option UInt32) :
    SafeE (EntryOp E e) R (ReceiverWriter.For E e) (ReceiverEngine.writeFileStream dst mode) := by
  refine safeE_query_bind (.read rfl) ?_
  intro name _
  refine safeE_effect_bind (.createTmp he hmode h) ?_
  exact SafeE.pure ⟨hmode, h, name, rfl⟩

theorem createFreshWriter_ops (he : E.Transfers e) (hsparse : ¬ E.options.sparse = true)
    (happend : ¬ (E.options.append = true ∨ E.options.appendVerify = true)) :
    SafeE (EntryOp E e) R (ReceiverWriter.For E e) (E.createFreshWriter e) := by
  have hmode : E.writeMode = if E.options.inplace then .inplace else .fresh := by
    rw [ReceiverEngine.writeMode, if_neg hsparse, if_neg happend]
  refine SafeE.bind (backupExisting_ops he (by rw [hmode]; split_ifs <;> decide)) ?_
  intro _ _
  split_ifs with hinplace
  · refine safeE_effect_bind (.openInplace he hinplace) ?_
    exact SafeE.pure trivial
  · rw [if_neg hinplace] at hmode
    split
    · next dir h =>
      refine safeE_effect_bind (.makePartialDir he (.inl hmode) h) ?_
      exact writeFileStream_ops he hmode (.inPartialDir h) _
    · next h => exact writeFileStream_ops he hmode (.dest h) _

theorem createWriter_ops (he : E.Transfers e) (hsparse : ¬ E.options.sparse = true) :
    SafeE (EntryOp E e) R (ReceiverWriter.For E e) (E.createWriter e) := by
  unfold ReceiverEngine.createWriter
  split_ifs with happend
  · refine SafeE.bind (Safe.weaken (fun _ hop => hop.1) (ensureParent_ops he.isFile)) ?_
    intro _ _
    refine safeE_effect_bind (.openAppend he) ?_
    exact SafeE.pure trivial
  · exact createFreshWriter_ops he hsparse happend

theorem dropWriter_ops (he : E.Transfers e) {w : ReceiverWriter} (hw : w.For E e)
    (data : List UInt8) :
    SafeE (EntryOp E e) R (fun _ => True) (ReceiverEngine.dropWriter w data) := by
  cases w with
  | direct => exact SafeE.pure trivial
  | «atomic» tmp dst mode =>
    obtain ⟨hmode, hdst, name, rfl⟩ := hw
    refine safeE_query_bind (.commitTmp he hmode hdst) ?_
    intro _ _
    exact SafeE.pure trivial

theorem movePartial_ops (he : E.Transfers e) {src dir : Path}
    (hdir : E.options.partialDir = some dir)
    (hsrc : src = E.partialFile e dir ∨ E.writeMode = .sparse) (h : SparseTarget E e src) :
    SafeE (EntryOp E e) R (fun _ => True) (E.movePartial e src) := by
  unfold ReceiverEngine.movePartial
  split_ifs
  · exact safeE_effect (.movePartial he hdir hsrc h) _
  · exact SafeE.pure trivial

theorem finishPartial_ops (he : E.Transfers e) :
    SafeE (EntryOp E e) R (fun _ => True) (E.finishPartial e) := by
  unfold ReceiverEngine.finishPartial
  split
  · next dir h => exact movePartial_ops he h (.inl rfl) (.target (.inPartialDir h))
  · exact SafeE.pure trivial

theorem finishFile_ops (he : E.Transfers e) :
    SafeE (EntryOp E e) R (fun _ => True) (E.finishFile e) := by
  refine SafeE.bind (finishPartial_ops he) ?_
  intro _ _
  exact safeE_query .setMetadata fun _ _ => trivial

theorem writeSparse_ops (he : E.Transfers e) (hmode : E.writeMode = .sparse) (data : List UInt8) :
    SafeE (EntryOp E e) R (fun _ => True) (E.writeSparse e data) := by
  unfold ReceiverEngine.writeSparse
  split
  · next dir h =>
    have htarget : SparseTarget E e
        (dir.join (((E.destPath e).fileName.map Path.single).getD ⟨false, []⟩)) := by
      cases (E.destPath e).fileName with
      | none => exact .partialDir h
      | some name => exact .target (.inPartialDir h)
    refine safeE_effect_bind (.makePartialDir he (.inr hmode) h) ?_
    refine safeE_effect_bind (.writeSparse he hmode htarget) ?_
    exact movePartial_ops he h (.inr hmode) htarget
  · next h => exact safeE_effect (.writeSparse he hmode (.target (.dest h))) _

theorem receiveFileSparse_ops (he : E.Transfers e) (hsparse : E.options.sparse = true)
    (data : List UInt8) :
    SafeE (EntryOp E e) R (fun _ => True) (E.receiveFileSparse e data) := by
  have hmode : E.writeMode = .sparse := if_pos hsparse
  refine SafeE.bind (backupExisting_ops he (by rw [hmode]; decide)) ?_
  intro _ _
  refine SafeE.bind (writeSparse_ops he hmode data) ?_
  intro _ _
  exact safeE_query .setMetadata fun _ _ => trivial

end Functions

end Ferrosync
