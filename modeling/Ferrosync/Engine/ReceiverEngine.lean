import Ferrosync.Lib.Interaction
import Ferrosync.Codec.Entry
import Ferrosync.Engine.ReceiveFile

set_option autoImplicit false

/-! # The receiver engine

`receiver_engine.rs` and the parts of `file_decision.rs` it uses: what the receiving side does
with one entry. The functions are programs over `ReceiverOp`, the operations they ask the file
system, the wire and the generator's channel for, so one text serves every environment: an
arbitrary one, a concrete directory tree, or a fixed response stream.
-/

namespace Ferrosync

open UnixPath Interaction

/-! ## Configuration -/

/-- The fields of `TransferConfig` the receiver reads. `chmod` is the parsed `ChmodSpec`. -/
structure TransferConfig where
  dest : Option Path
  preserveLinks : Bool
  preservePerms : Bool
  checksumMode : Bool
  update : Bool
  ignoreTimes : Bool
  sizeOnly : Bool
  existing : Bool
  ignoreExisting : Bool
  maxSize : Option Nat
  minSize : Option Nat
  modifyWindow : Nat
  fuzzy : Bool
  inplace : Bool
  sparse : Bool
  backup : Bool
  backupDir : Option Path
  suffix : List UInt8
  partialDir : Option Path
  append : Bool
  appendVerify : Bool
  safeLinks : Bool
  keepDirlinks : Bool
  linkDest : List Path
  copyDest : List Path
  compareDest : List Path
  dryRun : Bool
  listOnly : Bool
  chmod : Option (UInt32 → Bool → UInt32)

def TransferConfig.default (dest : Path) : TransferConfig where
  dest := some dest
  preserveLinks := false
  preservePerms := false
  checksumMode := false
  update := false
  ignoreTimes := false
  sizeOnly := false
  existing := false
  ignoreExisting := false
  maxSize := none
  minSize := none
  modifyWindow := 0
  fuzzy := false
  inplace := false
  sparse := false
  backup := false
  backupDir := none
  suffix := [0x7E]
  partialDir := none
  append := false
  appendVerify := false
  safeLinks := false
  keepDirlinks := false
  linkDest := []
  copyDest := []
  compareDest := []
  dryRun := false
  listOnly := false
  chmod := none

structure ReceiverEngine where
  dest : Path
  options : TransferConfig

/-- A directory option that is relative is taken below the destination. -/
def resolveDir (dest dir : Path) : Path := if dir.absolute then dir else dest.join dir

def ReceiverEngine.backupDir (E : ReceiverEngine) : Option Path :=
  E.options.backupDir.map (resolveDir E.dest)

/-- `resolve_link_dest_dirs`. -/
def ReceiverEngine.linkDests (E : ReceiverEngine) : List Path :=
  E.options.linkDest.map (resolveDir E.dest)

def ReceiverEngine.destPath (E : ReceiverEngine) (e : FileEntry) : Path := E.dest.join e.path

/-! ## Operations -/

/-- The fields of `FileMetadata` the receiver looks at. -/
structure FileMetadata where
  mode : UInt32
  len : Int
  mtime : Int
  deriving DecidableEq, Repr

/-- A name the file system can hold as one component. -/
def FileName : Type :=
  { name : List UInt8 // name ≠ [] ∧ slash ∉ name ∧ name ≠ [dot] ∧ name ≠ [dot, dot] }

inductive HandledKind where
  | directory
  | symlink
  | linkDest
  | copyDest
  | dryRun
  deriving DecidableEq, Repr

/-- `GeneratorItem`. The source names an entry by its index; here the entry and its NDX are part
of the item. -/
inductive GeneratorItem where
  | handled (entry : FileEntry) (kind : HandledKind)
  | deferredHardlink (entry : FileEntry) (sourceName : List UInt8)
  | transfer (entry : FileEntry) (ndx : Int) (basis : List UInt8) (blength : Nat)
  | done
  deriving DecidableEq, Repr

/-- What the receiving side asks its environment for. -/
inductive ReceiverOp where
  -- reading the file system
  | lexists (path : Path)
  | lstat (path : Path)
  | stat (path : Path)
  | mapFile (path : Path)
  /-- `find_fuzzy_basis_impl`, which only reads. -/
  | findFuzzyBasis (path : Path)
  -- changing it
  | mkdir (path : Path) (mode : UInt32)
  | createSymlink (target : List UInt8) (link : Path)
  | removeFile (path : Path)
  | hardLink (target link : Path)
  | copyFile (src dst : Path)
  | rename (src dst : Path)
  | uniqueTmpName
  | createTmp (tmp : Path)
  /-- The drop of an `AtomicFileWriter` that has taken `data`. -/
  | commitTmp (tmp dst : Path) (mode : Option UInt32) (data : List UInt8)
  | openInplace (path : Path) (mode : Option UInt32)
  | openAppend (path : Path)
  | writeFile (path : Path) (data : List UInt8) (mode : Option UInt32)
  | setMetadata (path : Path) (entry : FileEntry)
  -- the wire
  | writeRequest (ndx : Int) (bytes : List UInt8)
  | readHeader (state : NdxState)
  /-- The delta receiver; `buffered` for `recv_file_delta`, which reads plain tokens into memory. -/
  | readDelta (buffered : Bool) (basis : List UInt8) (blength : Nat)
  | writeSuccess (ndx : Int)
  -- the channel between the two tasks
  | send (item : GeneratorItem)
  | recv
  | generatorDone (ok : Bool)
  | joinGenerator
  | receiverDone

/-- The replies; a plain `Bool` is whether the operation succeeded. -/
@[reducible] def ReceiverOp.Reply : ReceiverOp → Type
  | .lexists _ => Bool
  | .lstat _ => Option FileMetadata
  | .stat _ => Option FileMetadata
  | .mapFile _ => Option (List UInt8)
  | .findFuzzyBasis _ => Option (List UInt8)
  | .uniqueTmpName => FileName
  | .setMetadata _ _ => Unit
  | .readHeader _ => Except Failure ResponseHeader
  -- the error comes with the bytes that had been delivered
  | .readDelta _ _ _ => Except (Failure × List UInt8) (List UInt8)
  | .recv => Option GeneratorItem
  | .generatorDone _ => Unit
  | .receiverDone => Unit
  | _ => Bool

/-- The paths an operation creates, opens for writing, renames, links or deletes. -/
def ReceiverOp.touches : ReceiverOp → List Path
  | .mkdir p _ => [p]
  | .createSymlink _ link => [link]
  | .removeFile p => [p]
  | .hardLink _ link => [link]
  | .copyFile _ dst => [dst]
  | .rename src dst => [src, dst]
  | .createTmp tmp => [tmp]
  | .commitTmp tmp dst _ _ => [tmp, dst]
  | .openInplace p _ => [p]
  | .openAppend p => [p]
  | .writeFile p _ _ => [p]
  | .setMetadata p _ => [p]
  | _ => []

abbrev ReceiverProg := Prog ReceiverOp ReceiverOp.Reply

abbrev ReceiverM := Fallible ReceiverOp ReceiverOp.Reply Failure

def query (op : ReceiverOp) : ReceiverM op.Reply := ExceptT.lift (Prog.perform op)

def require (ok : Bool) : ReceiverM Unit := if ok then pure () else throw (.fs .other)

/-- An operation whose failure is returned to the caller. -/
def effect (op : ReceiverOp) (succeeded : op.Reply → Bool) : ReceiverM Unit := do
  let r ← query op
  require (succeeded r)

/-! ## Decisions -/

def checkExistenceSkip (options : TransferConfig) (destExists : Bool) : Bool :=
  (options.existing && !destExists) || (options.ignoreExisting && destExists)

/-- `check_size_limits`; the length is compared as a `u64`. -/
def checkSizeLimits (options : TransferConfig) (e : FileEntry) : Bool :=
  let len := asUsize e.len
  options.maxSize.any (fun max => decide (len > max)) ||
    options.minSize.any (fun min => decide (len < min))

/-- `quick_check_skip` once the destination has been looked at. -/
def quickCheckSkip (options : TransferConfig) (e : FileEntry) : Option FileMetadata → Bool
  | none => false
  | some m =>
    if options.ignoreTimes then false
    else if options.update ∧ m.mtime > e.mtime then true
    else if m.len ≠ e.len then false
    else if options.sizeOnly then true
    else decide ((m.mtime - e.mtime).natAbs ≤ options.modifyWindow)

/-- The test of `check_alt_dest` on one candidate. -/
def altMatches (options : TransferConfig) (e : FileEntry) : Option FileMetadata → Bool
  | none => false
  | some m => decide (m.len = e.len ∧ (m.mtime - e.mtime).natAbs ≤ options.modifyWindow)

/-- `check_alt_dest`: the first directory that has the file. -/
def checkAltDest (options : TransferConfig) (e : FileEntry) : List Path → ReceiverM (Option Path)
  | [] => pure none
  | dir :: dirs => do
    let m ← query (.lstat (dir.join e.path))
    if altMatches options e m then pure (some (dir.join e.path))
    else checkAltDest options e dirs

def isUnsafeSymlink (target : List UInt8) : Bool :=
  let p := Path.ofBytes (Utf8.lossy target)
  p.absolute || climbsFrom 0 p.parts

def backupName (path : Path) (suffix : List UInt8) : Path :=
  Path.ofBytes (Utf8.lossy (path.fileName.getD []) ++ suffix)

def createBackup (path : Path) (suffix : List UInt8) (backupDir : Option Path) :
    ReceiverM Unit := do
  match backupDir with
  | some dir => do
    effect (.mkdir dir 0o755) id
    effect (.rename path (dir.join (backupName path suffix))) id
  | none => effect (.rename path (path.withFileName (backupName path suffix))) id

/-! ## The engine's operations on one entry -/

namespace ReceiverEngine

/-- The quick check of `should_skip_impl`. -/
def quickCheck (E : ReceiverEngine) (e : FileEntry) : ReceiverM Bool := do
  if E.options.checksumMode ∨ E.options.ignoreTimes then pure false
  else do
    let m ← query (.lstat (E.destPath e))
    pure (quickCheckSkip E.options e m)

/-- `should_skip_impl`. -/
def shouldSkip (E : ReceiverEngine) (e : FileEntry) : ReceiverM Bool := do
  let destExists ← query (.lexists (E.destPath e))
  if checkExistenceSkip E.options destExists then pure true
  else if checkSizeLimits E.options e then pure true
  else do
    let alt ← checkAltDest E.options e E.options.compareDest
    if alt.isSome then pure true else E.quickCheck e

/-- Whether `--keep-dirlinks` keeps what is at the destination of a directory. -/
def keepsDirlink (E : ReceiverEngine) (path : Path) : ReceiverM Bool :=
  if E.options.keepDirlinks ∧ E.options.dryRun = false then do
    let link ← query (.lstat path)
    if link.any (fun m => m.mode &&& sIfmt = sIflnk) then do
      let target ← query (.stat path)
      pure (target.any fun m => m.mode &&& sIfmt = sIfdir)
    else pure false
  else pure false

def chmodded (E : ReceiverEngine) (mode : UInt32) (isDir : Bool) : UInt32 :=
  match E.options.chmod with
  | some spec => spec mode isDir
  | none => mode

def dirMode (E : ReceiverEngine) (e : FileEntry) : UInt32 :=
  E.chmodded (if E.options.preservePerms then e.mode &&& 0o7777 else 0o755) true

/-- `create_directory_impl`. -/
def createDirectory (E : ReceiverEngine) (e : FileEntry) : ReceiverM Unit := do
  let path := E.destPath e
  let keep ← E.keepsDirlink path
  if keep = false ∧ E.options.dryRun = false then effect (.mkdir path (E.dirMode e)) id
  else pure ()

/-- `create_symlink_impl`; `false` if the link was skipped as unsafe. -/
def createSymlink (E : ReceiverEngine) (e : FileEntry) : ReceiverM Bool := do
  if E.options.safeLinks ∧ isUnsafeSymlink e.linkTarget = true then pure false
  else if E.options.dryRun = false ∧ e.linkTarget ≠ [] then do
    effect (.createSymlink e.linkTarget (E.destPath e)) id
    pure true
  else pure true

/-- `try_link_dest_impl`. -/
def tryLinkDest (E : ReceiverEngine) (e : FileEntry) : ReceiverM Bool := do
  if E.linkDests = [] ∨ E.options.dryRun = true then pure false
  else do
    match ← checkAltDest E.options e E.linkDests with
    | none => pure false
    | some alt => do
      let _ ← query (.removeFile (E.destPath e))
      query (.hardLink alt (E.destPath e))

/-- `try_copy_dest_impl`. -/
def tryCopyDest (E : ReceiverEngine) (e : FileEntry) : ReceiverM Bool := do
  if E.options.copyDest = [] ∨ E.options.dryRun = true then pure false
  else do
    match ← checkAltDest E.options e E.options.copyDest with
    | none => pure false
    | some alt => query (.copyFile alt (E.destPath e))

def ensureParent (E : ReceiverEngine) (e : FileEntry) : ReceiverM Unit := do
  match (E.destPath e).parent with
  | none => pure ()
  | some parent => do
    let present ← query (.lexists parent)
    if present then pure () else effect (.mkdir parent 0o755) id

end ReceiverEngine

inductive EntryAction where
  | handled (kind : HandledKind)
  | skipped
  | deferredHardlink (sourceName : List UInt8)
  | needsTransfer (basis : List UInt8)
  deriving DecidableEq, Repr

/-- `dispatch_entry_impl` for a regular file that is not a hard link to another entry. -/
def ReceiverEngine.dispatchFile (E : ReceiverEngine) (e : FileEntry) : ReceiverM EntryAction := do
  if ← E.shouldSkip e then pure .skipped
  else if ← E.tryLinkDest e then pure (.handled .linkDest)
  else if ← E.tryCopyDest e then pure (.handled .copyDest)
  else if E.options.dryRun then pure (.handled .dryRun)
  else do
    let basis ← query (.mapFile (E.destPath e))
    pure (.needsTransfer (basis.getD []))

/-- `dispatch_entry_impl`. -/
def ReceiverEngine.dispatchEntry (E : ReceiverEngine) (e : FileEntry) : ReceiverM EntryAction :=
  if e.isDir then do
    E.createDirectory e
    pure (.handled .directory)
  else if e.isSymlink ∧ E.options.preserveLinks then do
    let created ← E.createSymlink e
    pure (if created then .handled .symlink else .skipped)
  else if e.isFile = false then pure .skipped
  else match e.hlinkSource with
    | some sourceName => pure (.deferredHardlink sourceName)
    | none => E.dispatchFile e

/-! ## Writing the received data -/

/-- The writer `create_writer` returns. -/
inductive ReceiverWriter where
  | atomic (tmp dst : Path) (mode : Option UInt32)
  | direct

namespace ReceiverEngine

/-- The temporary file for `path` lies beside it. -/
def tmpBeside (path : Path) (name : FileName) : Path :=
  (path.parent.getD ⟨false, [.cur]⟩).join (.single name.val)

def writeFileStream (path : Path) (mode : Option UInt32) : ReceiverM ReceiverWriter := do
  let name ← query .uniqueTmpName
  effect (.createTmp (tmpBeside path name)) id
  pure (.atomic (tmpBeside path name) path mode)

/-- The backup of `create_writer` and `receive_file`. -/
def backupExisting (E : ReceiverEngine) (path : Path) : ReceiverM Unit := do
  if E.options.backup then do
    let present ← query (.lexists path)
    if present then createBackup path E.options.suffix E.backupDir else pure ()
  else pure ()

def fileMode (E : ReceiverEngine) (e : FileEntry) : Option UInt32 :=
  if E.options.preservePerms then some (E.chmodded (e.mode &&& 0o7777) false) else none

/-- The file name `--partial-dir` uses. -/
def partialName (name : Option (List UInt8)) : Path :=
  Path.single (name.getD "partial".toUTF8.toList)

/-- `create_writer` without `--append`. -/
def createFreshWriter (E : ReceiverEngine) (e : FileEntry) : ReceiverM ReceiverWriter := do
  E.backupExisting (E.destPath e)
  if E.options.inplace then do
    effect (.openInplace (E.destPath e) (E.fileMode e)) id
    pure .direct
  else match E.options.partialDir with
    | some dir => do
      effect (.mkdir dir 0o755) id
      writeFileStream (dir.join (partialName e.path.fileName)) (E.fileMode e)
    | none => writeFileStream (E.destPath e) (E.fileMode e)

def createWriter (E : ReceiverEngine) (e : FileEntry) : ReceiverM ReceiverWriter := do
  if E.options.append ∨ E.options.appendVerify then do
    E.ensureParent e
    effect (.openAppend (E.destPath e)) id
    pure .direct
  else E.createFreshWriter e

/-- `drop(writer)`; what goes wrong in it is not reported. -/
def dropWriter (w : ReceiverWriter) (data : List UInt8) : ReceiverM Unit :=
  match w with
  | .atomic tmp dst mode => do
    let _ ← query (.commitTmp tmp dst mode data)
    pure ()
  | .direct => pure ()

/-- The rename from the partial directory to the destination. -/
def movePartial (E : ReceiverEngine) (e : FileEntry) (partialPath : Path) : ReceiverM Unit := do
  if partialPath ≠ E.destPath e then effect (.rename partialPath (E.destPath e)) id
  else pure ()

/-- The first half of `finish_file`. -/
def finishPartial (E : ReceiverEngine) (e : FileEntry) : ReceiverM Unit :=
  match E.options.partialDir with
  | some dir => E.movePartial e (dir.join (partialName (E.destPath e).fileName))
  | none => pure ()

/-- `finish_file` for a wire transfer. -/
def finishFile (E : ReceiverEngine) (e : FileEntry) : ReceiverM Unit := do
  E.finishPartial e
  query (.setMetadata (E.destPath e) e)

/-- The write of `receive_file` and its move out of the partial directory. -/
def writeSparse (E : ReceiverEngine) (e : FileEntry) (data : List UInt8) : ReceiverM Unit := do
  match E.options.partialDir with
  | some dir => do
    let partialPath := dir.join (((E.destPath e).fileName.map Path.single).getD ⟨false, []⟩)
    effect (.mkdir dir 0o755) id
    effect (.writeFile partialPath data (E.fileMode e)) id
    E.movePartial e partialPath
  | none => effect (.writeFile (E.destPath e) data (E.fileMode e)) id

/-- `receive_file`, which the wire receiver uses for `--sparse` only, so the file is written in
place. -/
def receiveFileSparse (E : ReceiverEngine) (e : FileEntry) (data : List UInt8) :
    ReceiverM Unit := do
  E.backupExisting (E.destPath e)
  E.writeSparse e data
  query (.setMetadata (E.destPath e) e)

end ReceiverEngine

end Ferrosync
