import Ferrosync.Engine.ReceiverRuns
import Ferrosync.Engine.ServerOptions

set_option autoImplicit false

/-! # The three receive flows and lexical containment

A received file list reaches `receiver_loop_pipelined` in three ways: a client pull (`run_pull`),
the replay of a batch (`run_read_batch`) and a push to a daemon (`handle_receive_impl`). The first
two pass every name through `sanitize_path` first; the third does not.

`ReceiveContained` says that no path an entry makes the receiver touch lies outside the
destination root, lexically, and that a list with an escaping name is rejected before anything is
done. `receive_contained_iff` says for which lists and options a flow has it, and for which it has
not: everything in its condition is needed, because a run that goes through the whole list can be
made to come to the operation in question (`ReceiverRuns`).
-/

namespace Ferrosync

open UnixPath Interaction

/-! ## The flows -/

def sanitizePath (dest : Path) (name : List UInt8) : Except Failure Path :=
  let path := Path.ofBytes name
  if path.absolute then .error (.fs .permissionDenied)
  else if Part.up ∈ path.parts then .error (.fs .permissionDenied)
  else .ok (dest.join path)

/-- The validation loop of `run_pull` and `run_read_batch`. -/
def sanitizeAll (dest : Path) : List FileEntry → Except Failure Unit
  | [] => .ok ()
  | e :: entries =>
    match sanitizePath dest (Utf8.lossy e.name) with
    | .error err => .error err
    | .ok _ => sanitizeAll dest entries

inductive ReceiveFlow where
  | pull
  | readBatch
  /-- A daemon's module. -/
  | server (name : String) (readOnly : Bool) (path : Path)

/-- `run_pull` and `run_read_batch` up to the pipelined receiver; `idle` if the files are only
listed or counted. -/
def acceptChecked (options : TransferConfig) (idle : Bool) (entries : List FileEntry) :
    Except Failure (Option ReceiverEngine) :=
  match options.dest with
  | none => .error (.fs .notFound)
  | some dest =>
    match sanitizeAll dest entries with
    | .error err => .error err
    | .ok () => .ok (if idle then none else some ⟨dest, options⟩)

/-- A flow up to the pipelined receiver: the error it ends with, or the engine it runs, if it runs
one. -/
def ReceiveFlow.accept (flow : ReceiveFlow) (options : TransferConfig) (entries : List FileEntry) :
    Except Failure (Option ReceiverEngine) :=
  match flow with
  | .pull => acceptChecked options (options.listOnly || options.dryRun) entries
  | .readBatch => acceptChecked options options.dryRun entries
  | .server name readOnly path =>
    if readOnly then
      .error (.protocol (.handshake
        ("module '" ++ name ++ "' is read-only, cannot receive files")))
    else .ok (some ⟨path, options⟩)

/-- The flow hands lists to the receiver as they come. -/
def ReceiveFlow.Unchecked : ReceiveFlow → Prop
  | .server _ readOnly _ => readOnly = false
  | _ => False

/-! ## Containment -/

/-- The name is absolute or climbs out of the root. -/
def FileEntry.Escapes (e : FileEntry) : Prop := e.path.absolute = true ∨ Climbs e.path.parts

instance (e : FileEntry) : Decidable e.Escapes := inferInstanceAs (Decidable (_ ∨ _))

/-- Containment of a flow on a file list. The world, which answers for the file system and the
wire, is arbitrary, and so is the order in which the two tasks take their steps. -/
structure ReceiveContained (flow : ReceiveFlow) (options : TransferConfig)
    (items : List (FileEntry × Int)) (cwd : List (List UInt8)) : Prop where
  within : ∀ (P : Pipeline), flow.accept options (items.map Prod.fst) = .ok (some P.engine) →
    ∀ {ω : Type} (world : Env ω ReceiverOp ReceiverOp.Reply) (w : ω)
      (events : List (Event (ω × ChannelState) ReceiverOp))
      (c : Par (ω × ChannelState) ReceiverOp ReceiverOp.Reply Unit (Except Failure Unit)),
      Par.Run (pipelineEnv world) (P.start items w) events c →
        ∀ ev ∈ events, ∀ p ∈ ev.op.touches, Within cwd P.engine.dest p
  rejects : ∀ item ∈ items, item.1.Escapes →
    ∃ err, flow.accept options (items.map Prod.fst) = .error err

/-- Every regular file has a name with a component other than `.`. A file named `.` would be written
beside the root, by way of its parent. -/
def NoRootFile (items : List (FileEntry × Int)) : Prop :=
  ∀ item ∈ items, item.1.isFile = true → dropCur item.1.path.parts ≠ []

instance (items : List (FileEntry × Int)) : Decidable (NoRootFile items) :=
  inferInstanceAs (Decidable (∀ item ∈ items, _ → _))

/-- The paths a backup of the entry's destination uses. -/
def ReceiverEngine.backupPaths (E : ReceiverEngine) (e : FileEntry) : List Path :=
  let name := backupName (E.destPath e) E.options.suffix
  match E.backupDir with
  | some dir => [dir, dir.join name]
  | none => [(E.destPath e).withFileName name]

/-- The paths beside the destination of an entry lie in the root: the directory a regular file is
put into and, if the options let the file be transferred, what `--partial-dir` and `--backup` name
for it.

A name that does not escape is not enough for any of the three. The parent of a regular file named
`.` is the parent of the root, and the other two come from the options, which in a push to a daemon
are the client's. The partial directory is made by the modes that write into it; `--inplace` and
`--append` only look there for the file that `finish_file` renames. -/
structure ReceiverEngine.KeepsWithin (E : ReceiverEngine) (cwd : List (List UInt8))
    (e : FileEntry) : Prop where
  parent : e.isFile = true → ∀ dir, (E.destPath e).parent = some dir → Within cwd E.dest dir
  partialDir : E.Transfers e → E.UsesPartialDir → ∀ dir, E.options.partialDir = some dir →
    Within cwd E.dest dir
  partialFile : E.Transfers e → ∀ dir, E.options.partialDir = some dir →
    Within cwd E.dest (E.partialFile e dir)
  backup : E.Transfers e → E.Backs → ∀ p ∈ E.backupPaths e, Within cwd E.dest p

/-! ## The sanitizer -/

theorem sanitizePath_ok_iff (dest : Path) (name : List UInt8) :
    (∃ p, sanitizePath dest (Utf8.lossy name) = .ok p) ↔
      (Path.ofBytes name).absolute = false ∧ Part.up ∉ (Path.ofBytes name).parts := by
  unfold sanitizePath
  simp only [ofBytes_lossy_absolute, up_mem_ofBytes_lossy]
  split_ifs with habs hup
  · simp [habs]
  · simp [hup]
  · simp [habs, hup]

theorem sanitizeAll_ok {dest : Path} :
    ∀ {entries : List FileEntry}, sanitizeAll dest entries = .ok () →
      ∀ e ∈ entries, e.path.absolute = false ∧ Part.up ∉ e.path.parts
  | [], _ => by simp
  | e :: entries, h => by
    rw [sanitizeAll] at h
    split at h
    · cases h
    · next p hp =>
      intro e' he'
      rcases List.mem_cons.mp he' with rfl | he'
      · exact (sanitizePath_ok_iff dest e'.name).mp ⟨p, hp⟩
      · exact sanitizeAll_ok h e' he'

theorem not_escapes_of_no_up {e : FileEntry} (habs : e.path.absolute = false)
    (hup : Part.up ∉ e.path.parts) : ¬ e.Escapes := by
  rintro (h | h)
  · rw [habs] at h
    cases h
  · exact not_climbs_of_no_up hup h

variable {entries : List FileEntry} {options : TransferConfig} {flow : ReceiveFlow}

theorem acceptChecked_ok {idle : Bool} {engine : Option ReceiverEngine}
    (h : acceptChecked options idle entries = .ok engine) :
    ∃ dest, options.dest = some dest ∧ sanitizeAll dest entries = .ok () ∧
      engine = if idle then none else some ⟨dest, options⟩ := by
  unfold acceptChecked at h
  split at h
  · cases h
  · next dest hdest =>
    split at h
    · cases h
    · next hok => exact ⟨dest, hdest, hok, (Except.ok.inj h).symm⟩

/-- A flow that checks its names goes on only with lists without an escaping name. -/
theorem ReceiveFlow.no_escapes_of_accept {engine : Option ReceiverEngine}
    (h : flow.accept options entries = .ok engine) (hchecked : ¬ flow.Unchecked) :
    ∀ e ∈ entries, ¬ e.Escapes := by
  have hsan : ∀ idle, acceptChecked options idle entries = .ok engine →
      ∀ e ∈ entries, ¬ e.Escapes := by
    intro idle haccept e he
    obtain ⟨dest, -, hok, -⟩ := acceptChecked_ok haccept
    obtain ⟨habs, hup⟩ := sanitizeAll_ok hok e he
    exact not_escapes_of_no_up habs hup
  cases flow with
  | pull | readBatch => exact hsan _ h
  | server name readOnly path =>
    cases readOnly with
    | true => cases h
    | false => exact absurd rfl hchecked

/-! ## Every operation for an entry stays within the root -/

section Within

variable {E : ReceiverEngine} {e : FileEntry} {cwd : List (List UInt8)}

theorem within_destPath (hname : ¬ e.Escapes) : Within cwd E.dest (E.destPath e) := by
  simp only [FileEntry.Escapes, not_or, Bool.not_eq_true] at hname
  exact within_join (within_refl _ _) hname.1 hname.2

/-- The parent directory of a regular file's destination. -/
theorem within_parent (hname : ¬ e.Escapes) (hparts : dropCur e.path.parts ≠ []) {parent : Path}
    (h : (E.destPath e).parent = some parent) : Within cwd E.dest parent := by
  simp only [FileEntry.Escapes, not_or, Bool.not_eq_true] at hname
  exact within_parent_join hname.1 hname.2 hparts h

/-- A file that is not put into any directory has the root as its destination. -/
theorem within_cur (hname : ¬ e.Escapes) (hnone : (E.destPath e).parent = none) :
    Within cwd E.dest ⟨false, [.cur]⟩ := by
  simp only [FileEntry.Escapes, not_or, Bool.not_eq_true] at hname
  have hparts : (E.destPath e).parts = [] := by
    by_contra hne
    rw [Path.parent, if_neg hne] at hnone
    cases hnone
  rw [ReceiverEngine.destPath, Path.join, if_neg (by simp [hname.1])] at hparts
  split_ifs at hparts with hempty
  · obtain ⟨habs, hnil⟩ := hempty
    simp [Within, Path.resolve, habs, hnil, walk, step]
  · -- the root is `/`, and everything lies in it
    obtain ⟨hnil, -⟩ := List.append_eq_nil_iff.mp hparts
    have habs : E.dest.absolute = true := by simpa [hnil] using hempty
    simp [Within, Path.resolve, habs, hnil]

variable {dst : Path}

theorem WriteTarget.within (h : WriteTarget E e dst) (hname : ¬ e.Escapes)
    (hdir : ∀ dir, E.options.partialDir = some dir → Within cwd E.dest dir) :
    Within cwd E.dest dst := by
  cases h with
  | dest => exact within_destPath hname
  | inPartialDir hgiven => exact within_join_single (hdir _ hgiven) _

theorem SparseTarget.within (h : SparseTarget E e dst) (hname : ¬ e.Escapes)
    (hdir : ∀ dir, E.options.partialDir = some dir → Within cwd E.dest dir) :
    Within cwd E.dest dst := by
  cases h with
  | target htarget => exact htarget.within hname hdir
  | partialDir hgiven => exact within_join (hdir _ hgiven) rfl (by decide)

theorem WriteTarget.within_tmp {name : FileName} (h : WriteTarget E e dst) (hname : ¬ e.Escapes)
    (hparent : ∀ dir, (E.destPath e).parent = some dir → Within cwd E.dest dir)
    (hdir : ∀ dir, E.options.partialDir = some dir → Within cwd E.dest dir) :
    Within cwd E.dest (ReceiverEngine.tmpBeside dst name) := by
  refine within_join_single ?_ _
  cases h with
  | dest =>
    cases hp : (E.destPath e).parent with
    | none => exact within_cur hname hp
    | some dir => exact hparent dir hp
  | inPartialDir hgiven =>
    rw [parent_join_single]
    exact hdir _ hgiven

theorem touches_of_reads {op : ReceiverOp} (h : op.reads = true) : op.touches = [] := by
  cases op <;> first | rfl | cases h

/-- **What is done for an entry is done within the root**, if its name does not escape and the
paths beside its destination keep within. -/
theorem EntryOp.within {op : ReceiverOp} (h : EntryOp E e op) (hname : ¬ e.Escapes)
    (hkeeps : E.KeepsWithin cwd e) : ∀ p ∈ op.touches, Within cwd E.dest p := by
  have hdest : Within cwd E.dest (E.destPath e) := within_destPath hname
  -- one case for each operation that an entry can lead to, each with the paths it touches
  cases h with
  | read hlooks => simp [touches_of_reads (ReceiverOp.reads_of_looks hlooks)]
  | makeParent hfile hparent =>
    simpa [ReceiverOp.touches] using hkeeps.parent hfile _ hparent
  | makeDirectory | makeSymlink | unlink | link | copy | openInplace | openAppend | setMetadata =>
    simpa [ReceiverOp.touches] using hdest
  | makeBackupDir he hbacks hdir =>
    have hpaths := hkeeps.backup he hbacks
    simp only [ReceiverEngine.backupPaths, hdir, List.forall_mem_cons] at hpaths
    simpa [ReceiverOp.touches] using hpaths.1
  | backupIn he hbacks hdir =>
    have hpaths := hkeeps.backup he hbacks
    simp only [ReceiverEngine.backupPaths, hdir, List.forall_mem_cons] at hpaths
    simpa [ReceiverOp.touches, hdest] using hpaths.2.1
  | backupBeside he hbacks hdir =>
    have hpaths := hkeeps.backup he hbacks
    simp only [ReceiverEngine.backupPaths, hdir, List.forall_mem_cons] at hpaths
    simpa [ReceiverOp.touches, hdest] using hpaths.1
  | makePartialDir he huses hdir =>
    simpa [ReceiverOp.touches] using hkeeps.partialDir he huses _ hdir
  | createTmp he hmode htarget =>
    simpa [ReceiverOp.touches] using
      htarget.within_tmp hname (hkeeps.parent he.isFile) (hkeeps.partialDir he (.inl hmode))
  | commitTmp he hmode htarget =>
    have hdir := hkeeps.partialDir he (.inl hmode)
    simpa [ReceiverOp.touches] using
      ⟨htarget.within_tmp hname (hkeeps.parent he.isFile) hdir, htarget.within hname hdir⟩
  | writeSparse he hmode htarget =>
    simpa [ReceiverOp.touches] using htarget.within hname (hkeeps.partialDir he (.inr hmode))
  | movePartial he hdir hsrc htarget =>
    rcases hsrc with rfl | hmode
    · simpa [ReceiverOp.touches, hdest] using hkeeps.partialFile he _ hdir
    · simpa [ReceiverOp.touches, hdest] using
        htarget.within hname (hkeeps.partialDir he (.inr hmode))

/-- Without `--partial-dir` and `--backup`, every name with a component other than `.` will do. -/
theorem ReceiverEngine.KeepsWithin.of_plain (hname : ¬ e.Escapes)
    (hparts : dropCur e.path.parts ≠ []) (hgiven : E.options.partialDir = none)
    (hbackup : E.options.backup = false) : E.KeepsWithin cwd e where
  parent _ _ := within_parent hname hparts
  partialDir _ _ dir hdir := by
    rw [hgiven] at hdir
    cases hdir
  partialFile _ dir hdir := by
    rw [hgiven] at hdir
    cases hdir
  backup _ hbacks := by
    rw [ReceiverEngine.Backs, hbackup] at hbacks
    cases hbacks.1

end Within

/-! ## Every path is come to -/

/-- The operation touches a path outside the root. -/
def ReceiverOp.Leaves (cwd : List (List UInt8)) (root : Path) (op : ReceiverOp) : Prop :=
  ∃ p ∈ op.touches, ¬ Within cwd root p

instance (cwd : List (List UInt8)) (root : Path) (op : ReceiverOp) :
    Decidable (op.Leaves cwd root) :=
  inferInstanceAs (Decidable (∃ p ∈ op.touches, _))

/-- Some run for the list does something outside the root. -/
def Pipeline.LeavesRoot (P : Pipeline) (cwd : List (List UInt8)) (items : List (FileEntry × Int)) :
    Prop :=
  Pipeline.Comes (ReceiverOp.Leaves cwd P.engine.dest) (P.start items ())

section Leaves

variable {P : Pipeline} {E : ReceiverEngine} {e : FileEntry} {cwd : List (List UInt8)}
  {s : Unit × ChannelState} {Q : ReceiverOp → Prop} {o : ReceiverOp}

theorem effect_performs {succeeded : o.Reply → Bool} (hop : o.isChannel = false) (r : o.Reply)
    (hQ : Q o) : PerformsE freeEnv Q s (effect o succeeded) :=
  PerformsE.bind_left (.lift (.now (free_answers hop r s) hQ))

theorem ensureParent_performs {dir : Path} (hdir : (E.destPath e).parent = some dir)
    (hout : ¬ Within cwd E.dest dir) :
    PerformsE freeEnv (ReceiverOp.Leaves cwd E.dest) s (E.ensureParent e) := by
  unfold ReceiverEngine.ensureParent
  rw [hdir]
  refine .bind_right (free_query (o := .lexists dir) rfl false) ?_
  exact effect_performs rfl true ⟨dir, by simp [ReceiverOp.touches], hout⟩

/-- If there is something to back up, each path of the backup is used. -/
theorem backupExisting_performs (hbackup : E.options.backup = true) {p : Path}
    (hp : p ∈ E.backupPaths e) (hout : ¬ Within cwd E.dest p) :
    PerformsE freeEnv (ReceiverOp.Leaves cwd E.dest) s (E.backupExisting (E.destPath e)) := by
  unfold ReceiverEngine.backupExisting
  rw [if_pos hbackup]
  refine .bind_right (free_query (o := .lexists (E.destPath e)) rfl true) ?_
  rw [if_pos rfl]
  unfold createBackup
  unfold ReceiverEngine.backupPaths at hp
  -- in a directory of its own the backup first makes that directory; beside the file it is one
  -- rename
  cases hdir : E.backupDir with
  | none =>
    simp only [hdir, List.mem_singleton] at hp
    subst hp
    exact effect_performs rfl true ⟨_, by simp [ReceiverOp.touches], hout⟩
  | some dir =>
    simp only [hdir, List.mem_cons, List.not_mem_nil, or_false] at hp
    rcases hp with rfl | rfl
    · exact (effect_performs rfl true ⟨_, by simp [ReceiverOp.touches], hout⟩).bind_left
    · exact .bind_right (free_effect rfl true rfl)
        (effect_performs rfl true ⟨_, by simp [ReceiverOp.touches], hout⟩)

variable (basis : List UInt8) (blength : Nat)

/-- The data of a transfer, for what is done before anything is written. -/
theorem receiveData_performs_first (hmode : P.engine.writeMode ≠ .append)
    (hsparse : P.engine.writeMode = .sparse →
      PerformsE freeEnv Q s (P.engine.receiveFileSparse e []))
    (hfresh : P.engine.writeMode ≠ .sparse → PerformsE freeEnv Q s (P.engine.createFreshWriter e)) :
    PerformsE freeEnv Q s (P.receiveData e basis blength) := by
  unfold ReceiverEngine.writeMode at hmode hsparse hfresh
  unfold Pipeline.receiveData
  split_ifs with hopt
  · rw [if_pos hopt] at hsparse
    exact .bind_right (free_query (o := .readDelta true basis blength) rfl (.ok [])) (hsparse rfl)
  · rw [if_neg hopt] at hmode hfresh
    have happend : ¬ (P.engine.options.append = true ∨ P.engine.options.appendVerify = true) :=
      fun h => hmode (if_pos h)
    have hwriter : PerformsE freeEnv Q s (P.engine.createWriter e) := by
      rw [ReceiverEngine.createWriter, if_neg happend]
      refine hfresh ?_
      split_ifs <;> decide
    exact hwriter.bind_left

theorem receiveData_performs_backup (hbacks : P.engine.Backs) {p : Path}
    (hp : p ∈ P.engine.backupPaths e) (hout : ¬ Within cwd P.engine.dest p) :
    PerformsE freeEnv (ReceiverOp.Leaves cwd P.engine.dest) s (P.receiveData e basis blength) := by
  have hbackup := fun s => backupExisting_performs (s := s) hbacks.1 hp hout
  exact receiveData_performs_first basis blength hbacks.2 (fun _ => (hbackup s).bind_left)
    fun _ => (hbackup s).bind_left

theorem receiveData_performs_partialDir (huses : P.engine.UsesPartialDir) {dir : Path}
    (hdir : P.engine.options.partialDir = some dir) (hout : ¬ Within cwd P.engine.dest dir) :
    PerformsE freeEnv (ReceiverOp.Leaves cwd P.engine.dest) s (P.receiveData e basis blength) := by
  have hmkdir : PerformsE freeEnv (ReceiverOp.Leaves cwd P.engine.dest) s
      (effect (.mkdir dir 0o755) id) :=
    effect_performs rfl true ⟨dir, by simp [ReceiverOp.touches], hout⟩
  -- the directory is made before the first byte is written, with and without `--sparse`
  refine receiveData_performs_first basis blength ?_ ?_ ?_
  · rcases huses with h | h <;> rw [h] <;> decide
  · intro _
    refine .bind_right (backupExisting_returns _) (PerformsE.bind_left ?_)
    rw [ReceiverEngine.writeSparse, hdir]
    exact hmkdir.bind_left
  · intro hsparse
    have hfresh : P.engine.writeMode = .fresh := huses.resolve_right hsparse
    have hinplace : ¬ P.engine.options.inplace = true := by
      unfold ReceiverEngine.writeMode at hfresh
      split_ifs at hfresh
      assumption
    refine .bind_right (backupExisting_returns _) ?_
    rw [if_neg hinplace, hdir]
    exact hmkdir.bind_left

/-- Without `--sparse`, `finish_file` renames the partial file, whether it was written or not. -/
theorem receiveData_performs_partialFile (hsparse : P.engine.writeMode ≠ .sparse)
    (hname : ¬ e.Escapes) {dir : Path} (hdir : P.engine.options.partialDir = some dir)
    (hout : ¬ Within cwd P.engine.dest (P.engine.partialFile e dir)) :
    PerformsE freeEnv (ReceiverOp.Leaves cwd P.engine.dest) s (P.receiveData e basis blength) := by
  -- the two paths differ, as the destination is within the root; and so there is a rename
  have hne : P.engine.partialFile e dir ≠ P.engine.destPath e := by
    intro heq
    rw [heq] at hout
    exact hout (within_destPath hname)
  have hfinish : PerformsE freeEnv (ReceiverOp.Leaves cwd P.engine.dest) s
      (P.engine.finishFile e) := by
    refine PerformsE.bind_left ?_
    rw [ReceiverEngine.finishPartial, hdir]
    show PerformsE _ _ s (P.engine.movePartial e (P.engine.partialFile e dir))
    rw [ReceiverEngine.movePartial, if_pos hne]
    exact effect_performs rfl true ⟨_, List.mem_cons_self, hout⟩
  unfold Pipeline.receiveData
  split_ifs with hopt
  · exact absurd (if_pos hopt) hsparse
  · obtain ⟨w, hw⟩ := createWriter_returns (E := P.engine) (e := e) (s := s)
    refine .bind_right hw ?_
    refine .bind_right (free_query (o := .readDelta false basis blength) rfl (.ok [])) ?_
    exact .bind_right (dropWriter_returns w []) hfinish

end Leaves

/-- **A path beside the destination that lies outside the root is come to**, whatever entries stand
before it in the list. -/
theorem leavesRoot_of_not_keepsWithin {P : Pipeline} {items : List (FileEntry × Int)}
    {cwd : List (List UInt8)} {e : FileEntry} {ndx : Int} (hmem : (e, ndx) ∈ items)
    (hname : ¬ e.Escapes) (h : ¬ P.engine.KeepsWithin cwd e) : P.LeavesRoot cwd items := by
  by_contra hstays
  have hpartialDir : P.engine.Transfers e → P.engine.UsesPartialDir →
      ∀ dir, P.engine.options.partialDir = some dir → Within cwd P.engine.dest dir := by
    intro he huses dir hdir
    by_contra hout
    exact hstays (Pipeline.comes_of_receive hmem he fun _ =>
      receiveData_performs_partialDir _ _ huses hdir hout)
  refine h ⟨?_, hpartialDir, ?_, ?_⟩
  · intro hfile dir hdir
    by_contra hout
    refine hstays (Pipeline.comes_of_generate hmem fun state => PerformsE.bind_left ?_)
    rw [Pipeline.prepareParent, if_pos hfile]
    exact .lift (ensureParent_performs hdir hout)
  · intro he dir hdir
    -- in a directory that is in the root, the partial file is in the root as well
    by_cases huses : P.engine.UsesPartialDir
    · exact within_join_single (hpartialDir he huses dir hdir) _
    by_contra hout
    exact hstays (Pipeline.comes_of_receive hmem he fun _ =>
      receiveData_performs_partialFile _ _ (fun h => huses (.inr h)) hname hdir hout)
  · intro he hbacks p hp
    by_contra hout
    exact hstays (Pipeline.comes_of_receive hmem he fun _ =>
      receiveData_performs_backup _ _ hbacks hp hout)

def srvPipeline : Pipeline where
  engine := ⟨.ofBytes [slash, 0x73, 0x72, 0x76], .default (.ofBytes [slash, 0x73, 0x72, 0x76])⟩
  externals := padExternals
  ctx := padContext 4
  wire := .new 31 0

def climbingDir : FileEntry :=
  { FileEntry.default with name := [dot, dot, slash, 0x78], mode := sIfdir }

/-- A regular file named `.`. -/
def rootFile : FileEntry := { FileEntry.default with name := [dot], mode := sIfreg }

def plainDir : FileEntry := { FileEntry.default with name := [0x61], mode := sIfdir }

def plainFile : FileEntry := { FileEntry.default with name := [0x61, slash, 0x62], mode := sIfreg }

/-- What the receiver reads of the parsed arguments, with the `ChmodSpec` of `--chmod`. -/
def TransferOptions.config (o : TransferOptions) (chmod : Option (UInt32 → Bool → UInt32)) :
    TransferConfig where
  dest := o.dest.map .ofBytes
  preserveLinks := o.preserveLinks
  preservePerms := o.preservePerms
  checksumMode := o.checksumMode
  update := o.update
  ignoreTimes := o.ignoreTimes
  sizeOnly := o.sizeOnly
  existing := o.existing
  ignoreExisting := o.ignoreExisting
  maxSize := o.maxSize.map UInt64.toNat
  minSize := o.minSize.map UInt64.toNat
  modifyWindow := o.modifyWindow.toNat
  fuzzy := o.fuzzy
  inplace := o.inplace
  sparse := o.sparse
  backup := o.backup
  backupDir := o.backupDir.map .ofBytes
  suffix := Text.encode o.suffix
  partialDir := o.partialDir.map .ofBytes
  append := o.append
  appendVerify := o.appendVerify
  safeLinks := o.safeLinks
  keepDirlinks := o.keepDirlinks
  linkDest := o.linkDest.map .ofBytes
  copyDest := o.copyDest.map .ofBytes
  compareDest := o.compareDest.map .ofBytes
  dryRun := o.dryRun
  listOnly := o.listOnly
  chmod := chmod

end Ferrosync
