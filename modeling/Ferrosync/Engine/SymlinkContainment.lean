import Ferrosync.Lib.UnixTree
import Ferrosync.Engine.ReceiveFlows
import Ferrosync.Engine.Pairing

set_option autoImplicit false

/-! # Containment through symbolic links

The pipelined receiver over a file tree in which paths are resolved through symbolic links, as
they are at the moment of each operation. `treeEnv` says what the operations of `UnixFileSystem`
do to the tree; any of them may also fail.

`pull_writes_inside`: as long as the steps that change links leave none that leads out of the
root, everything the receiver writes lies below the root. `create_symlink_impl` does not see to
that (`pull_writes_outside`).
-/

namespace Ferrosync

open UnixPath Interaction

/-! ## The operations on a tree -/

/-- `create_symlink`: what is at the path is removed first. -/
def CreatesSymlink (cwd : Loc) (t : Tree) (target : List UInt8) (link : Path) (ok : Bool)
    (t' : Tree) : Prop :=
  match ok with
  | false => t' = t ∨ t.Removes cwd link t'
  | true => t.Symlinks cwd (.ofBytes target) link t' ∨
      ∃ bare, t.Removes cwd link bare ∧ Tree.Symlinks bare cwd (.ofBytes target) link t'

/-- A file opened for writing; it may have been created even if a write then fails. -/
def Writes (cwd : Loc) (t : Tree) (p : Path) (ok : Bool) (t' : Tree) : Prop :=
  (ok = false ∧ t' = t) ∨ t.Opens cwd p t'

/-- What the operations do to the tree, under the answers they can give. -/
def treeEnv (cwd : Loc) (t : Tree) : (op : ReceiverOp) → op.Reply → Tree → Prop
  | .lexists p, found, t' => t' = t ∧ found = (t.find cwd p).isSome
  | .lstat p, m, t' => t' = t ∧ m.isSome = (t.find cwd p).isSome
  | .stat p, m, t' => t' = t ∧ m.isSome = ((t.resolve cwd p).bind t).isSome
  | .mkdir p _, ok, t' => ∃ k, t' = t.mkdirAll cwd p k ∧ (ok = true → k = p.parts.length)
  | .createSymlink target link, ok, t' => CreatesSymlink cwd t target link ok t'
  | .removeFile p, ok, t' => (ok = false ∧ t' = t) ∨ (ok = true ∧ t.Removes cwd p t')
  | .hardLink src p, ok, t' => (ok = false ∧ t' = t) ∨ (ok = true ∧ t.HardLinks cwd src p t')
  | .rename src dst, ok, t' => (ok = false ∧ t' = t) ∨ (ok = true ∧ t.Renames cwd src dst t')
  | .copyFile _ dst, ok, t' => Writes cwd t dst ok t'
  | .createTmp tmp, ok, t' => Writes cwd t tmp ok t'
  | .openInplace p _, ok, t' => Writes cwd t p ok t'
  | .openAppend p, ok, t' => Writes cwd t p ok t'
  | .writeFile p _ _, ok, t' => Writes cwd t p ok t'
  -- the drop of the writer: the rename, or the removal of the temporary file, or neither
  | .commitTmp tmp dst _ _, _, t' => t' = t ∨ t.Removes cwd tmp t' ∨ t.Renames cwd tmp dst t'
  | _, _, t' => t' = t

/-- The operations that can change links. -/
def ReceiverOp.movesLinks : ReceiverOp → Bool
  | .createSymlink _ _ | .removeFile _ | .hardLink _ _ | .rename _ _ | .commitTmp _ _ _ _ => true
  | _ => false

theorem Writes.links {cwd : Loc} {t t' : Tree} {p : Path} {ok : Bool} (h : Writes cwd t p ok t') :
    t'.links = t.links := by
  rcases h with ⟨-, rfl⟩ | h
  · rfl
  · exact h.links

/-- No other operation changes a link. -/
theorem treeEnv_links {cwd : Loc} {t t' : Tree} {op : ReceiverOp} {r : op.Reply}
    (h : treeEnv cwd t op r t') (hop : op.movesLinks = false) : t'.links = t.links := by
  cases op with
  | createSymlink | removeFile | hardLink | rename | commitTmp => cases hop
  | mkdir p mode =>
    obtain ⟨k, rfl, -⟩ := h
    exact Tree.mkdirAll_links t cwd p k
  | copyFile | createTmp | openInplace | openAppend | writeFile => exact Writes.links h
  | lexists | lstat | stat => rw [h.1]
  | mapFile | findFuzzyBasis | uniqueTmpName | setMetadata | writeRequest | readHeader | readDelta
  | writeSuccess | send | recv | generatorDone | joinGenerator | receiverDone =>
    rw [show t' = t from h]

/-! ## Where is written -/

/-- The files an operation opens for writing. -/
def ReceiverOp.opened : ReceiverOp → List Path
  | .copyFile _ p | .createTmp p | .openInplace p _ | .openAppend p | .writeFile p _ _ => [p]
  | _ => []

/-- The names an operation puts a file at. -/
def ReceiverOp.placed : ReceiverOp → List Path
  | .rename _ dst | .commitTmp _ dst _ _ => [dst]
  | _ => []

theorem nothing_written_of_reads {op : ReceiverOp} (h : op.reads = true) :
    op.opened = [] ∧ op.placed = [] := by
  cases op <;> first | exact ⟨rfl, rfl⟩ | cases h

/-- What an operation writes lies below the root, in the tree as it is: the paths that are opened
through a link at the end, and those at which a name is made or removed. -/
structure WritesInside (cwd root : Loc) (t : Tree) (op : ReceiverOp) : Prop where
  opened : ∀ p ∈ op.opened, ∀ loc, t.resolve cwd p = some loc → root <+: loc
  placed : ∀ p ∈ op.placed, ∀ loc, t.place cwd p = some loc → root <+: loc

/-- `--partial-dir` and `--backup-dir` are given as paths below the destination, and the suffix of a
backup has no slash; these paths come from the options and not from the list. -/
structure AuxBelow (dest : Path) (options : TransferConfig) : Prop where
  partialDir : ∀ dir, options.partialDir = some dir → UnixPath.Below dest dir
  backupDir : options.backup = true → ∀ dir, options.backupDir = some dir →
    UnixPath.Below dest (resolveDir dest dir)
  suffix : options.backup = true → slash ∉ options.suffix

theorem AuxBelow.backupDir_below {E : ReceiverEngine} (h : AuxBelow E.dest E.options)
    (hbackup : E.options.backup = true) {dir : Path} (hdir : E.backupDir = some dir) :
    UnixPath.Below E.dest dir := by
  obtain ⟨raw, hraw, rfl⟩ := Option.map_eq_some_iff.mp hdir
  exact h.backupDir hbackup raw hraw

section Entry

variable {E : ReceiverEngine} {e : FileEntry}

theorem below_destPath (hname : e.path.Plain) : UnixPath.Below E.dest (E.destPath e) :=
  (below_refl E.dest).join hname

theorem strictlyBelow_destPath (hname : e.path.Plain) (hparts : dropCur e.path.parts ≠ []) :
    StrictlyBelow E.dest (E.destPath e) :=
  (below_refl E.dest).join_strict hname hparts

theorem WriteTarget.strictlyBelow {dst : Path} (h : WriteTarget E e dst) (hname : e.path.Plain)
    (hparts : dropCur e.path.parts ≠ []) (haux : AuxBelow E.dest E.options) :
    StrictlyBelow E.dest dst := by
  cases h with
  | dest => exact strictlyBelow_destPath hname hparts
  | inPartialDir hdir => exact (haux.partialDir _ hdir).join_single _

theorem SparseTarget.below {dst : Path} (h : SparseTarget E e dst) (hname : e.path.Plain)
    (hparts : dropCur e.path.parts ≠ []) (haux : AuxBelow E.dest E.options) : UnixPath.Below E.dest dst := by
  cases h with
  | target htarget => exact (htarget.strictlyBelow hname hparts haux).below
  | partialDir hdir => exact (haux.partialDir _ hdir).join ⟨rfl, by simp⟩

theorem below_tmpBeside {dst : Path} (h : StrictlyBelow E.dest dst) (name : FileName) :
    UnixPath.Below E.dest (ReceiverEngine.tmpBeside dst name) := by
  obtain ⟨parent, hparent, hbelow⟩ := h.parent
  rw [ReceiverEngine.tmpBeside, hparent]
  exact (hbelow.join_single name.val).below

/-- The backup name of a regular file's destination is a single name. -/
theorem backupName_single (hname : e.path.Plain) (hparts : dropCur e.path.parts ≠ [])
    {suffix : List UInt8} (hslash : slash ∉ suffix) :
    (E.destPath e).fileName.isSome = true ∧
      ∃ name, backupName (E.destPath e) suffix = .single name := by
  have hcur : e.path.parts.getLast? ≠ some .cur := fun h => hparts (dropCur_ofBytes_of_last_cur h)
  obtain ⟨name, hfile, hmem⟩ : ∃ name, (E.destPath e).fileName = some name ∧
      Part.normal name ∈ e.path.parts := fileName_join hname.1 hname.2 hcur hparts
  have hbase : IsName name := normal_mem_ofBytes hmem
  refine ⟨by rw [hfile]; rfl, Utf8.lossy name ++ suffix, ?_⟩
  rw [backupName, hfile, Option.getD_some, (hbase.lossy_append hslash).ofBytes_eq]

/-- What is opened for an entry lies below the destination, and so does every name a file is put
at. -/
theorem EntryOp.below {op : ReceiverOp} (h : EntryOp E e op) (hname : e.path.Plain)
    (hroot : e.isFile = true → dropCur e.path.parts ≠ []) (haux : AuxBelow E.dest E.options) :
    (∀ p ∈ op.opened, UnixPath.Below E.dest p) ∧ (∀ p ∈ op.placed, StrictlyBelow E.dest p) := by
  -- what an operation opens follows links, what it places does not: the two are treated apart
  cases h with
  | read hlooks =>
    obtain ⟨hopened, hplaced⟩ := nothing_written_of_reads (ReceiverOp.reads_of_looks hlooks)
    exact ⟨by simp [hopened], by simp [hplaced]⟩
  | makeParent | makeDirectory | makeSymlink | unlink | link | makeBackupDir | makePartialDir
  | setMetadata =>
    exact ⟨by simp [ReceiverOp.opened], by simp [ReceiverOp.placed]⟩
  | copy | openInplace | openAppend =>
    exact ⟨by simpa [ReceiverOp.opened] using below_destPath hname, by simp [ReceiverOp.placed]⟩
  | backupIn he hbacks hdir =>
    obtain ⟨-, name, hsingle⟩ := backupName_single (E := E) hname (hroot he.isFile)
      (haux.suffix hbacks.1)
    refine ⟨by simp [ReceiverOp.opened], ?_⟩
    simpa [ReceiverOp.placed, hsingle] using (haux.backupDir_below hbacks.1 hdir).join_single name
  | backupBeside he hbacks _ =>
    obtain ⟨hsome, name, hsingle⟩ := backupName_single (E := E) hname (hroot he.isFile)
      (haux.suffix hbacks.1)
    obtain ⟨parent, hparent, hbelow⟩ :=
      (strictlyBelow_destPath (E := E) hname (hroot he.isFile)).parent
    refine ⟨by simp [ReceiverOp.opened], ?_⟩
    simpa [ReceiverOp.placed, hsingle, Path.withFileName, hsome, hparent] using
      hbelow.join_single name
  | createTmp he _ htarget =>
    refine ⟨?_, by simp [ReceiverOp.placed]⟩
    simpa [ReceiverOp.opened] using
      below_tmpBeside (htarget.strictlyBelow hname (hroot he.isFile) haux) _
  | commitTmp he _ htarget =>
    refine ⟨by simp [ReceiverOp.opened], ?_⟩
    simpa [ReceiverOp.placed] using htarget.strictlyBelow hname (hroot he.isFile) haux
  | writeSparse he _ htarget =>
    refine ⟨?_, by simp [ReceiverOp.placed]⟩
    simpa [ReceiverOp.opened] using htarget.below hname (hroot he.isFile) haux
  | movePartial he _ _ _ =>
    refine ⟨by simp [ReceiverOp.opened], ?_⟩
    simpa [ReceiverOp.placed] using strictlyBelow_destPath hname (hroot he.isFile)

end Entry

/-- Operations on a tree without links that lead out. -/
theorem PipelineOp.writesInside {P : Pipeline} {items : List (FileEntry × Int)} {op : ReceiverOp}
    {cwd root : Loc} {t : Tree} (h : PipelineOp P items op)
    (hnames : ∀ item ∈ items, item.1.path.Plain) (hfiles : NoRootFile items)
    (haux : AuxBelow P.engine.dest P.engine.options)
    (hlinks : LinksInside cwd P.engine.dest root t) : WritesInside cwd root t op := by
  have hbelow : (∀ p ∈ op.opened, UnixPath.Below P.engine.dest p) ∧
      (∀ p ∈ op.placed, StrictlyBelow P.engine.dest p) := by
    cases h with
    | entry hmem hop => exact hop.below (hnames _ hmem) (hfiles _ hmem) haux
    | read hreads =>
      obtain ⟨hopened, hplaced⟩ := nothing_written_of_reads hreads
      exact ⟨by simp [hopened], by simp [hplaced]⟩
    | send | recv | generatorDone | joinGenerator | receiverDone =>
      exact ⟨by simp [ReceiverOp.opened], by simp [ReceiverOp.placed]⟩
  constructor
  · intro p hp loc hloc
    exact hlinks.resolve_inside (hbelow.1 p hp) hloc
  · intro p hp loc hloc
    exact hlinks.place_inside (hbelow.2 p hp) hloc

/-- **Containment through links.** In every run of the pull receiver in which the steps that
change links leave none that leads out of the root, everything is written below the root. -/
theorem pull_writes_inside {P : Pipeline} {items : List (FileEntry × Int)} {cwd root : Loc}
    {t : Tree} {events : List (Event (Tree × ChannelState) ReceiverOp)}
    {c : Par (Tree × ChannelState) ReceiverOp ReceiverOp.Reply Unit (Except Failure Unit)}
    (haccept : ReceiveFlow.pull.accept P.engine.options (items.map Prod.fst) = .ok (some P.engine))
    (hfiles : NoRootFile items) (haux : AuxBelow P.engine.dest P.engine.options)
    (hstart : LinksInside cwd P.engine.dest root t)
    (hrun : Par.Run (pipelineEnv (treeEnv cwd)) (P.start items t) events c)
    (hlinks : ∀ ev ∈ events, ev.op.movesLinks = true → ev.after.1.links ≠ ev.before.1.links →
      LinksInside cwd P.engine.dest root ev.after.1) :
    ∀ ev ∈ events, WritesInside cwd root ev.before.1 ev.op := by
  have hnames : ∀ item ∈ items, item.1.path.Plain := by
    intro item hitem
    obtain ⟨dest, -, hok, -⟩ := acceptChecked_ok haccept
    exact sanitizeAll_ok hok item.1 (List.mem_map_of_mem hitem)
  -- `LinksInside` is the invariant; only a step that moves links can break it
  have hsafe := pipeline_safe hrun hstart ?_
  · intro ev hev
    obtain ⟨hinside, hop⟩ := hsafe ev hev
    exact hop.writesInside hnames hfiles haux hinside
  · intro ev hev hinside _ r hstep
    by_cases hsame : ev.after.1.links = ev.before.1.links
    · exact hinside.congr hsame
    · cases hmoves : ev.op.movesLinks with
      | true => exact hlinks ev hev hmoves hsame
      | false => exact absurd (treeEnv_links hstep hmoves) hsame

/-! ## A list that leads out -/

def srvLoc : Loc := [[0x73, 0x72, 0x76]]

def etcLoc : Loc := [[0x65, 0x74, 0x63]]

/-- The empty directories `/srv` and `/etc`. -/
def srvTree : Tree := fun loc => if loc = [] ∨ loc = srvLoc ∨ loc = etcLoc then some .dir else none

def linksPipeline : Pipeline :=
  { srvPipeline with engine :=
    ⟨srvPipeline.engine.dest, { srvPipeline.engine.options with preserveLinks := true }⟩ }

/-- `/etc` or `b`. -/
def linkTarget : Bool → List UInt8
  | true => [slash, 0x65, 0x74, 0x63]
  | false => [0x62]

/-- The link `a`, out of the tree or not. -/
def linkTo (out : Bool) : FileEntry :=
  { FileEntry.default with name := [0x61], mode := sIflnk, linkTarget := linkTarget out }

/-- The tree once `/srv/a` has been made a link. -/
def linkedTree (out : Bool) : Tree :=
  Function.update srvTree (srvLoc ++ [[0x61]]) (some (.symlink (.ofBytes (linkTarget out))))

def tmpName : FileName := ⟨[0x74], pairTmpName.2⟩

def throughTmp : Path :=
  ReceiverEngine.tmpBeside (linksPipeline.engine.destPath plainFile) tmpName

theorem srvTree_links : srvTree.links = fun _ => none := by
  funext loc
  unfold Tree.links srvTree
  split_ifs <;> rfl

theorem srvTree_inside : LinksInside [] linksPipeline.engine.dest srvLoc srvTree := by
  constructor
  · rfl
  · intro dir name target _ hlink
    rw [srvTree_links] at hlink
    cases hlink

/-- The link `a` is made and the file `a/b` is requested and received through it, up to its
temporary file. -/
theorem linkTo_can (out : Bool) {K Q : Event (Tree × ChannelState) ReceiverOp → Prop}
    (hK : ∀ ev, ev.op.movesLinks = false → K ev)
    (hlink : ∀ ev, ev.before.1 = srvTree → ev.after.1 = linkedTree out → K ev)
    (hQ : ∀ ev, ev.before.1 = linkedTree out → ev.op = .createTmp throughTmp → Q ev) :
    Par.Can (pipelineEnv (treeEnv [])) K Q
      (linksPipeline.start [(linkTo out, 0), (plainFile, 1)] srvTree) := by
  cases out
  all_goals
    -- the generator makes the link, looks at `a` and `a/b` and requests the file
    refine can_left_world (linkedTree _) true rfl ?_ (hlink _ rfl rfl) ?_
    · exact .inl ⟨srvLoc ++ [[0x61]], rfl, rfl, rfl⟩
    refine can_left_channel ⟨[.handled (linkTo _) .symlink], none, false⟩ true rfl
      ⟨by decide, rfl, rfl⟩ (hK _ rfl) ?_
    refine can_left_world _ true rfl ⟨rfl, rfl⟩ (hK _ rfl) ?_
    refine can_left_world _ false rfl ⟨rfl, rfl⟩ (hK _ rfl) ?_
    refine can_left_world _ none rfl ⟨rfl, rfl⟩ (hK _ rfl) ?_
    refine can_left_world _ none rfl rfl (hK _ rfl) ?_
    refine can_left_world _ true rfl rfl (hK _ rfl) ?_
    refine can_left_channel ⟨[.handled (linkTo _) .symlink, .transfer plainFile 1 [] 700], none,
      false⟩ true rfl ⟨by decide, rfl, rfl⟩ (hK _ rfl) ?_
    -- the receiver takes the two items and the header and opens the temporary file
    refine can_right_channel ⟨[.transfer plainFile 1 [] 700], none, false⟩ (some _) rfl
      ⟨rfl, rfl⟩ (hK _ rfl) ?_
    refine can_right_channel .start (some _) rfl ⟨rfl, rfl⟩ (hK _ rfl) ?_
    refine can_right_world (o := .readHeader .default) _
      (.ok ⟨1, .default, itemTransfer, ⟨0, 0, 0, 0⟩⟩) rfl rfl (hK _ rfl) ?_
    refine can_right_world (o := .uniqueTmpName) _ tmpName rfl rfl (hK _ rfl) ?_
    exact Par.Can.now (.right (r := true) (pipelineEnv_world rfl (.inr ⟨_, rfl, .inl rfl, rfl⟩)))
      (hK _ rfl) (hQ _ rfl rfl)

/-- A link to `/etc` and a file behind it pass the validation of the names, and the file is
written to `/etc`. -/
theorem pull_writes_outside :
    ReceiveFlow.pull.accept linksPipeline.engine.options [linkTo true, plainFile] =
        .ok (some linksPipeline.engine) ∧
      LinksInside [] linksPipeline.engine.dest srvLoc srvTree ∧
      ∃ events c, Par.Run (pipelineEnv (treeEnv []))
          (linksPipeline.start [(linkTo true, 0), (plainFile, 1)] srvTree) events c ∧
        ∃ ev ∈ events, ¬ WritesInside [] srvLoc ev.before.1 ev.op := by
  have hcan : Par.Can (pipelineEnv (treeEnv [])) (fun _ => True)
      (fun ev => ¬ WritesInside [] srvLoc ev.before.1 ev.op)
      (linksPipeline.start [(linkTo true, 0), (plainFile, 1)] srvTree) := by
    refine linkTo_can true (fun _ _ => trivial) (fun _ _ _ => trivial) ?_
    intro ev htree hop hinside
    rw [htree, hop] at hinside
    have hinitial := hinside.opened throughTmp (List.mem_singleton_self _) (etcLoc ++ [[0x74]]) rfl
    revert hinitial
    decide
  obtain ⟨events, c, hrun, -, hout⟩ := hcan
  exact ⟨rfl, srvTree_inside, events, c, hrun, hout⟩

theorem linkedTree_inside : LinksInside [] linksPipeline.engine.dest srvLoc (linkedTree false) := by
  constructor
  · rfl
  · apply closed_of_plain
    intro dir name target _ hlink
    by_cases hloc : dir ++ [name] = srvLoc ++ [[0x61]]
    · rw [hloc] at hlink
      have htarget : target = .ofBytes (linkTarget false) := (Option.some.inj hlink).symm
      rw [htarget]
      exact ⟨rfl, by decide⟩
    · have hnone : srvTree.links (dir ++ [name]) = some target := by
        unfold Tree.links linkedTree at hlink
        rw [Function.update_of_ne hloc] at hlink
        exact hlink
      rw [srvTree_links] at hnone
      cases hnone

/-- A link that stays inside, and the file written through it. -/
theorem pull_writes_inside_link :
    ∃ events c, Par.Run (pipelineEnv (treeEnv []))
        (linksPipeline.start [(linkTo false, 0), (plainFile, 1)] srvTree) events c ∧
      (∃ ev ∈ events, ev.op.opened ≠ []) ∧
      ∀ ev ∈ events, WritesInside [] srvLoc ev.before.1 ev.op := by
  have hcan : Par.Can (pipelineEnv (treeEnv []))
      (fun ev => ev.op.movesLinks = true → ev.after.1.links ≠ ev.before.1.links →
        LinksInside [] linksPipeline.engine.dest srvLoc ev.after.1)
      (fun ev => ev.op.opened ≠ [])
      (linksPipeline.start [(linkTo false, 0), (plainFile, 1)] srvTree) := by
    refine linkTo_can false ?_ ?_ ?_
    · intro ev hstays hmoves
      rw [hstays] at hmoves
      cases hmoves
    · intro ev _ hafter _ _
      rw [hafter]
      exact linkedTree_inside
    · intro ev _ hop
      rw [hop]
      simp [ReceiverOp.opened]
  obtain ⟨events, c, hrun, hlinks, hopened⟩ := hcan
  refine ⟨events, c, hrun, hopened, ?_⟩
  refine pull_writes_inside rfl (by decide) ⟨?_, ?_, ?_⟩ srvTree_inside hrun hlinks
  · intro dir hdir
    cases hdir
  all_goals
    intro hbackup
    cases hbackup

end Ferrosync
