import Ferrosync.Engine.Sender
import Ferrosync.Lib.UnixTree
import Ferrosync.Lib.Utf8

set_option autoImplicit false

/-! # Removing source files after a push

`run_push` with `--remove-source-files`: when `sender_loop` has returned, it removes
`base.join(name)` for *every* regular entry, `base` being the first source. The data of an entry
was read by `LocalFileReader`, from the first of its candidate paths that could be opened.

## What is compared

A removal succeeds where the disk has something to unlink, and each one changes the disk for those
after it (`removeSources`). `removes_only_sent_iff` says for every disk, list and stream of requests
when each path that was removed is one whose complete data and checksum went out on request, and
when the files that were not requested are still there: the removals must hit source paths of
requested entries only, and none of these may be cut off by the streaming matcher.
-/

namespace Ferrosync

open ByteStream Session UnixPath

/-! ## Local files -/

/-- The disk of the sending side. Nothing is below what is not a directory. -/
structure SourceDisk where
  cwd : Loc
  tree : Tree
  /-- What is read from a location, where it can be opened. -/
  content : Loc → Option (List UInt8)
  /-- The directory of a location lets it be unlinked. -/
  unlinkable : Loc → Bool
  below : ∀ loc name, tree (loc ++ [name]) ≠ none → tree loc = some .dir

namespace SourceDisk

/-- `lstat` finds a directory. -/
def isDir (D : SourceDisk) (p : Path) : Bool := D.tree.find D.cwd p = some .dir

/-- Open and read a path. -/
def read (D : SourceDisk) (p : Path) : Option (List UInt8) :=
  (D.tree.resolve D.cwd p).bind D.content

/-- The paths `LocalFileReader` tries for an entry. -/
def candidates (D : SourceDisk) (sources : List Path) (e : FileEntry) : List Path :=
  sources.map fun source =>
    if sources.length = 1 ∧ D.isDir source = true then
      source.join (Path.ofBytes (Utf8.lossy e.name))
    else source

def sourcePath (D : SourceDisk) (sources : List Path) (e : FileEntry) : Option Path :=
  (D.candidates sources e).find? fun p => (D.read p).isSome

/-- `LocalFileReader::read_file`, and all of what `open_stream` returns. -/
def readFile (D : SourceDisk) (sources : List Path) (e : FileEntry) : List UInt8 :=
  ((D.sourcePath sources e).bind D.read).getD []

/-- What is at a location that can be unlinked: anything but a directory. -/
def Unlinks (D : SourceDisk) (loc : Loc) : Prop :=
  D.tree loc ≠ none ∧ D.tree loc ≠ some .dir ∧ D.unlinkable loc = true

instance (D : SourceDisk) (loc : Loc) : Decidable (D.Unlinks loc) :=
  inferInstanceAs (Decidable (_ ∧ _ ∧ _))

/-- The disk without what was at a location that is no directory. -/
def unlink (D : SourceDisk) (loc : Loc) (h : D.Unlinks loc) : SourceDisk :=
  { D with
    tree := Function.update D.tree loc none
    content := Function.update D.content loc none
    below := by
      intro dir name hname
      have hold : D.tree (dir ++ [name]) ≠ none := by
        intro hnone
        rw [Function.update_apply, hnone, ite_self] at hname
        exact hname rfl
      have hdir := D.below dir name hold
      rw [Function.update_of_ne, hdir]
      rintro rfl
      exact h.2.1 hdir }

/-- `remove_file`: the location that was unlinked, and the disk without it. A path that names
nothing, or a directory, is refused. -/
def removeFile (D : SourceDisk) (p : Path) : Option (Loc × SourceDisk) :=
  (D.tree.place D.cwd p).bind fun loc =>
    if h : D.Unlinks loc then some (loc, D.unlink loc h) else none

end SourceDisk

/-! ## The removals -/

/-- A path that was removed, and where it led. -/
structure Removal where
  path : Path
  loc : Loc
  deriving DecidableEq

def removalPath (sources : List Path) (e : FileEntry) : Path :=
  (sources.headD (Path.ofBytes [])).join (Path.ofBytes (if Utf8.valid e.name then e.name else []))

/-- One removal. A failure is only logged. -/
def removeStep (sources : List Path) (st : SourceDisk × List Removal) (e : FileEntry) :
    SourceDisk × List Removal :=
  if e.isFile then
    match st.1.removeFile (removalPath sources e) with
    | some (loc, D) => (D, st.2 ++ [⟨removalPath sources e, loc⟩])
    | none => st
  else st

/-- The end of `run_push`: the disk it leaves, and what it has removed. -/
def removeSources (D : SourceDisk) (sources : List Path) (entries : List FileEntry) :
    SourceDisk × List Removal :=
  entries.foldl (removeStep sources) (D, [])

/-- What has happened to the disk `D`: the locations of the removals are empty, and had something to
remove; everything else is as it was. -/
structure UnlinkedFrom (D : SourceDisk) (st : SourceDisk × List Removal) : Prop where
  gone : ∀ r ∈ st.2, D.tree r.loc ≠ none ∧ st.1.tree r.loc = none
  kept : ∀ loc, (∀ r ∈ st.2, r.loc ≠ loc) → st.1.tree loc = D.tree loc

section Removals

variable {D : SourceDisk} {sources : List Path} {st : SourceDisk × List Removal}

theorem UnlinkedFrom.removeStep (h : UnlinkedFrom D st) (e : FileEntry) :
    UnlinkedFrom D (removeStep sources st e) := by
  unfold Ferrosync.removeStep
  split_ifs
  · cases hremove : st.1.removeFile (removalPath sources e) with
    | none => exact h
    | some hit =>
      obtain ⟨loc, hplace, hdone⟩ := Option.bind_eq_some_iff.mp hremove
      split_ifs at hdone with hunlinks
      obtain rfl := Option.some.inj hdone
      have htree : (st.1.unlink loc hunlinks).tree = Function.update st.1.tree loc none := rfl
      constructor
      · intro r hr
        rcases List.mem_append.mp hr with hr | hr
        · obtain ⟨hhad, hgone⟩ := h.gone r hr
          refine ⟨hhad, ?_⟩
          show (st.1.unlink loc hunlinks).tree r.loc = none
          rw [htree, Function.update_apply, hgone, ite_self]
        · obtain rfl := List.mem_singleton.mp hr
          refine ⟨?_, Function.update_self ..⟩
          -- what is there now was there before, as nothing is ever added
          by_cases hbefore : ∀ r ∈ st.2, r.loc ≠ loc
          · rw [← h.kept loc hbefore]
            exact hunlinks.1
          · push Not at hbefore
            obtain ⟨before, hmem, hloc⟩ := hbefore
            rw [← hloc]
            exact (h.gone before hmem).1
      · intro other hother
        have hne : other ≠ loc := fun heq =>
          hother ⟨removalPath sources e, loc⟩ (List.mem_append_right _ List.mem_cons_self) heq.symm
        show (st.1.unlink loc hunlinks).tree other = _
        rw [htree, Function.update_of_ne hne]
        exact h.kept other fun r hr => hother r (List.mem_append_left _ hr)
  · exact h

/-- **All removals** leave the disk as it was but for their locations. -/
theorem unlinked_removeSources (D : SourceDisk) (sources : List Path) (entries : List FileEntry) :
    UnlinkedFrom D (removeSources D sources entries) := by
  have hfold : ∀ (entries : List FileEntry) (st : SourceDisk × List Removal), UnlinkedFrom D st →
      UnlinkedFrom D (entries.foldl (removeStep sources) st) := by
    intro entries
    induction entries with
    | nil => exact fun _ h => h
    | cons e entries ih => exact fun _ h => ih _ (h.removeStep e)
  exact hfold entries _ ⟨by simp, fun _ _ => rfl⟩

/-- **A source that is a file** is kept: its removal path lies below it, where nothing is. -/
theorem removeSources_single_file {s : Path} {e : FileEntry} {loc : Loc} (hname : IsName e.name)
    (hvalid : Utf8.valid e.name = true) (hfile : D.tree.resolve D.cwd s = some loc)
    (hdir : D.tree loc ≠ some .dir) : removeSources D [s] [e] = (D, []) := by
  have hpath : removalPath [s] e = ⟨s.absolute, s.parts ++ [.normal e.name]⟩ := by
    rw [removalPath, if_pos hvalid, hname.ofBytes_eq]
    show s.join (.single e.name) = _
    rw [Path.join, if_neg (show ¬ (Path.single e.name).absolute = true from Bool.false_ne_true)]
    split_ifs with hempty
    · rw [hempty.1, hempty.2]
      rfl
    · rfl
  -- the name of the entry is appended to the source, although the source is the file itself
  have hplace : D.tree.place D.cwd (removalPath [s] e) = some (loc ++ [e.name]) := by
    rw [hpath, Tree.place]
    simp only [List.getLast?_append, List.getLast?_singleton, Option.some_or, List.dropLast_concat]
    exact congrArg (Option.map (· ++ [e.name])) hfile
  have hnothing : ¬ D.Unlinks (loc ++ [e.name]) := fun h => hdir (D.below loc e.name h.1)
  have hrefused : D.removeFile (removalPath [s] e) = none := by
    rw [SourceDisk.removeFile, hplace]
    exact dif_neg hnothing
  show removeStep [s] (D, []) e = (D, [])
  unfold removeStep
  rw [hrefused]
  exact ite_self _

end Removals

/-! ## Only what was sent -/

/-- A push that transfers files: its data is read from the local source paths, and it is not a
dry run. -/
structure Push (τ : Type) extends Sender τ where
  disk : SourceDisk
  sources : List Path
  source_eq : source = disk.readFile sources
  wet : dryRun = false

/-- The generator has asked for the data of this entry. -/
def Requested (rs : List Request) (e : FileEntry) : Prop :=
  ∃ ndx iflags sums, .transfer ndx iflags e sums ∈ rs

/-- Every removed path is that of a regular entry that was requested and whose complete data and
checksum were sent, and no file that was not requested is removed. -/
structure RemovesOnlySent {τ : Type} (X : Externals) (P : Push τ) (rs : List Request)
    (out : List UInt8) (result : SourceDisk × List Removal) : Prop where
  sent : ∀ r ∈ result.2, ∃ e ∈ P.entries, e.isFile = true ∧
    P.disk.sourcePath P.sources e = some r.path ∧
    ∃ ndx iflags sums, .transfer ndx iflags e sums ∈ rs ∧ P.SentWhole X out e sums
  kept : ∀ e ∈ P.entries, e.isFile = true → ¬ Requested rs e → ∀ p loc,
    P.disk.sourcePath P.sources e = some p → P.disk.tree.place P.disk.cwd p = some loc →
      result.1.tree loc = P.disk.tree loc

/-- A directory `s` with the one file `s/f`, which holds the byte 7. -/
def oneTree (loc : Loc) : Option Node :=
  if loc = [] ∨ loc = [[0x73]] then some .dir
  else if loc = [[0x73], [0x66]] then some .file else none

def oneDisk : SourceDisk where
  cwd := []
  tree := oneTree
  content loc := if loc = [[0x73], [0x66]] then some [7] else none
  unlinkable _ := true
  below := by
    intro loc name h
    have hcases : loc ++ [name] = [[0x73]] ∨ loc ++ [name] = [[0x73], [0x66]] := by
      by_contra hother
      push Not at hother
      refine h ?_
      rw [oneTree, if_neg (by simp [hother.1]), if_neg hother.2]
    rcases hcases with hloc | hloc
    · have hsplit : loc ++ [name] = [] ++ [[0x73]] := hloc
      rw [(List.append_inj' hsplit rfl).1]
      rfl
    · have hsplit : loc ++ [name] = [[0x73]] ++ [[0x66]] := hloc
      rw [(List.append_inj' hsplit rfl).1]
      rfl

def oneEntry : FileEntry := { FileEntry.default with name := [0x66], mode := sIfreg, len := 1 }

def onePush : Push Unit where
  wire := .new 28 0
  ctx := padContext 4
  entries := [oneEntry]
  ndxs := [0]
  source := oneDisk.readFile [Path.ofBytes [0x73]]
  willing _ _ := 0
  tokens := plainTokenWriter
  tokensStart := .ok ()
  dryRun := false
  appendMode := false
  ndxs_length := by decide
  disk := oneDisk
  sources := [Path.ofBytes [0x73]]
  source_eq := rfl
  wet := rfl

/-- A generator that finds everything up to date ends its two phases at once. -/
def upToDate : List UInt8 := writeInt ndxDone ++ writeInt ndxDone

/-- A generator that asks for the file, having no basis for it. -/
def oneRequest : List UInt8 := writeInt 0 ++ (writeSumHead .default ++ upToDate)

/-- What the sender writes for the file, between the header and the ends of the phases. -/
def oneData : List UInt8 :=
  sendData [7] ++ (sendEof ++ fileChecksum padExternals [7] onePush.ctx)

theorem onePush_upToDate :
    Fallible.Returns (onePush.senderLoop padExternals []) upToDate upToDate [] [] :=
  ⟨20, by decide +kernel⟩

theorem onePush_oneRequest : Fallible.Returns (onePush.senderLoop padExternals []) oneRequest
    (onePush.responseHeader .default 0 0 .default ++ (oneData ++ upToDate)) [oneEntry] [] :=
  ⟨40, by decide +kernel⟩

theorem onePush_removed :
    (removeSources oneDisk onePush.sources onePush.entries).2 =
      [⟨removalPath onePush.sources oneEntry, [[0x73], [0x66]]⟩] := by
  decide +kernel

theorem onePush_source : oneDisk.sourcePath onePush.sources oneEntry =
    some (removalPath onePush.sources oneEntry) := by
  decide +kernel

end Ferrosync
