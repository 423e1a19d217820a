import Ferrosync.Lib.Text
import Ferrosync.Types

set_option autoImplicit false

/-! # The options of a remote session

`build_server_options_config` turns the configuration of the client into the arguments of
`rsync --server`: a condensed string of flags that ends with the capabilities, and long options.
`parse_server_args_config` builds the configuration of the server from them.
-/

namespace Ferrosync

inductive DeleteMode where
  | none
  | before
  | during
  | after
  | excluded
  deriving DecidableEq, Repr

inductive Verbosity where
  | quiet
  | normal
  | verbose
  | veryVerbose
  | debug
  deriving DecidableEq, Repr

inductive DirectoryMode where
  | skip
  | list
  | recurse
  deriving DecidableEq, Repr

/-- `TransferOptions`, the configuration of a transfer, under the names of its getters. Paths are
bytes; `keepPartial` is `partial`. -/
structure TransferOptions where
  source : List (List UInt8)
  dest : Option (List UInt8)
  preserveTimes : Bool
  preservePerms : Bool
  preserveOwner : Bool
  preserveGroup : Bool
  preserveLinks : Bool
  preserveHardLinks : Bool
  preserveDevices : Bool
  preserveSpecials : Bool
  preserveAcls : Bool
  preserveXattrs : Bool
  numericIds : Bool
  chmod : List Text
  chownUid : Option UInt32
  chownGid : Option UInt32
  checksumMode : Bool
  update : Bool
  ignoreTimes : Bool
  sizeOnly : Bool
  existing : Bool
  ignoreExisting : Bool
  maxSize : Option UInt64
  minSize : Option UInt64
  modifyWindow : UInt32
  fuzzy : Bool
  inplace : Bool
  wholeFile : Bool
  sparse : Bool
  backup : Bool
  backupDir : Option (List UInt8)
  suffix : Text
  keepPartial : Bool
  partialDir : Option (List UInt8)
  append : Bool
  appendVerify : Bool
  removeSourceFiles : Bool
  safeLinks : Bool
  keepDirlinks : Bool
  linkDest : List (List UInt8)
  copyDest : List (List UInt8)
  compareDest : List (List UInt8)
  excludes : List Text
  includes : List Text
  filters : List Text
  cvsExclude : Bool
  filterMergeFiles : UInt8
  dirMode : DirectoryMode
  oneFileSystem : Bool
  relative : Bool
  copyLinks : Bool
  delete : DeleteMode
  maxDelete : Option UInt64
  pruneEmptyDirs : Bool
  compress : Bool
  blockSize : Option Int32
  verbosity : Verbosity
  dryRun : Bool
  listOnly : Bool
  fakeSuper : Bool
  iconv : Option Text
  deriving DecidableEq

def TransferOptions.default : TransferOptions where
  source := []
  dest := none
  preserveTimes := false
  preservePerms := false
  preserveOwner := false
  preserveGroup := false
  preserveLinks := false
  preserveHardLinks := false
  preserveDevices := false
  preserveSpecials := false
  preserveAcls := false
  preserveXattrs := false
  numericIds := false
  chmod := []
  chownUid := none
  chownGid := none
  checksumMode := false
  update := false
  ignoreTimes := false
  sizeOnly := false
  existing := false
  ignoreExisting := false
  maxSize := none
  minSize := none
  modifyWindow := 0
  fuzzy := false
  inplace := false
  wholeFile := false
  sparse := false
  backup := false
  backupDir := none
  suffix := ['~']
  keepPartial := false
  partialDir := none
  append := false
  appendVerify := false
  removeSourceFiles := false
  safeLinks := false
  keepDirlinks := false
  linkDest := []
  copyDest := []
  compareDest := []
  excludes := []
  includes := []
  filters := []
  cvsExclude := false
  filterMergeFiles := 0
  dirMode := .skip
  oneFileSystem := false
  relative := false
  copyLinks := false
  delete := .none
  maxDelete := none
  pruneEmptyDirs := false
  compress := false
  blockSize := none
  verbosity := .normal
  dryRun := false
  listOnly := false
  fakeSuper := false
  iconv := none

def TransferOptions.recursive (o : TransferOptions) : Bool := o.dirMode = .recurse

def TransferOptions.dirs (o : TransferOptions) : Bool := o.dirMode = .list

/-! ## The client -/

def buildCapabilityString (incRecurse symlinkTimes iconv : Bool) : Text :=
  ['.'] ++ (if incRecurse then ['i'] else []) ++ (if symlinkTimes then ['L'] else []) ++
    (if iconv then ['s'] else []) ++ ['f', 'x', 'C', 'I', 'v', 'u']

def flag (on : Bool) (c : Char) : Text := if on then [c] else []

def verbosityFlags : Verbosity → Text
  | .quiet => ['q']
  | .normal => []
  | .verbose => ['v']
  | .veryVerbose => ['v', 'v']
  | .debug => ['v', 'v', 'v']

def condensedFlags (o : TransferOptions) : Text :=
  flag o.preserveLinks 'l' ++ flag o.preserveOwner 'o' ++ flag o.preserveGroup 'g' ++
  flag (o.preserveDevices || o.preserveSpecials) 'D' ++ flag o.preserveTimes 't' ++
  flag o.preservePerms 'p' ++ flag o.recursive 'r' ++ flag o.compress 'z' ++
  flag o.checksumMode 'c' ++ flag o.update 'u' ++ flag o.dryRun 'n' ++ flag o.wholeFile 'W' ++
  flag o.oneFileSystem 'x' ++ flag o.sparse 'S' ++ flag o.ignoreTimes 'I' ++
  flag o.pruneEmptyDirs 'm' ++ flag o.relative 'R' ++ flag o.copyLinks 'L' ++
  flag o.keepDirlinks 'K' ++ flag o.dirs 'd' ++ flag o.cvsExclude 'C' ++ flag o.fuzzy 'y' ++
  flag o.backup 'b' ++ flag o.preserveHardLinks 'H' ++ flag o.preserveAcls 'A' ++
  flag o.preserveXattrs 'X' ++ List.replicate o.filterMergeFiles.toNat 'F' ++
  verbosityFlags o.verbosity

/-- A long option without a value. -/
def switch (on : Bool) (name : Text) : List Text := if on then [name] else []

/-- A long option for a value that may be absent. -/
def option {α : Type} (name : Text) (render : α → Text) (value : Option α) : List Text :=
  value.toList.map fun v => name ++ render v

/-- A long option for each of several values. -/
def repeated {α : Type} (name : Text) (render : α → Text) (values : List α) : List Text :=
  values.map fun v => name ++ render v

/-- `Path::display`. -/
def displayPath (path : List UInt8) : Text := Text.fromUtf8Lossy path

/-- `--chown`: an absent part stays empty. -/
def chownArg (o : TransferOptions) : List Text :=
  if o.chownUid.isSome ∨ o.chownGid.isSome then
    ["--chown=".toList ++ (o.chownUid.elim [] fun u => Text.ofNat u.toNat) ++ [':'] ++
      (o.chownGid.elim [] fun g => Text.ofNat g.toNat)]
  else []

/-- `--suffix`, unless it is the default of the client. -/
def suffixArg (o : TransferOptions) : List Text :=
  let defaultSuffix := if o.backupDir.isSome then [] else ['~']
  switch (o.suffix ≠ defaultSuffix) ("--suffix=".toList ++ o.suffix)

def appendArgs (o : TransferOptions) : List Text :=
  if o.appendVerify then ["--append".toList, "--append".toList]
  else switch o.append "--append".toList

def deleteArg : DeleteMode → List Text
  | .before => ["--delete-before".toList]
  | .during => ["--delete-during".toList]
  | .after => ["--delete-after".toList]
  | .excluded => ["--delete-excluded".toList]
  | .none => []

/-- The long options for both directions. -/
def commonArgs (o : TransferOptions) : List Text :=
  switch o.inplace "--inplace".toList ++ switch o.numericIds "--numeric-ids".toList ++
  appendArgs o ++ switch o.safeLinks "--safe-links".toList ++
  switch o.removeSourceFiles "--remove-source-files".toList ++
  option "--block-size=".toList (fun n => Text.ofInt n.toInt) o.blockSize ++
  repeated "--chmod=".toList id o.chmod ++ chownArg o ++
  option "--backup-dir=".toList displayPath o.backupDir ++ suffixArg o ++
  switch o.listOnly "--list-only".toList ++ switch o.fakeSuper "--fake-super".toList ++
  option "--iconv=".toList id o.iconv

/-- The long options for a client that sends. -/
def senderArgs (o : TransferOptions) : List Text :=
  switch o.sizeOnly "--size-only".toList ++ switch o.existing "--existing".toList ++
  switch o.ignoreExisting "--ignore-existing".toList ++
  option "--max-delete=".toList (fun n => Text.ofNat n.toNat) o.maxDelete ++
  switch (o.modifyWindow > 0) ("--modify-window=".toList ++ Text.ofNat o.modifyWindow.toNat) ++
  switch o.keepPartial "--partial".toList ++
  option "--partial-dir=".toList displayPath o.partialDir ++ deleteArg o.delete ++
  repeated "--link-dest=".toList displayPath o.linkDest

/-- The long options for a client that receives. -/
def receiverArgs (o : TransferOptions) : List Text :=
  option "--max-size=".toList (fun n => Text.ofNat n.toNat) o.maxSize ++
  option "--min-size=".toList (fun n => Text.ofNat n.toNat) o.minSize

def buildServerOptionsConfig (o : TransferOptions) (amSender : Bool) : List Text :=
  (['-'] ++ condensedFlags o ++ ['e'] ++ buildCapabilityString o.recursive true false) ::
    (commonArgs o ++ if amSender then senderArgs o else receiverArgs o)

/-! ## The server -/

/-- One character of the condensed string; the count is `filter_merge_count`. -/
def parseFlag (st : TransferOptions × UInt8) (c : Char) : TransferOptions × UInt8 :=
  let o := st.1
  match c with
  | 'l' => ({ o with preserveLinks := true }, st.2)
  | 'o' => ({ o with preserveOwner := true }, st.2)
  | 'g' => ({ o with preserveGroup := true }, st.2)
  | 'D' => ({ o with preserveDevices := true, preserveSpecials := true }, st.2)
  | 't' => ({ o with preserveTimes := true }, st.2)
  | 'p' => ({ o with preservePerms := true }, st.2)
  | 'r' => ({ o with dirMode := .recurse }, st.2)
  | 'z' => ({ o with compress := true }, st.2)
  | 'c' => ({ o with checksumMode := true }, st.2)
  | 'u' => ({ o with update := true }, st.2)
  | 'n' => ({ o with dryRun := true }, st.2)
  | 'W' => ({ o with wholeFile := true }, st.2)
  | 'x' => ({ o with oneFileSystem := true }, st.2)
  | 'S' => ({ o with sparse := true }, st.2)
  | 'I' => ({ o with ignoreTimes := true }, st.2)
  | 'm' => ({ o with pruneEmptyDirs := true }, st.2)
  | 'L' => ({ o with copyLinks := true }, st.2)
  | 'K' => ({ o with keepDirlinks := true }, st.2)
  | 'd' => ({ o with dirMode := .list }, st.2)
  | 'R' => ({ o with relative := true }, st.2)
  | 'C' => ({ o with cvsExclude := true }, st.2)
  | 'y' => ({ o with fuzzy := true }, st.2)
  | 'F' => (o, if st.2 = 255 then 255 else st.2 + 1)
  | 'b' => ({ o with backup := true }, st.2)
  | 'H' => ({ o with preserveHardLinks := true }, st.2)
  | 'A' => ({ o with preserveAcls := true }, st.2)
  | 'X' => ({ o with preserveXattrs := true }, st.2)
  -- the level is not counted
  | 'v' => ({ o with verbosity := .verbose }, st.2)
  | _ => st

/-- The characters in front of the capabilities. -/
def parseFlags (o : TransferOptions) (flags : Text) : TransferOptions :=
  let st := flags.foldl parseFlag (o, 0)
  if st.2 > 0 then { st.1 with filterMergeFiles := st.2 } else st.1

/-- `PathBuf::from`. -/
def pathFrom (t : Text) : List UInt8 := Text.encode t

/-- `--chown=`. -/
def parseChown (o : TransferOptions) (val : Text) : TransferOptions :=
  match Text.splitOnce ':' val with
  | none => o
  | some (uid, gid) =>
    let o := (Text.parseUnsigned (2 ^ 32 - 1) uid).elim o fun n =>
      { o with chownUid := some (UInt32.ofNat n) }
    (Text.parseUnsigned (2 ^ 32 - 1) gid).elim o fun n =>
      { o with chownGid := some (UInt32.ofNat n) }

/-- A slice off range or inside a character panics. -/
def orPanic {α : Type} : Option α → Except Failure α
  | some a => .ok a
  | none => .error (.fault .panic)

/-- `_ if opt.starts_with(name) => { let val = &opt[name.len()..]; .. }`, before the other arms. -/
def valued (name opt : Text) (set : Text → TransferOptions)
    (otherwise : Except Failure TransferOptions) : Except Failure TransferOptions :=
  if Text.startsWith name opt then (orPanic (Text.sliceFrom (Text.len name) opt)).map set
  else otherwise

def parseValued (o : TransferOptions) (opt : Text) : Except Failure TransferOptions :=
  valued "--backup-dir=".toList opt (fun dir => { o with backupDir := some (pathFrom dir) }) <|
  valued "--suffix=".toList opt (fun s => { o with suffix := s }) <|
  valued "--iconv=".toList opt (fun charset => { o with iconv := some charset }) <|
  valued "--max-delete=".toList opt (fun n => (Text.parseUnsigned (2 ^ 64 - 1) n).elim o fun n =>
    { o with maxDelete := some (UInt64.ofNat n) }) <|
  valued "--modify-window=".toList opt (fun n => (Text.parseUnsigned (2 ^ 32 - 1) n).elim o fun n =>
    { o with modifyWindow := UInt32.ofNat n }) <|
  valued "--block-size=".toList opt (fun n => (Text.parseI32 n).elim o fun n =>
    { o with blockSize := some (Int32.ofInt n) }) <|
  valued "--chmod=".toList opt (fun spec => { o with chmod := o.chmod ++ [spec] }) <|
  valued "--chown=".toList opt (parseChown o) <|
  valued "--link-dest=".toList opt (fun dir => { o with linkDest := o.linkDest ++ [pathFrom dir] }) <|
  valued "--partial-dir=".toList opt (fun dir => { o with partialDir := some (pathFrom dir) }) <|
  valued "--max-size=".toList opt (fun n => (Text.parseUnsigned (2 ^ 64 - 1) n).elim o fun n =>
    { o with maxSize := some (UInt64.ofNat n) }) <|
  valued "--min-size=".toList opt (fun n => (Text.parseUnsigned (2 ^ 64 - 1) n).elim o fun n =>
    { o with minSize := some (UInt64.ofNat n) }) <|
  .ok o

def parseLong (o : TransferOptions) (opt : Text) : Except Failure TransferOptions :=
  if opt = "--inplace".toList then .ok { o with inplace := true }
  else if opt = "--numeric-ids".toList then .ok { o with numericIds := true }
  else if opt = "--append".toList then .ok { o with append := true }
  else if opt = "--size-only".toList then .ok { o with sizeOnly := true }
  else if opt = "--existing".toList then .ok { o with existing := true }
  else if opt = "--ignore-existing".toList then .ok { o with ignoreExisting := true }
  else if opt = "--delete-before".toList then .ok { o with delete := .before }
  else if opt = "--delete-during".toList then .ok { o with delete := .during }
  else if opt = "--delete-after".toList then .ok { o with delete := .after }
  else if opt = "--delete-excluded".toList then .ok { o with delete := .excluded }
  else if opt = "--safe-links".toList then .ok { o with safeLinks := true }
  else if opt = "--list-only".toList then .ok { o with listOnly := true }
  else if opt = "--fake-super".toList then .ok { o with fakeSuper := true }
  else if opt = "--remove-source-files".toList then .ok { o with removeSourceFiles := true }
  else if opt = "--partial".toList then .ok { o with keepPartial := true }
  else if opt = "--append-verify".toList then .ok { o with appendVerify := true }
  else parseValued o opt

def isLong (arg : Text) : Bool := Text.startsWith ['-', '-'] arg

/-- The arguments that are not options: `--server`, `--sender` and the dot. -/
def isMarker (arg : Text) : Bool :=
  arg = "--server".toList || arg = "--sender".toList || arg = ['.']

/-- The condensed string: the first argument with one dash; empty if there is none. -/
def condensedArg (args : List Text) : Text :=
  ((args.filter fun arg => !isMarker arg && !isLong arg && arg.head? = some '-').head?).getD []

def longArgs (args : List Text) : List Text :=
  args.filter fun arg => !isMarker arg && isLong arg

/-- The flags are between the dash and the capabilities, which start at the first `e`. -/
def flagsPart (condensed : Text) : Except Failure Text :=
  match Text.find 'e' condensed with
  | some pos => orPanic (Text.slice 1 pos condensed)
  | none => orPanic (Text.sliceFrom 1 condensed)

def parseServerArgsConfig (args : List Text) (modulePath : List UInt8) (amSender : Bool) :
    Except Failure TransferOptions := do
  let flags ← flagsPart (condensedArg args)
  let o ← (longArgs args).foldlM parseLong (parseFlags .default flags)
  pure (if amSender then { o with source := o.source ++ [modulePath] }
    else { o with dest := some modulePath })

/-! ## Slices of the arguments -/

/-- A text that starts with a name can be cut behind it: the end of the name is between two
characters, whatever follows. -/
theorem valued_total {name opt : Text} {set : Text → TransferOptions}
    {otherwise : Except Failure TransferOptions} (h : ∃ o, otherwise = .ok o) :
    ∃ o, valued name opt set otherwise = .ok o := by
  unfold valued
  split_ifs with hstarts
  · obtain ⟨rest, rfl⟩ := List.isPrefixOf_iff_prefix.mp hstarts
    rw [Text.sliceFrom, Text.splitAtByte_append]
    exact ⟨_, rfl⟩
  · exact h

theorem switch_total {c : Prop} [Decidable c] {on : TransferOptions}
    {otherwise : Except Failure TransferOptions} (h : ∃ o, otherwise = .ok o) :
    ∃ o, (if c then .ok on else otherwise) = .ok o := by
  by_cases hc : c
  · exact ⟨on, if_pos hc⟩
  · rwa [if_neg hc]

theorem parseLong_total (o : TransferOptions) (opt : Text) : ∃ o', parseLong o opt = .ok o' := by
  unfold parseLong parseValued
  iterate 16 refine switch_total ?_
  iterate 12 refine valued_total ?_
  exact ⟨o, rfl⟩

/-- What an option makes of the configuration. -/
def applyLong (o : TransferOptions) (opt : Text) : TransferOptions :=
  (parseLong o opt).toOption.getD o

/-- An option with a value is applied to the value. -/
theorem applyLong_valued {o : TransferOptions} {name : Text} (set : Text → TransferOptions) (t : Text)
    (h : parseLong o (name ++ t) =
      (orPanic (Text.sliceFrom (Text.len name) (name ++ t))).map set) :
    applyLong o (name ++ t) = set t := by
  rw [applyLong, h, Text.sliceFrom, Text.splitAtByte_append]
  rfl

theorem foldlM_parseLong (o : TransferOptions) (opts : List Text) :
    opts.foldlM parseLong o = .ok (opts.foldl applyLong o) := by
  induction opts generalizing o with
  | nil => rfl
  | cons opt opts ih =>
    obtain ⟨o', ho'⟩ := parseLong_total o opt
    have happly : applyLong o opt = o' := by
      rw [applyLong, ho']
      rfl
    rw [List.foldlM_cons, ho', List.foldl_cons, happly]
    exact ih o'

/-- Behind a dash the flags can be cut out, also if what follows is not ASCII. -/
theorem flagsPart_dash (flags : Text) :
    flagsPart ('-' :: flags) = .ok (flags.takeWhile (· ≠ 'e')) := by
  -- the dash is one byte, so that a slice from 1 on cuts no character
  have hrest : ∀ t : Text, Text.sliceFrom 1 ('-' :: t) = some t := fun t => by
    have hsplit := Text.splitAtByte_append ['-'] t
    rw [Text.sliceFrom]
    exact congrArg (Option.map Prod.snd) hsplit
  unfold flagsPart Text.find
  by_cases hcaps : 'e' ∈ flags
  · have htake : ('-' :: flags).takeWhile (· ≠ 'e') = '-' :: flags.takeWhile (· ≠ 'e') :=
      List.takeWhile_cons_of_pos rfl
    have hsplit := Text.splitAtByte_append ('-' :: flags.takeWhile (· ≠ 'e'))
      (flags.dropWhile (· ≠ 'e'))
    rw [List.cons_append, List.takeWhile_append_dropWhile] at hsplit
    have hone : 1 ≤ Text.len ('-' :: flags.takeWhile (· ≠ 'e')) := Nat.le_add_right 1 _
    rw [if_pos (List.mem_cons_of_mem _ hcaps), htake]
    dsimp only
    rw [Text.slice, if_pos hone, hsplit, Option.bind_some, hrest]
    rfl
  · have hall : flags.takeWhile (· ≠ 'e') = flags := by
      rw [List.takeWhile_eq_self_iff]
      intro c hc
      exact decide_eq_true fun h => hcaps (h ▸ hc)
    rw [if_neg (by simpa using hcaps), hrest, hall]
    rfl

theorem isMarker_of_dash {arg : Text} (hdash : arg.head? = some '-') (hlong : isLong arg = false) :
    isMarker arg = false := by
  have hserver : arg ≠ "--server".toList := by
    rintro rfl
    exact Bool.noConfusion hlong
  have hsender : arg ≠ "--sender".toList := by
    rintro rfl
    exact Bool.noConfusion hlong
  have hdot : arg ≠ ['.'] := by
    rintro rfl
    exact absurd hdash (by decide)
  rw [isMarker, decide_eq_false hserver, decide_eq_false hsender, decide_eq_false hdot]
  rfl

/-- The condensed string is an argument with a single dash, if there is one. -/
theorem condensedArg_cases (args : List Text) :
    (∃ flags, condensedArg args = '-' :: flags ∧ '-' :: flags ∈ args ∧
        isLong ('-' :: flags) = false) ∨
      condensedArg args = [] ∧ ∀ arg ∈ args, arg.head? = some '-' → isLong arg = true := by
  unfold condensedArg
  cases hfound : args.filter fun arg =>
      !isMarker arg && !isLong arg && arg.head? = some '-' with
  | nil =>
    refine .inr ⟨rfl, fun arg harg hdash => ?_⟩
    by_contra hlong
    rw [Bool.not_eq_true] at hlong
    have hmarker := isMarker_of_dash hdash hlong
    have hmem := List.filter_eq_nil_iff.mp hfound arg harg
    simp [hmarker, hlong, hdash] at hmem
  -- the first one that is neither long nor a marker
  | cons arg rest =>
    have hmem : arg ∈ args.filter fun arg =>
        !isMarker arg && !isLong arg && arg.head? = some '-' := by simp [hfound]
    simp only [List.mem_filter, Bool.and_eq_true, Bool.not_eq_true', decide_eq_true_eq] at hmem
    obtain ⟨harg, ⟨-, hlong⟩, hdash⟩ := hmem
    obtain ⟨flags, rfl⟩ : ∃ flags, arg = '-' :: flags := ⟨_, (List.cons_head?_tail hdash).symm⟩
    exact .inl ⟨flags, rfl, harg, hlong⟩

/-- **Parsing returns exactly if there is an argument with a single dash.** Every slice behind a name
that was compared before is in range and at a character, so only the slice behind the dash is left:
without a condensed string it is `&""[1..]`, and panics. -/
theorem parseServerArgsConfig_total_iff (args : List Text) (modulePath : List UInt8)
    (amSender : Bool) :
    (∃ o, parseServerArgsConfig args modulePath amSender = .ok o) ↔
      ∃ arg ∈ args, arg.head? = some '-' ∧ isLong arg = false := by
  unfold parseServerArgsConfig
  rcases condensedArg_cases args with ⟨flags, hcondensed, harg, hlong⟩ | ⟨hcondensed, hnone⟩
  · rw [hcondensed, flagsPart_dash]
    simp only [Loop.ok_bind, foldlM_parseLong]
    exact iff_of_true ⟨_, rfl⟩ ⟨_, harg, rfl, hlong⟩
  · rw [hcondensed]
    refine iff_of_false (fun ⟨o, h⟩ => ?_) ?_
    · cases h
    · rintro ⟨arg, harg, hdash, hlong⟩
      exact Bool.false_ne_true (hlong.symm.trans (hnone arg harg hdash))

/-- Without flags there is nothing to cut the dash from. -/
theorem no_condensed_panics :
    parseServerArgsConfig ["--server".toList, ".".toList] [] true = .error (.fault .panic) := by
  decide

end Ferrosync
