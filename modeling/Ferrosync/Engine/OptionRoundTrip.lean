import Ferrosync.Engine.ServerOptions

set_option autoImplicit false

/-! # The round trip of the options

`parse_build` says what configuration the server gets: one option after the other is followed
through the builder and the parser. `server_options_agree_iff` compares it with the configuration
of the client.
-/

namespace Ferrosync

/-! ## What arrives -/

/-- A path behind `display` and `PathBuf::from`. -/
def displayed (path : List UInt8) : List UInt8 := pathFrom (displayPath path)

def seenVerbosity : Verbosity → Verbosity
  | .quiet => .normal
  | .normal => .normal
  | _ => .verbose

/-- The configuration that the flags of the condensed string carry. -/
def flagsReceived (o : TransferOptions) : TransferOptions :=
  { TransferOptions.default with
    preserveLinks := o.preserveLinks
    preserveOwner := o.preserveOwner
    preserveGroup := o.preserveGroup
    preserveDevices := o.preserveDevices || o.preserveSpecials
    preserveSpecials := o.preserveDevices || o.preserveSpecials
    preserveTimes := o.preserveTimes
    preservePerms := o.preservePerms
    dirMode := o.dirMode
    compress := o.compress
    checksumMode := o.checksumMode
    update := o.update
    dryRun := o.dryRun
    wholeFile := o.wholeFile
    oneFileSystem := o.oneFileSystem
    sparse := o.sparse
    ignoreTimes := o.ignoreTimes
    pruneEmptyDirs := o.pruneEmptyDirs
    relative := o.relative
    copyLinks := o.copyLinks
    keepDirlinks := o.keepDirlinks
    cvsExclude := o.cvsExclude
    fuzzy := o.fuzzy
    backup := o.backup
    preserveHardLinks := o.preserveHardLinks
    preserveAcls := o.preserveAcls
    preserveXattrs := o.preserveXattrs
    filterMergeFiles := o.filterMergeFiles
    verbosity := seenVerbosity o.verbosity }

/-- An update of one option, kept apart from the configuration it is applied to. -/
def setBy (set : Bool → TransferOptions → TransferOptions) (on : Bool) (o : TransferOptions) :
    TransferOptions := set on o

/-- A flag that sets an option, and changes nothing where it is absent. -/
theorem foldl_flag (c : Char) (set : Bool → TransferOptions → TransferOptions) (on : Bool)
    (o : TransferOptions) (n : UInt8)
    (hon : ∀ o n, parseFlag (o, n) c = (set true o, n) := by simp [parseFlag])
    (hoff : ∀ o, set false o = o := by simp) :
    (flag on c).foldl parseFlag (o, n) = (setBy set on o, n) := by
  cases on with
  | false => rw [setBy, hoff]; rfl
  | true => exact hon o n

theorem foldl_merge (o : TransferOptions) (n k : Nat) (h : n + k ≤ 255) :
    (List.replicate n 'F').foldl parseFlag (o, UInt8.ofNat k) = (o, UInt8.ofNat (n + k)) := by
  induction n generalizing k with
  | zero => rw [Nat.zero_add]; rfl
  | succ n ih =>
    have hne : UInt8.ofNat k ≠ 255 := by
      intro heq
      have := congrArg UInt8.toNat heq
      rw [UInt8.toNat_ofNat'] at this
      simp at this
      omega
    have hstep : parseFlag (o, UInt8.ofNat k) 'F' = (o, UInt8.ofNat (k + 1)) := by
      show (o, if UInt8.ofNat k = 255 then 255 else UInt8.ofNat k + 1) = _
      rw [if_neg hne, UInt8.ofNat_add]
      rfl
    rw [List.replicate_succ, List.foldl_cons, hstep, ih (k + 1) (by omega)]
    congr 2
    omega

theorem foldl_verbosity (o : TransferOptions) (n : UInt8) (v : Verbosity) :
    (verbosityFlags v).foldl parseFlag (o, n) =
      ({ o with
        verbosity := if v = .normal ∨ v = .quiet then o.verbosity else .verbose }, n) := by
  cases v <;> rfl

theorem parseFlags_condensed (o : TransferOptions) :
    parseFlags .default (condensedFlags o) = flagsReceived o := by
  have hmerge := fun o' => foldl_merge o' o.filterMergeFiles.toNat 0
    (by have := o.filterMergeFiles.toNat_lt; omega)
  have hdirs : (if o.dirs then DirectoryMode.list else
      if o.recursive then .recurse else .skip) = o.dirMode := by
    unfold TransferOptions.dirs TransferOptions.recursive
    cases o.dirMode <;> rfl
  have hverbosity : (if o.verbosity = .normal ∨ o.verbosity = .quiet then Verbosity.normal
      else .verbose) = seenVerbosity o.verbosity := by
    cases o.verbosity <;> rfl
  -- one rewrite for each letter, in the order in which the letters are written
  have hfold : (condensedFlags o).foldl parseFlag (.default, 0) =
      ({ flagsReceived o with filterMergeFiles := 0 }, o.filterMergeFiles) := by
    unfold condensedFlags
    simp only [List.foldl_append]
    rw [foldl_flag 'l' (fun b o => { o with preserveLinks := o.preserveLinks || b }),
      foldl_flag 'o' (fun b o => { o with preserveOwner := o.preserveOwner || b }),
      foldl_flag 'g' (fun b o => { o with preserveGroup := o.preserveGroup || b }),
      foldl_flag 'D' (fun b o => { o with
          preserveDevices := o.preserveDevices || b, preserveSpecials := o.preserveSpecials || b }),
      foldl_flag 't' (fun b o => { o with preserveTimes := o.preserveTimes || b }),
      foldl_flag 'p' (fun b o => { o with preservePerms := o.preservePerms || b }),
      foldl_flag 'r' (fun b o => { o with dirMode := if b then .recurse else o.dirMode }),
      foldl_flag 'z' (fun b o => { o with compress := o.compress || b }),
      foldl_flag 'c' (fun b o => { o with checksumMode := o.checksumMode || b }),
      foldl_flag 'u' (fun b o => { o with update := o.update || b }),
      foldl_flag 'n' (fun b o => { o with dryRun := o.dryRun || b }),
      foldl_flag 'W' (fun b o => { o with wholeFile := o.wholeFile || b }),
      foldl_flag 'x' (fun b o => { o with oneFileSystem := o.oneFileSystem || b }),
      foldl_flag 'S' (fun b o => { o with sparse := o.sparse || b }),
      foldl_flag 'I' (fun b o => { o with ignoreTimes := o.ignoreTimes || b }),
      foldl_flag 'm' (fun b o => { o with pruneEmptyDirs := o.pruneEmptyDirs || b }),
      foldl_flag 'R' (fun b o => { o with relative := o.relative || b }),
      foldl_flag 'L' (fun b o => { o with copyLinks := o.copyLinks || b }),
      foldl_flag 'K' (fun b o => { o with keepDirlinks := o.keepDirlinks || b }),
      foldl_flag 'd' (fun b o => { o with dirMode := if b then .list else o.dirMode }),
      foldl_flag 'C' (fun b o => { o with cvsExclude := o.cvsExclude || b }),
      foldl_flag 'y' (fun b o => { o with fuzzy := o.fuzzy || b }),
      foldl_flag 'b' (fun b o => { o with backup := o.backup || b }),
      foldl_flag 'H' (fun b o => { o with preserveHardLinks := o.preserveHardLinks || b }),
      foldl_flag 'A' (fun b o => { o with preserveAcls := o.preserveAcls || b }),
      foldl_flag 'X' (fun b o => { o with preserveXattrs := o.preserveXattrs || b })]
    rw [show (0 : UInt8) = UInt8.ofNat 0 from rfl, hmerge, foldl_verbosity, Nat.add_zero,
      UInt8.ofNat_toNat]
    unfold flagsReceived
    rw [← hdirs, ← hverbosity]
    rfl
  unfold parseFlags
  rw [hfold]
  dsimp only
  split_ifs with hpos
  · rfl
  · have hzero : o.filterMergeFiles = 0 := by
      have hle := UInt8.not_lt.mp hpos
      exact UInt8.le_zero_iff.mp hle
    unfold flagsReceived
    rw [hzero]

/-! ### Long options -/

/-- A value, or what comes after it. -/
def later {α : Type} : Option α → Option α → Option α
  | none, v => v
  | some x, none => some x
  | some _, some v => some v

variable {α : Type} {name : Text} {args : List Text}

@[simp] theorem later_none (old : Option α) : later old none = old := by
  cases old <;> rfl

@[simp] theorem later_some (old : Option α) (v : α) : later old (some v) = some v := by
  cases old <;> rfl

/-- An update with a value, kept apart from the configuration it is applied to. -/
def putBy {α : Type} (put : α → TransferOptions → TransferOptions) (v : α)
    (o : TransferOptions) : TransferOptions := put v o

theorem foldl_switch (name : Text) (set : Bool → TransferOptions → TransferOptions) (on : Bool)
    (o : TransferOptions)
    (hon : ∀ o, applyLong o name = set true o := by intro o; rw [Bool.or_true]; rfl)
    (hoff : ∀ o, set false o = o := by simp) : (switch on name).foldl applyLong o = setBy set on o := by
  cases on with
  | false => rw [setBy, hoff]; rfl
  | true => exact hon o

theorem foldl_option (name : Text) (render : α → Text)
    (put : Option α → TransferOptions → TransferOptions)
    (hon : ∀ o v, applyLong o (name ++ render v) = put (some v) o) (hoff : ∀ o, put none o = o)
    (value : Option α) (o : TransferOptions) :
    (option name render value).foldl applyLong o = putBy put value o := by
  cases value with
  | none => rw [putBy, hoff]; rfl
  | some v => exact hon o v

theorem foldl_list (name : Text) (render : α → Text)
    (put : List α → TransferOptions → TransferOptions)
    (hcons : ∀ o v vs, put vs (applyLong o (name ++ render v)) = put (v :: vs) o)
    (hnil : ∀ o, put [] o = o) (values : List α) (o : TransferOptions) :
    (repeated name render values).foldl applyLong o = putBy put values o := by
  unfold repeated
  induction values generalizing o with
  | nil => rw [putBy, hnil]; rfl
  | cons v vs ih =>
    simp [ih, putBy, hcons]

theorem foldl_appendArgs (a o : TransferOptions) :
    (appendArgs a).foldl applyLong o =
      setBy (fun b o => { o with append := o.append || b }) (a.appendVerify || a.append) o := by
  unfold appendArgs
  by_cases hverify : a.appendVerify = true
  · rw [if_pos hverify, hverify, setBy, Bool.true_or, Bool.or_true]
    rfl
  · simpa [hverify] using foldl_switch _ _ _ _

theorem parseUnsigned_toNat32 (n : UInt32) :
    Text.parseUnsigned (2 ^ 32 - 1) (Text.ofNat n.toNat) = some n.toNat :=
  Text.parseUnsigned_ofNat (by have := n.toNat_lt; omega)

/-- An option whose value is a `u64`. -/
theorem parse_u64 (a : TransferOptions) (n : UInt64) (put : UInt64 → TransferOptions) :
    (Text.parseUnsigned (2 ^ 64 - 1) (Text.ofNat n.toNat)).elim a (fun v => put (UInt64.ofNat v)) =
      put n := by
  rw [Text.parseUnsigned_ofNat (by have := n.toNat_lt; omega), Option.elim_some, UInt64.ofNat_toNat]

/-- Both parts of `--chown`, each of which may be absent. -/
theorem foldl_chownArg (a o : TransferOptions) :
    (chownArg a).foldl applyLong o =
      putBy (fun ids o => { o with
        chownUid := later o.chownUid ids.1, chownGid := later o.chownGid ids.2 })
        (a.chownUid, a.chownGid) o := by
  have hcolon : ∀ id : Option UInt32, ':' ∉ id.elim [] fun u => Text.ofNat u.toNat := by
    intro id hmem
    cases id with
    | none => cases hmem
    | some u =>
      have hdigit := List.all_eq_true.mp (Text.isDigit_ofNat u.toNat) _ hmem
      exact absurd hdigit (by decide)
  have hempty : Text.parseUnsigned (2 ^ 32 - 1) [] = none := rfl
  unfold chownArg
  by_cases hany : a.chownUid.isSome ∨ a.chownGid.isSome
  · rw [if_pos hany]
    have hsplit := Text.splitOnce_append (hcolon a.chownUid)
      (a.chownGid.elim [] fun g => Text.ofNat g.toNat)
    rw [List.append_assoc, List.append_assoc, List.singleton_append]
    refine (applyLong_valued (parseChown o) _ rfl).trans ?_
    rw [parseChown, hsplit]
    -- an absent part is the empty text, which is no number
    cases a.chownUid <;> cases a.chownGid <;>
      simp only [Option.elim, hempty, parseUnsigned_toNat32, UInt32.ofNat_toNat, putBy, later_none,
        later_some]
  · rw [if_neg hany]
    simp only [not_or, Option.not_isSome_iff_eq_none] at hany
    rw [hany.1, hany.2, putBy, later_none, later_none]
    rfl

theorem foldl_suffixArg (a o : TransferOptions) :
    (suffixArg a).foldl applyLong o =
      setBy (fun b o => { o with suffix := if b then a.suffix else o.suffix })
        (a.suffix ≠ if a.backupDir.isSome then [] else ['~']) o :=
  foldl_switch _ _ _ _ fun o => applyLong_valued (fun s => { o with suffix := s }) _ rfl

theorem foldl_deleteArg (d : DeleteMode) (o : TransferOptions) (h : o.delete = .none) :
    (deleteArg d).foldl applyLong o =
      putBy (fun d o => { o with delete := d }) d o := by
  cases d with
  | none => show o = { o with delete := _ }; rw [← h]
  | before | during | after | excluded => rfl

/-! ### The whole configuration -/

/-- What the options for both directions carry. -/
def commonReceived (o : TransferOptions) : TransferOptions :=
  { flagsReceived o with
    inplace := o.inplace
    numericIds := o.numericIds
    append := o.appendVerify || o.append
    safeLinks := o.safeLinks
    removeSourceFiles := o.removeSourceFiles
    blockSize := o.blockSize
    chmod := o.chmod
    chownUid := o.chownUid
    chownGid := o.chownGid
    backupDir := o.backupDir.map displayed
    suffix := if o.backupDir.isSome ∧ o.suffix = [] then ['~'] else o.suffix
    listOnly := o.listOnly
    fakeSuper := o.fakeSuper
    iconv := o.iconv }

theorem foldl_commonArgs (o : TransferOptions) :
    (commonArgs o).foldl applyLong (flagsReceived o) = commonReceived o := by
  -- an empty suffix is only meant with a backup directory, and is then sent
  have hsuffix : (if o.backupDir.isSome ∧ o.suffix = [] then ['~'] else o.suffix) =
      if decide (o.suffix ≠ if o.backupDir.isSome then [] else ['~']) then o.suffix
      else ['~'] := by
    cases o.backupDir with
    | none => simp
    | some dir => by_cases h : o.suffix = [] <;> simp [h]
  have hblock : ∀ (a : TransferOptions) (n : Int32),
      applyLong a ("--block-size=".toList ++ Text.ofInt n.toInt) =
        { a with blockSize := some n } := by
    intro a n
    refine (applyLong_valued (fun n => (Text.parseI32 n).elim a fun n =>
      { a with blockSize := some (Int32.ofInt n) }) _ rfl).trans ?_
    rw [Text.parseI32_ofInt n.le_toInt n.toInt_lt]
    show { a with blockSize := some (Int32.ofInt n.toInt) } = _
    rw [Int32.ofInt_toInt]
  unfold commonArgs
  simp only [List.foldl_append]
  rw [foldl_switch "--inplace".toList (fun b o => { o with inplace := o.inplace || b }),
    foldl_switch "--numeric-ids".toList (fun b o => { o with numericIds := o.numericIds || b }),
    foldl_appendArgs,
    foldl_switch "--safe-links".toList (fun b o => { o with safeLinks := o.safeLinks || b }),
    foldl_switch "--remove-source-files".toList
      (fun b o => { o with removeSourceFiles := o.removeSourceFiles || b }),
    foldl_option "--block-size=".toList (fun n => Text.ofInt n.toInt)
      (fun v o => { o with blockSize := later o.blockSize v })
      (fun a n => by rw [hblock, later_some])
      (fun _ => by rw [later_none]),
    foldl_list "--chmod=".toList id (fun v o => { o with chmod := o.chmod ++ v })
      (fun o v vs => by
        rw [applyLong_valued (fun spec => { o with chmod := o.chmod ++ [spec] }) _ rfl]
        simp)
      (fun _ => by rw [List.append_nil]),
    foldl_chownArg,
    foldl_option "--backup-dir=".toList displayPath
      (fun v o => { o with backupDir := later o.backupDir (v.map displayed) })
      (fun o _ => by
        rw [applyLong_valued (fun dir => { o with backupDir := some (pathFrom dir) }) _ rfl,
          Option.map_some, later_some]
        rfl)
      (fun _ => by rw [Option.map_none, later_none]),
    foldl_suffixArg,
    foldl_switch "--list-only".toList (fun b o => { o with listOnly := o.listOnly || b }),
    foldl_switch "--fake-super".toList (fun b o => { o with fakeSuper := o.fakeSuper || b }),
    foldl_option "--iconv=".toList id
      (fun v o => { o with iconv := later o.iconv v })
      (fun o _ => by
        rw [applyLong_valued (fun charset => { o with iconv := some charset }) _ rfl, later_some]
        rfl)
      (fun _ => by rw [later_none])]
  unfold commonReceived
  rw [hsuffix]
  rfl

/-- What the options of a sending client carry on top of a configuration that has none of them. -/
def senderReceived (a base : TransferOptions) : TransferOptions :=
  { base with
    sizeOnly := a.sizeOnly
    existing := a.existing
    ignoreExisting := a.ignoreExisting
    maxDelete := a.maxDelete
    modifyWindow := a.modifyWindow
    keepPartial := a.keepPartial
    partialDir := a.partialDir.map displayed
    delete := a.delete
    linkDest := a.linkDest.map displayed }

theorem foldl_senderArgs (a : TransferOptions) :
    (senderArgs a).foldl applyLong (commonReceived a) = senderReceived a (commonReceived a) := by
  have hmaxDelete : ∀ (a : TransferOptions) (n : UInt64),
      applyLong a ("--max-delete=".toList ++ Text.ofNat n.toNat) =
        { a with maxDelete := some n } :=
    fun a n => (applyLong_valued _ _ rfl).trans (parse_u64 a n fun n => { a with maxDelete := some n })
  have hwindow : ∀ o : TransferOptions,
      applyLong o ("--modify-window=".toList ++ Text.ofNat a.modifyWindow.toNat) =
        { o with modifyWindow := if true then a.modifyWindow else o.modifyWindow } := by
    intro o
    refine (applyLong_valued (fun n => (Text.parseUnsigned (2 ^ 32 - 1) n).elim o fun n =>
      { o with modifyWindow := UInt32.ofNat n }) _ rfl).trans ?_
    rw [parseUnsigned_toNat32]
    show { o with modifyWindow := UInt32.ofNat a.modifyWindow.toNat } = _
    rw [UInt32.ofNat_toNat]
    rfl
  -- a window of 0 is not sent, and is the default
  have hzero : (if decide (a.modifyWindow > 0) then a.modifyWindow else 0) = a.modifyWindow := by
    by_cases hpos : a.modifyWindow > 0
    · simp [hpos]
    · simp only [hpos, decide_false, Bool.false_eq_true, if_false]
      exact (UInt32.le_zero_iff.mp (UInt32.not_lt.mp hpos)).symm
  unfold senderArgs
  simp only [List.foldl_append]
  rw [foldl_switch "--size-only".toList (fun b o => { o with sizeOnly := o.sizeOnly || b }),
    foldl_switch "--existing".toList (fun b o => { o with existing := o.existing || b }),
    foldl_switch "--ignore-existing".toList
      (fun b o => { o with ignoreExisting := o.ignoreExisting || b }),
    foldl_option "--max-delete=".toList (fun n => Text.ofNat n.toNat)
      (fun v o => { o with maxDelete := later o.maxDelete v })
      (fun a n => by rw [hmaxDelete, later_some])
      (fun _ => by rw [later_none]),
    foldl_switch _
      (fun b o => { o with modifyWindow := if b then a.modifyWindow else o.modifyWindow }) _ _
      hwindow,
    foldl_switch "--partial".toList (fun b o => { o with keepPartial := o.keepPartial || b }),
    foldl_option "--partial-dir=".toList displayPath
      (fun v o => { o with partialDir := later o.partialDir (v.map displayed) })
      (fun o _ => by
        rw [applyLong_valued (fun dir => { o with partialDir := some (pathFrom dir) }) _ rfl,
          Option.map_some, later_some]
        rfl)
      (fun _ => by rw [Option.map_none, later_none]),
    foldl_deleteArg _ _ rfl,
    foldl_list "--link-dest=".toList displayPath
      (fun v o => { o with linkDest := o.linkDest ++ v.map displayed })
      (fun o v vs => by
        rw [applyLong_valued (fun dir => { o with linkDest := o.linkDest ++ [pathFrom dir] }) _ rfl]
        simp [displayed])
      (fun _ => by rw [List.map_nil, List.append_nil])]
  have hwhole : senderReceived a (commonReceived a) =
      { senderReceived a (commonReceived a) with
        modifyWindow := if decide (a.modifyWindow > 0) then a.modifyWindow else 0 } := by
    rw [hzero]
    rfl
  rw [hwhole]
  rfl

def receiverReceived (a base : TransferOptions) : TransferOptions :=
  { base with maxSize := a.maxSize, minSize := a.minSize }

theorem foldl_receiverArgs (a : TransferOptions) :
    (receiverArgs a).foldl applyLong (commonReceived a) =
      receiverReceived a (commonReceived a) := by
  have hmaxSize : ∀ (a : TransferOptions) (n : UInt64),
      applyLong a ("--max-size=".toList ++ Text.ofNat n.toNat) = { a with maxSize := some n } :=
    fun a n => (applyLong_valued _ _ rfl).trans (parse_u64 a n fun n => { a with maxSize := some n })
  have hminSize : ∀ (a : TransferOptions) (n : UInt64),
      applyLong a ("--min-size=".toList ++ Text.ofNat n.toNat) = { a with minSize := some n } :=
    fun a n => (applyLong_valued _ _ rfl).trans (parse_u64 a n fun n => { a with minSize := some n })
  unfold receiverArgs
  simp only [List.foldl_append]
  rw [foldl_option "--max-size=".toList (fun n => Text.ofNat n.toNat)
      (fun v o => { o with maxSize := later o.maxSize v }) (fun a n => by rw [hmaxSize, later_some])
      (fun _ => by rw [later_none]),
    foldl_option "--min-size=".toList (fun n => Text.ofNat n.toNat)
      (fun v o => { o with minSize := later o.minSize v }) (fun a n => by rw [hminSize, later_some])
      (fun _ => by rw [later_none])]
  rfl

def received (o : TransferOptions) (amSender : Bool) (modulePath : List UInt8) :
    TransferOptions :=
  if amSender then { senderReceived o (commonReceived o) with dest := some modulePath }
  else { receiverReceived o (commonReceived o) with source := [modulePath] }

/-! ### Finding the arguments again -/

theorem forall_mem_flag {P : Char → Prop} {on : Bool} {c : Char} (h : P c) :
    ∀ x ∈ flag on c, P x := by
  cases on with
  | false => exact fun _ hx => nomatch hx
  | true =>
    intro x hx
    rwa [List.mem_singleton.mp hx]

/-- The flags neither look like a long option nor start the capabilities. -/
theorem condensedFlags_plain (o : TransferOptions) :
    ∀ c ∈ condensedFlags o, c ≠ '-' ∧ c ≠ 'e' := by
  have hmerge : ∀ c ∈ List.replicate o.filterMergeFiles.toNat 'F', c ≠ '-' ∧ c ≠ 'e' := by
    simp
  have hverbosity : ∀ c ∈ verbosityFlags o.verbosity, c ≠ '-' ∧ c ≠ 'e' := by
    cases o.verbosity <;> simp [verbosityFlags]
  unfold condensedFlags
  simp only [List.forall_mem_append]
  and_intros
  all_goals first
    | exact hmerge
    | exact hverbosity
    | exact forall_mem_flag (by decide)

/-- An argument that the parser takes for a long option. -/
def LongOption (arg : Text) : Prop := isLong arg = true ∧ isMarker arg = false

theorem forall_mem_switch {on : Bool} (h : LongOption name) :
    ∀ arg ∈ switch on name, LongOption arg := by
  cases on with
  | false => exact fun _ hx => nomatch hx
  | true =>
    intro x hx
    rwa [List.mem_singleton.mp hx]

theorem forall_mem_option {render : α → Text} {value : Option α} (h : ∀ t, LongOption (name ++ t)) :
    ∀ arg ∈ option name render value, LongOption arg := by
  intro arg harg
  obtain ⟨v, -, rfl⟩ := List.mem_map.mp harg
  exact h _

theorem forall_mem_repeated {render : α → Text} {values : List α} (h : ∀ t, LongOption (name ++ t)) :
    ∀ arg ∈ repeated name render values, LongOption arg := by
  intro arg harg
  obtain ⟨v, -, rfl⟩ := List.mem_map.mp harg
  exact h _

theorem commonArgs_long (o : TransferOptions) : ∀ arg ∈ commonArgs o, LongOption arg := by
  have happend : ∀ arg ∈ appendArgs o, LongOption arg := by
    unfold appendArgs
    split
    · simpa using ⟨rfl, rfl⟩
    · exact forall_mem_switch ⟨rfl, rfl⟩
  have hchown : ∀ arg ∈ chownArg o, LongOption arg := by
    unfold chownArg
    split
    · simpa using ⟨rfl, rfl⟩
    · exact fun _ hx => nomatch hx
  unfold commonArgs
  simp only [List.forall_mem_append]
  exact ⟨⟨⟨⟨⟨⟨⟨⟨⟨⟨⟨⟨forall_mem_switch ⟨rfl, rfl⟩, forall_mem_switch ⟨rfl, rfl⟩⟩, happend⟩,
    forall_mem_switch ⟨rfl, rfl⟩⟩, forall_mem_switch ⟨rfl, rfl⟩⟩,
    forall_mem_option fun _ => ⟨rfl, rfl⟩⟩, forall_mem_repeated fun _ => ⟨rfl, rfl⟩⟩, hchown⟩,
    forall_mem_option fun _ => ⟨rfl, rfl⟩⟩, forall_mem_switch ⟨rfl, rfl⟩⟩,
    forall_mem_switch ⟨rfl, rfl⟩⟩, forall_mem_switch ⟨rfl, rfl⟩⟩,
    forall_mem_option fun _ => ⟨rfl, rfl⟩⟩

theorem senderArgs_long (o : TransferOptions) : ∀ arg ∈ senderArgs o, LongOption arg := by
  have hdelete : ∀ arg ∈ deleteArg o.delete, LongOption arg := by
    cases o.delete with
    | none => exact fun _ hx => nomatch hx
    | _ =>
      intro arg harg
      rw [List.mem_singleton.mp harg]
      exact ⟨rfl, rfl⟩
  unfold senderArgs
  simp only [List.forall_mem_append]
  exact ⟨⟨⟨⟨⟨⟨⟨⟨forall_mem_switch ⟨rfl, rfl⟩, forall_mem_switch ⟨rfl, rfl⟩⟩,
    forall_mem_switch ⟨rfl, rfl⟩⟩, forall_mem_option fun _ => ⟨rfl, rfl⟩⟩,
    forall_mem_switch ⟨rfl, rfl⟩⟩, forall_mem_switch ⟨rfl, rfl⟩⟩,
    forall_mem_option fun _ => ⟨rfl, rfl⟩⟩, hdelete⟩, forall_mem_repeated fun _ => ⟨rfl, rfl⟩⟩

theorem receiverArgs_long (o : TransferOptions) : ∀ arg ∈ receiverArgs o, LongOption arg := by
  unfold receiverArgs
  simp only [List.forall_mem_append]
  exact ⟨forall_mem_option fun _ => ⟨rfl, rfl⟩, forall_mem_option fun _ => ⟨rfl, rfl⟩⟩

/-- The long options behind a condensed string. -/
theorem longArgs_cons {condensed : Text} (hcondensed : isLong condensed = false)
    (hargs : ∀ arg ∈ args, LongOption arg) : longArgs (condensed :: args) = args := by
  rw [longArgs, List.filter_cons_of_neg (by simp [hcondensed]), List.filter_eq_self]
  intro arg harg
  obtain ⟨hlong, hmarker⟩ := hargs arg harg
  rw [hlong, hmarker]
  rfl

theorem condensedArg_cons {condensed : Text} (hcondensed : isLong condensed = false)
    (hdash : condensed.head? = some '-') : condensedArg (condensed :: args) = condensed := by
  have hmarker := isMarker_of_dash hdash hcondensed
  rw [condensedArg, List.filter_cons_of_pos (by simp [hmarker, hcondensed, hdash])]
  rfl

/-- The root of the module, as the source or the destination. -/
def rooted (parsed : TransferOptions) (modulePath : List UInt8) (amSender : Bool) :
    TransferOptions :=
  if amSender then { parsed with source := parsed.source ++ [modulePath] }
  else { parsed with dest := some modulePath }

theorem parse_of_condensed {flags : Text} (hcondensed : condensedArg args = '-' :: flags)
    (modulePath : List UInt8) (amSender : Bool) :
    parseServerArgsConfig args modulePath amSender =
      .ok (rooted ((longArgs args).foldl applyLong
        (parseFlags .default (flags.takeWhile (· ≠ 'e')))) modulePath amSender) := by
  rw [parseServerArgsConfig, hcondensed, flagsPart_dash]
  simp only [Loop.ok_bind, foldlM_parseLong]
  rfl

/-- The parser finds the flags, up to the capabilities, and the long options. -/
theorem parse_args {flags caps : Text} (hflags : ∀ c ∈ flags, c ≠ '-' ∧ c ≠ 'e')
    (hargs : ∀ arg ∈ args, LongOption arg) (modulePath : List UInt8) (amSender : Bool) :
    parseServerArgsConfig ((['-'] ++ flags ++ ['e'] ++ caps) :: args) modulePath amSender =
      .ok (rooted (args.foldl applyLong (parseFlags .default flags)) modulePath amSender) := by
  have hlong : isLong (['-'] ++ flags ++ ['e'] ++ caps) = false := by
    cases flags with
    | nil => rfl
    | cons c flags =>
      have hdash : c ≠ '-' := (hflags c List.mem_cons_self).1
      simp [isLong, Text.startsWith, List.isPrefixOf, Ne.symm hdash]
  have htake : (flags ++ ['e'] ++ caps).takeWhile (· ≠ 'e') = flags := by
    rw [List.append_assoc, List.takeWhile_append_of_pos]
    · exact List.append_nil _
    · intro c hc
      exact decide_eq_true (hflags c hc).2
  have hcondensed : condensedArg ((['-'] ++ flags ++ ['e'] ++ caps) :: args) =
      '-' :: (flags ++ ['e'] ++ caps) := condensedArg_cons hlong rfl
  rw [parse_of_condensed hcondensed, longArgs_cons hlong hargs, htake]

/-- **The round trip.** What the server makes of the arguments of the client. -/
theorem parse_build (o : TransferOptions) (amSender : Bool) (modulePath : List UInt8) :
    parseServerArgsConfig (buildServerOptionsConfig o amSender) modulePath (!amSender) =
      .ok (received o amSender modulePath) := by
  cases amSender with
  | true =>
    have hargs : ∀ arg ∈ commonArgs o ++ senderArgs o, LongOption arg :=
      List.forall_mem_append.mpr ⟨commonArgs_long o, senderArgs_long o⟩
    refine (parse_args (condensedFlags_plain o) hargs modulePath _).trans ?_
    rw [parseFlags_condensed, List.foldl_append, foldl_commonArgs, foldl_senderArgs]
    rfl
  | false =>
    have hargs : ∀ arg ∈ commonArgs o ++ receiverArgs o, LongOption arg :=
      List.forall_mem_append.mpr ⟨commonArgs_long o, receiverArgs_long o⟩
    refine (parse_args (condensedFlags_plain o) hargs modulePath _).trans ?_
    rw [parseFlags_condensed, List.foldl_append, foldl_commonArgs, foldl_receiverArgs]
    rfl


/-! ## Agreement -/

/-- The options that reach the server or change what it does. The paths and the filter rules do
not travel among the arguments, a sending client applies the size limits itself, and a sending
server has no use for the options of a receiver. -/
def TransferOptions.relevant (o : TransferOptions) (amSender : Bool) : TransferOptions :=
  let o := { o with source := [], dest := none, excludes := [], includes := [], filters := [] }
  if amSender then { o with maxSize := none, minSize := none }
  else { o with
    sizeOnly := false, existing := false, ignoreExisting := false, maxDelete := none
    modifyWindow := 0, keepPartial := false, partialDir := none, delete := .none, linkDest := []
    copyDest := [], compareDest := [] }

/-- The options for both directions that survive the round trip. -/
structure CommonSurvive (o : TransferOptions) : Prop where
  /-- One letter stands for both. -/
  devices : o.preserveDevices = o.preserveSpecials
  /-- The parser knows `--append-verify`, which the builder does not write. -/
  append : o.appendVerify = false
  /-- The parser does not count the letters, and ignores the quiet one. -/
  verbosity : o.verbosity = .normal ∨ o.verbosity = .verbose
  /-- With a backup directory, the builder's default suffix is not the parser's. -/
  suffix : o.backupDir.isSome → o.suffix ≠ []
  backupDir : ∀ dir ∈ o.backupDir, (Text.decode dir).isSome

/-- What survives the round trip of a sending client. -/
structure SenderSurvive (o : TransferOptions) : Prop extends CommonSurvive o where
  partialDir : ∀ dir ∈ o.partialDir, (Text.decode dir).isSome
  linkDest : ∀ dir ∈ o.linkDest, (Text.decode dir).isSome
  copyDest : o.copyDest = []
  compareDest : o.compareDest = []

/-- The configurations that arrive as they were sent. A sending client has to pass the directories
of the receiver too, and not all of them are passed. -/
def Survives (o : TransferOptions) (amSender : Bool) : Prop :=
  if amSender then SenderSurvive o else CommonSurvive o

theorem displayed_iff (path : List UInt8) : displayed path = path ↔ (Text.decode path).isSome :=
  Text.encode_fromUtf8Lossy_iff

theorem map_displayed_iff (paths : List (List UInt8)) :
    paths.map displayed = paths ↔ ∀ dir ∈ paths, (Text.decode dir).isSome := by
  simp only [← displayed_iff]
  constructor
  · intro h dir hdir
    exact List.map_eq_map_iff.mp (h.trans (List.map_id paths).symm) dir hdir
  · intro h
    exact (List.map_congr_left h).trans (List.map_id paths)

theorem optionMap_displayed_iff (path : Option (List UInt8)) :
    path.map displayed = path ↔ ∀ dir ∈ path, (Text.decode dir).isSome := by
  cases path with
  | none => simp
  | some dir => simp [displayed_iff]

theorem seenVerbosity_iff (v : Verbosity) : seenVerbosity v = v ↔ v = .normal ∨ v = .verbose := by
  cases v <;> decide

theorem commonSurvive_iff (o : TransferOptions) :
    CommonSurvive o ↔
      (o.preserveSpecials = true → o.preserveDevices = true) ∧
      (o.preserveDevices = true → o.preserveSpecials = true) ∧
      o.backupDir.map displayed = o.backupDir ∧
      (o.backupDir.isSome = true → o.suffix = [] → ['~'] = o.suffix) ∧
      (o.appendVerify = true → o.append = true) ∧ false = o.appendVerify ∧
      seenVerbosity o.verbosity = o.verbosity := by
  rw [optionMap_displayed_iff, seenVerbosity_iff]
  constructor
  · intro h
    refine ⟨fun hs => h.devices.trans hs, fun hd => h.devices.symm.trans hd, h.backupDir,
      fun hdir hempty => absurd hempty (h.suffix hdir), fun hv => ?_, h.append.symm, h.verbosity⟩
    exact absurd (h.append.symm.trans hv) (by decide)
  · rintro ⟨hspecials, hdevices, hdir, hsuffix, -, happend, hverbosity⟩
    refine ⟨Bool.eq_iff_iff.mpr ⟨hdevices, hspecials⟩, happend.symm, hverbosity, ?_, hdir⟩
    intro hsome hempty
    exact absurd ((hsuffix hsome hempty).trans hempty) (by decide)

theorem pull_iff (o : TransferOptions) (modulePath : List UInt8) :
    (received o false modulePath).relevant false = o.relevant false ↔ CommonSurvive o := by
  rw [commonSurvive_iff]
  simp [received, TransferOptions.relevant, receiverReceived, commonReceived, flagsReceived,
    TransferOptions.default]

theorem push_iff (o : TransferOptions) (modulePath : List UInt8) :
    (received o true modulePath).relevant true = o.relevant true ↔ SenderSurvive o := by
  have hsurvive : SenderSurvive o ↔ CommonSurvive o ∧
      o.partialDir.map displayed = o.partialDir ∧ o.linkDest.map displayed = o.linkDest ∧
      [] = o.copyDest ∧ [] = o.compareDest := by
    rw [optionMap_displayed_iff, map_displayed_iff]
    constructor
    · intro h
      exact ⟨h.toCommonSurvive, h.partialDir, h.linkDest, h.copyDest.symm, h.compareDest.symm⟩
    · rintro ⟨hcommon, hpartial, hlink, hcopy, hcompare⟩
      exact ⟨hcommon, hpartial, hlink, hcopy.symm, hcompare.symm⟩
  rw [hsurvive, commonSurvive_iff]
  simp [received, TransferOptions.relevant, senderReceived, commonReceived, flagsReceived,
    TransferOptions.default]
  tauto

/-- **Agreement.** The server acts on the configuration of the client exactly if the arguments
can carry it. -/
theorem server_options_agree_iff (o : TransferOptions) (amSender : Bool)
    (modulePath : List UInt8) :
    (∃ server, parseServerArgsConfig (buildServerOptionsConfig o amSender) modulePath
        (!amSender) = .ok server ∧ server.relevant amSender = o.relevant amSender) ↔
      Survives o amSender := by
  have hreceived : (∃ server, parseServerArgsConfig (buildServerOptionsConfig o amSender)
      modulePath (!amSender) = .ok server ∧ server.relevant amSender = o.relevant amSender) ↔
      (received o amSender modulePath).relevant amSender = o.relevant amSender := by
    rw [parse_build]
    constructor
    · rintro ⟨server, hserver, hrelevant⟩
      rwa [Except.ok.inj hserver]
    · simp
  rw [hreceived]
  cases amSender with
  | true => exact push_iff o modulePath
  | false => exact pull_iff o modulePath

/-- `--devices` without `--specials`, appending with verification, at the second verbosity. -/
def devicesOnly : TransferOptions :=
  { TransferOptions.default with
    preserveDevices := true, appendVerify := true, verbosity := .veryVerbose }

/-- The server also preserves the special files, does not verify, and is less verbose. -/
theorem devices_bring_specials :
    ∃ server, parseServerArgsConfig (buildServerOptionsConfig devicesOnly true) [] false =
        .ok server ∧
      (devicesOnly.preserveSpecials = false ∧ server.preserveSpecials = true) ∧
      (devicesOnly.appendVerify = true ∧ server.appendVerify = false) ∧
      (devicesOnly.verbosity = .veryVerbose ∧ server.verbosity = .verbose) :=
  ⟨_, parse_build devicesOnly true [], ⟨rfl, rfl⟩, ⟨rfl, rfl⟩, rfl, rfl⟩

end Ferrosync
