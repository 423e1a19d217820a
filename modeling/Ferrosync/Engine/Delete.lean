import Ferrosync.Filter.Rule
import Ferrosync.Engine.ReceiverEngine
import Ferrosync.Engine.ServerOptions

set_option autoImplicit false

/-! # Deleting what the source does not have

`delete.rs` and the passes `execute_transfer_impl` makes with it. The functions are programs over
`LocalOp`; what the receiver does with an entry in between is one operation here, since the
deleter sees nothing of it but the directories it then reads.

The rules are tried on the last name of a path only. So an excluded path is safe in the modes that
look at the destination itself, and with `--delete-during` exactly if the rules exclude no path
whose last name they include (`delete_safe_iff`).
-/

namespace Ferrosync

open UnixPath Interaction

variable {name : List UInt8} {names dirs : List (List UInt8)}

/-! ## The deleter -/

/-- The fields of `DirEntry` the deleter looks at. -/
structure DirEntry where
  name : List UInt8
  mode : UInt32
  deriving DecidableEq, Repr

def DirEntry.isDir (d : DirEntry) : Bool := d.mode &&& sIfmt = sIfdir

structure DeleteBudget where
  remaining : Nat
  deriving DecidableEq, Repr

namespace DeleteBudget

/-- `u64::MAX`, for no limit. -/
def unlimited : Nat := 2 ^ 64 - 1

def new (maxDelete : Option Nat) : DeleteBudget := ⟨maxDelete.getD unlimited⟩

/-- `try_consume`; one thread deletes, so the exchange succeeds at once. -/
def tryConsume (b : DeleteBudget) : Option DeleteBudget :=
  if b.remaining = 0 then none
  else if b.remaining = unlimited then some b
  else some ⟨b.remaining - 1⟩

end DeleteBudget

/-- What a local transfer asks for. -/
inductive LocalOp where
  | readDir (dir : Path)
  | removeDir (path : Path)
  | removeFile (path : Path)
  /-- `dispatch_entry` and what follows from it for the entry. -/
  | receive (entry : FileEntry)
  /-- `create_deferred_hardlinks`. -/
  | linkDeferred

/-- A plain `Bool` is whether the operation succeeded. -/
@[reducible] def LocalOp.Reply : LocalOp → Type
  | .readDir _ => Option (List DirEntry)
  | _ => Bool

abbrev LocalM := Fallible LocalOp LocalOp.Reply Failure

def askLocal (op : LocalOp) : LocalM op.Reply := ExceptT.lift (Prog.perform op)

/-- `Deleter`, without the budget, which is passed along. -/
structure Deleter where
  filters : FilterRuleList
  dryRun : Bool
  deleteExcluded : Bool

/-- The names a directory has below it in the source. -/
def childName (dirName name : List UInt8) : Option (List UInt8) :=
  if dirName = [dot] then
    if slash ∉ name ∧ name ≠ [dot] then some name else none
  else if dirName.length < name.length ∧ dirName <+: name ∧ name[dirName.length]? = some slash then
    if slash ∉ name.drop (dirName.length + 1) then some (name.drop (dirName.length + 1)) else none
  else none

namespace Deleter

/-- The rules keep the entry; only its name is looked at. -/
def protects (D : Deleter) (d : DirEntry) : Bool :=
  !D.deleteExcluded && !D.filters.isIncluded d.name d.isDir

/-- The removal of an entry, whose outcome is ignored. -/
def remove (D : Deleter) (isDir : Bool) (path : Path) : LocalM Unit :=
  if D.dryRun then pure ()
  else if isDir then do
    let _ ← askLocal (.removeDir path)
    pure ()
  else do
    let _ ← askLocal (.removeFile path)
    pure ()

/-- The loop over the entries of a directory, with the number of deletions so far. -/
def deleteLoop (D : Deleter) (dir : Path) (source : List (List UInt8)) :
    List DirEntry → Nat → DeleteBudget → LocalM (Nat × DeleteBudget)
  | [], deleted, b => pure (deleted, b)
  | d :: ds, deleted, b =>
    if d.name ∈ source then D.deleteLoop dir source ds deleted b
    else if D.protects d then D.deleteLoop dir source ds deleted b
    else match b.tryConsume with
      | none => pure (deleted, b)
      | some b => do
        D.remove d.isDir (dir.join (Path.ofBytes d.name))
        D.deleteLoop dir source ds (deleted + 1) b

/-- The entries of a directory that can be read. -/
def deleteIn (D : Deleter) (dir : Path) (source : List (List UInt8)) (b : DeleteBudget) :
    LocalM (Nat × DeleteBudget) := do
  let found ← askLocal (.readDir dir)
  match found with
  | some ds => D.deleteLoop dir source ds 0 b
  | none => pure (0, b)

def deleteExtraneous (D : Deleter) (dest : Path) (sources : List FileEntry) (b : DeleteBudget) :
    LocalM (Nat × DeleteBudget) :=
  D.deleteIn dest (sources.map FileEntry.name) b

def deleteExtraneousInDir (D : Deleter) (destDir : Path) (sources : List FileEntry)
    (dirName : List UInt8) (b : DeleteBudget) : LocalM (Nat × DeleteBudget) :=
  D.deleteIn destDir (sources.filterMap fun e => childName dirName e.name) b

end Deleter

/-! ## A local transfer -/

/-- What `execute_transfer_impl` reads of the options for its deletions. -/
structure DeleteOptions where
  mode : DeleteMode
  maxDelete : Option Nat
  dryRun : Bool
  deriving DecidableEq, Repr

def deleterFor (options : DeleteOptions) (rules : FilterRuleList) : Deleter :=
  ⟨rules, options.dryRun, options.mode = .excluded⟩

/-- A pass over the destination in some modes, with the number of files deleted before. -/
def deletePass (D : Deleter) (due : Bool) (dest : Path) (entries : List FileEntry)
    (st : Nat × DeleteBudget) : LocalM (Nat × DeleteBudget) :=
  if due then D.deleteExtraneous dest entries st.2 else pure st

/-- The loop over the source entries. -/
def receiveEntries (D : Deleter) (during : Bool) (dest : Path) (all : List FileEntry) :
    List FileEntry → Nat × DeleteBudget → LocalM (Nat × DeleteBudget)
  | [], st => pure st
  | e :: es, st => do
    let ok ← askLocal (.receive e)
    if ok = false then throw (.fs .other)
    else if e.isDir && during then do
      let here ← D.deleteExtraneousInDir (dest.join e.path) all e.name st.2
      receiveEntries D during dest all es (st.1 + here.1, here.2)
    else receiveEntries D during dest all es st

/-- `execute_transfer_impl` from the source list on: the number of files deleted. -/
def executeTransfer (options : DeleteOptions) (rules : FilterRuleList) (dest : Path)
    (entries : List FileEntry) : LocalM Nat := do
  let D := deleterFor options rules
  let before ← deletePass D (options.mode = .before || options.mode = .excluded) dest entries
    (0, .new options.maxDelete)
  let during ← receiveEntries D (options.mode = .during) dest entries entries before
  let ok ← askLocal .linkDeferred
  if ok = false then throw (.fs .other)
  else do
    let after ← deletePass D (options.mode = .after) dest entries during
    pure after.1

/-! ## Excluded paths -/

/-- `path` is `dest` with these names below it. -/
def NamesBelow (dest path : Path) (names : List (List UInt8)) : Prop :=
  names ≠ [] ∧ (∀ n ∈ names, IsName n) ∧ path = ⟨dest.absolute, dest.parts ++ names.map .normal⟩

/-- Nothing is removed that the rules exclude, evaluated as the scanner does: on the names below
the root. -/
def SparesExcluded (rules : FilterRuleList) (dest : Path) : LocalOp → Prop
  | .removeDir path => ∀ names, NamesBelow dest path names → rules.isIncluded (spell names) true
  | .removeFile path => ∀ names, NamesBelow dest path names → rules.isIncluded (spell names) false
  | _ => True

def ListsNames : (op : LocalOp) → op.Reply → Prop
  | .readDir _, found => ∀ ds, found = some ds → ∀ d ∈ ds, IsName d.name
  | _, _ => True

/-- The rules exclude no path whose last name they include. The deletion asks about the name alone,
and the sender about the whole path. -/
def NameDecides (rules : FilterRuleList) : Prop :=
  ∀ (dirs : List (List UInt8)) (name : List UInt8) (isDir : Bool),
    (∀ n ∈ dirs ++ [name], IsName n) → rules.isIncluded name isDir = true →
      rules.isIncluded (spell (dirs ++ [name])) isDir = true

section Safety

variable {rules : FilterRuleList} {dest : Path}

theorem askLocal_bind {α : Type} {post : α → Prop} {op : LocalOp} {f : op.Reply → LocalM α}
    {Q : LocalOp → Prop} {R : (op : LocalOp) → op.Reply → Prop} (hop : Q op)
    (hf : ∀ r, R op r → SafeE Q R post (f r)) : SafeE Q R post (askLocal op >>= f) :=
  SafeE.bind (SafeE.lift ⟨hop, fun _ hr => hr⟩) hf

theorem askLocal_inv {α : Type} {post : α → Prop} {op : LocalOp} {f : op.Reply → LocalM α}
    {Q : LocalOp → Prop} {R : (op : LocalOp) → op.Reply → Prop}
    (h : SafeE Q R post (askLocal op >>= f)) : Q op ∧ ∀ r, R op r → SafeE Q R post (f r) := h

/-- The names of an entry of `dir` end in its own; in `dest` it has no other. -/
theorem names_of_join {dir : Path} (h : IsName name)
    (hbelow : NamesBelow dest (dir.join (Path.ofBytes name)) names) :
    ∃ dirs, names = dirs ++ [name] ∧ (dir = dest → dirs = []) := by
  obtain ⟨hne, -, hpath⟩ := hbelow
  have hjoin : (dir.join (Path.ofBytes name)).parts = dir.parts ++ [.normal name] :=
    congrArg Path.parts (join_spell dir (List.forall_mem_singleton.mpr h) (List.cons_ne_nil _ _))
  have hparts : dir.parts ++ [Part.normal name] = dest.parts ++ names.map .normal := by
    rw [← hjoin, hpath]
  have hsplit : names = names.dropLast ++ [names.getLast hne] :=
    (List.dropLast_append_getLast hne).symm
  rw [hsplit, List.map_append, ← List.append_assoc] at hparts
  obtain ⟨hdir, hlast⟩ := List.append_inj' hparts rfl
  have hname : name = names.getLast hne := Part.normal.inj (List.singleton_inj.mp hlast)
  refine ⟨names.dropLast, by rw [hname]; exact hsplit, ?_⟩
  rintro rfl
  have hnil : names.dropLast.map Part.normal = [] := List.self_eq_append_right.mp hdir
  exact List.map_eq_nil_iff.mp hnil

theorem remove_safe (D : Deleter) {isDir : Bool} {path : Path}
    (h : ∀ names, NamesBelow dest path names → rules.isIncluded (spell names) isDir = true) :
    SafeE (SparesExcluded rules dest) ListsNames (fun _ => True) (D.remove isDir path) := by
  refine SafeE.ite (fun _ => SafeE.pure trivial) fun _ => SafeE.ite ?_ ?_
  · rintro rfl
    exact askLocal_bind h fun _ _ => SafeE.pure trivial
  · intro hfile
    rw [Bool.not_eq_true] at hfile
    subst hfile
    exact askLocal_bind h fun _ _ => SafeE.pure trivial

variable {D : Deleter} {dir : Path} {source : List (List UInt8)}

theorem included_below (hfilters : D.filters = rules) (hexcluded : D.deleteExcluded = false)
    (hdir : dir = dest ∨ NameDecides rules) {d : DirEntry} (hname : IsName d.name)
    (hd : D.protects d = false) (hbelow : NamesBelow dest (dir.join (Path.ofBytes d.name)) names) :
    rules.isIncluded (spell names) d.isDir = true := by
  have hincluded : rules.isIncluded d.name d.isDir = true := by
    rw [Deleter.protects, hfilters, hexcluded] at hd
    simpa using hd
  obtain ⟨dirs, rfl, hroot⟩ := names_of_join hname hbelow
  rcases hdir with hdest | hdecides
  · rw [hroot hdest]
    exact hincluded
  · exact hdecides dirs d.name d.isDir hbelow.2.1 hincluded

theorem deleteLoop_safe (hfilters : D.filters = rules) (hexcluded : D.deleteExcluded = false)
    (hdir : dir = dest ∨ NameDecides rules) (ds : List DirEntry) (hds : ∀ d ∈ ds, IsName d.name) :
    ∀ (deleted : Nat) (b : DeleteBudget),
      SafeE (SparesExcluded rules dest) ListsNames (fun _ => True)
        (D.deleteLoop dir source ds deleted b) := by
  induction ds with
  | nil => exact fun _ _ => SafeE.pure trivial
  | cons d ds ih =>
    intro deleted b
    rw [List.forall_mem_cons] at hds
    refine SafeE.ite (fun _ => ih hds.2 deleted b) fun _ => ?_
    refine SafeE.ite (fun _ => ih hds.2 deleted b) fun hd => ?_
    rw [Bool.not_eq_true] at hd
    cases b.tryConsume with
    | none => exact SafeE.pure trivial
    | some b' =>
      refine SafeE.bind (remove_safe D fun names hbelow => ?_) fun _ _ => ih hds.2 _ b'
      exact included_below hfilters hexcluded hdir hds.1 hd hbelow

theorem deleteIn_safe (hfilters : D.filters = rules) (hexcluded : D.deleteExcluded = false)
    (hdir : dir = dest ∨ NameDecides rules) (b : DeleteBudget) :
    SafeE (SparesExcluded rules dest) ListsNames (fun _ => True) (D.deleteIn dir source b) := by
  refine askLocal_bind trivial fun found hfound => ?_
  cases found with
  | none => exact SafeE.pure trivial
  | some ds => exact deleteLoop_safe hfilters hexcluded hdir ds (hfound ds rfl) 0 b

theorem deletePass_safe (hfilters : D.filters = rules) (hexcluded : D.deleteExcluded = false)
    (due : Bool) (entries : List FileEntry) (st : Nat × DeleteBudget) :
    SafeE (SparesExcluded rules dest) ListsNames (fun _ => True)
      (deletePass D due dest entries st) :=
  SafeE.ite (fun _ => deleteIn_safe hfilters hexcluded (.inl rfl) _) fun _ => SafeE.pure trivial

theorem receiveEntries_safe (hfilters : D.filters = rules) (hexcluded : D.deleteExcluded = false)
    {during : Bool} (hduring : during = true → NameDecides rules) (all : List FileEntry) :
    ∀ (es : List FileEntry) (st : Nat × DeleteBudget),
      SafeE (SparesExcluded rules dest) ListsNames (fun _ => True)
        (receiveEntries D during dest all es st)
  | [], _ => SafeE.pure trivial
  | e :: es, st => by
    have ih := receiveEntries_safe hfilters hexcluded hduring all es
    refine askLocal_bind trivial fun ok _ => ?_
    refine SafeE.ite (fun _ => SafeE.throw _) fun _ => SafeE.ite (fun hdir => ?_) fun _ => ih st
    rw [Bool.and_eq_true] at hdir
    refine SafeE.bind (deleteIn_safe hfilters hexcluded (.inr (hduring hdir.2)) _) fun here _ => ?_
    exact ih _

/-- A whole transfer removes nothing that is excluded, but for the passes during it. -/
theorem executeTransfer_safe {options : DeleteOptions} (hmode : options.mode ≠ .excluded)
    (hduring : options.mode = .during → NameDecides rules) (entries : List FileEntry) :
    SafeE (SparesExcluded rules dest) ListsNames (fun _ => True)
      (executeTransfer options rules dest entries) := by
  have hexcluded : (deleterFor options rules).deleteExcluded = false := decide_eq_false hmode
  have hloop : ∀ st, SafeE (SparesExcluded rules dest) ListsNames (fun _ => True)
      (receiveEntries (deleterFor options rules) (options.mode = .during) dest entries entries st) :=
    receiveEntries_safe rfl hexcluded (fun h => hduring (of_decide_eq_true h)) entries entries
  refine SafeE.bind (deletePass_safe rfl hexcluded _ entries _) fun before _ => ?_
  refine SafeE.bind (hloop before) fun during _ => ?_
  refine askLocal_bind trivial fun ok _ => SafeE.ite (fun _ => SafeE.throw _) fun _ => ?_
  refine SafeE.bind (deletePass_safe rfl hexcluded _ entries during) fun _ _ => ?_
  exact SafeE.pure trivial

end Safety

/-! ## Rules that look at more than the last name -/

/-- What is found in the destination. -/
def foundEntry (name : List UInt8) (isDir : Bool) : DirEntry :=
  ⟨name, if isDir then sIfdir else sIfreg⟩

theorem isDir_foundEntry (name : List UInt8) (isDir : Bool) :
    (foundEntry name isDir).isDir = isDir := by
  cases isDir with
  | false => exact (by decide : decide (sIfreg &&& sIfmt = sIfdir) = false)
  | true => exact (by decide : decide (sIfdir &&& sIfmt = sIfdir) = true)

def sourceDir (names : List (List UInt8)) : FileEntry :=
  { FileEntry.default with name := spell names, mode := sIfdir }

theorem isDir_sourceDir (names : List (List UInt8)) : (sourceDir names).isDir = true :=
  (by decide : decide (sIfdir &&& sIfmt = sIfdir) = true)

theorem childName_self (h : name ≠ [dot]) : childName name name = none := by
  simp [childName, h]

theorem spell_ne_dot (h : ∀ n ∈ names, IsName n) (hne : names ≠ []) :
    spell names ≠ [dot] := by
  intro hdot
  have hpath := ofBytes_spell h hne
  rw [hdot] at hpath
  have hparts : [Part.cur] = names.map Part.normal := congrArg Path.parts hpath
  have hcur : Part.cur ∈ names.map Part.normal := hparts ▸ List.mem_singleton_self _
  obtain ⟨name, -, hname⟩ := List.mem_map.mp hcur
  cases hname

/-- Deleting during the transfer, an entry of a directory is judged by its name alone. -/
theorem included_of_safe {rules : FilterRuleList} {isDir : Bool}
    (hnames : ∀ n ∈ dirs ++ [name], IsName n) (hdirs : dirs ≠ [])
    (hname : rules.isIncluded name isDir = true)
    (h : SafeE (SparesExcluded rules ⟨true, []⟩) ListsNames (fun _ => True)
      (executeTransfer ⟨.during, none, false⟩ rules ⟨true, []⟩ [sourceDir dirs])) :
    rules.isIncluded (spell (dirs ++ [name])) isDir = true := by
  have hvalid : ∀ n ∈ dirs, IsName n := fun n hn => hnames n (List.mem_append_left _ hn)
  have hchild : (foundEntry name isDir).name ∉
      [sourceDir dirs].filterMap fun e => childName (sourceDir dirs).name e.name := by
    simp [sourceDir, childName_self (spell_ne_dot hvalid hdirs)]
  have hprotects : (deleterFor ⟨.during, none, false⟩ rules).protects (foundEntry name isDir) ≠
      true := by
    show (!false && !rules.isIncluded name (foundEntry name isDir).isDir) ≠ true
    rw [isDir_foundEntry, hname]
    exact Bool.false_ne_true
  -- the replies: the directory is made, and holds one entry
  have hentries := SafeE.of_bind (p := receiveEntries (deleterFor ⟨.during, none, false⟩ rules) true
    ⟨true, []⟩ [sourceDir dirs] [sourceDir dirs] (0, .new none)) h
  have hreceived := (askLocal_inv hentries).2 true trivial
  rw [if_neg (show ¬ true = false from nofun), isDir_sourceDir] at hreceived
  have hfound := (askLocal_inv (SafeE.of_bind hreceived)).2 (some [foundEntry name isDir]) (by
    rintro ds ⟨⟩ d hd
    rw [List.mem_singleton.mp hd]
    exact hnames name (List.mem_append_right _ List.mem_cons_self))
  dsimp only at hfound
  unfold Deleter.deleteLoop at hfound
  rw [if_neg hchild, if_neg hprotects] at hfound
  have hremove := SafeE.of_bind (p := (deleterFor ⟨.during, none, false⟩ rules).remove
    (foundEntry name isDir).isDir
    (Path.join (Path.join ⟨true, []⟩ (Path.ofBytes (spell dirs))) (Path.ofBytes name))) hfound
  have hbelow : NamesBelow ⟨true, []⟩
      (Path.join (Path.join ⟨true, []⟩ (Path.ofBytes (spell dirs))) (Path.ofBytes name))
      (dirs ++ [name]) := by
    refine ⟨by simp, hnames, ?_⟩
    rw [join_spell _ hvalid hdirs, (hnames name (by simp)).ofBytes_eq]
    simp [Path.join, Path.single, dropCur]
  rw [isDir_foundEntry] at hremove
  cases isDir with
  | false | true => exact (askLocal_inv (f := fun _ => pure ()) hremove).1 _ hbelow

/-- **An excluded path is safe from every pass but those during the transfer, and from these exactly
if the rules exclude no path whose last name they include.** -/
theorem delete_safe_iff (rules : FilterRuleList) (mode : DeleteMode) (hmode : mode ≠ .excluded) :
    (∀ (dest : Path) (entries : List FileEntry) (maxDelete : Option Nat) (dryRun : Bool),
      SafeE (SparesExcluded rules dest) ListsNames (fun _ => True)
        (executeTransfer ⟨mode, maxDelete, dryRun⟩ rules dest entries)) ↔
      mode ≠ .during ∨ NameDecides rules := by
  constructor
  · intro hsafe
    by_contra hboth
    obtain ⟨hduring, hdecides⟩ := not_or.mp hboth
    obtain rfl : mode = .during := not_not.mp hduring
    refine hdecides fun dirs name isDir hnames hname => ?_
    rcases eq_or_ne dirs [] with rfl | hdirs
    · exact hname
    · exact included_of_safe hnames hdirs hname (hsafe _ _ _ _)
  · intro hcond dest entries maxDelete dryRun
    refine executeTransfer_safe hmode (fun hduring => ?_) entries
    exact hcond.resolve_left fun hne => hne hduring

/-! ## Rules about names -/

/-- A segment that matches no `/`. -/
def Segment.Plain : Segment → Prop
  | .literal lit => slash ∉ lit
  | .charClass chars negated => negated = false ∧ slash ∉ chars
  | .doubleStar => False
  | .star | .question => True

/-- A pattern without `/` anywhere, also not by `**` or a class of characters. -/
def Pattern.Plain (p : Pattern) : Prop := p.anchored = false ∧ ∀ s ∈ p.segments, s.Plain

theorem slash_not_mem_of_starRest {text rest : List UInt8} (h : rest ∈ starRests text)
    (hrest : slash ∉ rest) : slash ∉ text := by
  induction text with
  | nil => exact List.not_mem_nil
  | cons c text ih =>
    rcases List.mem_cons.mp h with rfl | h
    · exact hrest
    · split_ifs at h with hc
      · exact absurd h List.not_mem_nil
      · simpa using ⟨fun heq => hc heq.symm, ih h⟩

/-- What plain segments match is a name. -/
theorem slash_not_mem_of_match {segments : List Segment} (h : ∀ s ∈ segments, s.Plain) :
    ∀ {text : List UInt8}, matchSegments segments text = true → slash ∉ text := by
  induction segments with
  | nil =>
    intro text hmatch
    simp [List.isEmpty_iff.mp hmatch]
  | cons s segments ih =>
    intro text hmatch
    rw [List.forall_mem_cons] at h
    -- one case for each segment, as `matchSegments` has them
    cases s with
    | literal lit =>
      unfold matchSegments at hmatch
      split_ifs at hmatch with hlit
      obtain ⟨rest, rfl⟩ := hlit
      rw [List.drop_left] at hmatch
      simpa using ⟨h.1, ih h.2 hmatch⟩
    | star =>
      obtain ⟨rest, hrest, hmatch⟩ := List.any_eq_true.mp hmatch
      exact slash_not_mem_of_starRest hrest (ih h.2 hmatch)
    | doubleStar => exact absurd h.1 id
    | question =>
      cases text with
      | nil => exact List.not_mem_nil
      | cons c text =>
        unfold matchSegments at hmatch
        dsimp only at hmatch
        split_ifs at hmatch with hc
        simpa using ⟨fun heq => hc heq.symm, ih h.2 hmatch⟩
    | charClass chars negated =>
      cases text with
      | nil => exact List.not_mem_nil
      | cons c text =>
        obtain ⟨⟨rfl, hchars⟩, hsegments⟩ := h
        unfold matchSegments at hmatch
        simp only [Bool.false_eq_true, if_false] at hmatch
        split_ifs at hmatch with hc
        rw [List.mem_cons, not_or]
        refine ⟨fun heq => hchars ?_, ih hsegments hmatch⟩
        rw [heq]
        exact List.contains_iff_mem.mp hc

theorem lastComponent_spell (hdirs : dirs ≠ []) (hname : slash ∉ name) :
    lastComponent (spell (dirs ++ [name])) = some name := by
  have hends : ∀ dir : List UInt8,
      (dir ++ slash :: name).rtakeWhile (fun b => b ≠ 0x2F) = name := by
    intro dir
    have hname' : ∀ b ∈ name.reverse, decide (b ≠ 0x2F) = true := by
      intro b hb
      refine decide_eq_true fun heq => hname ?_
      rw [slash, ← heq]
      exact List.mem_reverse.mp hb
    rw [List.rtakeWhile, List.reverse_append, List.reverse_cons, List.append_assoc,
      List.takeWhile_append_of_pos hname']
    simp [slash]
  unfold lastComponent
  rw [spell_snoc hdirs name, if_pos (by simp [slash]), hends]

theorem matches_spell {p : Pattern} (h : p.Plain) (hname : slash ∉ name) (isDir : Bool) :
    p.matches (spell (dirs ++ [name])) isDir = p.matches name isDir := by
  rcases eq_or_ne dirs [] with rfl | hdirs
  · rfl
  · have hslash : slash ∈ spell (dirs ++ [name]) := by
      rw [spell_snoc hdirs]
      simp
    have hlong : matchSegments p.segments (spell (dirs ++ [name])) = false := by
      rw [← Bool.not_eq_true]
      exact fun hmatch => slash_not_mem_of_match h.2 hmatch hslash
    have hshort : lastComponent name = none := by
      unfold lastComponent
      rw [if_neg]
      exact fun hmem => hname (List.contains_iff_mem.mp hmem)
    unfold Pattern.matches
    rw [h.1, hlong, hshort, lastComponent_spell hdirs hname]
    simp

/-- Rules with plain patterns judge every path by its last name. -/
theorem nameDecides_of_plain {rules : FilterRuleList} (h : ∀ r ∈ rules.rules, r.pattern.Plain) :
    NameDecides rules := by
  intro dirs name isDir hnames hname
  have hslash : slash ∉ name := (hnames name (by simp)).1
  have hfind : ∀ l : List FilterRule, (∀ r ∈ l, r.pattern.Plain) →
      FilterRuleList.firstMatch l (spell (dirs ++ [name])) isDir =
        FilterRuleList.firstMatch l name isDir := by
    intro l hl
    unfold FilterRuleList.firstMatch
    congr 1
    refine List.find?_congr fun r hr => ?_
    exact matches_spell (hl r hr) hslash isDir
  unfold FilterRuleList.isIncluded at hname ⊢
  rw [hfind rules.rules h]
  exact hname

/-- `--exclude '*.o'`. -/
def objectRules : FilterRuleList := ⟨[⟨.exclude, ⟨false, false, [.star, .literal [46, 111]]⟩⟩]⟩

/-- Object files are safe at any depth, also during the transfer. -/
theorem delete_safe_objects :
    SafeE (SparesExcluded objectRules ⟨true, []⟩) ListsNames (fun _ => True)
      (executeTransfer ⟨.during, some 10, false⟩ objectRules ⟨true, []⟩ [sourceDir [[100]]]) := by
  refine (delete_safe_iff objectRules .during (by decide)).mpr (.inr ?_) _ _ _ _
  refine nameDecides_of_plain fun r hr => ?_
  rw [List.mem_singleton.mp hr]
  refine ⟨rfl, fun s hs => ?_⟩
  rcases List.mem_pair.mp hs with rfl | rfl
  · trivial
  · exact (by decide : slash ∉ [46, 111])

/-- `--exclude d/x`. -/
def pathRules : FilterRuleList :=
  ⟨[⟨.exclude, ⟨true, false, [.literal [100, 47, 120]]⟩⟩]⟩

theorem pathRules_eq :
    FilterRuleList.fromOptions (fun _ => none) ["d/x".toList] [] [] [] [] = .ok pathRules := by
  have hcompile : compile [100, 47, 120] = .ok [.literal [100, 47, 120]] := by
    simp [compile, nextSegment, isSpecial, Except.map]
  have hnew : Pattern.new "d/x".toList = .ok ⟨true, false, [.literal [100, 47, 120]]⟩ := by
    show (compile [100, 47, 120]).map _ = _
    rw [hcompile]
    rfl
  have hadd : FilterRuleList.addExclude .new "d/x".toList = .ok pathRules := by
    unfold FilterRuleList.addExclude FilterRuleList.addPattern
    rw [hnew]
    rfl
  show (FilterRuleList.addExclude .new "d/x".toList >>= pure) = _
  rw [hadd]
  rfl

/-- The excluded `d/x` is removed, since no rule is about `x`. -/
theorem excluded_path_removed :
    FilterRuleList.fromOptions (fun _ => none) ["d/x".toList] [] [] [] [] = .ok pathRules ∧
      ¬ SafeE (SparesExcluded pathRules ⟨true, []⟩) ListsNames (fun _ => True)
        (executeTransfer ⟨.during, none, false⟩ pathRules ⟨true, []⟩ [sourceDir [[100]]]) := by
  refine ⟨pathRules_eq, fun hsafe => ?_⟩
  have hincluded : pathRules.isIncluded (spell ([[100]] ++ [[120]])) false = true :=
    included_of_safe (by decide) (by decide) (by decide) hsafe
  exact absurd hincluded (by decide)

end Ferrosync
