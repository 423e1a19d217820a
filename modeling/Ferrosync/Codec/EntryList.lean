import Ferrosync.Codec.EntryCodec

set_option autoImplicit false

/-! # Lists of entries in lockstep

A list is encoded entry by entry and decoded entry by entry. The two ends keep different states:
the encoder may have sent other lists before, and its tables hold what was in them; the decoder
starts each list with empty tables. `Lockstep` relates the two.

* `Transmitted`: what arrives of an entry;
* `Lockstep.step`: an entry whose references the decoder can resolve keeps the two in lockstep;
* `decodeEntries_lockstep`: so does a whole list.
-/

namespace Ferrosync

open ByteStream List

/-! ## The loops -/

/-- The loop around `encode_entry`; the first entry has the index `start`. -/
def encodeEntries (opts : FileListOptions) :
    Int → List FileEntry → EncoderState → List UInt8 × EncoderState
  | _, [], st => ([], st)
  | start, e :: es, st =>
    let one := encodeEntry e st opts (toI32 start)
    let rest := encodeEntries opts (start + 1) es one.2
    (one.1 ++ rest.1, rest.2)

/-- The loop around `decode_entry`, up to the end marker. Each round reads a byte, so that it
cannot have more rounds than there are bytes. -/
def decodeEntries (opts : FileListOptions) :
    Nat → List FileEntry → DecoderState → Wire (List FileEntry × DecoderState)
  | 0, _, _ => Reader.fail (.fault .diverged)
  | fuel + 1, prev, st => do
    let read ← decodeEntry opts prev st
    match read.1 with
    | .entry e => decodeEntries opts fuel (prev ++ [e]) read.2
    | .endOfList _ => pure (prev, read.2)

def recvEntries (opts : FileListOptions) (st : DecoderState) :
    Wire (List FileEntry × DecoderState) :=
  fun input => decodeEntries opts (input.length + 1) [] st input

/-! ## What arrives -/

def receivedAcl (opts : FileListOptions) (e : FileEntry) : Option PosixAcl :=
  if opts.preserveAcls && !e.isSymlink then sentAcl e else none

def receivedXattrs (opts : FileListOptions) (e : FileEntry) : Option ExtendedAttributes :=
  if opts.preserveXattrs then xattrsFrom (xattrsOf e.xattrs) else none

/-- The entry `d` has what the options transmit of the entry `e`. -/
structure Transmitted (opts : FileListOptions) (e d : FileEntry) : Prop where
  name : d.name = e.name
  len : d.len = e.len
  mtime : d.mtime = e.mtime
  mtimeNsec : d.mtimeNsec = if opts.wire.hasNanoseconds then e.mtimeNsec else 0
  mode : d.mode = e.mode
  uid : d.uid = if opts.preserveUid then e.uid else 0
  gid : d.gid = if opts.preserveGid then e.gid else 0
  rdev : d.rdev = if shouldSendRdev e.mode opts then e.rdev else 0
  linkTarget : d.linkTarget = if sendsTarget e.mode opts then e.linkTarget else []
  checksum : d.checksum =
    if sendsChecksum e.mode opts then paddedChecksum e.checksum opts.checksumLen else []
  acl : d.acl = receivedAcl opts e
  xattrs : d.xattrs = receivedXattrs opts e

/-- Two names of one file. -/
def SameMetadata (a b : FileEntry) : Prop :=
  ∃ name flags source, b = { a with name := name, flags := flags, hlinkSource := source }

theorem Transmitted.linked {opts : FileListOptions} {a b d : FileEntry} (h : Transmitted opts a d)
    (hsame : SameMetadata a b) (g : Nat) : Transmitted opts b (linkedEntry d b.name g) := by
  obtain ⟨name, flags, source, rfl⟩ := hsame
  exact { h with name := rfl }

def DeviceNumbered (e : FileEntry) : Prop :=
  e.rdev ≠ 0 → e.mode &&& sIfmt = sIfblk ∨ e.mode &&& sIfmt = sIfchr

/-- The two states agree where the next entry may be encoded against them. -/
structure Synced (opts : FileListOptions) (enc dec : DeltaState) : Prop where
  name : dec.prevName = enc.prevName
  mtime : dec.prevMtime = enc.prevMtime
  mode : dec.prevMode = enc.prevMode
  uid : dec.prevUid = if opts.preserveUid then enc.prevUid else 0
  gid : dec.prevGid = if opts.preserveGid then enc.prevGid else 0
  rdev : dec.prevRdev = if opts.preserveDevices then enc.prevRdev else 0
  rdevMajor : dec.prevRdevMajor = if opts.preserveDevices then enc.prevRdevMajor else 0

section Sync

variable {opts : FileListOptions} {e d : FileEntry} {enc dec : DeltaState}

theorem Synced.default : Synced opts .default .default := by
  constructor
  all_goals first
    | rfl
    | exact (ite_self 0).symm

/-- A device number that is sent without devices being preserved is zero. -/
theorem rdev_of_special (hrdev : DeviceNumbered e) (hdev : opts.preserveDevices = false)
    (hsends : shouldSendRdev e.mode opts = true) : e.rdev = 0 := by
  by_contra hne
  unfold shouldSendRdev at hsends
  dsimp only at hsends
  rw [hdev, Bool.false_and, Bool.false_or] at hsends
  rcases hrdev hne with hblk | hchr
  · rw [hblk] at hsends
    simp only [Bool.and_eq_true] at hsends
    exact absurd hsends.1.2 (by decide)
  · rw [hchr] at hsends
    simp only [Bool.and_eq_true] at hsends
    exact absurd hsends.1.2 (by decide)

/-- A device number that is not sent although devices are preserved is zero. -/
theorem rdev_of_plain (hrdev : DeviceNumbered e) (hdev : opts.preserveDevices = true)
    (hsends : shouldSendRdev e.mode opts = false) : e.rdev = 0 := by
  by_contra hne
  unfold shouldSendRdev at hsends
  dsimp only at hsends
  rw [hdev, Bool.true_and] at hsends
  rcases hrdev hne with hblk | hchr
  · simp [hblk] at hsends
  · simp [hchr] at hsends

/-- The device number that arrives, as far as the next entry may be compared with it. -/
theorem received_rdev (hrdev : DeviceNumbered e) :
    (if shouldSendRdev e.mode opts then e.rdev else 0) =
      if opts.preserveDevices then e.rdev else 0 := by
  cases hdev : opts.preserveDevices with
  | true =>
    cases hsends : shouldSendRdev e.mode opts with
    | true => rfl
    | false => exact (rdev_of_plain hrdev hdev hsends).symm
  | false =>
    cases hsends : shouldSendRdev e.mode opts with
    | true => exact rdev_of_special hrdev hdev hsends
    | false => rfl

theorem Synced.update (ht : Transmitted opts e d) (hrdev : DeviceNumbered e) :
    Synced opts (enc.update e) (dec.update d) where
  name := ht.name
  mtime := ht.mtime
  mode := ht.mode
  uid := ht.uid
  gid := ht.gid
  rdev := ht.rdev.trans (received_rdev hrdev)
  rdevMajor := by
    show d.rdev / 2 ^ 8 % 2 ^ 32 = if opts.preserveDevices then e.rdev / 2 ^ 8 % 2 ^ 32 else 0
    rw [ht.rdev, received_rdev hrdev]
    split <;> simp

theorem Synced.supplies {action : HardLinkAction} {f : Nat} (h : Synced opts enc dec)
    (hf : FlagsOf e enc opts action f) (hrdev : DeviceNumbered e) : Supplies opts f enc dec e where
  name := by rw [h.name, take_commonPrefixLen]
  mtime := by
    rw [hf.sameTime, decide_eq_true_eq]
    exact fun hsame => h.mtime.trans hsame.1.symm
  mode := by
    rw [hf.sameMode, decide_eq_true_eq]
    exact fun hsame => h.mode.trans hsame.1.symm
  -- without preserved owners the state holds no owner, and the flag is not looked at
  uid := by
    rw [hf.sameUid]
    intro hpreserve hsame
    unfold sameUid at hsame
    rw [h.uid, if_pos hpreserve]
    simp [hpreserve, decide_eq_true_eq] at hsame
    omega
  gid := by
    rw [hf.sameGid]
    intro hpreserve hsame
    unfold sameGid at hsame
    rw [h.gid, if_pos hpreserve]
    simp [hpreserve, decide_eq_true_eq] at hsame
    omega
  rdev := by
    rw [hf.sameRdev]
    intro _ hsame
    simp only [Bool.and_eq_true, decide_eq_true_eq] at hsame
    rw [h.rdev]
    -- where devices are not preserved only special files send a number, and theirs is 0
    cases hdev : opts.preserveDevices with
    | true => exact hsame.2.2.symm
    | false => exact (rdev_of_special hrdev hdev hsame.1).symm
  rdevMajor := by
    rw [hf.sameRdevMajor]
    intro hsame
    simp only [Bool.and_eq_true, decide_eq_true_eq] at hsame
    rw [h.rdevMajor]
    cases hdev : opts.preserveDevices with
    | true => exact hsame.2.2.symm
    | false =>
      simp [FileEntry.rdevMajor, rdev_of_special hrdev hdev hsame.1]

/-- What is read of an entry sent in full is what the options transmit of it. -/
theorem transmitted_received {f g : Nat} (h : Synced opts enc dec) :
    Transmitted opts e
      (receivedEntry opts dec e f g (receivedAcl opts e) (receivedXattrs opts e)) := by
  have huid : (if opts.preserveUid then e.uid else dec.prevUid) =
      if opts.preserveUid then e.uid else 0 := by
    rw [h.uid]
    split <;> rfl
  have hgid : (if opts.preserveGid then e.gid else dec.prevGid) =
      if opts.preserveGid then e.gid else 0 := by
    rw [h.gid]
    split <;> rfl
  constructor
  case uid => exact huid
  case gid => exact hgid
  all_goals rfl

end Sync

/-! ## The tables of attributes -/

/-- The encoder's tables are those of a decoder that started later, behind the earlier ones. -/
structure TablesFrom (base : AttrTables) (enc : EncoderState) (acls : AclTables)
    (xattrs : List ExtendedAttributes) : Prop where
  access : enc.acls.accessList = base.acls.accessList ++ acls.accessList
  dflt : enc.acls.defaultList = base.acls.defaultList ++ acls.defaultList
  xattrs : enc.xattrs = base.xattrs ++ xattrs

/-- The attributes that are sent with an entry can be encoded. An option that is off sends none, and
nothing is said about them. This is less than `AttributesFit`, which is about attributes that come
back as they were: an empty list of xattrs, or a default ACL of something that is not a directory,
can be encoded but is received as none. -/
structure AttrsFit (opts : FileListOptions) (e : FileEntry) : Prop where
  access : opts.preserveAcls = true → (accessOf e.acl).Fits
  dflt : opts.preserveAcls = true → (defaultOf e.acl).Fits
  xattrs : opts.preserveXattrs = true → (xattrsOf e.xattrs).Fits

/-- The attributes of an entry are new, or nothing was in the tables before the list. -/
structure AttrsResolve (opts : FileListOptions) (base : AttrTables) (enc : EncoderState)
    (e : FileEntry) : Prop where
  access : opts.preserveAcls = true → e.isSymlink = false →
    accessOf e.acl ∈ enc.acls.accessList → base.acls.accessList = []
  dflt : opts.preserveAcls = true → e.isDir = true →
    defaultOf e.acl ∈ enc.acls.defaultList → base.acls.defaultList = []
  xattrs : opts.preserveXattrs = true → xattrsOf e.xattrs ∈ enc.xattrs → base.xattrs = []

section Tables

variable {opts : FileListOptions} {e : FileEntry} {enc : EncoderState} {base : AttrTables}
variable {acls : AclTables} {xattrs : List ExtendedAttributes}

/-- Nothing is sent for a symlink, or without the option. -/
theorem skipsAcl (h : ¬ (opts.preserveAcls = true ∧ e.isSymlink = false)) :
    (opts.preserveAcls && !e.isSymlink) = false ∧
      (opts.preserveAcls && decide (e.mode &&& sIfmt ≠ sIflnk)) = false := by
  have hskip : (opts.preserveAcls && !e.isSymlink) = false := by
    rw [Bool.and_eq_false_iff]
    by_cases hpreserve : opts.preserveAcls = true
    · exact Or.inr (by simpa [hpreserve] using h)
    · exact Or.inl (Bool.eq_false_of_not_eq_true hpreserve)
  exact ⟨hskip, by simp [← hskip, FileEntry.isSymlink, decide_not]⟩

theorem reads_aclField (htables : TablesFrom base enc acls xattrs) (hfit : AttrsFit opts e)
    (hres : AttrsResolve opts base enc e) (ha : enc.acls.accessList.length < 2 ^ 32)
    (hd : enc.acls.defaultList.length < 2 ^ 32) :
    ∃ acls', Reads (decodeAclField e.mode opts acls) (encodeAclField e opts enc.acls).1
        (receivedAcl opts e, acls') ∧
      (encodeAclField e opts enc.acls).2.accessList = base.acls.accessList ++ acls'.accessList ∧
      (encodeAclField e opts enc.acls).2.defaultList = base.acls.defaultList ++ acls'.defaultList := by
  by_cases hsends : opts.preserveAcls = true ∧ e.isSymlink = false
  · obtain ⟨hpreserve, hsym⟩ := hsends
    have hmode : e.mode &&& sIfmt ≠ sIflnk := of_decide_eq_false hsym
    have hdecode : decodeAclField e.mode opts acls = decodeAcl e.mode acls := by
      simp [decodeAclField, hpreserve, decide_eq_true hmode]
    have hencode : encodeAclField e opts enc.acls = encodeAcl e.acl e.mode enc.acls := by
      simp [encodeAclField, hpreserve, hsym]
    have hreceived : receivedAcl opts e = sentAcl e := by
      unfold receivedAcl
      rw [hpreserve, hsym]
      rfl
    rw [hdecode, hencode, hreceived]
    exact reads_acl htables.access htables.dflt ⟨hfit.access hpreserve, hfit.dflt hpreserve⟩
      (hres.access hpreserve hsym) (hres.dflt hpreserve) ha hd
  · obtain ⟨hskip, hmode⟩ := skipsAcl hsends
    unfold decodeAclField encodeAclField receivedAcl
    rw [hskip, hmode]
    exact ⟨acls, Reads.pure _, htables.access, htables.dflt⟩

theorem reads_xattrField (htables : TablesFrom base enc acls xattrs) (hfit : AttrsFit opts e)
    (hres : AttrsResolve opts base enc e) (hx : enc.xattrs.length < 2 ^ 32) :
    ∃ xattrs', Reads (decodeXattrField opts xattrs) (encodeXattrField e opts enc.xattrs).1
        (receivedXattrs opts e, xattrs') ∧
      (encodeXattrField e opts enc.xattrs).2 = base.xattrs ++ xattrs' := by
  unfold decodeXattrField encodeXattrField receivedXattrs
  cases hpreserve : opts.preserveXattrs with
  | false => exact ⟨xattrs, Reads.pure _, htables.xattrs⟩
  | true =>
    obtain ⟨hreads, hsent⟩ := reads_shared "xattr" htables.xattrs
      (hres.xattrs hpreserve) hx (reads_xattrSet (hfit.xattrs hpreserve))
    exact ⟨_, hreads.map, hsent⟩

end Tables

/-! ## The table of hard links -/

/-- The entries of a list with the indices they are sent under. -/
def indexed : Int → List FileEntry → List (Int × FileEntry)
  | _, [] => []
  | start, e :: es => (toI32 start, e) :: indexed (start + 1) es

/-- The encoder's table holds the index of the first entry under each key. -/
def LinksOf (opts : FileListOptions) (history : List (Int × FileEntry)) (links : LinkTable) : Prop :=
  ∀ k, links.lookup k = (history.find? fun p => linkKey opts p.2 = some k).map Prod.fst

/-- The name a later member of a hard link group points to. -/
def linkSource (opts : FileListOptions) (earlier : List FileEntry) (e : FileEntry) :
    Option (List UInt8) :=
  match linkKey opts e with
  | none => none
  | some k => (earlier.find? fun e₀ => linkKey opts e₀ = some k).map FileEntry.name

section Links

variable {opts : FileListOptions} {e : FileEntry} {links : LinkTable}
variable {history : List (Int × FileEntry)}

theorem linkSource_of_key {earlier : List FileEntry} {k : Nat × Nat} (h : linkKey opts e = some k) :
    linkSource opts earlier e =
      (earlier.find? fun e₀ => linkKey opts e₀ = some k).map FileEntry.name := by
  unfold linkSource
  rw [h]

theorem indexed_append (start : Int) (es : List FileEntry) (e : FileEntry) :
    indexed start (es ++ [e]) = indexed start es ++ [(toI32 (start + es.length), e)] := by
  induction es generalizing start with
  | nil => simp [indexed]
  | cons a es ih =>
    have hshift : start + 1 + (es.length : Int) = start + ((a :: es).length : Nat) := by
      rw [length_cons]
      omega
    simp [indexed, ih, hshift]

/-- A search through the indexed entries is a search through the entries. -/
theorem find?_indexed (P : FileEntry → Bool) (es : List FileEntry) (start : Int) :
    match es.find? P with
    | none => ((indexed start es).find? fun p => P p.2) = none
    | some e₀ => ∃ j : Nat, es[j]? = some e₀ ∧
        ((indexed start es).find? fun p => P p.2) = some (toI32 (start + j), e₀) := by
  induction es generalizing start with
  | nil => rfl
  | cons a es ih =>
    rw [find?_cons]
    -- the head of the list is at `start`, and the tail begins at the number behind it
    by_cases ha : P a = true
    · rw [ha]
      refine ⟨0, rfl, ?_⟩
      simp [indexed, ha]
    · rw [Bool.eq_false_of_not_eq_true ha]
      have htail := ih (start + 1)
      have hskip : ((indexed start (a :: es)).find? fun p => P p.2) =
          (indexed (start + 1) es).find? fun p => P p.2 := by
        simp [indexed, ha]
      rw [hskip]
      cases hfind : es.find? P with
      | none =>
        rw [hfind] at htail
        exact htail
      | some e₀ =>
        rw [hfind] at htail
        obtain ⟨j, hj, hget⟩ := htail
        refine ⟨j + 1, hj, hget.trans ?_⟩
        congr 3
        omega

theorem LinksOf.nil : LinksOf opts [] [] := fun _ => rfl

/-- An entry that is not under the key does not matter for it. -/
theorem find?_append_other {k : Nat × Nat} (i : Int) (h : linkKey opts e ≠ some k) :
    ((history ++ [(i, e)]).find? fun p => linkKey opts p.2 = some k) =
      history.find? fun p => linkKey opts p.2 = some k := by
  simp [h]

theorem LinksOf.next (h : LinksOf opts history links) (i : Int) :
    LinksOf opts (history ++ [(i, e)]) (resolveHlinkAction opts e.linkInfo links i).2 := by
  intro k
  cases hkey : linkKey opts e with
  | none =>
    rw [resolveHlinkAction_none hkey, find?_append_other i (by rw [hkey]; exact nofun)]
    exact h k
  | some k' =>
    have hfound := h k'
    cases hlookup : links.lookup k' with
    | some first =>
      -- the key has been seen, so that its first entry stays the first
      rw [resolveHlinkAction_duplicate hkey hlookup]
      by_cases hk : k = k'
      · subst hk
        obtain ⟨p, hp, -⟩ := Option.map_eq_some_iff.mp (hfound.symm.trans hlookup)
        simpa [hp] using (h k).trans (congrArg _ hp)
      · rw [find?_append_other i (by rw [hkey]; exact fun h => hk (Option.some.inj h).symm)]
        exact h k
    | none =>
      rw [resolveHlinkAction_first hkey hlookup]
      by_cases hk : k = k'
      · subst hk
        have hmiss : (history.find? fun p => linkKey opts p.2 = some k) = none :=
          Option.map_eq_none_iff.mp (hfound.symm.trans hlookup)
        simp [hmiss, hkey]
      · rw [find?_append_other i (by rw [hkey]; exact fun h => hk (Option.some.inj h).symm),
          lookup_cons, beq_false_of_ne hk]
        exact h k

end Links

/-! ## Lockstep -/

/-- The two ends after the entries `sent` of a list, which arrived as `prev`. The encoder had sent
`before` in other lists, and its tables of attributes were `base`. -/
structure Lockstep (opts : FileListOptions) (before : List (Int × FileEntry)) (base : AttrTables)
    (start : Int) (sent prev : List FileEntry) (enc : EncoderState) (dec : DecoderState) : Prop where
  synced : Synced opts enc.delta dec.delta
  ndxStart : dec.delta.ndxStart = start
  links : LinksOf opts (before ++ indexed start sent) enc.links
  tables : TablesFrom base enc dec.acls dec.xattrs
  access_le : enc.acls.accessList.length ≤ before.length + sent.length
  dflt_le : enc.acls.defaultList.length ≤ before.length + sent.length
  xattrs_le : enc.xattrs.length ≤ before.length + sent.length
  entries : List.Forall₂ (Transmitted opts) sent prev
  sources : ∀ (j : Nat) (e d : FileEntry), sent[j]? = some e → prev[j]? = some d →
    d.hlinkSource = linkSource opts (sent.take j) e

structure Valid (opts : FileListOptions) (e : FileEntry) : Prop where
  sendable : Sendable opts e
  attrs : AttrsFit opts e
  rdev : DeviceNumbered e

/-- The decoder has the first member of the entry's hard link group, and the flags to tell. -/
def LinkResolves (opts : FileListOptions) (before : List (Int × FileEntry)) (sent : List FileEntry)
    (e : FileEntry) : Prop :=
  ∀ k, linkKey opts e = some k → (∀ p ∈ before, linkKey opts p.2 ≠ some k) ∧
    (opts.wire.flagsCodec = .byte → ∀ e₀ ∈ sent, linkKey opts e₀ ≠ some k)

/-- Members of one hard link group are names of one file. -/
def LinksAgree (opts : FileListOptions) (es : List FileEntry) : Prop :=
  ∀ a ∈ es, ∀ b ∈ es, linkKey opts a ≠ none → linkKey opts a = linkKey opts b → SameMetadata a b

/-- How the next entry arrives: in full, or as a copy of the first member of its group. -/
inductive Arrives (opts : FileListOptions) (sent prev : List FileEntry) (enc dec : DeltaState)
    (e d : FileEntry) : Prop where
  | full (f g : Nat) (action : HardLinkAction) (hf : FlagsOf e enc opts action f)
      (hsource : linkSource opts sent e = none)
      (hd : d = receivedEntry opts dec e f g (receivedAcl opts e) (receivedXattrs opts e))
  | linked (j g : Nat) (e₀ first : FileEntry) (hsent : sent[j]? = some e₀)
      (hprev : prev[j]? = some first) (hkey : linkKey opts e ≠ none)
      (hsame : linkKey opts e₀ = linkKey opts e) (hsource : linkSource opts sent e = some first.name)
      (hd : d = linkedEntry first e.name g)

section Step

variable {opts : FileListOptions} {before : List (Int × FileEntry)} {base : AttrTables}
variable {start : Int} {sent prev : List FileEntry} {enc : EncoderState} {dec : DecoderState}
variable {e : FileEntry}

theorem length_encodeAclField_le (acls : AclTables) :
    (encodeAclField e opts acls).2.accessList.length ≤ acls.accessList.length + 1 ∧
      (encodeAclField e opts acls).2.defaultList.length ≤ acls.defaultList.length + 1 := by
  unfold encodeAclField encodeAcl
  split
  · split
    · exact ⟨length_encodeShared _ _ _, length_encodeShared _ _ _⟩
    · exact ⟨length_encodeShared _ _ _, Nat.le_succ _⟩
  · exact ⟨Nat.le_succ _, Nat.le_succ _⟩

theorem length_encodeXattrField_le (seen : List ExtendedAttributes) :
    (encodeXattrField e opts seen).2.length ≤ seen.length + 1 := by
  unfold encodeXattrField
  split
  · exact length_encodeShared _ _ _
  · exact Nat.le_succ _

/-- The parts of the invariant that do not depend on how the entry was sent. -/
theorem Lockstep.extend {d : FileEntry} {links : LinkTable} {enc' : EncoderState}
    {dec' : DecoderState} (h : Lockstep opts before base start sent prev enc dec)
    (ht : Transmitted opts e d) (hrdev : DeviceNumbered e)
    (hsource : d.hlinkSource = linkSource opts sent e)
    (hlinks : (resolveHlinkAction opts e.linkInfo enc.links (toI32 (start + sent.length))).2 = links)
    (henc : enc'.delta = enc.delta.update e ∧ enc'.links = links)
    (hdec : dec'.delta = dec.delta.update d) (htables : TablesFrom base enc' dec'.acls dec'.xattrs)
    (ha : enc'.acls.accessList.length ≤ enc.acls.accessList.length + 1)
    (hd : enc'.acls.defaultList.length ≤ enc.acls.defaultList.length + 1)
    (hx : enc'.xattrs.length ≤ enc.xattrs.length + 1) :
    Lockstep opts before base start (sent ++ [e]) (prev ++ [d]) enc' dec' := by
  have hlen := h.entries.length_eq
  constructor
  case synced =>
    rw [henc.1, hdec]
    exact Synced.update ht hrdev
  case ndxStart =>
    rw [hdec]
    exact h.ndxStart
  case links =>
    simpa [henc.2, ← hlinks, indexed_append] using h.links.next _
  case tables => exact htables
  case access_le =>
    have := h.access_le
    simp
    omega
  case dflt_le =>
    have := h.dflt_le
    simp
    omega
  case xattrs_le =>
    have := h.xattrs_le
    simp
    omega
  case entries => exact rel_append h.entries (.cons ht .nil)
  -- the sources of the entries before this one do not see it
  case sources =>
    intro j a b ha hb
    rcases Nat.lt_or_ge j sent.length with hj | hj
    · rw [getElem?_append_left hj] at ha
      rw [getElem?_append_left (hlen ▸ hj)] at hb
      rw [take_append_of_le_length hj.le]
      exact h.sources j a b ha hb
    · have hj' : j = sent.length := by
        have := (List.getElem?_eq_some_iff.mp ha).1
        rw [length_append, length_singleton] at this
        omega
      subst hj'
      rw [getElem?_append_right (le_refl _), Nat.sub_self] at ha
      rw [getElem?_append_right hlen.symm.le, hlen, Nat.sub_self] at hb
      obtain rfl : e = a := Option.some.inj ha
      obtain rfl : d = b := Option.some.inj hb
      rw [take_left']
      · exact hsource
      · rfl

/-- The index of a key among the entries of the list, if no earlier list has it. -/
theorem Lockstep.lookup {k : Nat × Nat} (h : Lockstep opts before base start sent prev enc dec)
    (hbefore : ∀ p ∈ before, linkKey opts p.2 ≠ some k) :
    match sent.find? fun e₀ => linkKey opts e₀ = some k with
    | none => enc.links.lookup k = none
    | some e₀ => ∃ j : Nat, sent[j]? = some e₀ ∧ enc.links.lookup k = some (toI32 (start + j)) := by
  have hnone : (before.find? fun p => linkKey opts p.2 = some k) = none := by
    rw [find?_eq_none]
    intro p hp
    simpa using hbefore p hp
  -- the table of the encoder holds the first entry of each key, over all the lists so far
  have hlookup := h.links k
  rw [find?_append, hnone] at hlookup
  have hfind := find?_indexed (fun e₀ => linkKey opts e₀ = some k) sent start
  cases hsent : sent.find? fun e₀ => linkKey opts e₀ = some k with
  | none =>
    rw [hsent] at hfind
    rw [hfind] at hlookup
    exact hlookup
  | some e₀ =>
    rw [hsent] at hfind
    obtain ⟨j, hj, hget⟩ := hfind
    rw [hget] at hlookup
    exact ⟨j, hj, hlookup⟩

def Steps (opts : FileListOptions) (before : List (Int × FileEntry)) (base : AttrTables)
    (start : Int) (sent prev : List FileEntry) (enc : EncoderState) (dec : DecoderState)
    (e : FileEntry) : Prop :=
  ∃ d dec', Reads (decodeEntry opts prev dec)
      (encodeEntry e enc opts (toI32 (start + sent.length))).1 (.entry d, dec') ∧
    Lockstep opts before base start (sent ++ [e]) (prev ++ [d])
      (encodeEntry e enc opts (toI32 (start + sent.length))).2 dec' ∧
    dec'.delta = dec.delta.update d ∧ Arrives opts sent prev enc.delta dec.delta e d

/-- An entry that is sent in full. -/
theorem Lockstep.step_full {action : HardLinkAction} {links : LinkTable}
    (h : Lockstep opts before base start sent prev enc dec) (hwire : opts.wire.FlagsFit)
    (he : Valid opts e) (hattr : AttrsResolve opts base enc e)
    (haction : ∀ i, action ≠ .duplicateOf i) (hsource : linkSource opts sent e = none)
    (hresolve : resolveHlinkAction opts e.linkInfo enc.links (toI32 (start + sent.length)) =
      (action, links)) (hcount : before.length + sent.length < 2 ^ 32) :
    Steps opts before base start sent prev enc dec e := by
  -- the flags leave out what the delta state of the decoder supplies
  have hf := flagsOf_computeXmitFlags e enc.delta opts action
  have hs := h.synced.supplies hf he.rdev
  obtain ⟨acls, hacl, haccess, hdflt⟩ := reads_aclField h.tables he.attrs hattr
    (h.access_le.trans_lt hcount) (h.dflt_le.trans_lt hcount)
  obtain ⟨xattrs, hxattr, hxattrs⟩ := reads_xattrField h.tables he.attrs hattr
    (h.xattrs_le.trans_lt hcount)
  have hread := reads_entry hwire he.sendable haction rfl rfl hs hacl hxattr prev
  unfold Steps
  rw [encodeEntry_full hresolve haction]
  refine ⟨_, _, hread, ?_, rfl, Arrives.full _ _ action hf hsource rfl⟩
  refine h.extend (transmitted_received h.synced) he.rdev hsource.symm
    (congrArg Prod.snd hresolve) ⟨rfl, rfl⟩ rfl ⟨haccess, hdflt, hxattrs⟩ ?_ ?_ ?_
  · exact (length_encodeAclField_le _).1
  · exact (length_encodeAclField_le _).2
  · exact length_encodeXattrField_le _

/-- A later member of a group whose first member is in the list. -/
theorem Lockstep.step_linked {k : Nat × Nat} {e₀ : FileEntry} {j : Nat}
    (h : Lockstep opts before base start sent prev enc dec) (hwire : opts.wire.FlagsFit)
    (hbyte : opts.wire.flagsCodec ≠ .byte) (he : Valid opts e) (hkey : linkKey opts e = some k)
    (hfirst : (sent.find? fun e₀ => linkKey opts e₀ = some k) = some e₀) (hj : sent[j]? = some e₀)
    (hlookup : enc.links.lookup k = some (toI32 (start + j))) (hsame : SameMetadata e₀ e)
    (hstart : 0 ≤ start) (hbound : start + sent.length < 2 ^ 31) :
    Steps opts before base start sent prev enc dec e := by
  have hf := flagsOf_computeXmitFlags e enc.delta opts (.duplicateOf (toI32 (start + j)))
  have hs := h.synced.supplies hf he.rdev
  have hlt : j < sent.length := (List.getElem?_eq_some_iff.mp hj).1
  have hindex : toI32 (start + j) = start + j := toI32_eq ⟨by omega, by omega⟩
  have hdiff : toI32 (start + j) - dec.delta.ndxStart = j := by
    rw [h.ndxStart]
    omega
  -- the decoder finds what it got for the first member
  obtain ⟨first, hprev⟩ : ∃ first, prev[j]? = some first := by
    have hlt' : j < prev.length := h.entries.length_eq ▸ hlt
    exact ⟨_, getElem?_eq_getElem hlt'⟩
  have htarget : linkTarget? prev (toI32 (start + j) - dec.delta.ndxStart) = some first := by
    simp [hdiff, linkTarget?]
    omega
  have ht : Transmitted opts e₀ first := by
    obtain ⟨h₁, h₂⟩ := List.getElem?_eq_some_iff.mp hj
    obtain ⟨h₃, h₄⟩ := List.getElem?_eq_some_iff.mp hprev
    rw [← h₂, ← h₄]
    exact h.entries.get h₁ h₃
  have hresolve : resolveHlinkAction opts e.linkInfo enc.links (toI32 (start + sent.length)) =
      (.duplicateOf (toI32 (start + j)), enc.links) := resolveHlinkAction_duplicate hkey hlookup
  have hkey₀ : linkKey opts e₀ = some k := by simpa using find?_some hfirst
  have hne : linkKey opts e ≠ none := by rw [hkey]; exact Option.some_ne_none k
  have hdecode := decodeEntry_duplicate hwire hbyte he.sendable (preserve_of_linkKey hkey) rfl rfl hs
    (isI32_toI32 _) (by rw [hdiff]; exact ⟨by omega, by omega⟩) prev
  rw [htarget] at hdecode
  have hsource : some first.name = linkSource opts sent e := by
    rw [linkSource_of_key hkey, hfirst]
    exact congrArg some ht.name
  unfold Steps
  rw [encodeEntry_duplicate hresolve]
  refine ⟨_, _, fun rest => (congrArg _ (append_assoc _ _ rest)).trans (hdecode rest), ?_, rfl,
    Arrives.linked j _ e₀ first hj hprev hne (hkey₀.trans hkey.symm) hsource.symm rfl⟩
  exact h.extend (ht.linked hsame _) he.rdev hsource (congrArg Prod.snd hresolve) ⟨rfl, rfl⟩ rfl
    ⟨h.tables.access, h.tables.dflt, h.tables.xattrs⟩ (Nat.le_succ _) (Nat.le_succ _)
    (Nat.le_succ _)

/-- An entry without an earlier member of its group is sent in full. -/
theorem Lockstep.action_full (h : Lockstep opts before base start sent prev enc dec)
    (hlink : LinkResolves opts before sent e) (hsource : linkSource opts sent e = none) :
    ∃ action links, (∀ i, action ≠ .duplicateOf i) ∧
      resolveHlinkAction opts e.linkInfo enc.links (toI32 (start + sent.length)) =
        (action, links) := by
  cases hkey : linkKey opts e with
  | none => exact ⟨_, _, (by exact fun _ => nofun), resolveHlinkAction_none hkey⟩
  | some k =>
    have hlookup := h.lookup (hlink k hkey).1
    rw [linkSource_of_key hkey, Option.map_eq_none_iff] at hsource
    rw [hsource] at hlookup
    exact ⟨_, _, (by exact fun _ => nofun), resolveHlinkAction_first hkey hlookup⟩

/-- An entry whose references the decoder can resolve arrives, and the ends stay in lockstep. -/
theorem Lockstep.step (h : Lockstep opts before base start sent prev enc dec)
    (hwire : opts.wire.FlagsFit) (he : Valid opts e)
    (hagree : ∀ e₀ ∈ sent, linkKey opts e₀ ≠ none → linkKey opts e₀ = linkKey opts e →
      SameMetadata e₀ e)
    (hlink : LinkResolves opts before sent e)
    (hattr : linkSource opts sent e = none → AttrsResolve opts base enc e) (hstart : 0 ≤ start)
    (hbound : start + sent.length < 2 ^ 31) (hcount : before.length + sent.length < 2 ^ 32) :
    Steps opts before base start sent prev enc dec e := by
  -- Either the entry is the first of its key in this list and is sent in full, or it names the
  -- first one by its index.
  cases hsource : linkSource opts sent e with
  | none =>
    obtain ⟨action, links, haction, hresolve⟩ := h.action_full hlink hsource
    exact h.step_full hwire he (hattr hsource) haction hsource hresolve hcount
  | some name =>
    obtain ⟨k, hkey⟩ : ∃ k, linkKey opts e = some k := by
      cases hkey : linkKey opts e with
      | none =>
        unfold linkSource at hsource
        rw [hkey] at hsource
        exact absurd hsource nofun
      | some k => exact ⟨k, rfl⟩
    -- the index is one of this list: the entries of earlier lists are not at hand
    obtain ⟨hbefore, hbyte⟩ := hlink k hkey
    have hlookup := h.lookup hbefore
    rw [linkSource_of_key hkey, Option.map_eq_some_iff] at hsource
    obtain ⟨e₀, hfind, -⟩ := hsource
    rw [hfind] at hlookup
    obtain ⟨j, hj, hget⟩ := hlookup
    have hmem : e₀ ∈ sent := mem_of_find?_eq_some hfind
    have hkey₀ : linkKey opts e₀ = some k := by simpa using find?_some hfind
    have hne : linkKey opts e₀ ≠ none := by rw [hkey₀]; exact Option.some_ne_none k
    exact h.step_linked hwire (fun hb => hbyte hb e₀ hmem hkey₀) he hkey hfind hj hget
      (hagree e₀ hmem hne (hkey₀.trans hkey.symm)) hstart hbound

end Step

/-! ## A whole list -/

/-- Every reference of the entries `es`, sent after `sent`, can be resolved by the decoder. -/
def Resolvable (opts : FileListOptions) (before : List (Int × FileEntry)) (base : AttrTables)
    (start : Int) : List FileEntry → EncoderState → List FileEntry → Prop
  | _, _, [] => True
  | sent, enc, e :: es =>
    LinkResolves opts before sent e ∧
    (linkSource opts sent e = none → AttrsResolve opts base enc e) ∧
    Resolvable opts before base start (sent ++ [e])
      (encodeEntry e enc opts (toI32 (start + sent.length))).2 es

theorem encodeEntry_delta (e : FileEntry) (st : EncoderState) (opts : FileListOptions) (index : Int) :
    (encodeEntry e st opts index).2.delta = st.delta.update e := by
  unfold encodeEntry
  dsimp only
  split <;> rfl

theorem writeVarint_ne_nil (x : Nat) : writeVarint x ≠ [] := by
  unfold writeVarint
  dsimp only
  split_ifs <;> exact cons_ne_nil _ _

theorem encodeXmitFlags_ne_nil (raw : Nat) (opts : FileListOptions) : encodeXmitFlags raw opts ≠ [] := by
  unfold encodeXmitFlags
  cases opts.wire.flagsCodec with
  | varint => exact writeVarint_ne_nil _
  | byteExtended =>
    dsimp only
    split <;> exact cons_ne_nil _ _
  | byte => exact cons_ne_nil _ _

theorem one_le_length_encodeEntry (e : FileEntry) (st : EncoderState) (opts : FileListOptions)
    (index : Int) : 1 ≤ (encodeEntry e st opts index).1.length := by
  have hhead : ∀ action tail, 1 ≤ (encodeHead e st.delta opts action ++ tail).length := by
    intro action tail
    have := length_pos_of_ne_nil (encodeXmitFlags_ne_nil (computeXmitFlags e st.delta opts action) opts)
    simp [encodeHead]
    omega
  unfold encodeEntry
  dsimp only
  split <;> exact hhead _ _

theorem length_le_encodeEntries (opts : FileListOptions) (es : List FileEntry) (start : Int)
    (st : EncoderState) : es.length ≤ (encodeEntries opts start es st).1.length := by
  induction es generalizing start st with
  | nil => exact Nat.zero_le _
  | cons e es ih =>
    have hone := one_le_length_encodeEntry e st opts (toI32 start)
    have hrest := ih (start + 1) (encodeEntry e st opts (toI32 start)).2
    simp [encodeEntries]
    omega

section Run

variable {opts : FileListOptions} {before : List (Int × FileEntry)} {base : AttrTables}
variable {start : Int}

/-- The end marker ends the loop. -/
theorem decodeEntries_end (fuel : Nat) (prev : List FileEntry) (dec : DecoderState)
    (rest : List UInt8) :
    decodeEntries opts (fuel + 1) prev dec (encodeEndOfFlist 0 opts ++ rest) =
      .ok ((prev, dec), rest) := by
  have hend : decodeEntry opts prev dec (encodeEndOfFlist 0 opts ++ rest) =
      .ok ((.endOfList 0, dec), rest) :=
    bind_ok (reads_endOfFlist opts rest)
  exact bind_ok hend

theorem decodeEntries_entry {fuel : Nat} {prev : List FileEntry} {dec dec' : DecoderState}
    {d : FileEntry} {input rest : List UInt8}
    (h : decodeEntry opts prev dec input = .ok ((.entry d, dec'), rest)) :
    decodeEntries opts (fuel + 1) prev dec input = decodeEntries opts fuel (prev ++ [d]) dec' rest :=
  bind_ok h

/-- Entries whose references can be resolved are decoded, and the ends stay in lockstep; so does
anything else that every entry preserves. -/
theorem decodeEntries_lockstep (hwire : opts.wire.FlagsFit)
    (Q : List FileEntry → List FileEntry → DeltaState → DeltaState → Prop)
    (hQ : ∀ {sent prev enc dec e d}, List.Forall₂ (Transmitted opts) sent prev →
      Q sent prev enc dec → Arrives opts sent prev enc dec e d →
      Q (sent ++ [e]) (prev ++ [d]) (enc.update e) (dec.update d)) (hstart : 0 ≤ start) :
    ∀ (es sent prev : List FileEntry) (enc : EncoderState) (dec : DecoderState),
      Lockstep opts before base start sent prev enc dec → Q sent prev enc.delta dec.delta →
      (∀ e ∈ es, Valid opts e) → LinksAgree opts (sent ++ es) →
      Resolvable opts before base start sent enc es →
      start + (sent.length + es.length : Nat) ≤ 2 ^ 31 →
      before.length + (sent.length + es.length) ≤ 2 ^ 32 →
      ∃ ds dec', (∀ fuel rest,
          decodeEntries opts (fuel + es.length) prev dec
            ((encodeEntries opts (start + sent.length) es enc).1 ++ rest) =
          decodeEntries opts fuel (prev ++ ds) dec' rest) ∧
        Lockstep opts before base start (sent ++ es) (prev ++ ds)
          (encodeEntries opts (start + sent.length) es enc).2 dec' ∧
        Q (sent ++ es) (prev ++ ds) (encodeEntries opts (start + sent.length) es enc).2.delta
          dec'.delta := by
  intro es
  -- Induction on the entries left, with the invariant `Lockstep` for those already sent; `Q` is
  -- carried along.
  induction es with
  | nil =>
    intro sent prev enc dec h hq _ _ _ _ _
    refine ⟨[], dec, ?_, ?_, ?_⟩
    · intro fuel rest
      rw [append_nil]
      rfl
    · rw [append_nil, append_nil]
      exact h
    · rw [append_nil, append_nil]
      exact hq
  | cons e es ih =>
    intro sent prev enc dec h hq hvalid hagree hres hbound hcount
    rw [length_cons] at hbound hcount
    obtain ⟨hlink, hattr, hrest⟩ := hres
    have hsame : ∀ e₀ ∈ sent, linkKey opts e₀ ≠ none → linkKey opts e₀ = linkKey opts e →
        SameMetadata e₀ e := fun e₀ he₀ =>
      hagree e₀ (mem_append_left _ he₀) e (mem_append_right _ mem_cons_self)
    obtain ⟨d, dec₁, hread, hlock, hdelta, harrives⟩ := h.step hwire (hvalid e mem_cons_self)
      hsame hlink hattr hstart (by omega) (by omega)
    have hq₁ := hQ h.entries hq harrives
    rw [← hdelta, ← encodeEntry_delta e enc opts (toI32 (start + sent.length))] at hq₁
    -- the next entry has the number behind those sent
    have hshift : start + ((sent ++ [e]).length : Int) = start + sent.length + 1 := by
      simp
      omega
    obtain ⟨ds, dec', hrun, hlock', hq'⟩ := ih (sent ++ [e]) (prev ++ [d]) _ dec₁ hlock hq₁
      (fun a ha => hvalid a (mem_cons_of_mem e ha))
      (by rw [append_assoc]; exact hagree) hrest
      (by rw [length_append, length_singleton]; omega)
      (by rw [length_append, length_singleton]; omega)
    rw [hshift, append_assoc, append_assoc] at hlock' hq'
    refine ⟨d :: ds, dec', ?_, hlock', hq'⟩
    intro fuel rest
    have hnext := hrun fuel rest
    rw [hshift, append_assoc] at hnext
    rw [encodeEntries, append_assoc, length_cons, ← Nat.add_assoc,
      decodeEntries_entry (hread _)]
    exact hnext

theorem reads_recvEntries (hwire : opts.wire.FlagsFit)
    (Q : List FileEntry → List FileEntry → DeltaState → DeltaState → Prop)
    (hQ : ∀ {sent prev enc dec e d}, List.Forall₂ (Transmitted opts) sent prev →
      Q sent prev enc dec → Arrives opts sent prev enc dec e d →
      Q (sent ++ [e]) (prev ++ [d]) (enc.update e) (dec.update d)) (hstart : 0 ≤ start)
    {es : List FileEntry} {enc : EncoderState} {dec : DecoderState}
    (h : Lockstep opts before base start [] [] enc dec) (hq : Q [] [] enc.delta dec.delta)
    (hvalid : ∀ e ∈ es, Valid opts e) (hagree : LinksAgree opts es)
    (hres : Resolvable opts before base start [] enc es) (hbound : start + es.length ≤ 2 ^ 31)
    (hcount : before.length + es.length ≤ 2 ^ 32) :
    ∃ ds dec', Reads (recvEntries opts dec)
        ((encodeEntries opts start es enc).1 ++ encodeEndOfFlist 0 opts) (ds, dec') ∧
      Lockstep opts before base start es ds (encodeEntries opts start es enc).2 dec' ∧
      Q es ds (encodeEntries opts start es enc).2.delta dec'.delta := by
  have hrun := decodeEntries_lockstep hwire Q hQ hstart es [] [] enc dec h hq hvalid hagree hres
    (by rw [length_nil, Nat.zero_add]; exact hbound)
    (by rw [length_nil, Nat.zero_add]; exact hcount)
  have hzero : start + (([] : List FileEntry).length : Int) = start := by simp
  rw [hzero] at hrun
  obtain ⟨ds, dec', hdecode, hlock, hq'⟩ := hrun
  refine ⟨ds, dec', ?_, hlock, hq'⟩
  intro rest
  have hlen := length_le_encodeEntries opts es start enc
  unfold recvEntries
  rw [append_assoc]
  -- a round for the end marker is left
  obtain ⟨fuel, hfuel⟩ : ∃ fuel, ((encodeEntries opts start es enc).1 ++
      (encodeEndOfFlist 0 opts ++ rest)).length + 1 = fuel + 1 + es.length := by
    rw [length_append]
    exact ⟨(encodeEntries opts start es enc).1.length - es.length +
      (encodeEndOfFlist 0 opts ++ rest).length, by omega⟩
  rw [hfuel, hdecode]
  exact decodeEntries_end fuel ds dec' rest

/-- A decoder that started with the encoder can resolve every reference it is told of. -/
theorem resolvable_alone : ∀ (es sent : List FileEntry) (enc : EncoderState),
    (opts.wire.flagsCodec = .byte → ∀ (i : Nat) (e : FileEntry), es[i]? = some e →
      linkSource opts (sent ++ es.take i) e = none) →
    Resolvable opts [] ⟨.default, []⟩ start sent enc es := by
  intro es
  induction es with
  | nil => exact fun _ _ _ => trivial
  | cons e es ih =>
    intro sent enc hbyte
    have hlink : LinkResolves opts [] sent e := by
      intro k hk
      refine ⟨fun _ hp => absurd hp not_mem_nil, fun hb e₀ he₀ hkey => ?_⟩
      have hnone := hbyte hb 0 e rfl
      rw [take_zero, append_nil, linkSource_of_key hk, Option.map_eq_none_iff,
        find?_eq_none] at hnone
      exact hnone e₀ he₀ (decide_eq_true hkey)
    refine ⟨hlink, fun _ => ⟨fun _ _ _ => rfl, fun _ _ _ => rfl, fun _ _ => rfl⟩, ih _ _ ?_⟩
    intro hb i a ha
    simpa using hbyte hb (i + 1) a ha

theorem encodeEntries_append (es es' : List FileEntry) (start : Int) (st : EncoderState) :
    (encodeEntries opts start (es ++ es') st).1 =
      (encodeEntries opts start es st).1 ++
        (encodeEntries opts (start + es.length) es' (encodeEntries opts start es st).2).1 := by
  induction es generalizing start st with
  | nil => simp [encodeEntries]
  | cons e es ih =>
    have hshift : start + 1 + (es.length : Int) = start + ((e :: es).length : Int) := by
      rw [length_cons]
      omega
    simp [encodeEntries, ih, hshift]

theorem prefix_of_decodeEntries :
    ∀ (fuel : Nat) (prev : List FileEntry) (st : DecoderState) (input : List UInt8)
      (ds : List FileEntry) (st' : DecoderState) (rest : List UInt8),
      decodeEntries opts fuel prev st input = .ok ((ds, st'), rest) → prev <+: ds := by
  intro fuel
  induction fuel with
  | zero => intro prev st input ds st' rest h; exact absurd h nofun
  | succ fuel ih =>
    intro prev st input ds st' rest h
    obtain ⟨⟨read, st₁⟩, tail, -, h⟩ := bind_eq_ok h
    cases read with
    | entry d => exact (prefix_append prev [d]).trans (ih (prev ++ [d]) st₁ tail ds st' rest h)
    | endOfList ioError =>
      obtain ⟨h, -⟩ := pure_eq_ok h
      cases h
      exact prefix_refl _

/-- What holds of every entry a decoder returns holds of every entry of a list. -/
theorem decodeEntries_forall {P : FileEntry → Prop}
    (hP : ∀ {prev st input d st' rest},
      decodeEntry opts prev st input = .ok ((.entry d, st'), rest) → P d) :
    ∀ (fuel : Nat) (prev : List FileEntry) (st : DecoderState) (input : List UInt8)
      (ds : List FileEntry) (st' : DecoderState) (rest : List UInt8), (∀ e ∈ prev, P e) →
      decodeEntries opts fuel prev st input = .ok ((ds, st'), rest) → ∀ e ∈ ds, P e := by
  intro fuel
  induction fuel with
  | zero => intro prev st input ds st' rest _ h; exact absurd h nofun
  | succ fuel ih =>
    intro prev st input ds st' rest hprev h
    obtain ⟨⟨read, st₁⟩, tail, hread, h⟩ := bind_eq_ok h
    cases read with
    | entry d =>
      refine ih (prev ++ [d]) st₁ tail ds st' rest ?_ h
      intro e he
      rcases mem_append.mp he with he | he
      · exact hprev e he
      · rw [mem_singleton.mp he]
        exact hP hread
    | endOfList ioError =>
      obtain ⟨h, -⟩ := pure_eq_ok h
      cases h
      exact hprev

theorem recvEntries_forall {P : FileEntry → Prop}
    (hP : ∀ {prev st input d st' rest},
      decodeEntry opts prev st input = .ok ((.entry d, st'), rest) → P d)
    {st st' : DecoderState} {input rest : List UInt8} {ds : List FileEntry}
    (h : recvEntries opts st input = .ok ((ds, st'), rest)) : ∀ e ∈ ds, P e :=
  decodeEntries_forall hP _ [] st input ds st' rest (fun _ he => absurd he List.not_mem_nil) h

end Run

end Ferrosync
