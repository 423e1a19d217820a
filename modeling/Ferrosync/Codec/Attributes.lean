import Ferrosync.Codec.Flags

set_option autoImplicit false

/-! # Access control lists and extended attributes on the wire

Both are sent through a table: a value that has been sent before is replaced by its position in
the table, counted from one. The decoder keeps a table of its own, so the two have to grow in step.

* `reads_shared_new`: a value that is not in the table yet;
* `decodeShared_ref`: a value that is, which the decoder looks up in its own table;
* `reads_shared`: both together, for a decoder whose table is the end of the encoder's. A decoder
  that started later reads only values that were sent since.
-/

namespace Ferrosync

open ByteStream

/-! ## The table -/

section Table

variable {α : Type} [DecidableEq α]

/-- What `encode_one_acl` and `encode_xattrs` share. -/
def encodeShared (inline : α → List UInt8) (x : α) (seen : List α) : List UInt8 × List α :=
  if x ∈ seen then (writeVarint ((seen.idxOf x + 1) % 2 ^ 32), seen)
  else (writeVarint 0 ++ inline x, seen ++ [x])

def dedupOutOfRange (kind : String) (ndx len : Nat) : Failure :=
  .protocol (.handshake (kind ++ " dedup index " ++ toString ndx ++ " out of range (list has " ++
    toString len ++ " entries)"))

/-- What `decode_one_acl` and `decode_xattrs` share. -/
def decodeShared (inline : Wire α) (kind : String) (seen : List α) : Wire (α × List α) := do
  let ndx ← readVarint
  if ndx = 0 then do
    let x ← inline
    pure (x, seen ++ [x])
  else
    match seen[ndx - 1]? with
    | some x => pure (x, seen)
    | none => Reader.fail (dedupOutOfRange kind ndx seen.length)

variable {encode : α → List UInt8} {decode : Wire α} {kind : String} {x : α} {sent seen : List α}

theorem encodeShared_new (h : x ∉ sent) :
    encodeShared encode x sent = (writeVarint 0 ++ encode x, sent ++ [x]) :=
  if_neg h

theorem encodeShared_ref (h : x ∈ sent) :
    encodeShared encode x sent = (writeVarint ((sent.idxOf x + 1) % 2 ^ 32), sent) :=
  if_pos h

theorem reads_shared_new (h : x ∉ sent) (hx : Reads decode (encode x) x) :
    Reads (decodeShared decode kind seen) (encodeShared encode x sent).1 (x, seen ++ [x]) := by
  rw [encodeShared_new h]
  refine (reads_varint (by decide)).bind ?_
  exact hx.map

/-- A value sent before is looked up at the position it has in the encoder's table. -/
theorem decodeShared_ref (h : x ∈ sent) (hlen : sent.length < 2 ^ 32) (rest : List UInt8) :
    decodeShared decode kind seen ((encodeShared encode x sent).1 ++ rest) =
      match seen[sent.idxOf x]? with
      | some y => .ok ((y, seen), rest)
      | none => .error (dedupOutOfRange kind (sent.idxOf x + 1) seen.length) := by
  have hidx : sent.idxOf x + 1 < 2 ^ 32 := by
    have := List.idxOf_lt_length_of_mem h
    omega
  rw [encodeShared_ref h, Nat.mod_eq_of_lt hidx]
  refine (bind_ok (reads_varint hidx rest)).trans ?_
  rw [Nat.add_sub_cancel]
  cases seen[sent.idxOf x]? with
  | some | none => rfl

theorem encodeShared_nodup (h : sent.Nodup) : (encodeShared encode x sent).2.Nodup := by
  by_cases hx : x ∈ sent
  · rw [encodeShared_ref hx]
    exact h
  · rw [encodeShared_new hx]
    exact List.nodup_append.mpr ⟨h, List.nodup_singleton x, by
      intro a ha b hb
      rw [List.mem_singleton.mp hb]
      exact fun hax => hx (hax ▸ ha)⟩

/-- The table of a decoder that started later holds another value there. -/
theorem getElem?_idxOf_suffix {base : List α} (hnodup : (base ++ seen).Nodup) (hx : x ∈ base ++ seen) :
    seen[(base ++ seen).idxOf x]? = some x ↔ base = [] := by
  constructor
  · intro hget
    have hidx := List.idxOf_lt_length_of_mem hx
    have hlater : (base ++ seen)[base.length + (base ++ seen).idxOf x]? = some x := by
      rw [List.getElem?_append_right (Nat.le_add_right _ _), Nat.add_sub_cancel_left]
      exact hget
    obtain ⟨hlt, hget⟩ := List.getElem?_eq_some_iff.mp hlater
    have heq : (base ++ seen).idxOf x = base.length + (base ++ seen).idxOf x := by
      have hsame := (List.getElem_idxOf hidx).trans hget.symm
      exact (List.Nodup.getElem_inj_iff hnodup).mp hsame
    exact List.length_eq_zero_iff.mp (by omega)
  · intro hbase
    subst hbase
    have hidx := List.idxOf_lt_length_of_mem hx
    rw [List.nil_append] at hidx ⊢
    rw [List.getElem?_eq_getElem hidx, List.getElem_idxOf hidx]

/-- What a decoder has in its table behind a value, where it had `seen`. -/
def addShared (x : α) (sent seen : List α) : List α := if x ∈ sent then seen else seen ++ [x]

/-- A decoder that started when the encoder's table was `base` reads a value that is new, and, if
it started with the encoder, any value. -/
theorem reads_shared (kind : String) {base : List α} (hsent : sent = base ++ seen)
    (hres : x ∈ sent → base = []) (hlen : sent.length < 2 ^ 32) (hx : Reads decode (encode x) x) :
    Reads (decodeShared decode kind seen) (encodeShared encode x sent).1
        (x, addShared x sent seen) ∧
      (encodeShared encode x sent).2 = base ++ addShared x sent seen := by
  unfold addShared
  -- a value that was sent before comes as its place in the table, which both sides have alike
  by_cases hmem : x ∈ sent
  · have hbase := hres hmem
    subst hbase
    subst hsent
    have hidx := List.idxOf_lt_length_of_mem hmem
    have hget : sent[sent.idxOf x]? = some x := by
      rw [List.getElem?_eq_getElem hidx, List.getElem_idxOf hidx]
    rw [if_pos hmem]
    constructor
    · intro rest
      rw [decodeShared_ref hmem hlen, hget]
    · rw [encodeShared_ref hmem]
      rfl
  · rw [if_neg hmem]
    constructor
    · exact reads_shared_new hmem hx
    · rw [encodeShared_new hmem, hsent, List.append_assoc]

end Table

/-! ## Access control lists -/

def optVarint : Option Nat → List UInt8
  | none => []
  | some perm => writeVarint perm

def readOptVarint (present : Bool) : Wire (Option Nat) :=
  if present then do
    let perm ← readVarint
    pure (some perm)
  else pure none

/-- The permissions of a named entry, with the flags in the low bits. -/
def accessAndFlags (ace : PosixAce) : Nat :=
  ace.access * 2 ^ 2 % 2 ^ 32 ||| xmitWord [(0, ace.name.isSome), (1, ace.kind = .user)]

def encodeAce (ace : PosixAce) : List UInt8 :=
  writeVarint ace.id ++ writeVarint (accessAndFlags ace) ++
    match ace.name with
    | none => []
    | some name => writeVarint (name.length % 2 ^ 32) ++ name

def decodeAceName (present : Bool) : Wire (Option (List UInt8)) :=
  if present then do
    let nameLen ← readVarint
    let name ← readExact unexpectedEof nameLen
    pure (some name)
  else pure none

def decodeAce : Wire PosixAce := do
  let id ← readVarint
  let bits ← readVarint
  let name ← decodeAceName (bits.testBit 0)
  pure ⟨if bits.testBit 1 then .user else .group, id, name, bits / 2 ^ 2⟩

def aclFlags (acl : PosixAclEntries) : Nat :=
  xmitWord [(0, acl.userObj.isSome), (1, acl.groupObj.isSome), (2, acl.mask.isSome),
    (3, acl.other.isSome), (4, acl.named ≠ [])]

/-- `encode_one_acl` for a list that has not been sent before. -/
def encodeAclEntries (acl : PosixAclEntries) : List UInt8 :=
  [UInt8.ofNat (aclFlags acl)] ++ optVarint acl.userObj ++ optVarint acl.groupObj ++
    optVarint acl.mask ++ optVarint acl.other ++
    if acl.named = [] then []
    else writeVarint (acl.named.length % 2 ^ 32) ++ acl.named.flatMap encodeAce

def decodeNamed (present : Bool) : Wire (List PosixAce) :=
  if present then do
    let count ← readVarint
    decodeAce.times count
  else pure []

/-- `decode_one_acl` for a list that has not been received before. -/
def decodeAclEntries : Wire PosixAclEntries := do
  let flags ← readByte
  let userObj ← readOptVarint (flags.toNat.testBit 0)
  let groupObj ← readOptVarint (flags.toNat.testBit 1)
  let mask ← readOptVarint (flags.toNat.testBit 2)
  let other ← readOptVarint (flags.toNat.testBit 3)
  let named ← decodeNamed (flags.toNat.testBit 4)
  pure ⟨userObj, groupObj, mask, other, named⟩

/-- The two tables of `AclEncoder` and of `AclDecoder`. -/
structure AclTables where
  accessList : List PosixAclEntries
  defaultList : List PosixAclEntries
  deriving DecidableEq, Repr

def AclTables.default : AclTables := ⟨[], []⟩

def encodeOneAcl (acl : PosixAclEntries) (seen : List PosixAclEntries) :
    List UInt8 × List PosixAclEntries :=
  encodeShared encodeAclEntries acl seen

def decodeOneAcl (seen : List PosixAclEntries) : Wire (PosixAclEntries × List PosixAclEntries) :=
  decodeShared decodeAclEntries "ACL" seen

/-- The list that is sent as the access list; an empty one stands for none. -/
def accessOf : Option PosixAcl → PosixAclEntries
  | some acl => acl.access
  | none => .default

/-- The list that is sent as the default list of a directory. -/
def defaultOf : Option PosixAcl → PosixAclEntries
  | some acl => acl.default.getD .default
  | none => .default

def encodeAcl (acl : Option PosixAcl) (mode : UInt32) (tables : AclTables) :
    List UInt8 × AclTables :=
  let access := encodeOneAcl (accessOf acl) tables.accessList
  if mode &&& sIfmt = sIfdir then
    let dflt := encodeOneAcl (defaultOf acl) tables.defaultList
    (access.1 ++ dflt.1, ⟨access.2, dflt.2⟩)
  else (access.1, ⟨access.2, tables.defaultList⟩)

/-- The default list of a directory; anything else has none. -/
def decodeDefault (mode : UInt32) (seen : List PosixAclEntries) :
    Wire (Option PosixAclEntries × List PosixAclEntries) :=
  if mode &&& sIfmt = sIfdir then do
    let d ← decodeOneAcl seen
    pure (if d.1 = .default then none else some d.1, d.2)
  else pure (none, seen)

def aclFrom (access : PosixAclEntries) (dflt : Option PosixAclEntries) : Option PosixAcl :=
  if access = .default ∧ dflt = none then none else some ⟨access, dflt⟩

def decodeAcl (mode : UInt32) (tables : AclTables) : Wire (Option PosixAcl × AclTables) := do
  let access ← decodeOneAcl tables.accessList
  let dflt ← decodeDefault mode tables.defaultList
  pure (aclFrom access.1 dflt.1, ⟨access.2, dflt.2⟩)

/-! ## Extended attributes -/

def encodeXattrEntry (entry : XattrEntry) : List UInt8 :=
  writeVarint (entry.name.length % 2 ^ 32) ++ writeVarint (entry.value.length % 2 ^ 32) ++
    entry.name ++ entry.value

def decodeXattrEntry : Wire XattrEntry := do
  let nameLen ← readVarint
  let datumLen ← readVarint
  let name ← readExact unexpectedEof nameLen
  let value ← readExact unexpectedEof datumLen
  pure ⟨name, value⟩

def encodeXattrSet (xa : ExtendedAttributes) : List UInt8 :=
  writeVarint (xa.entries.length % 2 ^ 32) ++ xa.entries.flatMap encodeXattrEntry

def decodeXattrSet : Wire ExtendedAttributes := do
  let count ← readVarint
  let entries ← decodeXattrEntry.times count
  pure ⟨entries⟩

/-- The set that is sent; an empty one stands for none. -/
def xattrsOf (xattrs : Option ExtendedAttributes) : ExtendedAttributes := xattrs.getD ⟨[]⟩

def xattrsFrom (xa : ExtendedAttributes) : Option ExtendedAttributes :=
  if xa.entries = [] then none else some xa

def encodeXattrs (xattrs : Option ExtendedAttributes) (seen : List ExtendedAttributes) :
    List UInt8 × List ExtendedAttributes :=
  encodeShared encodeXattrSet (xattrsOf xattrs) seen

def decodeXattrs (seen : List ExtendedAttributes) :
    Wire (Option ExtendedAttributes × List ExtendedAttributes) := do
  let xa ← decodeShared decodeXattrSet "xattr" seen
  pure (xattrsFrom xa.1, xa.2)

/-! ## Reading them back -/

/-- The entries of an access control list that fit their place on the wire. -/
structure PosixAce.Fits (ace : PosixAce) : Prop where
  id : ace.id < 2 ^ 32
  access : ace.access < 2 ^ 30
  name : ∀ name ∈ ace.name, name.length < 2 ^ 32

structure PosixAclEntries.Fits (acl : PosixAclEntries) : Prop where
  userObj : ∀ perm ∈ acl.userObj, perm < 2 ^ 32
  groupObj : ∀ perm ∈ acl.groupObj, perm < 2 ^ 32
  mask : ∀ perm ∈ acl.mask, perm < 2 ^ 32
  other : ∀ perm ∈ acl.other, perm < 2 ^ 32
  length : acl.named.length < 2 ^ 32
  named : ∀ ace ∈ acl.named, ace.Fits

structure ExtendedAttributes.Fits (xa : ExtendedAttributes) : Prop where
  length : xa.entries.length < 2 ^ 32
  entries : ∀ entry ∈ xa.entries, entry.name.length < 2 ^ 32 ∧ entry.value.length < 2 ^ 32

theorem PosixAclEntries.fits_default : PosixAclEntries.default.Fits where
  userObj := nofun
  groupObj := nofun
  mask := nofun
  other := nofun
  length := by decide
  named := nofun

theorem ExtendedAttributes.fits_empty : ExtendedAttributes.Fits ⟨[]⟩ where
  length := by decide
  entries := nofun

theorem reads_optVarint {perm : Option Nat} (h : ∀ p ∈ perm, p < 2 ^ 32) :
    Reads (readOptVarint perm.isSome) (optVarint perm) perm := by
  cases perm with
  | none => exact Reads.pure none
  | some p => exact (reads_varint (h p rfl)).map

theorem accessAndFlags_eq {ace : PosixAce} (h : ace.access < 2 ^ 30) :
    accessAndFlags ace = 2 ^ 2 * ace.access +
      xmitWord [(0, ace.name.isSome), (1, ace.kind = .user)] := by
  unfold accessAndFlags
  rw [Nat.mod_eq_of_lt (by omega), Nat.mul_comm]
  refine (Nat.two_pow_add_eq_or_of_lt (xmitWord_lt ?_) _).symm
  simp

theorem reads_ace {ace : PosixAce} (h : ace.Fits) : Reads decodeAce (encodeAce ace) ace := by
  have hflags : xmitWord [(0, ace.name.isSome), (1, ace.kind = .user)] < 2 ^ 2 :=
    xmitWord_lt (by simp)
  have hbits := accessAndFlags_eq h.access
  -- the two lowest bits are flags; the access bits are above them
  have hlow : ∀ k < 2, (accessAndFlags ace).testBit k =
      (xmitWord [(0, ace.name.isSome), (1, ace.kind = .user)]).testBit k := by
    intro k hk
    rw [hbits, Nat.testBit_two_pow_mul_add _ hflags, if_pos hk]
  have hname : (accessAndFlags ace).testBit 0 = ace.name.isSome := by
    rw [hlow 0 (by decide), testBit_xmitWord]
    simp
  have huser : (accessAndFlags ace).testBit 1 = decide (ace.kind = .user) := by
    rw [hlow 1 (by decide), testBit_xmitWord]
    simp
  have haccess : accessAndFlags ace / 2 ^ 2 = ace.access := by
    omega
  have hlt : accessAndFlags ace < 2 ^ 32 := by
    have := h.access
    omega
  have hkind : (if (accessAndFlags ace).testBit 1 then AceKind.user else .group) = ace.kind := by
    rw [huser]
    cases ace.kind <;> rfl
  have hreads : Reads (decodeAceName ((accessAndFlags ace).testBit 0))
      (match ace.name with
        | none => []
        | some name => writeVarint (name.length % 2 ^ 32) ++ name) ace.name := by
    rw [hname]
    cases hcase : ace.name with
    | none => exact Reads.pure none
    | some name =>
      have hlen := h.name name hcase
      refine Reads.bind (reads_varint (Nat.mod_lt _ (by decide))) ?_
      exact Reads.map (Reads.exact_of_length (Nat.mod_eq_of_lt hlen).symm)
  unfold decodeAce encodeAce
  rw [List.append_assoc]
  refine (reads_varint h.id).bind ((reads_varint hlt).bind ?_)
  refine hreads.map.congr rfl ?_
  rw [hkind, haccess]

theorem reads_named {named : List PosixAce} (hlen : named.length < 2 ^ 32)
    (h : ∀ ace ∈ named, ace.Fits) :
    Reads (decodeNamed (decide (named ≠ [])))
      (if named = [] then []
        else writeVarint (named.length % 2 ^ 32) ++ named.flatMap encodeAce) named := by
  unfold decodeNamed
  by_cases hnil : named = []
  · subst hnil
    exact Reads.pure []
  · rw [decide_eq_true hnil, if_neg hnil, Nat.mod_eq_of_lt hlen]
    refine (reads_varint hlen).bind ?_
    have htimes := Reads.times encodeAce id named fun ace hace => reads_ace (h ace hace)
    rw [List.map_id] at htimes
    exact htimes

theorem reads_aclEntries {acl : PosixAclEntries} (h : acl.Fits) :
    Reads decodeAclEntries (encodeAclEntries acl) acl := by
  have hlt : aclFlags acl < 2 ^ 5 := by
    exact xmitWord_lt (by simp)
  have hbyte : (UInt8.ofNat (aclFlags acl)).toNat = aclFlags acl := by
    exact Nat.mod_eq_of_lt (hlt.trans (by decide))
  have hbits : (aclFlags acl).testBit 0 = acl.userObj.isSome ∧
      (aclFlags acl).testBit 1 = acl.groupObj.isSome ∧
      (aclFlags acl).testBit 2 = acl.mask.isSome ∧
      (aclFlags acl).testBit 3 = acl.other.isSome ∧
      (aclFlags acl).testBit 4 = decide (acl.named ≠ []) := by
    unfold aclFlags
    simp only [testBit_xmitWord]
    simp
  -- the bits say which of the optional fields follow
  obtain ⟨h0, h1, h2, h3, h4⟩ := hbits
  unfold decodeAclEntries encodeAclEntries
  simp only [List.append_assoc]
  refine (reads_byte _).bind ?_
  rw [hbyte, h0, h1, h2, h3, h4]
  refine (reads_optVarint h.userObj).bind ((reads_optVarint h.groupObj).bind ?_)
  refine (reads_optVarint h.mask).bind ((reads_optVarint h.other).bind ?_)
  exact (reads_named h.length h.named).map

theorem reads_xattrEntry {entry : XattrEntry}
    (h : entry.name.length < 2 ^ 32 ∧ entry.value.length < 2 ^ 32) :
    Reads decodeXattrEntry (encodeXattrEntry entry) entry := by
  unfold decodeXattrEntry encodeXattrEntry
  rw [Nat.mod_eq_of_lt h.1, Nat.mod_eq_of_lt h.2, List.append_assoc, List.append_assoc]
  refine (reads_varint h.1).bind ((reads_varint h.2).bind ?_)
  exact (Reads.exact_of_length rfl).bind (Reads.map (Reads.exact_of_length rfl))

theorem reads_xattrSet {xa : ExtendedAttributes} (h : xa.Fits) :
    Reads decodeXattrSet (encodeXattrSet xa) xa := by
  unfold decodeXattrSet encodeXattrSet
  rw [Nat.mod_eq_of_lt h.length]
  refine (reads_varint h.length).bind ?_
  have htimes := Reads.times encodeXattrEntry id xa.entries fun entry he =>
    reads_xattrEntry (h.entries entry he)
  rw [List.map_id] at htimes
  exact htimes.map

/-! ## The tables in step -/

/-- The tables of attributes the encoder had before a list. -/
structure AttrTables where
  acls : AclTables
  xattrs : List ExtendedAttributes
  deriving DecidableEq, Repr

/-- The access control lists of an entry as they arrive: empty ones are none. -/
def sentAcl (e : FileEntry) : Option PosixAcl :=
  aclFrom (accessOf e.acl)
    (if e.isDir then (if defaultOf e.acl = .default then none else some (defaultOf e.acl)) else none)

theorem reads_acl {e : FileEntry} {tables seen base : AclTables}
    (haccess : tables.accessList = base.accessList ++ seen.accessList)
    (hdflt : tables.defaultList = base.defaultList ++ seen.defaultList)
    (hfits : (accessOf e.acl).Fits ∧ (defaultOf e.acl).Fits)
    (hres : accessOf e.acl ∈ tables.accessList → base.accessList = [])
    (hres' : e.isDir = true → defaultOf e.acl ∈ tables.defaultList → base.defaultList = [])
    (ha : tables.accessList.length < 2 ^ 32) (hd : tables.defaultList.length < 2 ^ 32) :
    ∃ seen', Reads (decodeAcl e.mode seen) (encodeAcl e.acl e.mode tables).1 (sentAcl e, seen') ∧
      (encodeAcl e.acl e.mode tables).2.accessList = base.accessList ++ seen'.accessList ∧
      (encodeAcl e.acl e.mode tables).2.defaultList = base.defaultList ++ seen'.defaultList := by
  obtain ⟨hreads, hsent⟩ := reads_shared "ACL" haccess hres ha (reads_aclEntries hfits.1)
  unfold encodeAcl decodeAcl decodeDefault sentAcl FileEntry.isDir
  by_cases hdir : e.mode &&& sIfmt = sIfdir
  · obtain ⟨hreads', hsent'⟩ := reads_shared "ACL" hdflt (hres' (decide_eq_true hdir)) hd
      (reads_aclEntries hfits.2)
    rw [if_pos hdir, if_pos hdir, decide_eq_true hdir]
    exact ⟨⟨_, _⟩, hreads.bind (hreads'.map.map), hsent, hsent'⟩
  · rw [if_neg hdir, if_neg hdir, decide_eq_false hdir]
    exact ⟨⟨_, seen.defaultList⟩, hreads.bind_nil (Reads.pure _), hsent, hdflt⟩

/-- The attributes of the entries of a list, and the tables behind each of them. -/
def encodeAttributeList : List FileEntry → AttrTables → List UInt8 × List AttrTables
  | [], _ => ([], [])
  | e :: es, t =>
    let acl := encodeAcl e.acl e.mode t.acls
    let xattrs := encodeXattrs e.xattrs t.xattrs
    let rest := encodeAttributeList es ⟨acl.2, xattrs.2⟩
    (acl.1 ++ (xattrs.1 ++ rest.1), ⟨acl.2, xattrs.2⟩ :: rest.2)

def decodeAttributeList : List UInt32 → AttrTables →
    Wire (List ((Option PosixAcl × Option ExtendedAttributes) × AttrTables))
  | [], _ => pure []
  | mode :: modes, t => do
    let acl ← decodeAcl mode t.acls
    let xattrs ← decodeXattrs t.xattrs
    let rest ← decodeAttributeList modes ⟨acl.2, xattrs.2⟩
    pure (((acl.1, xattrs.1), ⟨acl.2, xattrs.2⟩) :: rest)

/-- The attributes of an entry that can be sent and that are received as they were: every list fits
its encoding, only directories have default ACLs, and xattrs, if there are any, are not the empty
list, which is what is sent for none. -/
structure AttributesFit (e : FileEntry) : Prop where
  access : (accessOf e.acl).Fits
  dflt : (defaultOf e.acl).Fits
  dirOnly : e.isDir = false → ∀ acl ∈ e.acl, acl.default = none
  xattrs : ∀ xa ∈ e.xattrs, xa.Fits ∧ xa.entries ≠ []

theorem length_encodeShared {α : Type} [DecidableEq α] (inline : α → List UInt8) (x : α)
    (seen : List α) : (encodeShared inline x seen).2.length ≤ seen.length + 1 := by
  unfold encodeShared
  split_ifs
  · exact Nat.le_succ _
  · exact (List.length_append ..).le

structure AttrTables.Room (t : AttrTables) (n : Nat) : Prop where
  access : t.acls.accessList.length + n < 2 ^ 32
  dflt : t.acls.defaultList.length + n < 2 ^ 32
  xattrs : t.xattrs.length + n < 2 ^ 32

theorem AttrTables.Room.next {t : AttrTables} {n : Nat} (h : t.Room (n + 1)) (e : FileEntry) :
    AttrTables.Room ⟨(encodeAcl e.acl e.mode t.acls).2, (encodeXattrs e.xattrs t.xattrs).2⟩ n := by
  obtain ⟨haccess, hdflt, hxattrs⟩ := h
  have h₁ := length_encodeShared encodeAclEntries (accessOf e.acl) t.acls.accessList
  have h₂ := length_encodeShared encodeAclEntries (defaultOf e.acl) t.acls.defaultList
  have h₃ := length_encodeShared encodeXattrSet (xattrsOf e.xattrs) t.xattrs
  constructor
  case xattrs => exact Nat.lt_of_le_of_lt (Nat.add_le_add_right h₃ n) (by omega)
  all_goals
    unfold encodeAcl encodeOneAcl
    split_ifs <;> dsimp only <;> omega

/-- The decoder follows the encoder, from tables that are the same. -/
theorem reads_attributeList {entries : List FileEntry} {t : AttrTables} (hroom : t.Room entries.length)
    (h : ∀ e ∈ entries, AttributesFit e) :
    Reads (decodeAttributeList (entries.map FileEntry.mode) t) (encodeAttributeList entries t).1
      ((entries.map fun e => (sentAcl e, e.xattrs)).zip (encodeAttributeList entries t).2) := by
  induction entries generalizing t with
  | nil => exact Reads.pure []
  | cons e es ih =>
    rw [List.forall_mem_cons] at h
    obtain ⟨he, hes⟩ := h
    obtain ⟨ha, hd, hx⟩ := hroom
    obtain ⟨seen, hacl, haccess, hdflt⟩ := @reads_acl e t.acls t.acls .default rfl rfl
      ⟨he.access, he.dflt⟩ (fun _ => rfl) (fun _ _ => rfl) (by omega) (by omega)
    -- the table of the decoder is that of the encoder, behind the entry as before it
    obtain rfl : (encodeAcl e.acl e.mode t.acls).2 = seen := by
      cases hseen : (encodeAcl e.acl e.mode t.acls).2
      rw [hseen] at haccess hdflt
      cases seen
      exact congrArg₂ _ haccess hdflt
    have hxfits : (xattrsOf e.xattrs).Fits := by
      cases hxattrs : e.xattrs with
      | none => exact ExtendedAttributes.fits_empty
      | some xa => exact (he.xattrs xa hxattrs).1
    -- none and the empty list are sent alike, which is why the empty list is excluded
    have hxsame : xattrsFrom (xattrsOf e.xattrs) = e.xattrs := by
      cases hxattrs : e.xattrs with
      | none => rfl
      | some xa => exact if_neg (he.xattrs xa hxattrs).2
    obtain ⟨hxattrs, hsent⟩ := @reads_shared _ _ encodeXattrSet decodeXattrSet _ t.xattrs t.xattrs
      "xattr" [] rfl (fun _ => rfl) (by omega) (reads_xattrSet hxfits)
    rw [List.nil_append] at hsent
    rw [← hsent] at hxattrs
    have hxread := hxattrs.map (g := fun xa => (xattrsFrom xa.1, xa.2))
    rw [hxsame] at hxread
    exact hacl.bind (hxread.bind (ih (AttrTables.Room.next ⟨ha, hd, hx⟩ e) hes).map)

/-- The access control lists with an empty default list, or only empty ones, taken as none. -/
def PosixAcl.normal (acl : PosixAcl) : Option PosixAcl :=
  aclFrom acl.access (acl.default.filter (· ≠ .default))

theorem sentAcl_eq {e : FileEntry} (h : e.isDir = false → ∀ acl ∈ e.acl, acl.default = none) :
    sentAcl e = e.acl.bind PosixAcl.normal := by
  unfold sentAcl
  cases hacl : e.acl with
  | none => cases e.isDir <;> rfl
  | some acl =>
    congr 1
    cases hdir : e.isDir with
    | false => rw [h hdir acl hacl]; rfl
    | true =>
      cases hdflt : acl.default with
      | none => simp [defaultOf, hdflt]
      | some dflt =>
        by_cases hempty : dflt = .default <;> simp [defaultOf, hdflt, hempty, Option.filter]

/-- **The tables stay in step.** What has been encoded with one encoder is decoded with one decoder:
the bytes are all read, each entry has its attributes, and the decoder's tables behind it are the
encoder's. -/
theorem attributes_lockstep {entries : List FileEntry} (hlen : entries.length < 2 ^ 32)
    (h : ∀ e ∈ entries, AttributesFit e) :
    Reads (decodeAttributeList (entries.map FileEntry.mode) ⟨.default, []⟩)
      (encodeAttributeList entries ⟨.default, []⟩).1
      ((entries.map fun e => (e.acl.bind PosixAcl.normal, e.xattrs)).zip
        (encodeAttributeList entries ⟨.default, []⟩).2) := by
  have hroom : AttrTables.Room ⟨.default, []⟩ entries.length := by
    constructor <;> simpa [AclTables.default] using hlen
  have hsent : (entries.map fun e => (sentAcl e, e.xattrs)) =
      entries.map fun e => (e.acl.bind PosixAcl.normal, e.xattrs) :=
    List.map_congr_left fun e he => by rw [sentAcl_eq (h e he).dirOnly]
  rw [← hsent]
  exact reads_attributeList hroom h

def attributedDir : FileEntry :=
  { FileEntry.default with
    mode := sIfdir
    acl := some ⟨⟨some 7, none, none, some 5, [⟨.user, 9, none, 6⟩]⟩, none⟩
    xattrs := some ⟨[⟨[97, 0], [1]⟩]⟩ }

theorem attributes_lockstep_twice :
    Reads (decodeAttributeList [sIfdir, sIfdir] ⟨.default, []⟩)
      (encodeAttributeList [attributedDir, attributedDir] ⟨.default, []⟩).1
      (([attributedDir, attributedDir].map fun e => (e.acl.bind PosixAcl.normal, e.xattrs)).zip
        (encodeAttributeList [attributedDir, attributedDir] ⟨.default, []⟩).2) := by
  have hace : PosixAce.Fits ⟨.user, 9, none, 6⟩ := ⟨by decide, by decide, nofun⟩
  have hfits : AttributesFit attributedDir := by
    constructor
    · constructor <;> simp [attributedDir, accessOf, hace]
    · exact PosixAclEntries.fits_default
    · exact fun hdir => absurd hdir (by decide)
    · rintro xa ⟨⟩
      exact ⟨⟨by decide, by simp⟩, List.cons_ne_nil _ _⟩
  exact @attributes_lockstep [attributedDir, attributedDir] (by decide) (by simp [hfits])

def namedAttribute (name : List UInt8) : FileEntry :=
  { FileEntry.default with xattrs := some ⟨[⟨name, []⟩]⟩ }

/-- The length of a name is sent in 32 bits. -/
theorem encode_long_name {name : List UInt8} (h : name.length % 2 ^ 32 = 0) :
    (encodeAttributeList [namedAttribute name] ⟨.default, []⟩).1 =
      (encodeAttributeList [namedAttribute []] ⟨.default, []⟩).1 ++ name := by
  have hentry : encodeXattrEntry ⟨name, []⟩ = encodeXattrEntry ⟨[], []⟩ ++ name := by
    simp only [encodeXattrEntry, h, List.length_nil, List.append_nil, Nat.zero_mod]
  have hset : encodeXattrSet ⟨[⟨name, []⟩]⟩ = encodeXattrSet ⟨[⟨[], []⟩]⟩ ++ name := by
    simp [encodeXattrSet, hentry]
  simp [encodeAttributeList, namedAttribute, encodeXattrs, xattrsOf, encodeShared, hset,
    FileEntry.default]

/-- So a name of `2 ^ 32` bytes arrives empty. -/
theorem long_xattr_name_lost : ∃ e : FileEntry, e.acl = none ∧
    (∀ xa ∈ e.xattrs, xa.entries ≠ []) ∧
    ¬ Reads (decodeAttributeList [e.mode] ⟨.default, []⟩) (encodeAttributeList [e] ⟨.default, []⟩).1
      ([(e.acl, e.xattrs)].zip (encodeAttributeList [e] ⟨.default, []⟩).2) := by
  obtain ⟨name, hname⟩ : ∃ name : List UInt8, name.length = 2 ^ 32 :=
    ⟨List.replicate _ 1, List.length_replicate⟩
  have hempty : AttributesFit (namedAttribute []) := by
    refine ⟨PosixAclEntries.fits_default, PosixAclEntries.fits_default, fun _ => nofun, ?_⟩
    rintro xa ⟨⟩
    exact ⟨⟨by decide, by simp⟩, List.cons_ne_nil _ _⟩
  refine ⟨namedAttribute name, rfl, ?_, fun hreads => ?_⟩
  · rintro xa ⟨⟩
    exact List.cons_ne_nil _ _
  -- the length is sent modulo `2 ^ 32`, and so the bytes are those of the empty name with the name
  -- behind
  · rw [encode_long_name (by omega)] at hreads
    have hread := hreads []
    rw [List.append_nil] at hread
    have hshort := @reads_attributeList [namedAttribute []] ⟨.default, []⟩
      ⟨by decide, by decide, by decide⟩ (by simp [hempty]) name
    have hnil : name = [] := congrArg Prod.snd (Except.ok.inj (hshort.symm.trans hread))
    rw [hnil] at hname
    exact absurd hname (by decide)

end Ferrosync
