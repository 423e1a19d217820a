import Ferrosync.Codec.Attributes

set_option autoImplicit false

/-! # Access control lists from the source to the destination

The scanner parses the attributes in which the kernel keeps the access control lists of a file, they
are sent with its entry, and the receiver serialises them again. The named entries are put in order
on the way, which changes nothing (`parse_serialize`). But the scanner keeps a default list only if
there is an access list: a directory with nothing but a default list loses it (`acls_survive_iff`).
-/

namespace Ferrosync

open ByteStream

/-! ## The binary form -/

/-- One entry of the binary form of an access control list. -/
def aclEntry (tag perm id : Nat) : List UInt8 := leBytes 2 tag ++ (leBytes 2 perm ++ leBytes 4 id)

def aclObject (tag : Nat) (perm : Option Nat) : List UInt8 :=
  match perm with
  | some perm => aclEntry tag perm 0xFFFFFFFF
  | none => []

def aclNamed (tag : Nat) (kind : AceKind) (acl : PosixAclEntries) : List UInt8 :=
  (acl.named.filter fun ace => ace.kind = kind).flatMap fun ace => aclEntry tag ace.access ace.id

def serializePosixAclBinary (acl : PosixAclEntries) : List UInt8 :=
  leBytes 4 2 ++ (aclObject 0x01 acl.userObj ++ (aclNamed 0x02 .user acl ++
    (aclObject 0x04 acl.groupObj ++ (aclNamed 0x08 .group acl ++
      (aclObject 0x10 acl.mask ++ aclObject 0x20 acl.other)))))

/-- `b"system.posix_acl_access"`. -/
def aclAccessName : List UInt8 := "system.posix_acl_access".toUTF8.toList

/-- `b"system.posix_acl_default"`. -/
def aclDefaultName : List UInt8 := "system.posix_acl_default".toUTF8.toList

/-- The attributes an access control list is kept in. -/
def aclXattrs (acl : PosixAcl) : List (List UInt8 × List UInt8) :=
  (aclAccessName, serializePosixAclBinary acl.access) ::
    (acl.default.map fun entries => (aclDefaultName, serializePosixAclBinary entries)).toList

/-- What the loop of `parse_posix_acl_binary` does with one entry. -/
def addAclEntry (tag perm id : Nat) (acl : PosixAclEntries) :
    Except ProtocolError PosixAclEntries :=
  if tag = 0x01 then .ok { acl with userObj := some perm }
  else if tag = 0x02 then .ok { acl with named := acl.named ++ [⟨.user, id, none, perm⟩] }
  else if tag = 0x04 then .ok { acl with groupObj := some perm }
  else if tag = 0x08 then .ok { acl with named := acl.named ++ [⟨.group, id, none, perm⟩] }
  else if tag = 0x10 then .ok { acl with mask := some perm }
  else if tag = 0x20 then .ok { acl with other := some perm }
  else .error (.handshake ("unknown ACL entry tag: 0x" ++
    String.ofList ((Nat.toDigits 16 tag).leftpad 4 '0')))

/-- The loop over the entries, eight bytes each. -/
def parseAclEntries : List UInt8 → PosixAclEntries → Except ProtocolError PosixAclEntries
  | b₀ :: b₁ :: b₂ :: b₃ :: b₄ :: b₅ :: b₆ :: b₇ :: rest, acl =>
    match addAclEntry (ofLE [b₀, b₁]) (ofLE [b₂, b₃]) (ofLE [b₄, b₅, b₆, b₇]) acl with
    | .ok acl => parseAclEntries rest acl
    | .error e => .error e
  | _, acl => .ok acl

def parsePosixAclBinary (data : List UInt8) : Except ProtocolError PosixAclEntries :=
  if data.length < 4 then .error (.handshake "ACL xattr too short for version header")
  else if ofLE (data.take 4) ≠ 2 then
    .error (.handshake ("unsupported POSIX ACL xattr version: " ++ toString (ofLE (data.take 4)) ++
      ", expected 2"))
  else if (data.length - 4) % 8 ≠ 0 then
    .error (.handshake "ACL xattr entry data not aligned to 8 bytes")
  else parseAclEntries (data.drop 4) .default

/-- What the binary form can hold. -/
structure PosixAclEntries.Binary (acl : PosixAclEntries) : Prop where
  objects : ∀ perm ∈ [acl.userObj, acl.groupObj, acl.mask, acl.other], ∀ p ∈ perm, p < 2 ^ 16
  named : ∀ ace ∈ acl.named, ace.name = none ∧ ace.access < 2 ^ 16 ∧ ace.id < 2 ^ 32

section Binary

variable {tag perm id : Nat} {acl acl' : PosixAclEntries} {data rest : List UInt8}

theorem PosixAclEntries.Binary.add (h : acl.Binary) (hperm : perm < 2 ^ 16) (hid : id < 2 ^ 32)
    (hadd : addAclEntry tag perm id acl = .ok acl') :
    acl'.Binary ∧ acl'.named.length ≤ acl.named.length + 1 := by
  obtain ⟨hobjects, hnamed⟩ := h
  simp only [List.forall_mem_cons, List.not_mem_nil, false_implies, implies_true, and_true]
    at hobjects
  unfold addAclEntry at hadd
  split_ifs at hadd
  all_goals
    cases hadd
    refine ⟨⟨?_, ?_⟩, ?_⟩
    all_goals simp_all [or_imp, forall_and]

theorem parseAclEntries_binary (h : acl.Binary) (hparse : parseAclEntries data acl = .ok acl') :
    acl'.Binary ∧ acl'.named.length ≤ acl.named.length + data.length := by
  fun_induction parseAclEntries data acl with
  | case1 b₀ b₁ b₂ b₃ b₄ b₅ b₆ b₇ rest acl acl₁ hadd ih =>
    have hperm : ofLE [b₂, b₃] < 2 ^ 16 := by simpa using ofLE_lt [b₂, b₃]
    have hid : ofLE [b₄, b₅, b₆, b₇] < 2 ^ 32 := by simpa using ofLE_lt [b₄, b₅, b₆, b₇]
    obtain ⟨hbinary, hlen⟩ := h.add hperm hid hadd
    obtain ⟨hbinary', hlen'⟩ := ih hbinary hparse
    refine ⟨hbinary', ?_⟩
    simp only [List.length_cons]
    omega
  | case2 => cases hparse
  | case3 =>
    cases hparse
    exact ⟨h, Nat.le_add_right _ _⟩

theorem parseAclEntries_entry (htag : tag < 2 ^ 16) (hperm : perm < 2 ^ 16) (hid : id < 2 ^ 32)
    (hadd : addAclEntry tag perm id acl = .ok acl') :
    parseAclEntries (aclEntry tag perm id ++ rest) acl = parseAclEntries rest acl' := by
  have htag' := ofLE_leBytes_of_lt (w := 2) htag
  have hperm' := ofLE_leBytes_of_lt (w := 2) hperm
  have hid' := ofLE_leBytes_of_lt (w := 4) hid
  have hstep : addAclEntry (ofLE (leBytes 2 tag)) (ofLE (leBytes 2 perm)) (ofLE (leBytes 4 id)) acl =
      .ok acl' := by rw [htag', hperm', hid', hadd]
  change (match addAclEntry (ofLE (leBytes 2 tag)) (ofLE (leBytes 2 perm)) (ofLE (leBytes 4 id)) acl with
    | .ok acl => parseAclEntries rest acl
    | .error e => .error e) = _
  rw [hstep]

theorem parseAclEntries_object {perm : Option Nat} {set : Option Nat → PosixAclEntries}
    (htag : tag < 2 ^ 16) (hperm : ∀ p ∈ perm, p < 2 ^ 16)
    (hset : ∀ p, addAclEntry tag p 0xFFFFFFFF (set none) = .ok (set (some p))) :
    parseAclEntries (aclObject tag perm ++ rest) (set none) = parseAclEntries rest (set perm) := by
  cases perm with
  | none => rfl
  | some p => exact parseAclEntries_entry htag (hperm p rfl) (by decide) (hset p)

theorem parseAclEntries_named {kind : AceKind} {aces : List PosixAce} (htag : tag < 2 ^ 16)
    (h : ∀ ace ∈ aces, ace.kind = kind ∧ ace.name = none ∧ ace.access < 2 ^ 16 ∧ ace.id < 2 ^ 32)
    (hadd : ∀ acl perm id, addAclEntry tag perm id acl =
      .ok { acl with named := acl.named ++ [⟨kind, id, none, perm⟩] }) :
    parseAclEntries (aces.flatMap (fun ace => aclEntry tag ace.access ace.id) ++ rest) acl =
      parseAclEntries rest { acl with named := acl.named ++ aces } := by
  induction aces generalizing acl with
  | nil => simp
  | cons ace aces ih =>
    rw [List.forall_mem_cons] at h
    obtain ⟨⟨hkind, hname, haccess, hid⟩, haces⟩ := h
    rw [List.flatMap_cons, List.append_assoc, parseAclEntries_entry htag haccess hid (hadd ..),
      ih haces]
    obtain ⟨kind', id, name, access⟩ := ace
    cases hkind
    cases hname
    simp

/-- The list as it is serialised: the named users, then the named groups. -/
def PosixAclEntries.sorted (acl : PosixAclEntries) : PosixAclEntries :=
  { acl with
    named := (acl.named.filter fun ace => ace.kind = .user) ++
      acl.named.filter fun ace => ace.kind = .group }

theorem perm_sorted (acl : PosixAclEntries) : acl.sorted.named.Perm acl.named := by
  have hgroup : (fun ace : PosixAce => decide (ace.kind = .group)) =
      fun ace => !decide (ace.kind = .user) := by
    funext ace
    cases ace.kind <;> rfl
  unfold PosixAclEntries.sorted
  rw [hgroup]
  exact List.filter_append_perm _ _

theorem dvd_length_aclObject (tag : Nat) (perm : Option Nat) : 8 ∣ (aclObject tag perm).length := by
  cases perm <;> simp [aclObject, aclEntry]

theorem dvd_length_aclNamed (tag : Nat) (kind : AceKind) (acl : PosixAclEntries) :
    8 ∣ (aclNamed tag kind acl).length := by
  simp [aclNamed, aclEntry, List.length_flatMap]

/-- **A list that is serialised is parsed again**, with its named entries in order. -/
theorem parse_serialize (h : acl.Binary) :
    parsePosixAclBinary (serializePosixAclBinary acl) = .ok acl.sorted := by
  obtain ⟨hobjects, hnamed⟩ := h
  simp only [List.forall_mem_cons, List.not_mem_nil, false_implies, implies_true, and_true]
    at hobjects
  obtain ⟨huser, hgroup, hmask, hother⟩ := hobjects
  have haces : ∀ kind, ∀ ace ∈ acl.named.filter fun ace => ace.kind = kind,
      ace.kind = kind ∧ ace.name = none ∧ ace.access < 2 ^ 16 ∧ ace.id < 2 ^ 32 := by
    intro kind ace hace
    rw [List.mem_filter, decide_eq_true_eq] at hace
    exact ⟨hace.2, hnamed ace hace.1⟩
  -- the length is a version and records of 8 bytes, as the parser demands
  obtain ⟨k, hk⟩ : ∃ k, (serializePosixAclBinary acl).length = 4 + 8 * k := by
    simp only [serializePosixAclBinary, List.length_append, leBytes_length]
    obtain ⟨k₁, h₁⟩ := dvd_length_aclObject 0x01 acl.userObj
    obtain ⟨k₂, h₂⟩ := dvd_length_aclNamed 0x02 .user acl
    obtain ⟨k₃, h₃⟩ := dvd_length_aclObject 0x04 acl.groupObj
    obtain ⟨k₄, h₄⟩ := dvd_length_aclNamed 0x08 .group acl
    obtain ⟨k₅, h₅⟩ := dvd_length_aclObject 0x10 acl.mask
    obtain ⟨k₆, h₆⟩ := dvd_length_aclObject 0x20 acl.other
    exact ⟨k₁ + (k₂ + (k₃ + (k₄ + (k₅ + k₆)))), by omega⟩
  have hversion : ofLE ((serializePosixAclBinary acl).take 4) = 2 := by
    change ofLE (leBytes 4 2) = 2
    decide
  unfold parsePosixAclBinary
  rw [if_neg (by omega), if_neg (not_not.mpr hversion), if_neg (by omega)]
  change parseAclEntries (aclObject _ _ ++ _) ⟨none, none, none, none, []⟩ = _
  -- record by record in the order in which they are written
  rw [@parseAclEntries_object _ _ _ (fun perm => ⟨perm, none, none, none, []⟩) (by decide) huser
      fun _ => rfl, aclNamed,
    parseAclEntries_named (by decide) (haces .user) fun _ _ _ => rfl,
    @parseAclEntries_object _ _ _ (fun perm => ⟨_, perm, none, none, _⟩) (by decide) hgroup
      fun _ => rfl, aclNamed,
    parseAclEntries_named (by decide) (haces .group) fun _ _ _ => rfl,
    @parseAclEntries_object _ _ _ (fun perm => ⟨_, _, perm, none, _⟩) (by decide) hmask
      fun _ => rfl, ← List.append_nil (aclObject 0x20 acl.other),
    @parseAclEntries_object _ _ _ (fun perm => ⟨_, _, _, perm, _⟩) (by decide) hother
      fun _ => rfl]
  rfl

end Binary

/-! ## From one file system to the other -/

/-- A file with the attributes for its lists; `none` is an attribute it does not have. -/
structure AclSource where
  mode : UInt32
  access : Option (List UInt8)
  dflt : Option (List UInt8)

/-- A list as the scanner sees it; what cannot be parsed is only reported. -/
def parsedAcl (attr : Option (List UInt8)) : Option PosixAclEntries :=
  attr.bind fun data => (parsePosixAclBinary data).toOption

/-- `AclEnricher::enrich`, with what `get_xattr` gives for the two attributes. -/
def enrich (e : FileEntry) (access dflt : Option (List UInt8)) : FileEntry :=
  if e.isSymlink then e
  else
    match parsedAcl access with
    | some access => { e with acl := some ⟨access, if e.isDir then parsedAcl dflt else none⟩ }
    | none => e

def AclSource.scanned (s : AclSource) : FileEntry :=
  enrich { FileEntry.default with mode := s.mode } s.access s.dflt

/-- The attributes the receiver sets, for each entry of a list. -/
def transferAcls (sources : List AclSource) :
    Except Failure (List (List (List UInt8 × List UInt8))) :=
  (decodeAttributeList (sources.map AclSource.mode) ⟨.default, []⟩
    (encodeAttributeList (sources.map AclSource.scanned) ⟨.default, []⟩).1).map fun decoded =>
      decoded.1.map fun d => (d.1.1.map aclXattrs).getD []

/-- An attribute as the kernel has them: it has the three lists that are always there, and at most
64 KiB. -/
structure WellFormedAcl (data : List UInt8) : Prop where
  parses : ∃ acl, parsePosixAclBinary data = .ok acl ∧ acl.userObj.isSome = true ∧
    acl.groupObj.isSome = true ∧ acl.other.isSome = true
  length : data.length ≤ 2 ^ 16

/-- A regular file or a directory; only directories have default lists. -/
structure AclSource.WellFormed (s : AclSource) : Prop where
  kind : s.mode &&& sIfmt = sIfdir ∨ s.mode &&& sIfmt = sIfreg ∧ s.dflt = none
  access : ∀ data ∈ s.access, WellFormedAcl data
  dflt : ∀ data ∈ s.dflt, WellFormedAcl data

/-- Two attributes denote the same entries, or there are none. The named entries are compared up to
their order, since they are sorted on the way. -/
def SameAcl (attr attr' : Option (List UInt8)) : Prop :=
  match attr, attr' with
  | none, none => True
  | some data, some data' => ∃ acl acl', parsePosixAclBinary data = .ok acl ∧
      parsePosixAclBinary data' = .ok acl' ∧ acl'.userObj = acl.userObj ∧
      acl'.groupObj = acl.groupObj ∧ acl'.mask = acl.mask ∧ acl'.other = acl.other ∧
      acl'.named.Perm acl.named
  | _, _ => False

section Transfer

variable {s : AclSource} {data : List UInt8} {acl : PosixAclEntries}

theorem parse_binary (h : parsePosixAclBinary data = .ok acl) :
    acl.Binary ∧ acl.named.length ≤ data.length := by
  unfold parsePosixAclBinary at h
  split_ifs at h
  have hempty : PosixAclEntries.default.Binary := ⟨by simp [PosixAclEntries.default], nofun⟩
  obtain ⟨hbinary, hlen⟩ := parseAclEntries_binary hempty h
  refine ⟨hbinary, hlen.trans ?_⟩
  simp [PosixAclEntries.default]

theorem PosixAclEntries.Binary.fits (h : acl.Binary) (hlen : acl.named.length ≤ 2 ^ 16) :
    acl.Fits := by
  obtain ⟨hobjects, hnamed⟩ := h
  simp only [List.forall_mem_cons, List.not_mem_nil, false_implies, implies_true, and_true]
    at hobjects
  obtain ⟨huser, hgroup, hmask, hother⟩ := hobjects
  have hle : ∀ {p : Nat}, p < 2 ^ 16 → p < 2 ^ 32 := fun h => by omega
  refine ⟨fun p hp => hle (huser p hp), fun p hp => hle (hgroup p hp), fun p hp => hle (hmask p hp),
    fun p hp => hle (hother p hp), by omega, fun ace hace => ?_⟩
  obtain ⟨hname, haccess, hid⟩ := hnamed ace hace
  exact ⟨hid, by omega, by simp [hname]⟩

/-- What a well-formed attribute is parsed to. -/
theorem WellFormedAcl.parsed (h : WellFormedAcl data) :
    ∃ acl, parsePosixAclBinary data = .ok acl ∧ parsedAcl (some data) = some acl ∧
      acl.Fits ∧ acl ≠ .default ∧ SameAcl (some data) (some (serializePosixAclBinary acl)) := by
  obtain ⟨⟨acl, hparse, huser, -⟩, hlen⟩ := h
  obtain ⟨hbinary, hnamed⟩ := parse_binary hparse
  refine ⟨acl, hparse, by simp [parsedAcl, hparse, Except.toOption], hbinary.fits (hnamed.trans hlen),
    ?_, acl, acl.sorted, hparse, parse_serialize hbinary, rfl, rfl, rfl, rfl, perm_sorted acl⟩
  rintro rfl
  exact Bool.false_ne_true huser

def AclSource.entry (s : AclSource) : FileEntry :=
  { FileEntry.default with
    mode := s.mode
    acl := (parsedAcl s.access).map fun access => ⟨access, parsedAcl s.dflt⟩ }

theorem AclSource.WellFormed.scanned_eq (h : s.WellFormed) : s.scanned = s.entry := by
  have hsym : s.mode &&& sIfmt ≠ sIflnk := by
    rcases h.kind with hdir | ⟨hfile, -⟩
    · rw [hdir]
      decide
    · rw [hfile]
      decide
  unfold AclSource.scanned enrich AclSource.entry FileEntry.isSymlink FileEntry.isDir
  rw [decide_eq_false hsym, if_neg Bool.false_ne_true]
  cases parsedAcl s.access with
  | none => rfl
  | some access =>
    rcases h.kind with hdir | ⟨-, hnone⟩
    · rw [decide_eq_true hdir]
      rfl
    · rw [hnone]
      simp [parsedAcl]

theorem AclSource.WellFormed.fits (h : s.WellFormed) : AttributesFit s.entry := by
  have haccess : ∀ {attr : Option (List UInt8)}, (∀ data ∈ attr, WellFormedAcl data) →
      ∀ acl ∈ parsedAcl attr, acl.Fits := by
    intro attr hattr acl hacl
    cases attr with
    | none => cases hacl
    | some data =>
      obtain ⟨acl', -, hparsed, hfits, -⟩ := (hattr data rfl).parsed
      rw [hparsed] at hacl
      cases hacl
      exact hfits
  -- access, default, default of directories only, no xattrs
  constructor
  · unfold AclSource.entry accessOf
    cases hparsed : parsedAcl s.access with
    | none => exact PosixAclEntries.fits_default
    | some acl => exact haccess h.access acl hparsed
  · unfold AclSource.entry defaultOf
    cases parsedAcl s.access with
    | none => exact PosixAclEntries.fits_default
    | some acl =>
      show ((parsedAcl s.dflt).getD .default).Fits
      cases hparsed : parsedAcl s.dflt with
      | none => exact PosixAclEntries.fits_default
      | some acl => exact haccess h.dflt acl hparsed
  · intro hdir acl hacl
    rcases h.kind with hdir' | ⟨-, hnone⟩
    · exact absurd hdir' (of_decide_eq_false hdir)
    · obtain ⟨access, -, rfl⟩ := Option.map_eq_some_iff.mp hacl
      show parsedAcl s.dflt = none
      rw [hnone]
      rfl
  · exact nofun

def AclSource.arriving (s : AclSource) : List (List UInt8 × List UInt8) :=
  ((s.entry.acl.bind PosixAcl.normal).map aclXattrs).getD []

theorem length_encodeAttributeList (entries : List FileEntry) (t : AttrTables) :
    (encodeAttributeList entries t).2.length = entries.length := by
  induction entries generalizing t with
  | nil => rfl
  | cons e es ih => simp [encodeAttributeList, ih]

theorem transferAcls_eq {sources : List AclSource} (hlen : sources.length < 2 ^ 32)
    (h : ∀ s ∈ sources, s.WellFormed) :
    transferAcls sources = .ok (sources.map AclSource.arriving) := by
  have hentries : sources.map AclSource.scanned = sources.map AclSource.entry :=
    List.map_congr_left fun s hs => (h s hs).scanned_eq
  have hroom : AttrTables.Room ⟨.default, []⟩ (sources.map AclSource.entry).length := by
    rw [List.length_map]
    constructor <;> simpa [AclTables.default] using hlen
  have hfits : ∀ e ∈ sources.map AclSource.entry, AttributesFit e := by
    intro e he
    obtain ⟨s, hs, rfl⟩ := List.mem_map.mp he
    exact (h s hs).fits
  -- the wire gives back the ACL of every entry; what is applied are its xattrs
  have hread := reads_attributeList hroom hfits []
  rw [List.append_nil, List.map_map] at hread
  unfold transferAcls
  rw [hentries, show AclSource.mode = FileEntry.mode ∘ AclSource.entry from rfl, hread]
  have hfst := @List.map_fst_zip _ _
    ((sources.map AclSource.entry).map fun e => (sentAcl e, e.xattrs))
    (encodeAttributeList (sources.map AclSource.entry) ⟨.default, []⟩).2
    (by simp [length_encodeAttributeList])
  have hfirst : ∀ decoded : List ((Option PosixAcl × Option ExtendedAttributes) × AttrTables),
      (decoded.map fun d => (d.1.1.map aclXattrs).getD []) =
        (decoded.map Prod.fst).map fun d => (d.1.map aclXattrs).getD [] := by
    simp
  refine congrArg Except.ok ((hfirst _).trans ?_)
  rw [hfst, List.map_map, List.map_map]
  exact List.map_congr_left fun s hs => by
    simp [AclSource.arriving, sentAcl_eq (h s hs).fits.dirOnly]

theorem lookup_aclXattrs (acl : PosixAcl) :
    (aclXattrs acl).lookup aclAccessName = some (serializePosixAclBinary acl.access) ∧
      (aclXattrs acl).lookup aclDefaultName = acl.default.map serializePosixAclBinary := by
  have hne : (aclDefaultName == aclAccessName) = false := by decide +kernel
  obtain ⟨access, dflt⟩ := acl
  cases dflt <;> simp [aclXattrs, List.lookup_cons, hne]

/-- A directory's default list needs an access list beside it. -/
theorem arriving_same_iff (h : s.WellFormed) :
    SameAcl s.access (s.arriving.lookup aclAccessName) ∧
        SameAcl s.dflt (s.arriving.lookup aclDefaultName) ↔
      (s.dflt.isSome = true → s.access.isSome = true) := by
  obtain ⟨mode, access, dflt⟩ := s
  unfold AclSource.arriving AclSource.entry
  cases access with
  -- without an access list the entry has no ACL at all, and a default list is lost with it
  | none => cases dflt <;> simp [parsedAcl, SameAcl]
  | some data =>
    obtain ⟨acl, -, hparsed, -, hne, hsame⟩ := (h.access data rfl).parsed
    have harriving : ∀ dflt', parsedAcl dflt = dflt' → (∀ acl' ∈ dflt', acl' ≠ .default) →
        ((((parsedAcl (some data)).map fun access => (⟨access, parsedAcl dflt⟩ : PosixAcl)).bind
          PosixAcl.normal).map aclXattrs).getD [] = aclXattrs ⟨acl, dflt'⟩ := by
      rintro dflt' rfl hdflt
      have hkeep : (parsedAcl dflt).filter (· ≠ .default) = parsedAcl dflt := by
        cases hcase : parsedAcl dflt with
        | none => rfl
        | some acl' => simp [Option.filter, hdflt acl' hcase]
      rw [hparsed, Option.map_some, Option.bind_some, PosixAcl.normal, hkeep, aclFrom,
        if_neg fun hempty => hne hempty.1]
      rfl
    cases dflt with
    | none =>
      rw [harriving none rfl nofun, (lookup_aclXattrs _).1, (lookup_aclXattrs _).2]
      exact ⟨fun _ _ => rfl, fun _ => ⟨hsame, trivial⟩⟩
    | some data' =>
      obtain ⟨acl', -, hparsed', -, hne', hsame'⟩ := (h.dflt data' rfl).parsed
      rw [harriving _ hparsed' (by simpa using hne'), (lookup_aclXattrs _).1,
        (lookup_aclXattrs _).2]
      exact ⟨fun _ _ => rfl, fun _ => ⟨hsame, hsame'⟩⟩

end Transfer

def plainAcl : PosixAclEntries := ⟨some 7, some 5, none, some 5, []⟩

def defaultOnly : AclSource := ⟨sIfdir, none, some (serializePosixAclBinary plainAcl)⟩

theorem wellFormed_defaultOnly : defaultOnly.WellFormed where
  kind := .inl (by decide)
  access := nofun
  dflt := by
    rintro _ ⟨⟩
    refine ⟨⟨plainAcl.sorted, parse_serialize ⟨?_, nofun⟩, rfl, rfl, rfl⟩, by decide⟩
    simp [plainAcl]

end Ferrosync
