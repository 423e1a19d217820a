import Ferrosync.Codec.IncrementalRoundTrip

set_option autoImplicit false

/-! # What spoils an incremental file list

The encoder keeps its tables of hard links and attributes over all lists, the decoder starts every
list with empty ones. So a reference to an entry of another list, and any reference to an attribute
outside the first list, is not resolved. The entries before the first such reference arrive, and
the receiver either fails or has a wrong entry in its place (`TreeList.spoilt`).
-/

namespace Ferrosync

open ByteStream List

/-! ## References that are not resolved -/

section Tables

variable {α : Type} [DecidableEq α]

/-- What a decoder that started when the encoder's table was `base` can make of a value: only a
value that is new, or one that was not in a table of another list, is read as it was sent. -/
theorem decodeShared_sent {encode : α → List UInt8} {decode : Wire α} {kind : String} {x y : α}
    {sent seen base seen' : List α} {rest rest' : List UInt8} (hsent : sent = base ++ seen)
    (hnodup : sent.Nodup) (hlen : sent.length < 2 ^ 32) (hx : Reads decode (encode x) x)
    (h : decodeShared decode kind seen ((encodeShared encode x sent).1 ++ rest) =
      .ok ((y, seen'), rest')) :
    rest' = rest ∧ (y = x → x ∈ sent → base = []) := by
  by_cases hmem : x ∈ sent
  · rw [decodeShared_ref hmem hlen] at h
    -- a reference counts in the table of all lists, and is looked up in that of this list
    cases hget : seen[sent.idxOf x]? with
    | none =>
      rw [hget] at h
      exact absurd h nofun
    | some z =>
      rw [hget] at h
      cases h
      refine ⟨rfl, fun hy _ => ?_⟩
      subst hsent
      exact (getElem?_idxOf_suffix hnodup hmem).mp (hy ▸ hget)
  · rw [reads_shared_new hmem hx] at h
    cases h
    exact ⟨rfl, fun _ hmem' => absurd hmem' hmem⟩

theorem mem_encodeShared {encode : α → List UInt8} {x y : α} {sent : List α} :
    y ∈ (encodeShared encode x sent).2 ↔ y ∈ sent ∨ y = x := by
  by_cases hmem : x ∈ sent
  · rw [encodeShared_ref hmem]
    constructor
    · exact Or.inl
    · rintro (hy | rfl)
      · exact hy
      · exact hmem
  · simp [encodeShared_new hmem]

end Tables

theorem aclFrom_inj {access access' : PosixAclEntries} {dflt dflt' : Option PosixAclEntries}
    (h : aclFrom access dflt = aclFrom access' dflt') : access = access' ∧ dflt = dflt' := by
  unfold aclFrom at h
  split_ifs at h with h₁ h₂ h₃
  · exact ⟨h₁.1.trans h₂.1.symm, h₁.2.trans h₂.2.symm⟩
  · cases h
    exact ⟨rfl, rfl⟩

theorem xattrsFrom_inj {xa xa' : ExtendedAttributes} (h : xattrsFrom xa = xattrsFrom xa') :
    xa = xa' := by
  unfold xattrsFrom at h
  split_ifs at h with h₁ h₂ h₃
  · cases xa
    cases xa'
    simpa using h₁.trans h₂.symm
  · exact Option.some.inj h

/-- The encoder's tables hold nothing twice. -/
structure TablesNodup (enc : EncoderState) : Prop where
  access : enc.acls.accessList.Nodup
  dflt : enc.acls.defaultList.Nodup
  xattrs : enc.xattrs.Nodup

section Fields

variable {opts : FileListOptions} {e : FileEntry} {enc : EncoderState} {base : AttrTables}
variable {acls acls' : AclTables} {xattrs xattrs' : List ExtendedAttributes}
variable {rest rest' : List UInt8}

/-- What is read of the attributes of an entry has their shape. -/
structure AclShaped (opts : FileListOptions) (e : FileEntry) (acl : Option PosixAcl) : Prop where
  skipped : (opts.preserveAcls && !e.isSymlink) = false → acl = none
  dflt : e.isDir = false → ∀ x, acl = some x → x.default = none

theorem aclShaped_file {x : PosixAclEntries}
    (hsends : (opts.preserveAcls && !e.isSymlink) = true) : AclShaped opts e (aclFrom x none) := by
  refine ⟨fun hskip => absurd (hsends.symm.trans hskip) nofun, fun _ y hy => ?_⟩
  unfold aclFrom at hy
  split_ifs at hy
  cases hy
  rfl

/-- A default list that is read as none is empty. -/
theorem dflt_inj {a b : PosixAclEntries}
    (h : (if a = .default then none else some a) = if b = .default then none else some b) :
    a = b := by
  split_ifs at h with h₁ h₂ h₃
  · exact h₁.trans h₂.symm
  · exact Option.some.inj h

/-- An access control list that is read as it was sent was resolved. -/
theorem decodeAclField_sent {acl : Option PosixAcl} (htables : TablesFrom base enc acls xattrs)
    (hnodup : TablesNodup enc) (hfit : AttrsFit opts e) (ha : enc.acls.accessList.length < 2 ^ 32)
    (hd : enc.acls.defaultList.length < 2 ^ 32)
    (h : decodeAclField e.mode opts acls ((encodeAclField e opts enc.acls).1 ++ rest) =
      .ok ((acl, acls'), rest')) :
    rest' = rest ∧ AclShaped opts e acl ∧ (acl = receivedAcl opts e →
      (opts.preserveAcls = true → e.isSymlink = false →
        accessOf e.acl ∈ enc.acls.accessList → base.acls.accessList = []) ∧
      (opts.preserveAcls = true → e.isDir = true →
        defaultOf e.acl ∈ enc.acls.defaultList → base.acls.defaultList = [])) := by
  by_cases hsends : opts.preserveAcls = true ∧ e.isSymlink = false
  · obtain ⟨hpreserve, hsym⟩ := hsends
    have hmode : e.mode &&& sIfmt ≠ sIflnk := of_decide_eq_false hsym
    have hand : (opts.preserveAcls && !e.isSymlink) = true := by rw [hpreserve, hsym]; rfl
    unfold decodeAclField encodeAclField at h
    rw [hpreserve, hsym, decide_eq_true hmode] at h
    simp only [Bool.and_true, Bool.not_false, if_true] at h
    unfold receivedAcl sentAcl
    rw [hpreserve, hsym]
    unfold encodeAcl decodeAcl at h
    obtain ⟨⟨access, seen⟩, tail, haccess, h⟩ := bind_eq_ok h
    obtain ⟨⟨dflt, seenDflt⟩, tail', hdflt, h⟩ := bind_eq_ok h
    obtain ⟨h, rfl⟩ := pure_eq_ok h
    cases h
    unfold decodeDefault at hdflt
    by_cases hdir : e.mode &&& sIfmt = sIfdir
    · rw [if_pos hdir] at hdflt haccess
      rw [append_assoc] at haccess
      obtain ⟨rfl, hfirst⟩ := decodeShared_sent htables.access hnodup.access ha
        (reads_aclEntries (hfit.access hpreserve)) haccess
      obtain ⟨⟨d, seenD⟩, tail'', hd', hdflt⟩ := bind_eq_ok hdflt
      obtain ⟨hdflt, rfl⟩ := pure_eq_ok hdflt
      cases hdflt
      obtain ⟨rfl, hsecond⟩ := decodeShared_sent htables.dflt hnodup.dflt hd
        (reads_aclEntries (hfit.dflt hpreserve)) hd'
      have hisDir : e.isDir = true := decide_eq_true hdir
      refine ⟨rfl, ⟨fun hskip => Bool.noConfusion (hand.symm.trans hskip),
        fun hfile => Bool.noConfusion (hisDir.symm.trans hfile)⟩, fun hacl => ?_⟩
      rw [hisDir] at hacl
      obtain ⟨hx, hy⟩ := aclFrom_inj hacl
      exact ⟨fun _ _ => hfirst hx, fun _ _ => hsecond (dflt_inj hy)⟩
    · rw [if_neg hdir] at hdflt haccess
      obtain ⟨hdflt, rfl⟩ := pure_eq_ok hdflt
      cases hdflt
      obtain ⟨rfl, hfirst⟩ := decodeShared_sent htables.access hnodup.access ha
        (reads_aclEntries (hfit.access hpreserve)) haccess
      have hisDir : e.isDir = false := decide_eq_false hdir
      refine ⟨rfl, aclShaped_file hand,
        fun hacl => ⟨fun _ _ => hfirst (aclFrom_inj hacl).1, fun _ h => ?_⟩⟩
      exact absurd (hisDir.symm.trans h) Bool.false_ne_true
  · obtain ⟨hskip, hmode⟩ := skipsAcl hsends
    unfold decodeAclField encodeAclField at h
    rw [hskip, hmode] at h
    obtain ⟨h, rfl⟩ := pure_eq_ok h
    cases h
    refine ⟨rfl, ⟨fun _ => rfl, fun _ _ h => by cases h⟩,
      fun _ => ⟨fun hp hs => absurd ⟨hp, hs⟩ hsends, fun hp hdir => ?_⟩⟩
    -- a directory is not a symbolic link
    refine absurd ⟨hp, ?_⟩ hsends
    unfold FileEntry.isSymlink
    rw [of_decide_eq_true hdir]
    decide

/-- Extended attributes that are read as they were sent were resolved. -/
theorem decodeXattrField_sent {xattr : Option ExtendedAttributes}
    (htables : TablesFrom base enc acls xattrs) (hnodup : TablesNodup enc) (hfit : AttrsFit opts e)
    (hx : enc.xattrs.length < 2 ^ 32)
    (h : decodeXattrField opts xattrs ((encodeXattrField e opts enc.xattrs).1 ++ rest) =
      .ok ((xattr, xattrs'), rest')) :
    rest' = rest ∧ (opts.preserveXattrs = false → xattr = none) ∧ (xattr = receivedXattrs opts e →
      opts.preserveXattrs = true → xattrsOf e.xattrs ∈ enc.xattrs → base.xattrs = []) := by
  unfold decodeXattrField encodeXattrField at h
  unfold receivedXattrs
  cases hpreserve : opts.preserveXattrs with
  | false =>
    rw [hpreserve] at h
    obtain ⟨h, rfl⟩ := pure_eq_ok h
    cases h
    simp
  -- the value and the table come from one shared field, which is all that is sent
  | true =>
    rw [hpreserve, if_pos rfl] at h
    obtain ⟨⟨xa, seen⟩, tail, hshared, h⟩ := bind_eq_ok h
    obtain ⟨h, rfl⟩ := pure_eq_ok h
    cases h
    obtain ⟨rfl, hres⟩ := decodeShared_sent htables.xattrs hnodup.xattrs hx
      (reads_xattrSet (hfit.xattrs hpreserve)) hshared
    exact ⟨rfl, nofun, fun heq _ => hres (xattrsFrom_inj heq)⟩

end Fields

/-! ## The entry that is not resolved -/

section Entry

variable {opts : FileListOptions} {before : List (Int × FileEntry)} {base : AttrTables}
variable {start : Int} {sent prev : List FileEntry} {enc : EncoderState} {dec dec' : DecoderState}
variable {e : FileEntry} {result : ReadEntryResult} {input rest : List UInt8}

/-- The first member of a group in another list is looked up in vain, and the fields are expected to
follow. -/
theorem Lockstep.link_unresolved {k : Nat × Nat}
    (h : Lockstep opts before base start sent prev enc dec) (hwire : opts.wire.FlagsFit)
    (hbyte : opts.wire.flagsCodec ≠ .byte) (he : Valid opts e)
    (hbefore : ∀ p ∈ before, 0 ≤ p.1 ∧ p.1 < start) (hstart : start < 2 ^ 31)
    (hkey : linkKey opts e = some k) (hfirst : ∃ p ∈ before, linkKey opts p.2 = some k)
    (hdec : decodeEntry opts prev dec
      ((encodeEntry e enc opts (toI32 (start + sent.length))).1 ++ input) =
        .ok ((result, dec'), rest)) :
    ∃ d, result = .entry d ∧ d.name = e.name ∧ d.hlinkSource = none := by
  -- the index the encoder has for the first member
  obtain ⟨p, hp, hlookup⟩ : ∃ p ∈ before, enc.links.lookup k = some p.1 := by
    cases hfind : before.find? fun p => linkKey opts p.2 = some k with
    | none =>
      rw [find?_eq_none] at hfind
      obtain ⟨q, hq, hqk⟩ := hfirst
      exact absurd (decide_eq_true hqk) (hfind q hq)
    | some p =>
      refine ⟨p, mem_of_find?_eq_some hfind, ?_⟩
      simp [h.links k, hfind]
  obtain ⟨hp₀, hp₁⟩ := hbefore p hp
  have hf := flagsOf_computeXmitFlags e enc.delta opts (.duplicateOf p.1)
  have hs := h.synced.supplies hf he.rdev
  have hresolve : resolveHlinkAction opts e.linkInfo enc.links (toI32 (start + sent.length)) =
      (.duplicateOf p.1, enc.links) := resolveHlinkAction_duplicate hkey hlookup
  have htarget : linkTarget? prev (p.1 - dec.delta.ndxStart) = none := by
    simp [h.ndxStart, linkTarget?]
    omega
  rw [encodeEntry_duplicate hresolve, append_assoc,
    decodeEntry_duplicate hwire hbyte he.sendable (preserve_of_linkKey hkey) rfl rfl hs
      ⟨by omega, by omega⟩ (by rw [h.ndxStart]; exact ⟨by omega, by omega⟩) prev input,
    htarget] at hdec
  obtain ⟨⟨d, st⟩, tail, hfields, hdec⟩ := bind_eq_ok hdec
  obtain ⟨hdec, -⟩ := pure_eq_ok hdec
  cases hdec
  obtain ⟨hname, hsource, -⟩ := decodeFields_inv hfields
  exact ⟨d, rfl, hname, hsource⟩

/-- An entry that is sent in full is read up to its attributes; if these are as they were sent,
they were resolved. -/
theorem Lockstep.attrs_unresolved (h : Lockstep opts before base start sent prev enc dec)
    (hwire : opts.wire.FlagsFit) (he : Valid opts e) (hnodup : TablesNodup enc)
    (hlink : LinkResolves opts before sent e) (hsource : linkSource opts sent e = none)
    (hcount : before.length + sent.length < 2 ^ 32)
    (hdec : decodeEntry opts prev dec
      ((encodeEntry e enc opts (toI32 (start + sent.length))).1 ++ input) =
        .ok ((result, dec'), rest)) :
    ∃ d, result = .entry d ∧ d.name = e.name ∧ AclShaped opts e d.acl ∧
      (opts.preserveXattrs = false → d.xattrs = none) ∧
      (d.acl = receivedAcl opts e → d.xattrs = receivedXattrs opts e →
        AttrsResolve opts base enc e) := by
  obtain ⟨action, links, haction, hresolve⟩ := h.action_full hlink hsource
  have hf := flagsOf_computeXmitFlags e enc.delta opts action
  have hs := h.synced.supplies hf he.rdev
  -- everything in front of the attributes is read as it was sent, so that the failure is in them
  rw [encodeEntry_full hresolve haction] at hdec
  unfold encodeFields at hdec
  rw [append_assoc, append_assoc,
    decodeEntry_full hwire he.sendable haction rfl rfl hs, append_assoc] at hdec
  obtain ⟨⟨d, st⟩, tail, hattrs, hdec⟩ := bind_eq_ok hdec
  obtain ⟨hdec, -⟩ := pure_eq_ok hdec
  cases hdec
  obtain ⟨⟨acl, acls⟩, tail₁, hacl, hattrs⟩ := bind_eq_ok hattrs
  obtain ⟨⟨xattr, xattrs⟩, tail₂, hxattr, hattrs⟩ := bind_eq_ok hattrs
  obtain ⟨hattrs, -⟩ := pure_eq_ok hattrs
  cases hattrs
  obtain ⟨rfl, hshape, haclRes⟩ := decodeAclField_sent h.tables hnodup he.attrs
    (h.access_le.trans_lt hcount) (h.dflt_le.trans_lt hcount) hacl
  obtain ⟨-, hnone, hxattrRes⟩ := decodeXattrField_sent h.tables hnodup he.attrs
    (h.xattrs_le.trans_lt hcount) hxattr
  refine ⟨_, rfl, rfl, hshape, hnone, fun hsameAcl hsameXattrs => ?_⟩
  obtain ⟨haccess, hdflt⟩ := haclRes hsameAcl
  exact ⟨haccess, hdflt, hxattrRes hsameXattrs⟩

end Entry

/-! ## The list that is not resolved -/

/-- An entry that was read in vain: not as a link to the other list, or with other attributes. -/
def Spoilt (opts : FileListOptions) (earlier : List FileEntry) (e d : FileEntry) : Prop :=
  (d.hlinkSource = none ∧ ∃ k, linkKey opts e = some k ∧ ∃ a ∈ earlier, linkKey opts a = some k) ∨
    (AclShaped opts e d.acl ∧ (opts.preserveXattrs = false → d.xattrs = none) ∧
      ¬ (d.acl = receivedAcl opts e ∧ d.xattrs = receivedXattrs opts e))

section List

variable {opts : FileListOptions} {before : List (Int × FileEntry)} {base : AttrTables}
variable {start : Int}

/-- The references of a list can be resolved, or there is a first entry for which they cannot. -/
theorem resolvable_or_first : ∀ (es sent : List FileEntry) (enc : EncoderState),
    Resolvable opts before base start sent enc es ∨
    ∃ es₁ e es₂, es = es₁ ++ e :: es₂ ∧ Resolvable opts before base start sent enc es₁ ∧
      ¬ (LinkResolves opts before (sent ++ es₁) e ∧ (linkSource opts (sent ++ es₁) e = none →
        AttrsResolve opts base (encodeEntries opts (start + sent.length) es₁ enc).2 e)) := by
  intro es
  induction es with
  | nil => exact fun _ _ => Or.inl trivial
  | cons e es ih =>
    intro sent enc
    -- if this entry resolves, the first one that does not is among the others
    by_cases hone : LinkResolves opts before sent e ∧
        (linkSource opts sent e = none → AttrsResolve opts base enc e)
    · have hshift : start + ((sent ++ [e]).length : Int) = start + sent.length + 1 := by
        simp
        omega
      rcases ih (sent ++ [e]) (encodeEntry e enc opts (toI32 (start + sent.length))).2 with
        hrest | ⟨es₁, a, es₂, rfl, hres, hfail⟩
      · exact Or.inl ⟨hone.1, hone.2, hrest⟩
      · refine Or.inr ⟨e :: es₁, a, es₂, rfl, ⟨hone.1, hone.2, hres⟩, ?_⟩
        rw [hshift, append_assoc] at hfail
        exact hfail
    · refine Or.inr ⟨[], e, es, rfl, trivial, ?_⟩
      rw [append_nil]
      exact hone

theorem TablesNodup.encodeEntry {e : FileEntry} {enc : EncoderState} (h : TablesNodup enc)
    (index : Int) : TablesNodup (Ferrosync.encodeEntry e enc opts index).2 := by
  -- a table is only extended by a value that it does not have
  have hacl : (encodeAclField e opts enc.acls).2.accessList.Nodup ∧
      (encodeAclField e opts enc.acls).2.defaultList.Nodup := by
    unfold encodeAclField encodeAcl
    split
    · split
      · exact ⟨encodeShared_nodup h.access, encodeShared_nodup h.dflt⟩
      · exact ⟨encodeShared_nodup h.access, h.dflt⟩
    · exact ⟨h.access, h.dflt⟩
  have hxattr : (encodeXattrField e opts enc.xattrs).2.Nodup := by
    unfold encodeXattrField
    split
    · exact encodeShared_nodup h.xattrs
    · exact h.xattrs
  unfold Ferrosync.encodeEntry
  dsimp only
  split
  · exact ⟨h.access, h.dflt, h.xattrs⟩
  · exact ⟨hacl.1, hacl.2, hxattr⟩

theorem TablesNodup.encodeEntries (es : List FileEntry) : ∀ {start : Int} {enc : EncoderState},
    TablesNodup enc → TablesNodup (Ferrosync.encodeEntries opts start es enc).2 := by
  induction es with
  | nil => exact fun h => h
  | cons e es ih => exact fun h => ih (h.encodeEntry _)

/-- The first entry that cannot be resolved spoils what is read. -/
theorem decodeEntry_spoilt {sent prev : List FileEntry} {enc : EncoderState}
    {dec dec' : DecoderState} {e : FileEntry} {result : ReadEntryResult} {input rest : List UInt8}
    (h : Lockstep opts before base start sent prev enc dec) (hwire : opts.wire.FlagsFit)
    (hbyte : opts.wire.flagsCodec ≠ .byte) (he : Valid opts e) (hnodup : TablesNodup enc)
    (hbefore : ∀ p ∈ before, 0 ≤ p.1 ∧ p.1 < start) (hstart : start < 2 ^ 31)
    (hcount : before.length + sent.length < 2 ^ 32)
    (hfail : ¬ (LinkResolves opts before sent e ∧
      (linkSource opts sent e = none → AttrsResolve opts base enc e)))
    (hdec : decodeEntry opts prev dec
      ((encodeEntry e enc opts (toI32 (start + sent.length))).1 ++ input) =
        .ok ((result, dec'), rest)) :
    ∃ d, result = .entry d ∧ d.name = e.name ∧ Spoilt opts (before.map Prod.snd) e d := by
  -- Either its link points to an earlier list, or its attributes do.
  by_cases hlink : LinkResolves opts before sent e
  · rw [not_and, Classical.not_imp] at hfail
    obtain ⟨hsource, hattrs⟩ := hfail hlink
    obtain ⟨d, hd, hname, hshape, hnone, hres⟩ :=
      h.attrs_unresolved hwire he hnodup hlink hsource hcount hdec
    exact ⟨d, hd, hname, Or.inr ⟨hshape, hnone, fun hsame => hattrs (hres hsame.1 hsame.2)⟩⟩
  · obtain ⟨k, hkey, p, hp, hpk⟩ : ∃ k, linkKey opts e = some k ∧
        ∃ p ∈ before, linkKey opts p.2 = some k := by
      by_contra hnone
      refine hlink fun k hkey => ⟨fun p hp hpk => hnone ⟨k, hkey, p, hp, hpk⟩, ?_⟩
      exact fun hb => absurd hb hbyte
    obtain ⟨d, hd, hname, hsource⟩ := h.link_unresolved hwire hbyte he hbefore hstart hkey
      ⟨p, hp, hpk⟩ hdec
    exact ⟨d, hd, hname, Or.inl ⟨hsource, k, hkey, p.2, mem_map_of_mem hp, hpk⟩⟩

/-- A list that is received although it cannot be resolved has a spoilt entry. -/
theorem recvEntries_spoilt {es ds : List FileEntry} {enc : EncoderState} {dec dec' : DecoderState}
    {input rest : List UInt8} (h : Lockstep opts before base start [] [] enc dec)
    (hwire : opts.wire.FlagsFit) (hbyte : opts.wire.flagsCodec ≠ .byte)
    (hvalid : ∀ e ∈ es, Valid opts e) (hagree : LinksAgree opts es) (hnodup : TablesNodup enc)
    (hbefore : ∀ p ∈ before, 0 ≤ p.1 ∧ p.1 < start) (hpos : 0 ≤ start)
    (hbound : start + es.length < 2 ^ 31) (hcount : before.length + es.length ≤ 2 ^ 32)
    (hfail : ¬ Resolvable opts before base start [] enc es)
    (hrecv : recvEntries opts dec ((encodeEntries opts start es enc).1 ++ input) =
      .ok ((ds, dec'), rest)) :
    ∃ d ∈ ds, ∃ e ∈ es, d.name = e.name ∧ Spoilt opts (before.map Prod.snd) e d := by
  obtain ⟨es₁, e, es₂, rfl, hres, hfirst⟩ := (resolvable_or_first es [] enc).resolve_left hfail
  have hlen : (es₁ ++ e :: es₂).length = es₁.length + es₂.length + 1 := by
    simp
    omega
  have hzero : start + (([] : List FileEntry).length : Int) = start := by simp
  -- the entries before it are received
  have hrun := decodeEntries_lockstep hwire (fun _ _ _ _ => True) (fun _ _ _ => trivial) hpos es₁ []
    [] enc dec h trivial (fun a ha => hvalid a (mem_append_left _ ha))
    (fun a ha b hb => hagree a (mem_append_left _ ha) b (mem_append_left _ hb)) hres
    (by rw [length_nil, Nat.zero_add]; omega) (by rw [length_nil, Nat.zero_add]; omega)
  rw [hzero] at hrun hfirst
  obtain ⟨ds₁, dec₁, hdecode, hlock, -⟩ := hrun
  have hle := length_le_encodeEntries opts es₁ start enc
  unfold recvEntries at hrecv
  rw [encodeEntries_append, append_assoc, length_append] at hrecv
  obtain ⟨fuel, hfuel⟩ := Nat.exists_eq_add_of_le
    (hle.trans (Nat.le_add_right _ ((encodeEntries opts (start + es₁.length) (e :: es₂)
      (encodeEntries opts start es₁ enc).2).1 ++ input).length))
  rw [hfuel, Nat.add_comm es₁.length, Nat.add_right_comm, hdecode, encodeEntries,
    append_assoc] at hrecv
  -- it is not
  obtain ⟨⟨result, dec₂⟩, tail, hread, hrecv⟩ := bind_eq_ok hrecv
  obtain ⟨d, rfl, hname, hspoilt⟩ := decodeEntry_spoilt hlock hwire hbyte
    (hvalid e (mem_append_right _ mem_cons_self)) (hnodup.encodeEntries es₁) hbefore
    (by omega) (by rw [nil_append]; omega) hfirst hread
  have hinitial := prefix_of_decodeEntries _ _ _ _ _ _ _ hrecv
  refine ⟨d, hinitial.subset ?_, e, mem_append_right _ mem_cons_self, hname, hspoilt⟩
  exact mem_append_right _ (mem_singleton.mpr rfl)

end List

/-! ## The groups that are not resolved -/

section Groups

variable {opts : FileListOptions} {entries : List FileEntry}

/-- The references of all groups can be resolved, or there is a first group for which they cannot. -/
theorem resolvableGroups_or_first (groups : List DirGroup) :
    ∀ (before : List (Int × FileEntry)) (s : SubFlistSender),
      ResolvableGroups opts entries before s groups ∨
      ∃ gs₁ g gs₂, groups = gs₁ ++ g :: gs₂ ∧ ResolvableGroups opts entries before s gs₁ ∧
        ¬ Resolvable opts (history entries opts before s gs₁)
          (sendLists entries opts gs₁ s).2.tables (sendLists entries opts gs₁ s).2.nextNdx []
          ((sendLists entries opts gs₁ s).2.enc.startAt (sendLists entries opts gs₁ s).2.nextNdx)
          (groupEntries entries g) := by
  induction groups with
  | nil => exact fun _ _ => Or.inl trivial
  | cons g groups ih =>
    intro before s
    by_cases hone : Resolvable opts before s.tables s.nextNdx [] (s.enc.startAt s.nextNdx)
        (groupEntries entries g)
    · rcases ih (before ++ indexed s.nextNdx (groupEntries entries g))
        (sendSubFlist entries g opts s).2 with hrest | ⟨gs₁, g', gs₂, rfl, hres, hfail⟩
      · exact Or.inl ⟨hone, hrest⟩
      · exact Or.inr ⟨g :: gs₁, g', gs₂, rfl, ⟨hone, hres⟩, hfail⟩
    · exact Or.inr ⟨[], g, groups, rfl, trivial, hone⟩

theorem map_snd_indexed (es : List FileEntry) (start : Int) :
    (indexed start es).map Prod.snd = es := by
  induction es generalizing start with
  | nil => rfl
  | cons e es ih => rw [indexed, map_cons, ih]

theorem map_snd_history (groups : List DirGroup) : ∀ (before : List (Int × FileEntry))
    (s : SubFlistSender), (history entries opts before s groups).map Prod.snd =
      before.map Prod.snd ++ groups.flatMap (groupEntries entries) := by
  induction groups with
  | nil => exact fun before _ => (append_nil _).symm
  | cons g groups ih =>
    simp [history, ih, map_snd_indexed]

theorem mem_indexed {start : Int} {es : List FileEntry} (hpos : 0 ≤ start)
    (hbound : start + es.length < 2 ^ 31) :
    ∀ p ∈ indexed start es, start ≤ p.1 ∧ p.1 < start + es.length := by
  induction es generalizing start with
  | nil => exact fun p hp => absurd hp not_mem_nil
  | cons e es ih =>
    intro p hp
    rw [length_cons] at hbound ⊢
    rcases mem_cons.mp hp with rfl | hp
    · rw [toI32_eq ⟨by omega, by omega⟩]
      omega
    · have := ih (by omega) (by omega) p hp
      omega

/-- The indices of the history are below the next one. -/
theorem history_lt (groups : List DirGroup) : ∀ {before : List (Int × FileEntry)}
    {s : SubFlistSender}, (∀ p ∈ before, 0 ≤ p.1 ∧ p.1 < s.nextNdx) →
    SendableGroups opts entries before s groups →
    ∀ p ∈ history entries opts before s groups,
      0 ≤ p.1 ∧ p.1 < (sendLists entries opts groups s).2.nextNdx := by
  induction groups with
  | nil => exact fun h _ => h
  | cons g groups ih =>
    intro before s h hsend
    obtain ⟨-, hlist, -, hrest⟩ := hsend
    have hndx := hlist.ndx
    have hbound := hlist.bound
    refine ih (fun p hp => ?_) hrest
    rw [nextNdx_sendSubFlist hlist]
    rcases mem_append.mp hp with hp | hp
    · have := h p hp
      omega
    · have := mem_indexed hlist.ndx (by omega) p hp
      omega

theorem prefix_of_recvSubFlists : ∀ (fuel : Nat) (acc : Received) (r : IncrementalReceiver)
    (input : List UInt8) (acc' : Received) (rest : List UInt8),
    recvSubFlists opts fuel acc r input = .ok (acc', rest) → acc.entries <+: acc'.entries := by
  intro fuel
  induction fuel with
  | zero => intro acc r input acc' rest h; exact absurd h nofun
  | succ fuel ih =>
    intro acc r input acc' rest h
    obtain ⟨ndx, tail, -, h⟩ := bind_eq_ok h
    split_ifs at h
    · obtain ⟨rfl, -⟩ := pure_eq_ok h
      exact prefix_refl _
    · obtain ⟨list, tail', -, h⟩ := bind_eq_ok h
      exact (prefix_append _ _).trans (ih _ _ _ _ _ h)
    · exact absurd h nofun

theorem TablesNodup.sendLists (groups : List DirGroup) : ∀ {s : SubFlistSender},
    TablesNodup s.enc → TablesNodup (Ferrosync.sendLists entries opts groups s).2.enc := by
  induction groups with
  | nil => exact fun h => h
  | cons g groups ih =>
    intro s h
    have hstart : TablesNodup (s.enc.startAt s.nextNdx) := ⟨h.access, h.dflt, h.xattrs⟩
    exact ih (hstart.encodeEntries (groupEntries entries g))

/-- Groups that are received although they cannot be resolved have a spoilt entry. -/
theorem recvSubFlists_spoilt {before : List (Int × FileEntry)} {s : SubFlistSender}
    {r : IncrementalReceiver} {gs₁ gs₂ : List DirGroup} {g : DirGroup} {acc acc' : Received}
    {fuel : Nat} {rest₀ rest : List UInt8} (hwire : opts.wire.FlagsFit)
    (hbyte : opts.wire.flagsCodec ≠ .byte) (h : BetweenLists opts before s r)
    (hnodup : TablesNodup s.enc) (hbefore : ∀ p ∈ before, 0 ≤ p.1 ∧ p.1 < s.nextNdx)
    (hsend : SendableGroups opts entries before s gs₁)
    (hdir : 0 ≤ g.dirNdx ∧ g.dirNdx < 2 ^ 31 - 101)
    (hvalid : ∀ e ∈ groupEntries entries g, Valid opts e)
    (hagree : LinksAgree opts (groupEntries entries g))
    (hpos : 0 ≤ (sendLists entries opts gs₁ s).2.nextNdx)
    (hbound : (sendLists entries opts gs₁ s).2.nextNdx + (groupEntries entries g).length < 2 ^ 31)
    (hcount : (history entries opts before s gs₁).length + (groupEntries entries g).length ≤ 2 ^ 32)
    (hfail : ¬ Resolvable opts (history entries opts before s gs₁)
      (sendLists entries opts gs₁ s).2.tables (sendLists entries opts gs₁ s).2.nextNdx []
      ((sendLists entries opts gs₁ s).2.enc.startAt (sendLists entries opts gs₁ s).2.nextNdx)
      (groupEntries entries g))
    (hrecv : recvSubFlists opts (fuel + 1 + gs₁.length) acc r
      (pendingBytes entries opts (gs₁ ++ g :: gs₂) s ++ rest₀) = .ok (acc', rest)) :
    ∃ d ∈ acc'.entries, ∃ e ∈ groupEntries entries g, d.name = e.name ∧
      Spoilt opts (before.map Prod.snd ++ gs₁.flatMap (groupEntries entries)) e d := by
  rw [← map_snd_history gs₁ before s]
  -- the lists before this one are received, and then its marker
  obtain ⟨dss, r₁, -, hrun, hend⟩ := h.groups hwire gs₁ acc hsend
  obtain ⟨hbehind, hmarker⟩ := hend.marker hdir
  rw [pendingBytes_append, append_assoc, hrun, pendingBytes] at hrecv
  unfold sendSubFlist at hrecv
  rw [append_assoc, append_assoc, hmarker] at hrecv
  obtain ⟨⟨list, r₂⟩, tail, hlist, hrecv⟩ := bind_eq_ok hrecv
  unfold recvSubFlistWithState encodeSubFlistEntries at hlist
  rw [append_assoc] at hlist
  obtain ⟨⟨ds, dec⟩, tail', hentries, hlist⟩ := bind_eq_ok hlist
  obtain ⟨hlist, -⟩ := pure_eq_ok hlist
  cases hlist
  have hnodup' : TablesNodup (sendLists entries opts gs₁ s).2.enc := hnodup.sendLists gs₁
  obtain ⟨d, hd, e, he, hname, hspoilt⟩ := recvEntries_spoilt hbehind.start hwire hbyte hvalid
    hagree ⟨hnodup'.access, hnodup'.dflt, hnodup'.xattrs⟩ (history_lt gs₁ hbefore hsend) hpos hbound
    hcount hfail hentries
  -- what is received later is behind it, and sorting keeps the entries
  have hinitial := prefix_of_recvSubFlists _ _ _ _ _ _ hrecv
  refine ⟨d, hinitial.subset ?_, e, he, hname, hspoilt⟩
  exact mem_append_right _ (mem_mergeSort.mpr hd)

end Groups

/-! ## The whole exchange -/

/-- A directory tree that is sent incrementally: sorted, with distinct normalised names, and with
every parent among the entries. The bound keeps all numbers below `2 ^ 31`. -/
structure TreeList (p : NegotiatedProtocol) (o : TransferOptions) (entries : List FileEntry) :
    Prop where
  wire : p.wire = WireFormat.new p.version p.compatFlags
  incremental : incrementalFlist p o = true
  sorted : CanonicallySorted entries
  distinct : (entries.map (·.name)).Nodup
  normalised : ∀ e ∈ entries, NormalisedName e.name
  parents : ∀ e ∈ entries, ∀ name, e.dirname = some name →
    ∃ d ∈ entries, d.isDir = true ∧ d.name = name
  valid : ∀ e ∈ entries, Valid (FileListOptions.fromProtocol p o) e
  agree : LinksAgree (FileListOptions.fromProtocol p o) entries
  bound : entries.length + entries.countP FileEntry.isDir + 2 < 2 ^ 31

section Exchange

variable {p : NegotiatedProtocol} {o : TransferOptions} {entries : List FileEntry}

theorem TreeList.listed (h : TreeList p o entries) : Listed entries := by
  intro e he name hname
  exact ⟨(h.normalised e he).parent_ne_dot hname,
    dirsNamed_of_distinct h.distinct (h.parents e he name hname)⟩

theorem TreeList.sendable (h : TreeList p o entries) :
    SendableEntries (FileListOptions.fromProtocol p o) entries :=
  ⟨h.sorted, h.valid, h.agree⟩

theorem TreeList.flagsFit (h : TreeList p o entries) :
    (FileListOptions.fromProtocol p o).wire.FlagsFit := by
  show p.wire.FlagsFit
  rw [h.wire]
  exact WireFormat.flagsFit_new (version_of_incremental h.wire h.incremental)

theorem TreeList.flagsCodec (h : TreeList p o entries) :
    (FileListOptions.fromProtocol p o).wire.flagsCodec ≠ .byte := by
  show p.wire.flagsCodec ≠ .byte
  rw [h.wire]
  exact WireFormat.flagsCodec_new (version_of_incremental h.wire h.incremental)

/-- The next number and the length of the history behind the lists of some groups. -/
theorem sendLists_bounds {opts : FileListOptions} (groups : List DirGroup) :
    ∀ {before : List (Int × FileEntry)} {s : SubFlistSender},
      (∀ g ∈ groups, ∃ q, g.entryIndices = positions q entries) →
      SendableGroups opts entries before s groups → before.length ≤ s.nextNdx →
      (sendLists entries opts groups s).2.nextNdx = s.nextNdx + ndxSpan groups ∧
        (history entries opts before s groups).length ≤
          (sendLists entries opts groups s).2.nextNdx := by
  induction groups with
  | nil =>
    intro before s _ _ hle
    exact ⟨(Int.add_zero _).symm, hle⟩
  | cons g groups ih =>
    intro before s hpos hsend hle
    obtain ⟨-, hlist, -, hrest⟩ := hsend
    obtain ⟨q, hg⟩ := hpos g mem_cons_self
    have hnext := nextNdx_sendSubFlist hlist
    obtain ⟨hndx, hlen⟩ := ih (fun g' hg' => hpos g' (mem_cons_of_mem g hg')) hrest (by
      rw [length_append, length_indexed]
      omega)
    refine ⟨?_, hlen⟩
    -- every list takes a number for each entry and one more
    have hsplit : ndxSpan (g :: groups) = g.entryIndices.length + 1 + ndxSpan groups := rfl
    show (sendLists entries opts groups (sendSubFlist entries g opts s).2).2.nextNdx = _
    rw [hndx, hnext, length_groupEntries hg]
    omega

theorem ndxSpan_append (gs₁ gs₂ : List DirGroup) :
    ndxSpan (gs₁ ++ gs₂) = ndxSpan gs₁ + ndxSpan gs₂ := by
  unfold ndxSpan
  rw [map_append, sum_append]

/-- A tree that is received although it cannot be resolved has a spoilt entry. -/
theorem TreeList.spoilt {counts : List Nat} {received : ReceivedFileList} {rest₀ rest : List UInt8}
    (h : TreeList p o entries) (hall : AllListsSent p o entries counts)
    (hfail : ¬ ResolvableTree (FileListOptions.fromProtocol p o) entries
      (DirectoryTree.fromSortedEntries entries))
    (hrecv : recvFileList p o (incrementalBytes p o entries counts ++ rest₀) =
      .ok (received, rest)) :
    ∃ gs₁ g gs₂, DirectoryTree.fromSortedEntries entries = gs₁ ++ g :: gs₂ ∧
      ∃ d ∈ received.entries, ∃ e ∈ groupEntries entries g, d.name = e.name ∧
        Spoilt (FileListOptions.fromProtocol p o) (gs₁.flatMap (groupEntries entries)) e d := by
  have htree := listedTree h.listed
  have hdirs := htree.dirNdx_bounds h.bound
  have hpos := htree.positions
  have hspan := htree.span_le
  have hbound := h.bound
  cases hgroups : DirectoryTree.fromSortedEntries entries with
  | nil => exact absurd hgroups htree.nonempty
  | cons root groups =>
    rw [hgroups] at hfail hdirs hpos hspan
    have hroot : Resolvable (FileListOptions.fromProtocol p o) [] ⟨.default, []⟩ 1 []
        (EncoderState.default.startAt 1) (groupEntries entries root) :=
      resolvable_alone _ _ _ fun hb => absurd hb h.flagsCodec
    have hgroups' := fun hres => hfail ⟨hroot, hres⟩
    obtain ⟨gs₁, g, gs₂, rfl, hres, hfirst⟩ :=
      (resolvableGroups_or_first groups _ _).resolve_left hgroups'
    have hspan' : ndxSpan (root :: (gs₁ ++ g :: gs₂)) =
        ndxSpan (root :: gs₁) + (g.entryIndices.length + 1 + ndxSpan gs₂) :=
      ndxSpan_append (root :: gs₁) (g :: gs₂)
    have hpos₁ : ∀ g' ∈ root :: gs₁, ∃ q, g'.entryIndices = positions q entries := by
      intro g' hg'
      refine hpos g' ?_
      exact mem_append_left _ hg'
    have hmem : g ∈ gs₁ ++ g :: gs₂ := mem_append_right _ mem_cons_self
    obtain ⟨q, hg⟩ := hpos g (mem_cons_of_mem root hmem)
    -- the root and the groups before are received
    have hsend : SendableTree (FileListOptions.fromProtocol p o) entries (root :: gs₁) :=
      sendableTree_of_bounds h.sendable (cons_ne_nil _ _)
        (fun g' hg' => hdirs g' (mem_append_left _ hg')) hpos₁ (by omega) ⟨hroot, hres⟩
    obtain ⟨hlist, -, hsend₁⟩ := hsend
    obtain ⟨ds, r, hreads, -, hnext⟩ := (BetweenLists.default _).list h.flagsFit hlist
    have hcursor := nextNdx_encodeSubFlistEntries hlist
    have hone : SubFlistSender.default.nextNdx = 1 := rfl
    have hlistBound := hlist.bound
    have hbefore : ∀ x ∈ indexed 1 (groupEntries entries root), 0 ≤ x.1 ∧ x.1 <
        (encodeSubFlistEntries (groupEntries entries root) (FileListOptions.fromProtocol p o)
          .default).2.nextNdx := by
      intro x hx
      have := mem_indexed (by decide) (by omega) x hx
      omega
    obtain ⟨hndx, hlen⟩ := sendLists_bounds gs₁
      (fun g' hg' => hpos₁ g' (mem_cons_of_mem root hg')) hsend₁ (by
        rw [length_indexed]
        omega)
    have hsplit : ndxSpan (root :: gs₁) = root.entryIndices.length + 1 + ndxSpan gs₁ := rfl
    obtain ⟨q₀, hroot₀⟩ := hpos₁ root mem_cons_self
    rw [hcursor, length_groupEntries hroot₀] at hndx
    have hfilter := h.sendable.filter q
    rw [← groupEntries_positions hg] at hfilter
    -- what is read behind the root
    rw [incrementalBytes_eq h.incremental hgroups hall] at hrecv
    unfold recvFileList at hrecv
    simp only [h.incremental] at hrecv
    obtain ⟨all, tail, hinc, hrecv⟩ := bind_eq_ok hrecv
    obtain ⟨rfl, -⟩ := pure_eq_ok hrecv
    rw [append_assoc] at hinc
    have hinc' := (bind_ok (hreads _)).symm.trans hinc
    obtain ⟨acc, tail', hloop, hinc'⟩ := bind_eq_ok hinc'
    obtain ⟨rfl, -⟩ := pure_eq_ok hinc'
    have hbytes := length_le_pendingBytes entries (FileListOptions.fromProtocol p o)
      (gs₁ ++ g :: gs₂) (encodeSubFlistEntries (groupEntries entries root)
        (FileListOptions.fromProtocol p o) .default).2
    rw [length_append, length_cons] at hbytes
    obtain ⟨fuel, hfuel⟩ := Nat.exists_eq_add_of_le (hbytes.trans (Nat.le_add_right _ rest₀.length))
    rw [length_append, hfuel] at hloop
    have hrounds : gs₁.length + (gs₂.length + 1) + fuel + 1 =
        (gs₂.length + 1 + fuel) + 1 + gs₁.length := by omega
    rw [hrounds] at hloop
    have hbehind : BetweenLists (FileListOptions.fromProtocol p o)
        (indexed 1 (groupEntries entries root)) _ r := hnext
    have hnodup : TablesNodup (encodeSubFlistEntries (groupEntries entries root)
        (FileListOptions.fromProtocol p o) .default).2.enc :=
      TablesNodup.encodeEntries _ ⟨nodup_nil, nodup_nil, nodup_nil⟩
    obtain ⟨d, hd, e, he, hname, hspoilt⟩ := recvSubFlists_spoilt h.flagsFit h.flagsCodec hbehind
      hnodup hbefore hsend₁ (hdirs g hmem) hfilter.valid hfilter.agree (by rw [hndx]; omega)
      (by rw [hndx, length_groupEntries hg]; omega) (by rw [length_groupEntries hg]; omega) hfirst
      hloop
    refine ⟨root :: gs₁, g, gs₂, rfl, d, hd, e, he, hname, ?_⟩
    rw [map_snd_indexed] at hspoilt
    exact hspoilt

end Exchange

end Ferrosync
