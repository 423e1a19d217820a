import Ferrosync.Codec.BatchRoundTrip

set_option autoImplicit false

/-! # The names of owners and groups

From version 30 on, the name of an owner is sent with its id, unless it is empty or the name of the
entry before. In both cases the decoder keeps the name it had, which is right in the second only.
So the names arrive exactly if no empty name follows another one (`owner_names_arrive_iff`).
-/

namespace Ferrosync

open ByteStream List

/-! ## One entry -/

/-- The name a decoder has for an id after an entry is the entry's, unless it is empty. -/
theorem idNameAfter_eq_iff {same inline : Bool} {name encName decName : List UInt8}
    (hinline : inline = true) (hdec : decName = encName) (hsame : same = true → name = encName) :
    idNameAfter true same (true && !same && inline && decide (name ≠ [] ∧ name ≠ encName)) name
        decName = name ↔ (name = [] → encName = []) := by
  subst hdec hinline
  cases same with
  | true =>
    have heq := hsame rfl
    subst heq
    exact ⟨fun _ h => h, fun _ => rfl⟩
  | false =>
    -- an empty name is never sent, and so the name before stays
    by_cases hfollows : name ≠ [] ∧ name ≠ decName
    · simpa [idNameAfter, decide_eq_true hfollows, true_iff] using fun h => absurd h hfollows.1
    · simp only [idNameAfter, Bool.not_false, Bool.true_and, decide_eq_false hfollows,
        Bool.false_eq_true, if_false]
      constructor
      · intro heq hnil
        exact heq.trans hnil
      · intro hnil
        by_cases hempty : name = []
        · rw [hempty, hnil hempty]
        · by_contra hne
          exact hfollows ⟨hempty, fun h => hne h.symm⟩

def SameNames (e d : FileEntry) : Prop := d.userName = e.userName ∧ d.groupName = e.groupName

/-- No name of `b` is empty where the name of `a` is not. -/
def NamesKeep (a b : FileEntry) : Prop :=
  (b.userName = [] → a.userName = []) ∧ (b.groupName = [] → a.groupName = [])

/-- Each id has one name. -/
def NamesFixed (es : List FileEntry) : Prop :=
  ∀ a ∈ es, ∀ b ∈ es, (a.uid = b.uid → a.userName = b.userName) ∧
    (a.gid = b.gid → a.groupName = b.groupName)

/-- No entry that is sent in full has an empty name behind an entry that has one. -/
def NoEmptyNameFollows (opts : FileListOptions) (es : List FileEntry) : Prop :=
  ∀ (i : Nat) (a b : FileEntry), es[i]? = some a → es[i + 1]? = some b →
    linkSource opts (es.take (i + 1)) b = none → NamesKeep a b

/-- The options that send names. -/
structure SendsNames (opts : FileListOptions) : Prop where
  inline : opts.wire.hasInlineNames = true
  uid : opts.preserveUid = true
  gid : opts.preserveGid = true

section Names

variable {opts : FileListOptions} {e d : FileEntry} {enc dec : DeltaState}

/-- The names of an entry that is sent in full. -/
theorem sameNames_full {f g : Nat} {action : HardLinkAction} {acl : Option PosixAcl}
    {xattrs : Option ExtendedAttributes} (hopts : SendsNames opts) (hf : FlagsOf e enc opts action f)
    (huser : dec.prevUserName = enc.prevUserName) (hgroup : dec.prevGroupName = enc.prevGroupName)
    (huid : e.uid = enc.prevUid → enc.prevName ≠ [] → e.userName = enc.prevUserName)
    (hgid : e.gid = enc.prevGid → enc.prevName ≠ [] → e.groupName = enc.prevGroupName) :
    SameNames e (receivedEntry opts dec e f g acl xattrs) ↔
      (e.userName = [] → enc.prevUserName = []) ∧ (e.groupName = [] → enc.prevGroupName = []) := by
  have hsameUid : sameUid e enc opts = true → e.userName = enc.prevUserName := by
    simp [sameUid, hopts.uid, decide_eq_true_eq]
    omega
  have hsameGid : sameGid e enc opts = true → e.groupName = enc.prevGroupName := by
    simp [sameGid, hopts.gid, decide_eq_true_eq]
    omega
  show idNameAfter opts.preserveUid (f.testBit 3) (f.testBit 10) e.userName dec.prevUserName =
      e.userName ∧
    idNameAfter opts.preserveGid (f.testBit 4) (f.testBit 11) e.groupName dec.prevGroupName =
      e.groupName ↔ _
  rw [hf.sameUid, hf.userNameFollows, hf.sameGid, hf.groupNameFollows, hopts.uid, hopts.gid,
    idNameAfter_eq_iff hopts.inline huser hsameUid, idNameAfter_eq_iff hopts.inline hgroup hsameGid]

theorem forall₂_concat {R : FileEntry → FileEntry → Prop} :
    ∀ {sent prev : List FileEntry}, sent.length = prev.length →
      (List.Forall₂ R (sent ++ [e]) (prev ++ [d]) ↔ List.Forall₂ R sent prev ∧ R e d)
  | [], [], _ => by simp
  | [], _ :: _, h => by simp at h
  | _ :: _, [], h => by simp at h
  | a :: sent, b :: prev, h => by
    simp [forall₂_concat (Nat.succ.inj h), and_assoc]

theorem noEmptyNameFollows_concat (sent : List FileEntry) :
    NoEmptyNameFollows opts (sent ++ [e]) ↔ NoEmptyNameFollows opts sent ∧
      ∀ s a, sent = s ++ [a] → linkSource opts sent e = none → NamesKeep a e := by
  constructor
  · intro h
    constructor
    · intro i a b ha hb hsource
      have hi : i + 1 < sent.length := (List.getElem?_eq_some_iff.mp hb).1
      refine h i a b ?_ ?_ ?_
      · rw [getElem?_append_left (by omega)]
        exact ha
      · rw [getElem?_append_left hi]
        exact hb
      · rw [take_append_of_le_length hi.le]
        exact hsource
    · rintro s a rfl hsource
      refine h s.length a e ?_ ?_ ?_
      · simp
      · simp
      · have htake : ((s ++ [a]) ++ [e]).take (s.length + 1) = s ++ [a] := by
          refine take_left' ?_
          simp
        rw [htake]
        exact hsource
  · rintro ⟨hsent, hlast⟩ i a b ha hb hsource
    rcases Nat.lt_or_ge (i + 1) sent.length with hi | hi
    · rw [getElem?_append_left (by omega)] at ha
      rw [getElem?_append_left hi] at hb
      rw [take_append_of_le_length hi.le] at hsource
      exact hsent i a b ha hb hsource
    · -- the last two entries
      have hlt := (List.getElem?_eq_some_iff.mp hb).1
      rw [length_append, length_singleton] at hlt
      have hi' : i + 1 = sent.length := by omega
      rw [hi', getElem?_concat_length] at hb
      obtain rfl := Option.some.inj hb
      rw [hi', take_left' rfl] at hsource
      rw [getElem?_append_left (by omega)] at ha
      have hne : sent ≠ [] := by
        intro hnil
        simp [hnil] at hi'
      have hget : sent.getLast hne = a := by
        rw [getLast_eq_getElem]
        obtain ⟨h₁, h₂⟩ := List.getElem?_eq_some_iff.mp ha
        rw [← h₂]
        congr 1
        omega
      refine hlast sent.dropLast a ?_ hsource
      rw [← hget, dropLast_append_getLast hne]

/-- Which names have arrived so far, and what the next ones are compared with. -/
structure NamesTrace (opts : FileListOptions) (sent prev : List FileEntry) (enc dec : DeltaState) :
    Prop where
  last : (sent = [] ∧ enc = .default ∧ dec = .default) ∨
    ∃ s a p b enc₀ dec₀, sent = s ++ [a] ∧ prev = p ++ [b] ∧ enc = DeltaState.update enc₀ a ∧
      dec = DeltaState.update dec₀ b
  names : NamesFixed sent → LinksAgree opts sent →
    (NoEmptyNameFollows opts sent ↔ List.Forall₂ SameNames sent prev)

/-- With the names right so far, those of the next entry are right if it is no empty name behind
another one. -/
theorem sameNames_next {sent prev : List FileEntry} (hopts : SendsNames opts)
    (htrace : NamesTrace opts sent prev enc dec) (hnames : List.Forall₂ SameNames sent prev)
    (hfixed : NamesFixed (sent ++ [e])) (hagree : LinksAgree opts (sent ++ [e]))
    (harrives : Arrives opts sent prev enc dec e d) :
    (∀ s a, sent = s ++ [a] → linkSource opts sent e = none → NamesKeep a e) ↔ SameNames e d := by
  have hmem : e ∈ sent ++ [e] := mem_append_right _ (mem_singleton.mpr rfl)
  cases harrives with
  -- the delta states hold the names of the entry before, or none at the start
  | full f g action hf hsource hd =>
    subst hd
    rcases htrace.last with ⟨rfl, rfl, rfl⟩ | ⟨s, a, p, b, enc₀, dec₀, rfl, rfl, rfl, rfl⟩
    · rw [sameNames_full hopts hf rfl rfl (fun _ h => absurd rfl h) (fun _ h => absurd rfl h)]
      exact ⟨fun _ => ⟨fun _ => rfl, fun _ => rfl⟩, fun _ s a h => absurd h (by simp)⟩
    · have hlen : s.length = p.length := by simpa using hnames.length_eq
      have hlast : SameNames a b := ((forall₂_concat hlen).mp hnames).2
      have ha : a ∈ s ++ [a] ++ [e] := by simp
      have hfix := hfixed e hmem a ha
      rw [sameNames_full hopts hf hlast.1 hlast.2 (fun h _ => hfix.1 h) (fun h _ => hfix.2 h)]
      constructor
      · intro h
        exact h s a rfl hsource
      · intro h s' a' heq _
        obtain ⟨-, heq⟩ := append_inj' heq rfl
        rw [← singleton_inj.mp heq]
        exact h
  -- a copy has the names of the first member, which has those of this one
  | linked j g e₀ first hsent hprev hkey hsame hsource hd =>
    have hnames₀ : SameNames e₀ first := by
      obtain ⟨h₁, rfl⟩ := List.getElem?_eq_some_iff.mp hsent
      obtain ⟨h₂, rfl⟩ := List.getElem?_eq_some_iff.mp hprev
      exact hnames.get h₁ h₂
    have hmem₀ : e₀ ∈ sent ++ [e] := mem_append_left _ (mem_of_getElem? hsent)
    obtain ⟨name, flags, source, heq⟩ := hagree e₀ hmem₀ e hmem (hsame ▸ hkey) hsame
    have hd' : SameNames e d := by
      subst hd heq
      exact hnames₀
    refine ⟨fun _ => hd', fun _ s a _ hnone => ?_⟩
    exact absurd (hsource.symm.trans hnone) (Option.some_ne_none _)

theorem NamesTrace.next {sent prev : List FileEntry} (hopts : SendsNames opts)
    (hsent : List.Forall₂ (Transmitted opts) sent prev) (h : NamesTrace opts sent prev enc dec)
    (harrives : Arrives opts sent prev enc dec e d) :
    NamesTrace opts (sent ++ [e]) (prev ++ [d]) (enc.update e) (dec.update d) where
  last := Or.inr ⟨sent, e, prev, d, enc, dec, rfl, rfl, rfl, rfl⟩
  names := by
    intro hfixed hagree
    have hfixed' : NamesFixed sent := fun a ha b hb =>
      hfixed a (mem_append_left _ ha) b (mem_append_left _ hb)
    have hagree' : LinksAgree opts sent := fun a ha b hb =>
      hagree a (mem_append_left _ ha) b (mem_append_left _ hb)
    rw [noEmptyNameFollows_concat, forall₂_concat hsent.length_eq, h.names hfixed' hagree']
    exact and_congr_right fun hnames => sameNames_next hopts h hnames hfixed hagree harrives

end Names

/-! ## A whole list -/

/-- The names of a list arrive: it is decoded, and every entry has the names it was sent with. -/
def NamesArrive (opts : FileListOptions) (entries : List FileEntry) : Prop :=
  ∃ received dec, Reads (recvEntries opts .default)
      ((encodeEntries opts 0 entries .default).1 ++ encodeEndOfFlist 0 opts) (received, dec) ∧
    List.Forall₂ SameNames entries received

/-- Lists whose owners are sent by name. Each id has one name in them: an entry with the id of the
one before is sent without a name. -/
structure NamedList (opts : FileListOptions) (entries : List FileEntry) : Prop where
  wire : ∃ version compatFlags, opts.wire = WireFormat.new version compatFlags
  sends : SendsNames opts
  valid : ∀ e ∈ entries, Valid opts e
  agree : LinksAgree opts entries
  fixed : NamesFixed entries

section List

variable {opts : FileListOptions} {entries : List FileEntry}

theorem NamedList.version (h : NamedList opts entries) :
    ∃ version compatFlags, opts.wire = WireFormat.new version compatFlags ∧ 28 ≤ version := by
  obtain ⟨version, compatFlags, hwire⟩ := h.wire
  have hinline := h.sends.inline
  rw [hwire] at hinline
  have h30 : 30 ≤ version := of_decide_eq_true hinline
  exact ⟨version, compatFlags, hwire, by omega⟩

theorem NamedList.flagsFit (h : NamedList opts entries) : opts.wire.FlagsFit := by
  obtain ⟨version, compatFlags, hwire, hversion⟩ := h.version
  rw [hwire]
  exact WireFormat.flagsFit_new hversion

theorem NamedList.resolvable (h : NamedList opts entries) :
    Resolvable opts [] ⟨.default, []⟩ 0 [] .default entries := by
  obtain ⟨version, compatFlags, hwire, hversion⟩ := h.version
  refine resolvable_alone entries [] _ fun hb => absurd hb ?_
  rw [hwire]
  exact WireFormat.flagsCodec_new hversion

theorem NamedList.take (h : NamedList opts entries) (n : Nat) : NamedList opts (entries.take n) where
  wire := h.wire
  sends := h.sends
  valid := fun e he => h.valid e (List.mem_of_mem_take he)
  agree := fun a ha b hb => h.agree a (List.mem_of_mem_take ha) b (List.mem_of_mem_take hb)
  fixed := fun a ha b hb => h.fixed a (List.mem_of_mem_take ha) b (List.mem_of_mem_take hb)

theorem NamesTrace.start (opts : FileListOptions) :
    NamesTrace opts [] [] EncoderState.default.delta DecoderState.default.delta where
  last := Or.inl ⟨rfl, rfl, rfl⟩
  names := fun _ _ => ⟨fun _ => .nil, fun _ _ _ _ h => absurd h (by simp)⟩

/-- What the decoder has after a list of entries, whatever follows. -/
theorem NamedList.decodes (h : NamedList opts entries) (hlen : entries.length ≤ 2 ^ 31) :
    ∃ received dec, (∀ fuel rest,
        decodeEntries opts (fuel + entries.length) [] .default
          ((encodeEntries opts 0 entries .default).1 ++ rest) =
        decodeEntries opts fuel received dec rest) ∧
      entries.length = received.length ∧
      (NoEmptyNameFollows opts entries ↔ List.Forall₂ SameNames entries received) := by
  obtain ⟨ds, dec, hrun, hlock, htrace⟩ := decodeEntries_lockstep h.flagsFit (NamesTrace opts)
    (NamesTrace.next h.sends) (Int.le_refl 0) entries [] [] .default .default (Lockstep.batch opts)
    (NamesTrace.start opts) h.valid h.agree h.resolvable
    (by rw [length_nil, Nat.zero_add, Int.zero_add]; exact_mod_cast hlen)
    (by rw [length_nil, length_nil]; omega)
  exact ⟨ds, dec, hrun, hlock.entries.length_eq, htrace.names h.fixed h.agree⟩

/-- Names that arrive follow no other name if they are empty. -/
theorem noEmptyNameFollows_of_arrive (h : NamedList opts entries)
    (harrive : NamesArrive opts entries) : NoEmptyNameFollows opts (entries.take (2 ^ 31)) := by
  obtain ⟨received, dec, hreads, hnames⟩ := harrive
  obtain ⟨ds, dec', hrun, hlen, hiff⟩ := (h.take (2 ^ 31)).decodes (length_take_le _ _)
  have hread := hreads []
  rw [append_nil] at hread
  unfold recvEntries at hread
  -- the entries behind do not change what has been decoded
  have hsplit : (encodeEntries opts 0 (entries.take (2 ^ 31) ++ entries.drop (2 ^ 31)) .default).1 =
      _ := encodeEntries_append _ _ 0 .default
  rw [take_append_drop] at hsplit
  have hle := length_le_encodeEntries opts (entries.take (2 ^ 31)) 0 .default
  rw [hsplit, append_assoc, length_append,
    ← Nat.sub_add_cancel (hle.trans (Nat.le_add_right _ _) : _ ≤ _ + _), Nat.add_right_comm,
    hrun] at hread
  have hinitial := prefix_of_decodeEntries _ _ _ _ _ _ _ hread
  have htake : List.Forall₂ SameNames (entries.take ds.length) (received.take ds.length) :=
    forall₂_take ds.length hnames
  rw [← prefix_iff_eq_take.mp hinitial, ← hlen, length_take, ← take_eq_take_min]
    at htake
  exact hiff.mpr htake

/-- **The names of owners and groups.** The names of a list whose entries can be counted arrive
exactly if no empty name follows another one. -/
theorem owner_names_arrive_iff (h : NamedList opts entries) :
    (NamesArrive opts entries → NoEmptyNameFollows opts (entries.take (2 ^ 31))) ∧
    (NoEmptyNameFollows opts entries → entries.length ≤ 2 ^ 31 → NamesArrive opts entries) := by
  refine ⟨noEmptyNameFollows_of_arrive h, fun hkeep hlen => ?_⟩
  obtain ⟨ds, dec, hreads, -, htrace⟩ := reads_recvEntries h.flagsFit (NamesTrace opts)
    (NamesTrace.next h.sends) (Int.le_refl 0) (Lockstep.batch opts) (NamesTrace.start opts) h.valid
    h.agree h.resolvable (by rw [Int.zero_add]; exact_mod_cast hlen)
    (by rw [length_nil]; omega)
  exact ⟨ds, dec, hreads, (htrace.names h.fixed h.agree).mp hkeep⟩

end List

/-! ## An empty name behind another one -/

def ownerOptions : TransferOptions :=
  { TransferOptions.default with preserveOwner := true, preserveGroup := true }

def ownedFile (name : List UInt8) (uid : Nat) (userName : List UInt8) : FileEntry :=
  { emptyFile name with uid := uid, userName := userName }

theorem valid_ownedFile {opts : FileListOptions} {name userName : List UInt8} {uid : Nat}
    (hname : name.length ≤ maxNameLen) (huid : uid < 2 ^ 32) (huser : userName.length ≤ 255) :
    Valid opts (ownedFile name uid userName) := by
  have hplain : Valid opts (emptyFile name) := valid_plainEntry sIfreg name none hname
  refine ⟨⟨hname, hplain.sendable.len, hplain.sendable.compactLen, hplain.sendable.mtime,
    hplain.sendable.mtimeNsec, huid, hplain.sendable.gid, fun _ => huser,
    hplain.sendable.groupName, hplain.sendable.rdev, hplain.sendable.linkTarget⟩, ?_, hplain.rdev⟩
  exact ⟨hplain.attrs.access, hplain.attrs.dflt, hplain.attrs.xattrs⟩

/-- A list of two files of different owners. -/
theorem namedList_pair {userName userName' : List UInt8} (h : userName.length ≤ 255)
    (h' : userName'.length ≤ 255) :
    NamedList (FileListOptions.fromProtocol (plainProtocol 31 0) ownerOptions)
      [ownedFile [97] 1 userName, ownedFile [98] 2 userName'] where
  wire := ⟨31, 0, rfl⟩
  sends := ⟨rfl, rfl, rfl⟩
  valid := by
    intro e he
    rcases mem_cons.mp he with rfl | he
    · exact valid_ownedFile (by decide) (by decide) h
    · rw [mem_singleton.mp he]
      exact valid_ownedFile (by decide) (by decide) h'
  agree := by
    refine linksAgree_of_none fun e he => ?_
    rcases mem_cons.mp he with rfl | he
    · rfl
    · rfl
  fixed := by
    intro a ha b hb
    rcases mem_cons.mp ha with rfl | ha <;> rcases mem_cons.mp hb with rfl | hb
    · exact ⟨fun _ => rfl, fun _ => rfl⟩
    · rw [mem_singleton.mp hb]
      exact ⟨fun huid => absurd huid (show ¬ (1 : Nat) = 2 by decide), fun _ => rfl⟩
    · rw [mem_singleton.mp ha]
      exact ⟨fun huid => absurd huid (show ¬ (2 : Nat) = 1 by decide), fun _ => rfl⟩
    · simp [mem_singleton.mp ha, mem_singleton.mp hb]

/-- Two owners with names. -/
theorem owner_names_arrive_pair :
    NamesArrive (FileListOptions.fromProtocol (plainProtocol 31 0) ownerOptions)
      [ownedFile [97] 1 [120], ownedFile [98] 2 [121]] := by
  refine (owner_names_arrive_iff (namedList_pair (by decide) (by decide))).2 ?_ (by decide)
  intro i a b ha hb _
  match i, ha, hb with
  | 0, ha, hb =>
    obtain rfl := Option.some.inj ha
    obtain rfl := Option.some.inj hb
    exact ⟨by decide, fun _ => rfl⟩
  | _ + 1, _, hb => exact absurd hb (by simp)

/-- An owner without a name gets the name of the owner before. -/
theorem empty_owner_name_lost :
    NamedList (FileListOptions.fromProtocol (plainProtocol 31 0) ownerOptions)
      [ownedFile [97] 1 [120], ownedFile [98] 2 []] ∧
    ¬ NamesArrive (FileListOptions.fromProtocol (plainProtocol 31 0) ownerOptions)
      [ownedFile [97] 1 [120], ownedFile [98] 2 []] := by
  have hlist : NamedList (FileListOptions.fromProtocol (plainProtocol 31 0) ownerOptions)
      [ownedFile [97] 1 [120], ownedFile [98] 2 []] := namedList_pair (by decide) (by decide)
  refine ⟨hlist, fun harrive => ?_⟩
  have hkeep := noEmptyNameFollows_of_arrive hlist harrive
  have hempty := (hkeep 0 _ _ rfl rfl rfl).1 rfl
  exact absurd hempty (by decide)

end Ferrosync
