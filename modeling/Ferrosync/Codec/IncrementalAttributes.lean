import Ferrosync.Codec.IncrementalLinks

set_option autoImplicit false

/-! # Attributes in an incremental file list

* `incremental_attributes`: access control lists and extended attributes arrive if and only if no
  entry of another list than the first shares one with another entry, and the entries are of kinds
  that carry them.
-/

namespace Ferrosync

open ByteStream

/-- An access control list and a set of attributes are not empty if they are there. -/
structure AttrsNonempty (e : FileEntry) : Prop where
  acl : ∀ acl, e.acl = some acl → acl.access ≠ .default ∨ acl.default ≠ none
  dflt : ∀ acl, e.acl = some acl → acl.default ≠ some .default
  xattrs : ∀ xa, e.xattrs = some xa → xa.entries ≠ []

/-- A symbolic link has no access control list, and only a directory has a default one. -/
structure AclCarried (e : FileEntry) : Prop where
  symlink : e.isSymlink = true → e.acl = none
  dflt : e.isDir = false → ∀ acl, e.acl = some acl → acl.default = none

/-- The list is received, and every entry has the attributes it had. -/
def AttrsArrive (p : NegotiatedProtocol) (o : TransferOptions) (entries : List FileEntry)
    (counts : List Nat) : Prop :=
  ∃ received rest, recvFileList p o (incrementalBytes p o entries counts) = .ok (received, rest) ∧
    ∃ ds, ds.Perm received.entries ∧
      List.Forall₂ (fun e d => d.name = e.name ∧ (o.preserveAcls = true → d.acl = e.acl) ∧
        (o.preserveXattrs = true → d.xattrs = e.xattrs)) entries ds

section Received

variable {opts : FileListOptions} {e : FileEntry}

/-- What is received of an access control list that is carried. -/
theorem receivedAcl_eq (hne : AttrsNonempty e) (hpreserve : opts.preserveAcls = true)
    (hcarried : AclCarried e) : receivedAcl opts e = e.acl := by
  unfold receivedAcl sentAcl
  rw [hpreserve, Bool.true_and]
  cases hacl : e.acl with
  | none =>
    have hdefault : defaultOf none = .default := rfl
    have hnone : aclFrom (accessOf none) none = none := rfl
    simp [hdefault, ite_self, hnone]
  | some acl =>
    have hsym : e.isSymlink = false := by
      rw [← Bool.not_eq_true]
      intro hsym
      exact absurd ((hcarried.symlink hsym).symm.trans hacl) nofun
    -- a default ACL of a directory comes back unless it is the empty one, which means none
    have hdflt : (if e.isDir = true then
        (if defaultOf (some acl) = .default then none else some (defaultOf (some acl))) else none) =
        acl.default := by
      cases hdir : e.isDir with
      | false =>
        rw [hcarried.dflt hdir acl hacl]
        rfl
      | true =>
        have hnot := hne.dflt acl hacl
        cases hd : acl.default with
        | none => simp [defaultOf, hd]
        | some d =>
          rw [hd] at hnot
          have hd' : d ≠ .default := fun h => hnot (congrArg some h)
          simp [defaultOf, hd, hd']
    rw [hsym, Bool.not_false, if_pos rfl, hdflt]
    unfold aclFrom
    rw [if_neg fun hempty => (hne.acl acl hacl).elim (fun h => h hempty.1) fun h => h hempty.2]
    rfl

theorem receivedXattrs_eq (hne : AttrsNonempty e) (hpreserve : opts.preserveXattrs = true) :
    receivedXattrs opts e = e.xattrs := by
  unfold receivedXattrs xattrsFrom
  rw [if_pos hpreserve]
  cases hx : e.xattrs with
  | none => rfl
  | some xa => exact if_neg (hne.xattrs xa hx)

/-- A list that has the shape of what is read is carried. -/
theorem aclCarried_of_shaped (h : AclShaped opts e e.acl) : AclCarried e := by
  refine ⟨fun hsym => h.skipped ?_, h.dflt⟩
  rw [hsym, Bool.not_true, Bool.and_false]

theorem aclShaped_received : AclShaped opts e (receivedAcl opts e) := by
  unfold receivedAcl sentAcl
  constructor
  · intro hskip
    rw [hskip]
    rfl
  · intro hdir acl hacl
    rw [hdir, if_neg Bool.false_ne_true] at hacl
    split_ifs at hacl with hsends
    exact (aclShaped_file hsends).dflt hdir acl hacl

end Received

section Exchange

variable {p : NegotiatedProtocol} {o : TransferOptions} {entries : List FileEntry}
variable {counts : List Nat}

/-- If the attributes arrive and no links are between the lists then every reference was resolved. -/
theorem TreeList.resolvable_of_attrsArrive (h : TreeList p o entries)
    (hne : ∀ e ∈ entries, AttrsNonempty e)
    (hlinks : LinksWithin (FileListOptions.fromProtocol p o) entries)
    (hall : AllListsSent p o entries counts) (harrive : AttrsArrive p o entries counts) :
    ResolvableTree (FileListOptions.fromProtocol p o) entries
      (DirectoryTree.fromSortedEntries entries) := by
  have hlisted := listedTree h.listed
  obtain ⟨received, rest, hrecv, ds, hperm, harrives⟩ := harrive
  -- the first reference that is not resolved spoils an entry, which by its name is the one in
  -- question
  by_contra hfail
  rw [← List.append_nil (incrementalBytes p o entries counts)] at hrecv
  obtain ⟨gs₁, g, gs₂, htree, d, hd, e, he, hname, hspoilt⟩ := h.spoilt hall hfail hrecv
  have hmem := mem_of_mem_groupEntries he
  obtain ⟨i, hget⟩ := List.getElem?_of_mem hmem
  have hget' := h.eq_of_name (List.Perm.refl entries) hperm harrives (fun _ _ hed => hed.1) hget hd
    hname
  obtain ⟨hi, hei⟩ := List.getElem?_eq_some_iff.mp hget
  obtain ⟨hi', hdi⟩ := List.getElem?_eq_some_iff.mp hget'
  have hed := (List.forall₂_iff_get.mp harrives).2 i hi hi'
  rw [List.get_eq_getElem, List.get_eq_getElem, hei, hdi] at hed
  -- a lost link would be one between lists; lost attributes are not those that arrived
  rcases hspoilt with ⟨-, k, hkey, a, ha, hak⟩ | ⟨hshape, hnone, hattrs⟩
  · obtain ⟨g', -, ha'⟩ := List.mem_flatMap.mp ha
    exact dirname_ne hlisted htree ha he (hlinks a (mem_of_mem_groupEntries ha') e hmem
      (by rw [hak]; exact nofun) (hak.trans hkey.symm))
  · refine hattrs ⟨?_, ?_⟩
    · cases hpreserve : o.preserveAcls with
      | false =>
        have hskip : ((FileListOptions.fromProtocol p o).preserveAcls && !e.isSymlink) = false := by
          rw [show (FileListOptions.fromProtocol p o).preserveAcls = false from hpreserve]
          rfl
        rw [hshape.skipped hskip, aclShaped_received.skipped hskip]
      | true =>
        have hsame := hed.2.1 hpreserve
        rw [hsame] at hshape ⊢
        exact (receivedAcl_eq (hne e hmem) hpreserve (aclCarried_of_shaped hshape)).symm
    · cases hpreserve : o.preserveXattrs with
      | false =>
        rw [hnone hpreserve]
        unfold receivedXattrs
        rw [show (FileListOptions.fromProtocol p o).preserveXattrs = false from hpreserve]
        rfl
      | true => rw [hed.2.2 hpreserve, receivedXattrs_eq (hne e hmem) hpreserve]

/-- What is received of a list whose references can be resolved. -/
theorem TreeList.received (h : TreeList p o entries) (hall : AllListsSent p o entries counts)
    (hlinks : LinksWithin (FileListOptions.fromProtocol p o) entries)
    (hattrs : AttrsOnce (FileListOptions.fromProtocol p o) entries) :
    ∃ received, recvFileList p o (incrementalBytes p o entries counts) = .ok (received, []) ∧
      ∃ ds, ds.Perm received.entries ∧
        List.Forall₂ (Transmitted (FileListOptions.fromProtocol p o)) entries ds := by
  obtain ⟨received, hreads, ds, hperm, harrives⟩ := h.linksArrive hall hlinks hattrs
  have hrecv := hreads []
  rw [List.append_nil] at hrecv
  obtain ⟨ds', hforall, hperm'⟩ := List.perm_comp_forall₂
    (sentEntries_perm (listedTree h.listed)).symm harrives.fields
  exact ⟨received, hrecv, ds', hperm'.trans hperm, hforall⟩

theorem forall₂_getElem {α β : Type} {R : α → β → Prop} {as : List α} {bs : List β}
    (h : List.Forall₂ R as bs) {a : α} (ha : a ∈ as) :
    ∃ (i : Nat) (b : β), as[i]? = some a ∧ bs[i]? = some b ∧ b ∈ bs ∧ R a b := by
  induction h with
  | nil => exact absurd ha List.not_mem_nil
  | @cons x y as bs hxy _ ih =>
    rcases List.mem_cons.mp ha with rfl | ha
    · exact ⟨0, y, rfl, rfl, List.mem_cons_self, hxy⟩
    · obtain ⟨i, b, hi, hi', hb, hR⟩ := ih ha
      exact ⟨i + 1, b, hi, hi', List.mem_cons_of_mem y hb, hR⟩

/-- **Attributes in an incremental file list.** If no hard links are between directories then the
attributes arrive if and only if no entry of a directory shares one with another entry, and only
directories have default lists and no symbolic link has an access control list. -/
theorem incremental_attributes (h : TreeList p o entries) (hne : ∀ e ∈ entries, AttrsNonempty e)
    (hlinks : LinksWithin (FileListOptions.fromProtocol p o) entries) (counts : List Nat)
    (hall : AllListsSent p o entries counts) :
    AttrsArrive p o entries counts ↔
      AttrsOnce (FileListOptions.fromProtocol p o) entries ∧
        (o.preserveAcls = true → ∀ e ∈ entries, AclCarried e) := by
  constructor
  · intro harrive
    have hres := h.resolvable_of_attrsArrive hne hlinks hall harrive
    have hattrs := attrsOnce_of_resolvable (listedTree h.listed) h.distinct h.agree hres
    refine ⟨hattrs, fun hpreserve e he => ?_⟩
    obtain ⟨received, rest, hrecv, ds, hperm, harrives⟩ := harrive
    obtain ⟨received', hrecv', ds', hperm', htransmitted⟩ := h.received hall hlinks hattrs
    obtain ⟨hreceived, -⟩ := Prod.mk.inj (Except.ok.inj (hrecv.symm.trans hrecv'))
    subst hreceived
    -- what arrived for the entry is the same in both
    obtain ⟨i, d, hi, -, hd, hed⟩ := forall₂_getElem harrives he
    have hget := h.eq_of_name (List.Perm.refl entries) hperm' htransmitted (fun _ _ ht => ht.name) hi
      (hperm.mem_iff.mp hd) hed.1
    obtain ⟨hi₁, hei⟩ := List.getElem?_eq_some_iff.mp hi
    obtain ⟨hi₂, hdi⟩ := List.getElem?_eq_some_iff.mp hget
    have ht := (List.forall₂_iff_get.mp htransmitted).2 i hi₁ hi₂
    rw [List.get_eq_getElem, List.get_eq_getElem, hei, hdi] at ht
    have hsame := ht.acl.symm.trans (hed.2.1 hpreserve)
    have hshape : AclShaped (FileListOptions.fromProtocol p o) e _ := aclShaped_received
    rw [hsame] at hshape
    exact aclCarried_of_shaped hshape
  · rintro ⟨hattrs, hcarried⟩
    obtain ⟨received, hrecv, ds, hperm, htransmitted⟩ := h.received hall hlinks hattrs
    refine ⟨received, [], hrecv, ds, hperm, List.forall₂_iff_get.mpr
      ⟨htransmitted.length_eq, fun i hi hi' => ?_⟩⟩
    have ht := (List.forall₂_iff_get.mp htransmitted).2 i hi hi'
    have hmem : entries.get ⟨i, hi⟩ ∈ entries := List.get_mem entries _
    refine ⟨ht.name, fun hpreserve => ?_, fun hpreserve => ?_⟩
    · exact ht.acl.trans (receivedAcl_eq (hne _ hmem) hpreserve (hcarried hpreserve _ hmem))
    · exact ht.xattrs.trans (receivedXattrs_eq (hne _ hmem) hpreserve)

def recursiveXattrs : TransferOptions := { recursiveOptions with preserveXattrs := true }

def taggedInD : FileEntry := { fileInD with xattrs := some ⟨[⟨[117], [49]⟩]⟩ }

/-- A file with an attribute in a directory without any. -/
theorem incremental_attributes_pair :
    AttrsArrive (plainProtocol 31 1) recursiveXattrs [directoryD, taggedInD] [1] := by
  have hmem : ∀ e ∈ [directoryD, taggedInD], e = directoryD ∨ e = taggedInD := by
    intro e he
    rcases List.mem_cons.mp he with rfl | he
    · exact Or.inl rfl
    · exact Or.inr (List.mem_singleton.mp he)
  refine (incremental_attributes ?_ ?_ ?_ [1] ?_).mpr ⟨?_, ?_⟩
  · refine treeList_of_decide rfl (by decide) (by decide) (by decide) (by decide) ?_ (by decide)
      (by decide)
    intro e he
    rcases hmem e he with rfl | rfl
    · exact valid_plainEntry sIfdir [100] none (by decide)
    · have hplain : Valid (FileListOptions.fromProtocol (plainProtocol 31 1) recursiveXattrs)
          fileInD := valid_plainEntry sIfreg [100, 47, 120] none (by decide)
      refine ⟨⟨hplain.sendable.name, hplain.sendable.len, hplain.sendable.compactLen,
        hplain.sendable.mtime, hplain.sendable.mtimeNsec, hplain.sendable.uid, hplain.sendable.gid,
        hplain.sendable.userName, hplain.sendable.groupName, hplain.sendable.rdev,
        hplain.sendable.linkTarget⟩, ⟨hplain.attrs.access, hplain.attrs.dflt, fun _ => ?_⟩,
        hplain.rdev⟩
      exact ⟨by decide, by decide⟩
  · intro e he
    rcases hmem e he with rfl | rfl
    · exact ⟨nofun, nofun, nofun⟩
    · refine ⟨nofun, nofun, fun xa hxa => ?_⟩
      cases hxa
      exact nofun
  · unfold LinksWithin
    decide
  · rfl
  · rintro a ha b hb hname - (⟨hacls, -⟩ | ⟨hacls, -⟩ | ⟨-, hxattrs⟩)
    · exact absurd hacls Bool.false_ne_true
    · exact absurd hacls Bool.false_ne_true
    · rcases hmem a ha with rfl | rfl <;> rcases hmem b hb with rfl | rfl
      · exact absurd rfl hname
      · exact absurd hxattrs (by decide)
      · exact absurd hxattrs (by decide)
      · exact absurd rfl hname
  · exact fun hacls => absurd hacls Bool.false_ne_true

def recursiveAcls : TransferOptions := { recursiveOptions with preserveAcls := true }

/-- A file in a directory, both without an access control list, is not received. -/
theorem repeated_attributes_lost :
    ¬ AttrsArrive (plainProtocol 31 1) recursiveAcls [directoryD, fileInD] [1] := by
  have htree : TreeList (plainProtocol 31 1) recursiveAcls [directoryD, fileInD] := by
    refine treeList_of_decide rfl (by decide) (by decide) (by decide) (by decide) ?_ (by decide)
      (by decide)
    intro e he
    rcases List.mem_cons.mp he with rfl | he
    · exact valid_plainEntry sIfdir [100] none (by decide)
    · rw [List.mem_singleton.mp he]
      exact valid_plainEntry sIfreg [100, 47, 120] none (by decide)
  intro harrive
  have hres := htree.resolvable_of_attrsArrive (fun e he => ?_) (by unfold LinksWithin; decide)
    (allListsSent_of_counts (by decide) (List.cons_ne_nil _ _) (by decide)) harrive
  -- both entries send the same (empty) access ACL, the second one from another list
  · have honce := attrsOnce_of_resolvable (listedTree htree.listed) htree.distinct htree.agree hres
    have hroot := honce directoryD (by decide) fileInD (by decide) (by decide) (Or.inl rfl)
      (Or.inl ⟨rfl, by decide, by decide, rfl⟩)
    exact absurd hroot.2 (by decide)
  · rcases List.mem_cons.mp he with rfl | he
    · exact ⟨nofun, nofun, nofun⟩
    · rw [List.mem_singleton.mp he]
      exact ⟨nofun, nofun, nofun⟩

end Exchange

end Ferrosync
