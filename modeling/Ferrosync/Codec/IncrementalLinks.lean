import Ferrosync.Codec.IncrementalTree

set_option autoImplicit false

/-! # Hard links in an incremental file list

A reference is resolved if it points into its own list, or to an attribute in the first list. For a
tree this means that no hard link group spans two directories (`LinksWithin`) and that no attribute
is sent a second time outside the first list (`AttrsOnce`); see `resolvableTree_of`,
`linksWithin_of_resolvable` and `attrsOnce_of_resolvable`.

* `incremental_links`: under these conditions, and only then, a list arrives with its links.
-/

namespace Ferrosync

open ByteStream List

variable {e a : FileEntry} {α : Type} {g : DirGroup} {gs₂ : List DirGroup}

/-! ## Where an entry is -/

/-- Two members of a list, in the order in which they stand in it. -/
theorem before_or_after {l : List α} {i j : α} (hi : i ∈ l) (hj : j ∈ l) (hne : i ≠ j) :
    (∃ l₁ l₂, l = l₁ ++ j :: l₂ ∧ i ∈ l₁) ∨ ∃ l₁ l₂, l = l₁ ++ i :: l₂ ∧ j ∈ l₁ := by
  obtain ⟨l₁, l₂, rfl⟩ := append_of_mem hj
  rcases mem_append.mp hi with hi | hi
  · exact Or.inl ⟨l₁, l₂, rfl, hi⟩
  · obtain ⟨m₁, m₂, rfl⟩ := append_of_mem ((mem_cons.mp hi).resolve_left hne)
    refine Or.inr ⟨l₁ ++ j :: m₁, m₂, by simp, ?_⟩
    simp

/-- The part of a concatenation that a member is in. -/
theorem split_flatMap {β : Type} {f : α → List β} {parts : List α} {l₁ l₂ : List β} {x : β}
    (h : parts.flatMap f = l₁ ++ x :: l₂) :
    ∃ ps₁ p ps₂ m₁ m₂, parts = ps₁ ++ p :: ps₂ ∧ f p = m₁ ++ x :: m₂ ∧
      l₁ = ps₁.flatMap f ++ m₁ := by
  induction parts generalizing l₁ with
  | nil => exact absurd h.symm (by simp)
  | cons p parts ih =>
    rw [flatMap_cons, append_eq_append_iff] at h
    rcases h with ⟨m, rfl, hrest⟩ | ⟨m, hp, hrest⟩
    · obtain ⟨ps₁, p', ps₂, m₁, m₂, rfl, hp', rfl⟩ := ih hrest
      exact ⟨p :: ps₁, p', ps₂, m₁, m₂, rfl, hp', by rw [flatMap_cons, append_assoc]⟩
    · cases m with
      | nil =>
        obtain ⟨ps₁, p', ps₂, m₁, m₂, rfl, hp', hl⟩ := @ih [] hrest.symm
        refine ⟨p :: ps₁, p', ps₂, m₁, m₂, rfl, hp', ?_⟩
        simp [← hl, hp]
      | cons y m =>
        obtain ⟨rfl, rfl⟩ := cons.inj hrest
        exact ⟨[], p, parts, l₁, m, rfl, hp, rfl⟩

/-- All entries in the order in which they are sent. -/
def sentEntries (entries : List FileEntry) : List FileEntry :=
  (DirectoryTree.fromSortedEntries entries).flatMap (groupEntries entries)

theorem sentEntries_perm {entries : List FileEntry}
    (h : ListedTree entries (DirectoryTree.fromSortedEntries entries)) :
    (sentEntries entries).Perm entries := by
  have hflat : sentEntries entries =
      (sentIndices (DirectoryTree.fromSortedEntries entries)).filterMap (entries[·]?) := by
    unfold sentEntries sentIndices groupEntries
    rw [filterMap_flatMap]
  have hrange : (range entries.length).filterMap (entries[·]?) = entries := by
    have hall : groupEntries entries ⟨0, positions (fun _ => true) entries⟩ = entries :=
      (groupEntries_positions rfl).trans (filter_true entries)
    refine Eq.trans ?_ hall
    unfold groupEntries positions
    rw [filterMap_filter]
    refine filterMap_congr fun i hi => ?_
    simp
  rw [hflat]
  exact (h.perm.filterMap _).trans (List.Perm.of_eq hrange)

/-! ## What the encoder remembers -/

/-- The tables hold the attributes of the entries sent so far. -/
structure TablesOf (opts : FileListOptions) (sent : List FileEntry) (enc : EncoderState) : Prop where
  access : opts.preserveAcls = true → ∀ x, x ∈ enc.acls.accessList ↔
    ∃ a ∈ sent, a.isSymlink = false ∧ accessOf a.acl = x
  dflt : opts.preserveAcls = true → ∀ x, x ∈ enc.acls.defaultList ↔
    ∃ a ∈ sent, a.isDir = true ∧ defaultOf a.acl = x
  xattrs : opts.preserveXattrs = true → ∀ x, x ∈ enc.xattrs ↔
    ∃ a ∈ sent, xattrsOf a.xattrs = x

/-- The encoder's tables after the entries of the history. -/
structure Remembers (opts : FileListOptions) (history : List (Int × FileEntry))
    (enc : EncoderState) : Prop where
  links : LinksOf opts history enc.links
  tables : TablesOf opts (history.map Prod.snd) enc

section Tables

variable {opts : FileListOptions} {sent : List FileEntry} {enc : EncoderState} {e : FileEntry}

theorem exists_mem_append_singleton {P : α → Prop} {l : List α} {x : α} :
    (∃ a ∈ l ++ [x], P a) ↔ (∃ a ∈ l, P a) ∨ P x := by
  constructor
  · rintro ⟨a, ha, hP⟩
    rcases mem_append.mp ha with ha | ha
    · exact Or.inl ⟨a, ha, hP⟩
    · exact Or.inr (mem_singleton.mp ha ▸ hP)
  · rintro (⟨a, ha, hP⟩ | hP)
    · exact ⟨a, mem_append_left _ ha, hP⟩
    · exact ⟨x, mem_append_right _ (mem_singleton_self x), hP⟩

variable {enc' : EncoderState}

/-- An entry that is sent in full adds its attributes. -/
theorem TablesOf.full (h : TablesOf opts sent enc)
    (hacls : enc'.acls = (encodeAclField e opts enc.acls).2)
    (hxattrs : enc'.xattrs = (encodeXattrField e opts enc.xattrs).2) :
    TablesOf opts (sent ++ [e]) enc' := by
  -- Access ACLs of all but symlinks, default ACLs of directories, and xattrs.
  constructor
  · intro hpreserve x
    rw [exists_mem_append_singleton, ← h.access hpreserve, hacls]
    unfold encodeAclField
    cases hsym : e.isSymlink with
    | true => simp [hpreserve]
    | false =>
      have haccess : (encodeAcl e.acl e.mode enc.acls).2.accessList =
          (encodeShared encodeAclEntries (accessOf e.acl) enc.acls.accessList).2 := by
        unfold encodeAcl
        dsimp only
        split <;> rfl
      simp [hpreserve, true_and, haccess, mem_encodeShared, eq_comm]
  · intro hpreserve x
    rw [exists_mem_append_singleton, ← h.dflt hpreserve, hacls]
    unfold encodeAclField encodeAcl
    cases hdir : e.isDir with
    | true =>
      have hmode : e.mode &&& sIfmt = sIfdir := by simpa [FileEntry.isDir] using hdir
      simp only [hpreserve, FileEntry.isSymlink_of_isDir hdir, Bool.not_false, Bool.and_true, if_true,
        true_and]
      rw [if_pos hmode]
      exact mem_encodeShared.trans (or_congr_right eq_comm)
    | false =>
      have hmode : e.mode &&& sIfmt ≠ sIfdir := by simpa [FileEntry.isDir] using hdir
      rw [if_neg hmode]
      split <;> simp
  · intro hpreserve x
    rw [exists_mem_append_singleton, ← h.xattrs hpreserve, hxattrs]
    unfold encodeXattrField
    rw [if_pos hpreserve]
    exact mem_encodeShared.trans (or_congr_right eq_comm)

/-- An entry that is sent as a link has the attributes of another one. -/
theorem TablesOf.linked (h : TablesOf opts sent enc) (ha : a ∈ sent) (hsame : SameMetadata a e)
    (hacls : enc'.acls = enc.acls) (hxattrs : enc'.xattrs = enc.xattrs) :
    TablesOf opts (sent ++ [e]) enc' := by
  obtain ⟨name, flags, source, rfl⟩ := hsame
  constructor
  · intro hpreserve x
    rw [exists_mem_append_singleton, ← h.access hpreserve, hacls]
    exact ⟨Or.inl, fun hx => hx.elim id fun hx => (h.access hpreserve x).mpr ⟨a, ha, hx⟩⟩
  · intro hpreserve x
    rw [exists_mem_append_singleton, ← h.dflt hpreserve, hacls]
    exact ⟨Or.inl, fun hx => hx.elim id fun hx => (h.dflt hpreserve x).mpr ⟨a, ha, hx⟩⟩
  · intro hpreserve x
    rw [exists_mem_append_singleton, ← h.xattrs hpreserve, hxattrs]
    exact ⟨Or.inl, fun hx => hx.elim id fun hx => (h.xattrs hpreserve x).mpr ⟨a, ha, hx⟩⟩

end Tables

section Run

variable {opts : FileListOptions} {entries : List FileEntry} {before : List (Int × FileEntry)}
variable {enc : EncoderState}

theorem Remembers.default (opts : FileListOptions) : Remembers opts [] .default :=
  ⟨LinksOf.nil, by constructor <;> exact fun _ x => by simp [EncoderState.default, AclTables.default]⟩

theorem Remembers.next (h : Remembers opts before enc)
    (hagree : ∀ a ∈ before.map Prod.snd, linkKey opts a ≠ none → linkKey opts a = linkKey opts e →
      SameMetadata a e) (i : Int) :
    Remembers opts (before ++ [(i, e)]) (encodeEntry e enc opts i).2 := by
  have hlinks : (encodeEntry e enc opts i).2.links =
      (resolveHlinkAction opts e.linkInfo enc.links i).2 := by
    unfold encodeEntry
    dsimp only
    split <;> rfl
  refine ⟨hlinks ▸ h.links.next i, ?_⟩
  rw [map_append]
  cases hresolve : resolveHlinkAction opts e.linkInfo enc.links i with
  | mk action links =>
    by_cases hdup : ∃ first, action = .duplicateOf first
    · obtain ⟨first, rfl⟩ := hdup
      -- the table of links has the key from an entry of the history
      obtain ⟨k, hkey, hlookup⟩ : ∃ k, linkKey opts e = some k ∧ enc.links.lookup k = some first := by
        cases hkey : linkKey opts e with
        | none =>
          rw [resolveHlinkAction_none hkey] at hresolve
          exact absurd hresolve nofun
        | some k =>
          cases hlookup : enc.links.lookup k with
          | none =>
            rw [resolveHlinkAction_first hkey hlookup] at hresolve
            exact absurd hresolve nofun
          | some first' =>
            rw [resolveHlinkAction_duplicate hkey hlookup] at hresolve
            cases hresolve
            exact ⟨k, rfl, hlookup⟩
      obtain ⟨⟨j, a⟩, hfind, -⟩ := Option.map_eq_some_iff.mp ((h.links k).symm.trans hlookup)
      have ha : a ∈ before.map Prod.snd := mem_map_of_mem (mem_of_find?_eq_some hfind)
      have hkey' : linkKey opts a = some k := by simpa using find?_some hfind
      refine h.tables.linked ha (hagree a ha (by rw [hkey']; exact nofun) (hkey'.trans hkey.symm))
        ?_ ?_
      all_goals rw [encodeEntry_duplicate hresolve]
    · have hfull := encodeEntry_full hresolve fun first heq => hdup ⟨first, heq⟩
      exact h.tables.full (by rw [hfull]) (by rw [hfull])

theorem Remembers.encodeEntries (hagree : LinksAgree opts entries) (es : List FileEntry) :
    ∀ {before : List (Int × FileEntry)} {enc : EncoderState} {start : Int},
      Remembers opts before enc → (∀ a ∈ before.map Prod.snd, a ∈ entries) →
      (∀ e ∈ es, e ∈ entries) →
      Remembers opts (before ++ indexed start es) (Ferrosync.encodeEntries opts start es enc).2 := by
  induction es with
  | nil =>
    intro before enc start h _ _
    rw [indexed, append_nil]
    exact h
  | cons e es ih =>
    intro before enc start h hhistory hes
    have he := hes e mem_cons_self
    -- the step is `Remembers.next`; the entry joins the history with its number
    have hnext := h.next (fun a ha hne heq => hagree a (hhistory a ha) e he hne heq) (toI32 start)
    have hmem : ∀ a ∈ (before ++ [(toI32 start, e)]).map Prod.snd, a ∈ entries := by
      intro a ha
      rw [map_append] at ha
      rcases mem_append.mp ha with ha | ha
      · exact hhistory a ha
      · exact mem_singleton.mp ha ▸ he
    have hrest : Remembers opts (before ++ [(toI32 start, e)] ++ indexed (start + 1) es)
        (Ferrosync.encodeEntries opts (start + 1) es (encodeEntry e enc opts (toI32 start)).2).2 :=
      ih hnext hmem fun b hb => hes b (mem_cons_of_mem e hb)
    rw [append_assoc] at hrest
    exact hrest

theorem mem_of_mem_groupEntries (h : e ∈ groupEntries entries g) :
    e ∈ entries := by
  obtain ⟨i, -, hi⟩ := mem_filterMap.mp h
  exact mem_of_getElem? hi

theorem Remembers.sendLists (hagree : LinksAgree opts entries) (groups : List DirGroup) :
    ∀ {before : List (Int × FileEntry)} {s : SubFlistSender},
      Remembers opts before s.enc → (∀ a ∈ before.map Prod.snd, a ∈ entries) →
      Remembers opts (history entries opts before s groups)
        (Ferrosync.sendLists entries opts groups s).2.enc := by
  induction groups with
  | nil => exact fun h _ => h
  | cons g groups ih =>
    intro before s h hbefore
    have hstart : Remembers opts before (s.enc.startAt s.nextNdx) :=
      ⟨h.links, h.tables.access, h.tables.dflt, h.tables.xattrs⟩
    refine ih (hstart.encodeEntries hagree _ hbefore fun e he => mem_of_mem_groupEntries he) ?_
    intro a ha
    rw [map_append, map_snd_indexed] at ha
    exact (mem_append.mp ha).elim (hbefore a) mem_of_mem_groupEntries

/-- The sender after the lists of the first groups of a tree. -/
def stateAfter (entries : List FileEntry) (opts : FileListOptions) : List DirGroup → SubFlistSender
  | [] => .default
  | root :: groups =>
    (sendLists entries opts groups
      (encodeSubFlistEntries (groupEntries entries root) opts .default).2).2

/-- What was sent with the first groups of a tree. -/
def historyAfter (entries : List FileEntry) (opts : FileListOptions) :
    List DirGroup → List (Int × FileEntry)
  | [] => []
  | root :: groups =>
    history entries opts (indexed 1 (groupEntries entries root))
      (encodeSubFlistEntries (groupEntries entries root) opts .default).2 groups

theorem map_snd_historyAfter (groups : List DirGroup) :
    (historyAfter entries opts groups).map Prod.snd = groups.flatMap (groupEntries entries) := by
  cases groups with
  | nil => rfl
  | cons root groups =>
    rw [historyAfter, map_snd_history, map_snd_indexed, flatMap_cons]

theorem remembers_after (hagree : LinksAgree opts entries) (groups : List DirGroup) :
    Remembers opts (historyAfter entries opts groups) (stateAfter entries opts groups).enc := by
  cases groups with
  | nil => exact Remembers.default opts
  | cons root groups =>
    have hnone := Remembers.default opts
    have hstart : Remembers opts [] (EncoderState.default.startAt 1) :=
      ⟨hnone.links, hnone.tables.access, hnone.tables.dflt, hnone.tables.xattrs⟩
    have hroot : Remembers opts (indexed 1 (groupEntries entries root))
        (encodeEntries opts 1 (groupEntries entries root) (EncoderState.default.startAt 1)).2 :=
      hstart.encodeEntries hagree _ (fun a ha => absurd ha not_mem_nil)
        fun e he => mem_of_mem_groupEntries he
    have hsender : Remembers opts (indexed 1 (groupEntries entries root))
        (encodeSubFlistEntries (groupEntries entries root) opts .default).2.enc := hroot
    refine hsender.sendLists hagree groups fun a ha => ?_
    rw [map_snd_indexed] at ha
    exact mem_of_mem_groupEntries ha

/-- The references of the list of a group can be resolved, if it comes after the others. -/
def ResolvableAfter (opts : FileListOptions) (entries : List FileEntry) (before : List DirGroup)
    (g : DirGroup) : Prop :=
  Resolvable opts (historyAfter entries opts before) (stateAfter entries opts before).tables
    (stateAfter entries opts before).nextNdx []
    ((stateAfter entries opts before).enc.startAt (stateAfter entries opts before).nextNdx)
    (groupEntries entries g)

theorem ResolvableGroups.at (gs₁ : List DirGroup) :
    ∀ {before : List (Int × FileEntry)} {s : SubFlistSender},
      ResolvableGroups opts entries before s (gs₁ ++ g :: gs₂) →
      Resolvable opts (history entries opts before s gs₁)
        (Ferrosync.sendLists entries opts gs₁ s).2.tables
        (Ferrosync.sendLists entries opts gs₁ s).2.nextNdx []
        ((Ferrosync.sendLists entries opts gs₁ s).2.enc.startAt
          (Ferrosync.sendLists entries opts gs₁ s).2.nextNdx) (groupEntries entries g) := by
  induction gs₁ with
  | nil => exact fun h => h.1
  | cons g' gs₁ ih => exact fun h => ih h.2

/-- A tree can be resolved if each of its lists can. -/
theorem resolvableTree_iff {tree : List DirGroup} :
    ResolvableTree opts entries tree ↔
      ∀ gs₁ g gs₂, tree = gs₁ ++ g :: gs₂ → ResolvableAfter opts entries gs₁ g := by
  constructor
  · rintro h gs₁ g gs₂ rfl
    cases gs₁ with
    | nil => exact h.1
    | cons root gs₁ => exact ResolvableGroups.at gs₁ h.2
  · intro h
    cases tree with
    | nil => trivial
    | cons root groups =>
      refine ⟨h [] root groups rfl, ?_⟩
      rcases resolvableGroups_or_first groups (indexed 1 (groupEntries entries root))
        (encodeSubFlistEntries (groupEntries entries root) opts .default).2 with
        hres | ⟨gs₁, g, gs₂, rfl, -, hfail⟩
      · exact hres
      · exact absurd (h (root :: gs₁) g gs₂ rfl) hfail

end Run

/-! ## The root and the other lists -/

section Root

variable {entries : List FileEntry} {root g : DirGroup} {groups : List DirGroup}

/-- The entries of the first list are in no directory. -/
theorem dirname_root (htree : DirectoryTree.fromSortedEntries entries = root :: groups)
    (he : e ∈ groupEntries entries root) : e.dirname = none := by
  obtain ⟨done, st, hinv, htree', -⟩ := fromSortedEntries_spec entries
  have hindices := hinv.indices
  rw [← htree', htree] at hindices
  have hroot : root.entryIndices = positions (fun e => e.dirname = none) entries :=
    (cons.inj hindices).1
  rw [groupEntries_positions hroot] at he
  exact of_decide_eq_true (mem_filter.mp he).2

/-- The entries of the other lists are in a directory. -/
theorem dirname_tail (h : ListedTree entries (DirectoryTree.fromSortedEntries entries))
    (htree : DirectoryTree.fromSortedEntries entries = root :: groups) (hg : g ∈ groups)
    (he : e ∈ groupEntries entries g) : e.dirname ≠ none := by
  rw [htree] at h
  obtain ⟨n, dir, -, -, hindices⟩ := h.parents g hg
  obtain ⟨i, hi, hget⟩ := mem_filterMap.mp he
  rw [hindices] at hi
  have hparent := parentOf_nameAt_child hi
  rw [nameAt_of_getElem? hget] at hparent
  rw [dirname_eq, hparent]
  exact nofun

/-- If there are other lists then a directory is in the first one. -/
theorem exists_root_dir (htree : DirectoryTree.fromSortedEntries entries = root :: g :: groups) :
    ∃ d ∈ groupEntries entries root, d.isDir = true := by
  have hone : (rootState entries).groups = [⟨-1, rootIndices entries⟩] :=
    groups_numberDirs entries _ _
  have hqueue : (rootState entries).queue ≠ [] := by
    -- with an empty queue no group is added to that of the root
    intro hnil
    have hstop : ∀ fuel, growGroups entries fuel (rootState entries) = rootState entries := by
      intro fuel
      cases fuel with
      | zero => rfl
      | succ fuel =>
        unfold growGroups
        rw [hnil]
    unfold DirectoryTree.fromSortedEntries at htree
    rw [hstop, hone] at htree
    split_ifs at htree
    all_goals exact absurd (cons.inj htree).2.symm (cons_ne_nil _ _)
  obtain ⟨i, hi⟩ := exists_mem_of_ne_nil _ hqueue
  have hmem : i ∈ rootIndices entries ∧ isDirAt entries i = true := by
    have hfilter := mem_filter.mp hi
    rw [Bool.and_eq_true] at hfilter
    exact ⟨hfilter.1, hfilter.2.1⟩
  obtain ⟨done, st, hinv, htree', -⟩ := fromSortedEntries_spec entries
  have hindices := hinv.indices
  rw [← htree', htree] at hindices
  have hroot : root.entryIndices = rootIndices entries := (cons.inj hindices).1
  have hget := getElem?_eq_getElem (lt_of_mem_positions hmem.1)
  refine ⟨_, mem_filterMap.mpr ⟨i, hroot ▸ hmem.1, hget⟩, ?_⟩
  have hdir := hmem.2
  unfold isDirAt at hdir
  rw [hget] at hdir
  exact hdir

/-- Entries of different lists are in different directories. -/
theorem dirname_ne (h : ListedTree entries (DirectoryTree.fromSortedEntries entries))
    {gs₁ : List DirGroup} (htree : DirectoryTree.fromSortedEntries entries = gs₁ ++ g :: gs₂)
    (ha : a ∈ gs₁.flatMap (groupEntries entries)) (he : e ∈ groupEntries entries g) :
    a.dirname ≠ e.dirname := by
  obtain ⟨g', hg', ha⟩ := mem_flatMap.mp ha
  rw [htree] at h
  obtain ⟨dir, hdir⟩ := h.dirs g (mem_append_right _ mem_cons_self)
  obtain ⟨i, hi, hgeti⟩ := mem_filterMap.mp ha
  have hnodup : (sentIndices (gs₁ ++ g :: gs₂)).Nodup := h.perm.nodup_iff.mpr nodup_range
  unfold sentIndices at hnodup
  rw [flatMap_append, nodup_append] at hnodup
  intro heq
  -- the index of `a` would be in both groups
  rw [groupEntries_positions hdir] at he
  have hmem : i ∈ g.entryIndices := by
    rw [hdir, mem_positions]
    refine ⟨a, hgeti, ?_⟩
    rw [decide_eq_true_eq, heq]
    exact of_decide_eq_true (mem_filter.mp he).2
  exact hnodup.2.2 i (mem_flatMap.mpr ⟨g', hg', hi⟩) i
    (mem_flatMap.mpr ⟨g, mem_cons_self, hmem⟩) rfl

end Root

/-! ## When the references can be resolved -/

/-- No hard link group spans two directories: a reference is resolved only if it points into its own
list, and every directory is a list of its own. -/
def LinksWithin (opts : FileListOptions) (entries : List FileEntry) : Prop :=
  ∀ a ∈ entries, ∀ b ∈ entries, linkKey opts a ≠ none → linkKey opts a = linkKey opts b →
    a.dirname = b.dirname

/-- Two entries for which the same list of permissions or the same set of attributes is sent. An
entry without any is sent with an empty one. -/
def SharesAttr (opts : FileListOptions) (a b : FileEntry) : Prop :=
  (opts.preserveAcls = true ∧ a.isSymlink = false ∧ b.isSymlink = false ∧
    accessOf a.acl = accessOf b.acl) ∨
  (opts.preserveAcls = true ∧ a.isDir = true ∧ b.isDir = true ∧ defaultOf a.acl = defaultOf b.acl) ∨
  (opts.preserveXattrs = true ∧ xattrsOf a.xattrs = xattrsOf b.xattrs)

/-- Entries that share attributes are links of each other or both outside all directories. What has
been sent is sent as a reference, which is resolved only to an attribute in the first list. -/
def AttrsOnce (opts : FileListOptions) (entries : List FileEntry) : Prop :=
  ∀ a ∈ entries, ∀ b ∈ entries, a.name ≠ b.name →
    (linkKey opts a = none ∨ linkKey opts a ≠ linkKey opts b) → SharesAttr opts a b →
    a.dirname = none ∧ b.dirname = none

section Attrs

variable {opts : FileListOptions} {sent : List FileEntry} {enc : EncoderState} {base : AttrTables}
variable {a b e : FileEntry}

theorem SharesAttr.symm (h : SharesAttr opts a b) : SharesAttr opts b a := by
  rcases h with ⟨hp, ha, hb, heq⟩ | ⟨hp, ha, hb, heq⟩ | ⟨hp, heq⟩
  · exact Or.inl ⟨hp, hb, ha, heq.symm⟩
  · exact Or.inr (Or.inl ⟨hp, hb, ha, heq.symm⟩)
  · exact Or.inr (Or.inr ⟨hp, heq.symm⟩)

theorem SharesAttr.of_same {a' : FileEntry} (h : SharesAttr opts a b) (hsame : SameMetadata a' a) :
    SharesAttr opts a' b := by
  obtain ⟨name, flags, source, rfl⟩ := hsame
  exact h

theorem attrsResolve_empty : AttrsResolve opts ⟨.default, []⟩ enc e :=
  ⟨fun _ _ _ => rfl, fun _ _ _ => rfl, fun _ _ => rfl⟩

/-- Attributes that were not sent before are resolved. -/
theorem attrsResolve_of_new (h : TablesOf opts sent enc) (hnew : ∀ a ∈ sent, ¬ SharesAttr opts a e) :
    AttrsResolve opts base enc e := by
  constructor
  · intro hpreserve hsym hmem
    obtain ⟨a, ha, hsym', heq⟩ := (h.access hpreserve _).mp hmem
    exact absurd (Or.inl ⟨hpreserve, hsym', hsym, heq⟩) (hnew a ha)
  · intro hpreserve hdir hmem
    obtain ⟨a, ha, hdir', heq⟩ := (h.dflt hpreserve _).mp hmem
    exact absurd (Or.inr (Or.inl ⟨hpreserve, hdir', hdir, heq⟩)) (hnew a ha)
  · intro hpreserve hmem
    obtain ⟨a, ha, heq⟩ := (h.xattrs hpreserve _).mp hmem
    exact absurd (Or.inr (Or.inr ⟨hpreserve, heq⟩)) (hnew a ha)

/-- After a list with a directory only attributes that were not sent before are resolved. -/
theorem not_sharesAttr_of_resolve {before : List FileEntry} {encBase : EncoderState} {d : FileEntry}
    (h : TablesOf opts sent enc) (hbase : TablesOf opts before encBase) (hd : d ∈ before)
    (hdir : d.isDir = true) (hres : AttrsResolve opts ⟨encBase.acls, encBase.xattrs⟩ enc e)
    (ha : a ∈ sent) : ¬ SharesAttr opts a e := by
  rintro (⟨hp, hsym, hsym', heq⟩ | ⟨hp, hdir', hdire, heq⟩ | ⟨hp, heq⟩)
  · have hnil := hres.access hp hsym' ((h.access hp _).mpr ⟨a, ha, hsym, heq⟩)
    have hmem := (hbase.access hp _).mpr ⟨d, hd, FileEntry.isSymlink_of_isDir hdir, rfl⟩
    rw [hnil] at hmem
    exact not_mem_nil hmem
  · have hnil := hres.dflt hp hdire ((h.dflt hp _).mpr ⟨a, ha, hdir', heq⟩)
    have hmem := (hbase.dflt hp _).mpr ⟨d, hd, hdir, rfl⟩
    rw [hnil] at hmem
    exact not_mem_nil hmem
  · have hnil : encBase.xattrs = [] := hres.xattrs hp ((h.xattrs hp _).mpr ⟨a, ha, heq⟩)
    have hmem := (hbase.xattrs hp _).mpr ⟨d, hd, rfl⟩
    simp [hnil] at hmem

end Attrs

section Conditions

variable {opts : FileListOptions} {entries : List FileEntry}

theorem Resolvable.at {before : List (Int × FileEntry)} {base : AttrTables} {start : Int}
    {es₂ : List FileEntry} (es₁ : List FileEntry) :
    ∀ {sent : List FileEntry} {enc : EncoderState},
      Resolvable opts before base start sent enc (es₁ ++ e :: es₂) →
      LinkResolves opts before (sent ++ es₁) e ∧ (linkSource opts (sent ++ es₁) e = none →
        AttrsResolve opts base (encodeEntries opts (start + sent.length) es₁ enc).2 e) := by
  induction es₁ with
  | nil =>
    intro sent enc h
    rw [append_nil]
    exact ⟨h.1, h.2.1⟩
  | cons a es₁ ih =>
    intro sent enc h
    have hrest := ih h.2.2
    have hshift : start + ((sent ++ [a]).length : Int) = start + sent.length + 1 := by
      simp
      omega
    rw [append_assoc, hshift] at hrest
    exact hrest

theorem remembers_at (hagree : LinksAgree opts entries) (gs : List DirGroup)
    {es : List FileEntry} (hes : ∀ e ∈ es, e ∈ entries) :
    TablesOf opts (gs.flatMap (groupEntries entries) ++ es)
      (encodeEntries opts (stateAfter entries opts gs).nextNdx es
        ((stateAfter entries opts gs).enc.startAt (stateAfter entries opts gs).nextNdx)).2 := by
  have h := remembers_after hagree gs
  have hstart : Remembers opts (historyAfter entries opts gs)
      ((stateAfter entries opts gs).enc.startAt (stateAfter entries opts gs).nextNdx) :=
    ⟨h.links, h.tables.access, h.tables.dflt, h.tables.xattrs⟩
  have hmem : ∀ a ∈ (historyAfter entries opts gs).map Prod.snd, a ∈ entries := by
    intro a ha
    rw [map_snd_historyAfter] at ha
    obtain ⟨g, -, ha⟩ := mem_flatMap.mp ha
    exact mem_of_mem_groupEntries ha
  have hrun : Remembers opts (historyAfter entries opts gs ++
      indexed (stateAfter entries opts gs).nextNdx es) _ := hstart.encodeEntries hagree es hmem hes
  have htables := hrun.tables
  rw [map_append, map_snd_historyAfter, map_snd_indexed] at htables
  exact htables

theorem sentEntries_split {gs₁ : List DirGroup} {es₁ es₂ : List FileEntry}
    (htree : DirectoryTree.fromSortedEntries entries = gs₁ ++ g :: gs₂)
    (hg : groupEntries entries g = es₁ ++ e :: es₂) :
    sentEntries entries =
      (gs₁.flatMap (groupEntries entries) ++ es₁) ++ e ::
        (es₂ ++ gs₂.flatMap (groupEntries entries)) := by
  unfold sentEntries
  rw [htree, flatMap_append, flatMap_cons, hg]
  simp only [append_assoc, cons_append]

section Listed

variable (hlisted : ListedTree entries (DirectoryTree.fromSortedEntries entries))
variable (hdistinct : (entries.map (·.name)).Nodup)

include hlisted hdistinct

theorem nodup_sentNames : ((sentEntries entries).map (·.name)).Nodup :=
  ((sentEntries_perm hlisted).map _).nodup_iff.mpr hdistinct

theorem name_ne_of_split {l₁ l₂ : List FileEntry} (hsplit : sentEntries entries = l₁ ++ e :: l₂)
    (ha : a ∈ l₁) : a.name ≠ e.name := by
  have hnodup := nodup_sentNames hlisted hdistinct
  rw [hsplit, map_append, nodup_append] at hnodup
  exact hnodup.2.2 _ (mem_map_of_mem ha) _ mem_cons_self

/-- Links within directories and attributes that are sent once can be resolved. -/
theorem resolvableTree_of (hagree : LinksAgree opts entries)
    (hbyte : opts.wire.flagsCodec ≠ .byte) (hlinks : LinksWithin opts entries)
    (hattrs : AttrsOnce opts entries) :
    ResolvableTree opts entries (DirectoryTree.fromSortedEntries entries) := by
  rw [resolvableTree_iff]
  intro gs₁ g gs₂ htree
  rcases resolvable_or_first (groupEntries entries g) [] _ with hres | ⟨es₁, e, es₂, hg, -, hfail⟩
  · exact hres
  · refine absurd ?_ hfail
    have he : e ∈ groupEntries entries g := by
      simp [hg]
    have hes : ∀ a ∈ es₁, a ∈ entries := by
      intro a ha
      refine mem_of_mem_groupEntries (g := g) ?_
      rw [hg]
      exact mem_append_left _ ha
    have hmem : ∀ a ∈ gs₁.flatMap (groupEntries entries), a ∈ entries := by
      intro a ha
      obtain ⟨g', -, ha⟩ := mem_flatMap.mp ha
      exact mem_of_mem_groupEntries ha
    have hother : ∀ a ∈ gs₁.flatMap (groupEntries entries),
        linkKey opts a = none ∨ linkKey opts a ≠ linkKey opts e := by
      intro a ha
      by_contra hkey
      rw [not_or, not_not] at hkey
      exact dirname_ne hlisted htree ha he
        (hlinks a (hmem a ha) e (mem_of_mem_groupEntries he) hkey.1 hkey.2)
    refine ⟨fun k hk => ⟨fun q hq hkq => ?_, fun hb => absurd hb hbyte⟩, fun hsource => ?_⟩
    · have hq' : q.2 ∈ gs₁.flatMap (groupEntries entries) := by
        rw [← map_snd_historyAfter]
        exact mem_map_of_mem hq
      rcases hother q.2 hq' with hnone | hne
      · simp [hkq] at hnone
      · exact hne (hkq.trans hk.symm)
    · cases gs₁ with
      | nil => exact attrsResolve_empty
      | cons root gs₁ =>
        have htables := remembers_at hagree (root :: gs₁) hes
        rw [length_nil, Int.natCast_zero, Int.add_zero]
        refine attrsResolve_of_new htables fun a ha hshares => ?_
        have hname := name_ne_of_split hlisted hdistinct (sentEntries_split htree hg) ha
        have hkey : linkKey opts a = none ∨ linkKey opts a ≠ linkKey opts e := by
          rcases mem_append.mp ha with ha | ha
          · exact hother a ha
          · -- a link to an earlier entry of the list has a source
            by_contra hkey
            rw [not_or, not_not] at hkey
            obtain ⟨k, hk⟩ := Option.ne_none_iff_exists'.mp hkey.1
            rw [linkSource_of_key (hkey.2.symm.trans hk), Option.map_eq_none_iff,
              find?_eq_none] at hsource
            exact hsource a ha (by simpa using hk)
        have ha' : a ∈ entries := (mem_append.mp ha).elim (hmem a) (hes a)
        have hnone := hattrs a ha' e (mem_of_mem_groupEntries he) hname hkey hshares
        exact dirname_tail hlisted htree (mem_append_right _ mem_cons_self) he hnone.2

omit hdistinct in
/-- A group of links that spans two directories cannot be resolved. -/
theorem linksWithin_of_resolvable
    (hres : ResolvableTree opts entries (DirectoryTree.fromSortedEntries entries)) :
    LinksWithin opts entries := by
  -- the later of two members is not resolved
  have hlater : ∀ a b : FileEntry, ∀ l₁ l₂, sentEntries entries = l₁ ++ b :: l₂ → a ∈ l₁ →
      linkKey opts a ≠ none → linkKey opts a = linkKey opts b → a.dirname = b.dirname := by
    intro a b l₁ l₂ hsplit ha hne hkey
    obtain ⟨gs₁, g, gs₂, es₁, es₂, htree, hg, rfl⟩ := split_flatMap hsplit
    have hone := resolvableTree_iff.mp hres gs₁ g gs₂ htree
    unfold ResolvableAfter at hone
    rw [hg] at hone
    obtain ⟨k, hk⟩ := Option.ne_none_iff_exists'.mp hne
    have hlink := ((Resolvable.at es₁ hone).1 k (hkey.symm.trans hk)).1
    rcases mem_append.mp ha with ha | ha
    · rw [← map_snd_historyAfter] at ha
      obtain ⟨q, hq, rfl⟩ := mem_map.mp ha
      exact absurd hk (hlink q hq)
    · obtain ⟨dir, hdir⟩ := hlisted.dirs g (htree ▸ mem_append_right _ mem_cons_self)
      have hall : ∀ x ∈ groupEntries entries g, x.dirname = dir := by
        simp [groupEntries_positions hdir]
      rw [hg] at hall
      exact (hall a (mem_append_left _ ha)).trans
        (hall b (mem_append_right _ mem_cons_self)).symm
  intro a ha b hb hne hkey
  by_cases heq : a = b
  · rw [heq]
  · have ha' := (sentEntries_perm hlisted).mem_iff.mpr ha
    have hb' := (sentEntries_perm hlisted).mem_iff.mpr hb
    rcases before_or_after ha' hb' heq with ⟨l₁, l₂, hsplit, hmem⟩ | ⟨l₁, l₂, hsplit, hmem⟩
    · exact hlater a b l₁ l₂ hsplit hmem hne hkey
    · exact (hlater b a l₁ l₂ hsplit hmem (hkey ▸ hne) hkey.symm).symm

variable (opts) in
/-- The member of its group of links that is sent in full. -/
theorem exists_full (ha : a ∈ entries) :
    ∃ a₀ ∈ entries, (a₀ = a ∨ linkKey opts a₀ ≠ none) ∧ linkKey opts a₀ = linkKey opts a ∧
      ∀ l₁ l₂, sentEntries entries = l₁ ++ a₀ :: l₂ → linkSource opts l₁ a₀ = none := by
  cases hkey : linkKey opts a with
  | none =>
    refine ⟨a, ha, Or.inl rfl, hkey, fun l₁ _ _ => ?_⟩
    unfold linkSource
    rw [hkey]
  | some k =>
    have ha' := (sentEntries_perm hlisted).mem_iff.mpr ha
    have hsome : ((sentEntries entries).find? fun x => linkKey opts x = some k).isSome = true :=
      find?_isSome.mpr ⟨a, ha', decide_eq_true hkey⟩
    obtain ⟨a₀, hfind⟩ := Option.isSome_iff_exists.mp hsome
    obtain ⟨hkey₀, m₁, m₂, hsplit, hbefore⟩ := find?_eq_some_iff_append.mp hfind
    have hmem : a₀ ∈ sentEntries entries := mem_of_find?_eq_some hfind
    rw [decide_eq_true_eq] at hkey₀
    refine ⟨a₀, (sentEntries_perm hlisted).mem_iff.mp hmem, Or.inr (by rw [hkey₀]; exact nofun),
      hkey₀, fun l₁ l₂ hsplit' => ?_⟩
    -- no other entry has the name, so that the two splits are one
    have hnot : ∀ l₁ l₂, sentEntries entries = l₁ ++ a₀ :: l₂ → a₀ ∉ l₁ := fun l₁ l₂ h hmem =>
      name_ne_of_split hlisted hdistinct h hmem rfl
    have hnodup := (nodup_sentNames hlisted hdistinct).of_map
    have heq := hsplit.symm.trans hsplit'
    rw [hsplit] at hnodup
    have hm₂ : a₀ ∉ m₂ := (nodup_cons.mp hnodup.of_append_right).1
    rw [append_cons_inj_of_notMem (hnot m₁ m₂ hsplit) hm₂] at heq
    obtain ⟨rfl, -, -⟩ := heq
    rw [linkSource_of_key hkey₀, Option.map_eq_none_iff, find?_eq_none]
    intro x hx
    simpa using hbefore x hx

/-- Attributes that are sent again in a list other than the first cannot be resolved. -/
theorem attrsOnce_of_resolvable (hagree : LinksAgree opts entries)
    (hres : ResolvableTree opts entries (DirectoryTree.fromSortedEntries entries)) :
    AttrsOnce opts entries := by
  have hwithin := linksWithin_of_resolvable hlisted hres
  -- the later of two entries that are sent in full
  have hlater : ∀ a b : FileEntry, ∀ l₁ l₂, sentEntries entries = l₁ ++ b :: l₂ → a ∈ l₁ →
      linkSource opts l₁ b = none → SharesAttr opts a b → a.dirname = none ∧ b.dirname = none := by
    intro a b l₁ l₂ hsplit ha hsource hshares
    obtain ⟨gs₁, g, gs₂, es₁, es₂, htree, hg, rfl⟩ := split_flatMap hsplit
    cases gs₁ with
    | nil =>
      have hroot := fun (x : FileEntry) hx => dirname_root htree (e := x) hx
      rw [hg] at hroot
      exact ⟨hroot a (mem_append_left _ ha),
        hroot b (mem_append_right _ mem_cons_self)⟩
    | cons root gs₁ =>
      have hdir : ∃ d ∈ groupEntries entries root, d.isDir = true := by
        cases gs₁ with
        | nil => exact exists_root_dir htree
        | cons g' gs₁ => exact exists_root_dir htree
      obtain ⟨d, hd, hdir⟩ := hdir
      have hone := resolvableTree_iff.mp hres (root :: gs₁) g gs₂ htree
      unfold ResolvableAfter at hone
      rw [hg] at hone
      have hes : ∀ x ∈ es₁, x ∈ entries := by
        intro x hx
        refine mem_of_mem_groupEntries (g := g) ?_
        rw [hg]
        exact mem_append_left _ hx
      have hsource' : linkSource opts es₁ b = none := by
        unfold linkSource at hsource ⊢
        cases hkey : linkKey opts b with
        | none => rfl
        | some k =>
          rw [hkey] at hsource
          rw [Option.map_eq_none_iff, find?_eq_none] at hsource ⊢
          exact fun x hx => hsource x (mem_append_right _ hx)
      have hattrs := (Resolvable.at es₁ hone).2 hsource'
      rw [length_nil, Int.natCast_zero, Int.add_zero] at hattrs
      have hbase := (remembers_after hagree (root :: gs₁)).tables
      rw [map_snd_historyAfter] at hbase
      exact absurd hshares (not_sharesAttr_of_resolve (remembers_at hagree (root :: gs₁) hes) hbase
        (mem_flatMap.mpr ⟨root, mem_cons_self, hd⟩) hdir hattrs ha)
  intro a ha b hb hname hkey hshares
  obtain ⟨a₀, ha₀, hself, hkey₀, hfull⟩ := exists_full opts hlisted hdistinct ha
  obtain ⟨b₀, hb₀, hself', hkey₀', hfull'⟩ := exists_full opts hlisted hdistinct hb
  have hsame : ∀ x x₀ : FileEntry, x ∈ entries → x₀ ∈ entries →
      (x₀ = x ∨ linkKey opts x₀ ≠ none) → linkKey opts x₀ = linkKey opts x →
      SameMetadata x₀ x ∧ x₀.dirname = x.dirname := by
    intro x x₀ hx hx₀ hself hkey
    rcases hself with rfl | hne
    · exact ⟨⟨_, _, _, rfl⟩, rfl⟩
    · exact ⟨hagree x₀ hx₀ x hx hne hkey, hwithin x₀ hx₀ x hx hne hkey⟩
  obtain ⟨hmeta, hdir⟩ := hsame a a₀ ha ha₀ hself hkey₀
  obtain ⟨hmeta', hdir'⟩ := hsame b b₀ hb hb₀ hself' hkey₀'
  have hshares₀ : SharesAttr opts a₀ b₀ := ((hshares.of_same hmeta).symm.of_same hmeta').symm
  have hne : a₀ ≠ b₀ := by
    rintro rfl
    rcases hkey with hnone | hkey
    · rcases hself with rfl | hself
      · rcases hself' with rfl | hself'
        · exact hname rfl
        · exact hself' hnone
      · exact hself (hkey₀.trans hnone)
    · exact hkey (hkey₀.symm.trans hkey₀')
  rw [← hdir, ← hdir']
  have hmem := (sentEntries_perm hlisted).mem_iff.mpr ha₀
  have hmem' := (sentEntries_perm hlisted).mem_iff.mpr hb₀
  rcases before_or_after hmem hmem' hne with ⟨l₁, l₂, hsplit, hin⟩ | ⟨l₁, l₂, hsplit, hin⟩
  · exact hlater a₀ b₀ l₁ l₂ hsplit hin (hfull' l₁ l₂ hsplit) hshares₀
  · exact (hlater b₀ a₀ l₁ l₂ hsplit hin (hfull l₁ l₂ hsplit) hshares₀.symm).symm

end Listed

end Conditions

/-! ## Hard links -/

section Links

variable {p : NegotiatedProtocol} {o : TransferOptions} {entries : List FileEntry}
variable {opts : FileListOptions}

/-- The list is received, all of its bytes are read, and each entry has the fields that are
transmitted; a later member of a hard link group points to the first one that was sent. -/
def LinksArrive (p : NegotiatedProtocol) (o : TransferOptions) (entries : List FileEntry)
    (counts : List Nat) : Prop :=
  ∃ received, Reads (recvFileList p o) (incrementalBytes p o entries counts) received ∧
    ∃ ds, ds.Perm received.entries ∧
      ListArrives (FileListOptions.fromProtocol p o) (sentEntries entries) ds

theorem linkSource_append {earlier es : List FileEntry}
    (h : ∀ k, linkKey opts e = some k → ∀ a ∈ earlier, linkKey opts a ≠ some k) :
    linkSource opts (earlier ++ es) e = linkSource opts es e := by
  unfold linkSource
  cases hkey : linkKey opts e with
  | none => rfl
  | some k =>
    have hnone : (earlier.find? fun a => linkKey opts a = some k) = none :=
      find?_eq_none.mpr fun a ha => by simpa using h k hkey a ha
    simp [hnone]

theorem forall₂_append_left {β : Type} {R : α → β → Prop} {as₂ : List α} (as₁ : List α) :
    ∀ {bs : List β}, List.Forall₂ R (as₁ ++ as₂) bs →
      ∃ bs₁ bs₂, bs = bs₁ ++ bs₂ ∧ List.Forall₂ R as₁ bs₁ ∧ List.Forall₂ R as₂ bs₂ := by
  induction as₁ with
  | nil => exact fun h => ⟨[], _, rfl, .nil, h⟩
  | cons a as₁ ih =>
    intro bs h
    cases h with
    | cons hab htail =>
      obtain ⟨bs₁, bs₂, rfl, h₁, h₂⟩ := ih htail
      exact ⟨_ :: bs₁, bs₂, rfl, .cons hab h₁, h₂⟩

/-- Lists that arrive one by one arrive together, if no links are between them. -/
theorem listArrives_flatten (hlisted : ListedTree entries (DirectoryTree.fromSortedEntries entries))
    (hlinks : LinksWithin opts entries) {dss : List (List FileEntry)}
    (h : List.Forall₂ (fun g ds => ListArrives opts (groupEntries entries g) ds)
      (DirectoryTree.fromSortedEntries entries) dss) :
    ListArrives opts (sentEntries entries) dss.flatten := by
  have hfields : ∀ {groups : List DirGroup} {dss : List (List FileEntry)},
      List.Forall₂ (fun g ds => ListArrives opts (groupEntries entries g) ds) groups dss →
      List.Forall₂ (Transmitted opts) (groups.flatMap (groupEntries entries)) dss.flatten := by
    intro groups dss h
    induction h with
    | nil => exact .nil
    | cons harrives _ ih => exact rel_append harrives.fields ih
  refine ⟨hfields h, fun i e d he hd => ?_⟩
  obtain ⟨hi, rfl⟩ := List.getElem?_eq_some_iff.mp he
  have hsplit : sentEntries entries = (sentEntries entries).take i ++
      (sentEntries entries)[i] :: (sentEntries entries).drop (i + 1) := by simp
  -- the entry at this place is in one of the lists, at the place behind `es₁`
  obtain ⟨gs₁, g, gs₂, es₁, es₂, htree, hg, htake⟩ := split_flatMap hsplit
  rw [htree] at h
  obtain ⟨dss₁, dss₂, rfl, h₁, h₂⟩ := forall₂_append_left gs₁ h
  obtain ⟨ds, dss₂, harrives, -, rfl⟩ := forall₂_cons_left_iff.mp h₂
  have hlen := (hfields h₁).length_eq
  have hi' : i = (gs₁.flatMap (groupEntries entries)).length + es₁.length := by
    have hlength := congrArg length htake
    rw [length_take, length_append] at hlength
    omega
  have hd' : ds[es₁.length]? = some d := by
    rw [flatten_append, flatten_cons, getElem?_append_right (by omega),
      show i - dss₁.flatten.length = es₁.length by omega, getElem?_append_left] at hd
    · exact hd
    · simp [← harrives.fields.length_eq, hg]
  have hsource := harrives.sources es₁.length ((sentEntries entries)[i]) d (by rw [hg]; simp) hd'
  rw [hg, take_left] at hsource
  -- no earlier list has its key, as links do not leave the directory
  rw [hsource, htake, linkSource_append]
  intro k hk a ha hka
  have he' : (sentEntries entries)[i] ∈ groupEntries entries g := by
    simp [hg]
  obtain ⟨g', -, ha'⟩ := mem_flatMap.mp ha
  exact dirname_ne hlisted htree ha he' (hlinks a (mem_of_mem_groupEntries ha') _
    (mem_of_mem_groupEntries he') (by rw [hka]; exact nofun) (hka.trans hk.symm))

theorem TreeList.linksArrive {counts : List Nat} (h : TreeList p o entries)
    (hall : AllListsSent p o entries counts)
    (hlinks : LinksWithin (FileListOptions.fromProtocol p o) entries)
    (hattrs : AttrsOnce (FileListOptions.fromProtocol p o) entries) :
    LinksArrive p o entries counts := by
  have hlisted := listedTree h.listed
  have hres := resolvableTree_of hlisted h.distinct h.agree h.flagsCodec hlinks hattrs
  have hsend := sendableTree_of h.sendable hlisted h.bound hres
  obtain ⟨dss, hdss, hreads⟩ := reads_incremental h.flagsFit h.incremental hsend hall
  have hentries := entries_acceptLists 1 dss ⟨[], [], 0⟩
  refine ⟨_, hreads, dss.flatten, ?_, listArrives_flatten hlisted hlinks hdss⟩
  exact List.Perm.of_eq hentries.symm

theorem TreeList.eq_of_name {received : List FileEntry} {ds : List FileEntry}
    {R : FileEntry → FileEntry → Prop} {l : List FileEntry} (h : TreeList p o entries)
    (hl : l.Perm entries) (hperm : ds.Perm received) (hR : List.Forall₂ R l ds)
    (hnames : ∀ e d, R e d → d.name = e.name) {i : Nat} {d : FileEntry} (he : l[i]? = some e)
    (hd : d ∈ received) (hname : d.name = e.name) : ds[i]? = some d := by
  obtain ⟨hi, rfl⟩ := List.getElem?_eq_some_iff.mp he
  have hi' : i < ds.length := hR.length_eq ▸ hi
  have hRi := forall₂_iff_get.mp hR |>.2 i hi hi'
  have hmap : ds.map (·.name) = l.map (·.name) := by
    rw [← forall₂_eq_eq_eq, forall₂_map_left_iff, forall₂_map_right_iff]
    exact hR.flip.imp fun d e hde => hnames e d hde
  have hnodup : (ds.map (·.name)).Nodup := by
    rw [hmap]
    exact (hl.map _).nodup_iff.mpr h.distinct
  have hdi : ds[i] ∈ ds := getElem_mem hi'
  have heq := inj_on_of_nodup_map hnodup hdi (hperm.mem_iff.mpr hd)
    ((hnames _ _ hRi).trans hname.symm)
  rw [getElem?_eq_getElem hi', heq]

/-- If the hard links arrive then every reference was resolved. -/
theorem TreeList.resolvable_of_linksArrive {counts : List Nat} (h : TreeList p o entries)
    (hall : AllListsSent p o entries counts) (harrive : LinksArrive p o entries counts) :
    ResolvableTree (FileListOptions.fromProtocol p o) entries
      (DirectoryTree.fromSortedEntries entries) := by
  have hlisted := listedTree h.listed
  obtain ⟨received, hreads, ds, hperm, harrives⟩ := harrive
  by_contra hfail
  obtain ⟨gs₁, g, gs₂, htree, d, hd, e, he, hname, hspoilt⟩ := h.spoilt hall hfail (hreads [])
  obtain ⟨es₁, es₂, hg⟩ := append_of_mem he
  have hsplit := sentEntries_split htree hg
  have hget : (sentEntries entries)[(gs₁.flatMap (groupEntries entries) ++ es₁).length]? =
      some e := by
    rw [hsplit]
    simp
  have hget' := h.eq_of_name (sentEntries_perm hlisted) hperm harrives.fields
    (fun _ _ ht => ht.name) hget hd hname
  rcases hspoilt with ⟨hnone, k, hkey, a, ha, hak⟩ | ⟨-, -, hattrs⟩
  · -- the first member was sent before
    have hsource := harrives.sources _ e d hget hget'
    rw [hnone, hsplit, take_left, linkSource_of_key hkey, eq_comm, Option.map_eq_none_iff,
      find?_eq_none] at hsource
    exact hsource a (mem_append_left _ ha) (decide_eq_true hak)
  · have ht := harrives.transmitted hget hget'
    exact hattrs ⟨ht.acl, ht.xattrs⟩

/-- **Hard links in an incremental file list.** However the calls of `send_pending` are split, the
list arrives with its hard links if and only if no group of links spans two directories and no
attributes are sent twice. -/
theorem incremental_links (h : TreeList p o entries) (counts : List Nat)
    (hall : AllListsSent p o entries counts) :
    LinksArrive p o entries counts ↔
      LinksWithin (FileListOptions.fromProtocol p o) entries ∧
        AttrsOnce (FileListOptions.fromProtocol p o) entries := by
  have hlisted := listedTree h.listed
  constructor
  · intro harrive
    have hres := h.resolvable_of_linksArrive hall harrive
    exact ⟨linksWithin_of_resolvable hlisted hres,
      attrsOnce_of_resolvable hlisted h.distinct h.agree hres⟩
  · rintro ⟨hlinks, hattrs⟩
    exact h.linksArrive hall hlinks hattrs

/-- A tree that is sent with the options `o`, of which all but the entries' validity can be seen. -/
theorem treeList_of_decide (hinc : incrementalFlist (plainProtocol 31 1) o = true)
    (hsorted : CanonicallySorted entries) (hdistinct : (entries.map (·.name)).Nodup)
    (hnormalised : ∀ e ∈ entries, ∀ c ∈ UnixPath.segments e.name, UnixPath.IsName c)
    (hparents : ∀ e ∈ entries, (e.dirname.all fun name => entries.any fun d => d.isDir && d.name = name) = true)
    (hvalid : ∀ e ∈ entries, Valid (FileListOptions.fromProtocol (plainProtocol 31 1) o) e)
    (hlinked : ∀ e ∈ entries, e.hardLinkInfo = none ∨ e = linkedFile e.name 7)
    (hbound : entries.length + entries.countP FileEntry.isDir + 2 < 2 ^ 31) :
    TreeList (plainProtocol 31 1) o entries where
  wire := rfl
  incremental := hinc
  sorted := hsorted
  distinct := hdistinct
  normalised := fun e he => Or.inr (hnormalised e he)
  parents := by
    intro e he name hname
    have hany := hparents e he
    rw [hname, Option.all_some, any_eq_true] at hany
    obtain ⟨d, hd, hdir⟩ := hany
    rw [Bool.and_eq_true, decide_eq_true_eq] at hdir
    exact ⟨d, hd, hdir⟩
  valid := hvalid
  agree := by
    have hkey : ∀ e ∈ entries, linkKey (FileListOptions.fromProtocol (plainProtocol 31 1) o) e ≠ none →
        e = linkedFile e.name 7 := by
      intro e he hne
      refine (hlinked e he).resolve_left fun hnone => hne ?_
      unfold linkKey FileEntry.linkInfo
      rw [hnone, ite_self]
      exact ite_self none
    intro a ha b hb hne heq
    rw [hkey a ha hne, hkey b hb (heq ▸ hne)]
    exact ⟨b.name, 0, none, rfl⟩
  bound := hbound

def recursiveLinks : TransferOptions := { recursiveOptions with preserveHardLinks := true }

/-- Two names of one file, next to a directory with a file. -/
theorem incremental_links_pair :
    LinksArrive (plainProtocol 31 1) recursiveLinks
      [linkedFile [97] 7, linkedFile [98] 7, directoryD, fileInD] [1] := by
  refine (incremental_links ?_ [1] ?_).mpr ⟨?_, ?_⟩
  · refine treeList_of_decide rfl (by decide) (by decide) (by decide) (by decide) ?_ (by decide)
      (by decide)
    intro e he
    simp only [mem_cons, not_mem_nil, or_false] at he
    rcases he with rfl | rfl | rfl | rfl
    · exact valid_plainEntry _ [97] _ (by decide)
    · exact valid_plainEntry _ [98] _ (by decide)
    · exact valid_plainEntry sIfdir [100] none (by decide)
    · exact valid_plainEntry sIfreg [100, 47, 120] none (by decide)
  · rfl
  · unfold LinksWithin
    decide
  · rintro a - b - - - (⟨hacls, -⟩ | ⟨hacls, -⟩ | ⟨hxattrs, -⟩)
    · exact absurd hacls Bool.false_ne_true
    · exact absurd hacls Bool.false_ne_true
    · exact absurd hxattrs Bool.false_ne_true

/-- Two names of one file, one of them in a directory, do not arrive. -/
theorem links_between_directories_lost :
    ¬ LinksArrive (plainProtocol 31 1) recursiveLinks
      [linkedFile [97] 7, directoryD, linkedFile [100, 47, 120] 7] [1] := by
  have htree : TreeList (plainProtocol 31 1) recursiveLinks
      [linkedFile [97] 7, directoryD, linkedFile [100, 47, 120] 7] := by
    refine treeList_of_decide rfl (by decide) (by decide) (by decide) (by decide) ?_ (by decide)
      (by decide)
    intro e he
    simp only [mem_cons, not_mem_nil, or_false] at he
    rcases he with rfl | rfl | rfl
    · exact valid_plainEntry _ [97] _ (by decide)
    · exact valid_plainEntry sIfdir [100] none (by decide)
    · exact valid_plainEntry _ [100, 47, 120] _ (by decide)
  intro harrive
  have hres := htree.resolvable_of_linksArrive
    (allListsSent_of_counts (by decide) (cons_ne_nil _ _) (by decide)) harrive
  have hwithin := linksWithin_of_resolvable (listedTree htree.listed) hres
  -- the two names are in different directories
  have hdirs := hwithin (linkedFile [97] 7) (by decide) (linkedFile [100, 47, 120] 7) (by decide)
    (by decide) (by decide)
  exact absurd hdirs (by decide)

end Links

end Ferrosync
