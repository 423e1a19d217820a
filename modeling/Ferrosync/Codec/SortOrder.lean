import Ferrosync.Codec.Sort
import Ferrosync.Lib.LexOrder

set_option autoImplicit false

/-! # The canonical order is a tree order

The two walkers of `f_name_cmp` compare one sequence for each entry: the bytes of its path, each
with the type of the walker that stands on it, and a slash behind the name of a directory. The type
counts more than the byte. So `f_name_cmp` is the lexicographic comparison of these sequences
(`fNameCmp_eq`), and everything else is read off from them: the bytes of a directory's path, with
its slash, begin the sequences of everything below it.
-/

namespace Ferrosync

open UnixPath LexOrder List

variable {w : Walker} {e a b : FileEntry} {u : List UInt8}

/-! ## What the walkers compare -/

/-- A byte under a walker of this type. -/
def rank (t : FncType) (c : UInt8) : Nat := (if t = .path then 256 else 0) + c.toNat

/-- The comparison of two sequences of them. -/
def compareKeys (x y : List Nat) : Ordering := List.compareLex compare x y

instance : Std.TransCmp compareKeys := inferInstanceAs (Std.TransCmp (List.compareLex compare))

instance : Std.LawfulEqCmp compareKeys :=
  inferInstanceAs (Std.LawfulEqCmp (List.compareLex compare))

theorem ofNat_rank (t : FncType) (c : UInt8) : UInt8.ofNat (rank t c) = c := by
  rw [← UInt8.toNat_inj, UInt8.toNat_ofNat', rank]
  have hlt := c.toNat_lt
  split_ifs <;> omega

theorem compare_rank (t : FncType) (a b : UInt8) : compare (rank t a) (rank t b) = compare a b := by
  simp [UInt8.compare_eq_toNat_compare_toNat, Nat.compare_eq_ite_lt, rank]

theorem compare_rank_types {t u : FncType} (h : t ≠ u) (a b : UInt8) :
    compare (rank t a) (rank u b) = typeOrder t := by
  have ha := a.toNat_lt
  have hb := b.toNat_lt
  cases t <;> cases u
  · exact absurd rfl h
  · exact Nat.compare_eq_gt.mpr (by simp [rank]; omega)
  · exact Nat.compare_eq_lt.mpr (by simp [rank]; omega)
  · exact absurd rfl h

namespace Walker

/-- The bytes of a name, and the slash behind it. -/
def nameKey (t : FncType) (name : List UInt8) : List Nat :=
  name.map (rank t) ++ if t = .path then [rank .path slash] else []

/-- What stands behind the slash between the two parts of a path. -/
def baseKey (w : Walker) : List Nat :=
  if w.isDir ∧ w.basename = [46] then [] else nameKey (if w.isDir then .path else .item) w.basename

/-- What a walker has before it. -/
def key (w : Walker) : List Nat :=
  match w.state with
  | .dir => ((w.dirname.getD []).drop w.pos).map (rank w.fncType) ++
      rank w.fncType slash :: w.baseKey
  | .slash => rank w.fncType slash :: w.baseKey
  | .base => nameKey w.fncType (w.basename.drop w.pos)
  | .trailing => []
  | .done => []

/-- A walker at the beginning of a round. -/
def Ready (w : Walker) : Prop := w.state = .trailing ∨ w.state = .done → w.fncType = .item

theorem nameKey_cons (t : FncType) (c : UInt8) (name : List UInt8) :
    nameKey t (c :: name) = rank t c :: nameKey t name := rfl

/-- Behind the slash the walker takes the type of the entry. -/
theorem advance_slash (h : w.state = .slash) :
    w.advance.key = w.baseKey ∧ w.advance.Ready := by
  simp only [advance, h, baseKey]
  split_ifs
  · exact ⟨rfl, fun _ => rfl⟩
  all_goals exact ⟨by simp [key], by simp [Ready]⟩

theorem read_nil (h : w.Ready) (hkey : w.key = []) :
    w.fncType = .item ∧ w.currentChar.1 = none ∧ w.currentChar.2.fncType = .item := by
  unfold key at hkey
  unfold currentChar
  cases hs : w.state with
  | dir | slash => simp [hs] at hkey
  | base =>
    simp only [hs, nameKey, append_eq_nil_iff, map_eq_nil_iff,
      drop_eq_nil_iff] at hkey
    obtain ⟨hlen, htype⟩ := hkey
    have hitem : w.fncType = .item := by
      cases hw : w.fncType with
      | path => simp [hw] at htype
      | item => rfl
    simp [getElem?_eq_none hlen, hitem]
  | trailing => exact ⟨h (.inl hs), rfl, rfl⟩
  | done => exact ⟨h (.inr hs), rfl, h (.inr hs)⟩

theorem read_cons {k : Nat} {ks : List Nat} (hkey : w.key = k :: ks) :
    ∃ c, k = rank w.fncType c ∧ w.currentChar.1 = some c ∧
      w.currentChar.2.fncType = w.fncType ∧ w.currentChar.2.advance.key = ks ∧
      w.currentChar.2.advance.Ready := by
  unfold key at hkey
  unfold currentChar
  -- The state says which part of the name is read: the directory, the slash behind it, or the last
  -- component.
  cases hs : w.state with
  | dir =>
    simp only [hs] at hkey
    cases hget : (w.dirname.getD [])[w.pos]? with
    | some c =>
      obtain ⟨hlt, hc⟩ := List.getElem?_eq_some_iff.mp hget
      rw [drop_eq_getElem_cons hlt, map_cons, hc] at hkey
      obtain ⟨rfl, rfl⟩ := cons.inj hkey
      refine ⟨c, rfl, rfl, rfl, ?_, ?_⟩
      · simp [advance, hs, key, baseKey]
      · simp [advance, hs, Ready]
    | none =>
      rw [drop_eq_nil_of_le (List.getElem?_eq_none_iff.mp hget), map_nil] at hkey
      obtain ⟨rfl, rfl⟩ := cons.inj hkey
      exact ⟨slash, rfl, rfl, rfl, advance_slash rfl⟩
  | slash =>
    simp only [hs] at hkey
    obtain ⟨rfl, rfl⟩ := cons.inj hkey
    exact ⟨slash, rfl, rfl, rfl, advance_slash hs⟩
  | base =>
    simp only [hs] at hkey
    cases hget : w.basename[w.pos]? with
    | some c =>
      obtain ⟨hlt, hc⟩ := List.getElem?_eq_some_iff.mp hget
      rw [drop_eq_getElem_cons hlt, nameKey_cons, hc] at hkey
      obtain ⟨rfl, rfl⟩ := cons.inj hkey
      refine ⟨c, rfl, rfl, rfl, ?_, ?_⟩
      · simp [advance, hs, key]
      · simp [advance, hs, Ready]
    | none =>
      rw [drop_eq_nil_of_le (List.getElem?_eq_none_iff.mp hget), nameKey, map_nil,
        nil_append] at hkey
      split_ifs at hkey with hpath
      obtain ⟨rfl, rfl⟩ := cons.inj hkey
      rw [if_pos hpath]
      exact ⟨slash, by rw [hpath], rfl, rfl, rfl, fun _ => rfl⟩
  | trailing | done => simp [hs] at hkey

theorem key_ne_nil (h : w.Ready) (hpath : w.fncType = .path) : w.key ≠ [] := by
  intro hkey
  rw [(read_nil h hkey).1] at hpath
  cases hpath

/-- Reading does not change the type, and there is a byte if there is one in the sequence. -/
theorem currentChar_type (h : w.Ready) :
    w.currentChar.2.fncType = w.fncType ∧ (w.key ≠ [] → w.currentChar.1.isSome = true) := by
  cases hkey : w.key with
  | nil =>
    obtain ⟨htype, -, hend⟩ := read_nil h hkey
    exact ⟨by rw [hend, htype], fun hne => absurd rfl hne⟩
  | cons k ks =>
    obtain ⟨c, -, hchar, htype, -⟩ := read_cons hkey
    exact ⟨htype, fun _ => by rw [hchar]; rfl⟩

end Walker

theorem compareKeys_types {wa wb : Walker} (ha : wa.Ready) (hb : wb.Ready)
    (h : wa.fncType ≠ wb.fncType) : compareKeys wa.key wb.key = typeOrder wa.fncType := by
  unfold compareKeys
  -- An empty key is that of an item; otherwise the first elements differ, as the rank puts items
  -- before paths.
  cases hka : wa.key with
  | nil =>
    have htype := (Walker.read_nil ha hka).1
    cases hkb : wb.key with
    | nil => exact absurd (htype.trans (Walker.read_nil hb hkb).1.symm) h
    | cons k ks => rw [htype]; rfl
  | cons k ks =>
    obtain ⟨c, rfl, -⟩ := Walker.read_cons hka
    cases hkb : wb.key with
    | nil =>
      have htype := (Walker.read_nil hb hkb).1
      have hpath : wa.fncType = .path := by
        cases hwa : wa.fncType with
        | path => rfl
        | item => exact absurd (hwa.trans htype.symm) h
      rw [hpath]
      rfl
    | cons m ms =>
      obtain ⟨d, rfl, -⟩ := Walker.read_cons hkb
      rw [List.compareLex_cons_cons, compare_rank_types h]
      cases wa.fncType <;> rfl

/-- **The loop of `f_name_cmp`** compares what the walkers have before them. -/
theorem compareWalkers_eq : ∀ (fuel : Nat) {wa wb : Walker}, wa.remaining < fuel → wa.Ready →
    wb.Ready → wa.fncType = wb.fncType →
    compareWalkers fuel wa wb = compareKeys wa.key wb.key := by
  intro fuel
  induction fuel with
  | zero => exact fun h => absurd h (Nat.not_lt_zero _)
  | succ fuel ih =>
    intro wa wb hfuel ha hb htype
    unfold compareWalkers compareKeys
    cases hka : wa.key with
    | nil =>
      obtain ⟨-, hca, hea⟩ := Walker.read_nil ha hka
      cases hkb : wb.key with
      | nil =>
        obtain ⟨-, hcb, -⟩ := Walker.read_nil hb hkb
        simp only [hca, hcb]
        rfl
      | cons m ms =>
        obtain ⟨d, -, hcb, hdb, -⟩ := Walker.read_cons hkb
        have hsame : wb.fncType = .item := htype.symm.trans (Walker.read_nil ha hka).1
        simp only [hca, hcb, hea, hdb, hsame]
        rfl
    | cons k ks =>
      obtain ⟨c, rfl, hca, hda, hna, hra⟩ := Walker.read_cons hka
      cases hkb : wb.key with
      | nil =>
        obtain ⟨hsame, hcb, heb⟩ := Walker.read_nil hb hkb
        simp only [hca, hcb, heb, hda, htype, hsame]
        rfl
      | cons m ms =>
        obtain ⟨d, rfl, hcb, hdb, hnb, hrb⟩ := Walker.read_cons hkb
        have hless := Walker.remaining_advance_lt hca
        rw [List.compareLex_cons_cons, ← htype, compare_rank]
        simp only [hca, hcb]
        by_cases hcd : c = d
        · subst hcd
          have hself : compare c c = .eq := Std.ReflCmp.compare_self
          rw [if_neg (fun hne => hne rfl), hself, ← hna, ← hnb]
          by_cases hnext : wa.currentChar.2.advance.fncType = wb.currentChar.2.advance.fncType
          · rw [if_neg (fun hne => hne hnext)]
            exact ih (by omega) hra hrb hnext
          · -- one of the walkers is on a path, so there is more to come
            rw [if_pos hnext, if_pos, (Walker.currentChar_type hra).1]
            · exact (compareKeys_types hra hrb hnext).symm
            · cases hta : wa.currentChar.2.advance.fncType with
              | path => exact .inl ((Walker.currentChar_type hra).2 (Walker.key_ne_nil hra hta))
              | item =>
                cases htb : wb.currentChar.2.advance.fncType with
                | path =>
                  exact .inr ((Walker.currentChar_type hrb).2 (Walker.key_ne_nil hrb htb))
                | item => exact absurd (hta.trans htb.symm) hnext
        · rw [if_pos hcd]
          have hne : compare c d ≠ .eq := fun heq => hcd (Std.LawfulEqCmp.eq_of_compare heq)
          cases hcmp : compare c d with
          | eq => exact absurd hcmp hne
          | lt => rfl
          | gt => rfl

/-- The sequence of an entry. -/
def sortKey (e : FileEntry) : List Nat := (Walker.new e).key

theorem Walker.ready_new (e : FileEntry) : (Walker.new e).Ready := by
  unfold Walker.new
  cases e.dirname with
  | some d =>
    dsimp only
    split_ifs <;> simp [Ready]
  | none =>
    split_ifs <;> simp [Ready]

/-- **`f_name_cmp` compares the sequences of the entries.** -/
theorem fNameCmp_eq (a b : FileEntry) : fNameCmp a b = compareKeys (sortKey a) (sortKey b) := by
  unfold fNameCmp sortKey
  dsimp only
  split_ifs with htype
  · exact (compareKeys_types (Walker.ready_new a) (Walker.ready_new b) htype).symm
  · exact compareWalkers_eq _ (by omega) (Walker.ready_new a) (Walker.ready_new b)
      (not_not.mp htype)

instance : Std.TransCmp fNameCmp where
  eq_swap := by
    intro a b
    rw [fNameCmp_eq, fNameCmp_eq]
    exact Std.OrientedCmp.eq_swap
  isLE_trans := by
    intro a b c hab hbc
    rw [fNameCmp_eq] at hab hbc ⊢
    exact Std.TransCmp.isLE_trans hab hbc

/-! ## Sequences of names -/

theorem dirPart_append_basename (e : FileEntry) : dirPart e.name ++ e.basename = e.name :=
  List.rdropWhile_append_rtakeWhile

/-- A name without a slash, and a name with its last slash. -/
theorem last_slash (name : List UInt8) :
    slash ∉ name ∨ ∃ u v, name = u ++ slash :: v ∧ slash ∉ v := by
  by_cases h : slash ∈ name
  · obtain ⟨v, u, hrev, hv⟩ := eq_append_cons_of_mem (mem_reverse.mpr h)
    refine .inr ⟨u.reverse, v.reverse, ?_, fun hmem => hv (mem_reverse.mp hmem)⟩
    rw [← reverse_reverse name, hrev]
    simp
  · exact .inl h

section LastSlash

variable {u v : List UInt8}

theorem ne_slash_of_not_mem (h : slash ∉ v) : ∀ c ∈ v.reverse, decide (c ≠ slash) = true := by
  intro c hc
  rw [decide_eq_true_eq]
  rintro rfl
  exact h (mem_reverse.mp hc)

theorem dirPart_of_last_slash (h : slash ∉ v) : dirPart (u ++ slash :: v) = u ++ [slash] := by
  unfold dirPart rdropWhile
  rw [reverse_append, reverse_cons, append_assoc,
    dropWhile_append_of_pos (ne_slash_of_not_mem h)]
  simp

theorem basename_of_last_slash (hname : e.name = u ++ slash :: v) (h : slash ∉ v) :
    e.basename = v := by
  unfold FileEntry.basename rtakeWhile
  rw [hname, reverse_append, reverse_cons, append_assoc,
    takeWhile_append_of_pos (ne_slash_of_not_mem h)]
  simp

theorem dirname_of_last_slash (hname : e.name = u ++ slash :: v) (h : slash ∉ v) :
    e.dirname = some u := by
  unfold FileEntry.dirname parentOf
  rw [if_pos (by simp [hname]), hname, dirPart_of_last_slash h, dropLast_concat]

end LastSlash

theorem dirPart_of_not_mem {name : List UInt8} (h : slash ∉ name) : dirPart name = [] := by
  unfold dirPart
  rw [rdropWhile_eq_nil_iff]
  intro c hc
  exact ne_slash_of_not_mem h c (mem_reverse.mpr hc)

/-- **The sequence of an entry**: its directory as a path, then its name. -/
theorem sortKey_eq (e : FileEntry) :
    sortKey e = (dirPart e.name).map (rank .path) ++
      if e.isDir ∧ e.basename = [46] then []
      else Walker.nameKey (if e.isDir then .path else .item) e.basename := by
  unfold sortKey Walker.new
  -- split the name at its last slash, if there is one
  obtain hnone | ⟨u, v, hname, hv⟩ := last_slash e.name
  · have hdir : e.dirname = none := by
      simpa [FileEntry.dirname, parentOf] using hnone
    rw [hdir, dirPart_of_not_mem hnone, map_nil]
    split_ifs <;> rfl
  · rw [dirname_of_last_slash hname hv]
    have hpart : dirPart e.name = u ++ [slash] := by
      rw [hname]
      exact dirPart_of_last_slash hv
    rw [hpart, map_append, append_assoc]
    dsimp only
    by_cases hu : u = []
    · subst hu
      rfl
    · rw [if_neg hu]
      rfl

/-! ## Normalised names -/

/-- The names a sender lists: relative paths of plain components, and `.` for the root. -/
def NormalisedName (name : List UInt8) : Prop := name = [dot] ∨ ∀ s ∈ segments name, IsName s

theorem mem_segments_last {v : List UInt8} (h : slash ∉ v) :
    v ∈ (segments (u ++ slash :: v)).tail := by
  induction u with
  | nil => simp [segments, segments_of_no_slash h]
  | cons c u ih =>
    rw [cons_append, segments]
    split_ifs
    · exact mem_of_mem_tail ih
    · cases hs : segments (u ++ slash :: v) with
      | nil => exact absurd hs (segments_ne_nil _)
      | cons s ss =>
        rw [hs] at ih
        exact ih

/-- The last component of a normalised name. -/
theorem NormalisedName.basename (h : NormalisedName e.name) :
    e.basename ≠ [] ∧ (e.basename = [dot] ↔ e.name = [dot]) := by
  obtain hnone | ⟨u, v, hname, hv⟩ := last_slash e.name
  · have hbase : e.basename = e.name := by
      have happ := dirPart_append_basename e
      rwa [dirPart_of_not_mem hnone] at happ
    rw [hbase]
    refine ⟨?_, Iff.rfl⟩
    obtain hdot | hsegs := h
    · simp [hdot]
    · rw [segments_of_no_slash hnone] at hsegs
      exact (hsegs e.name (mem_singleton_self _)).2.1
  · have hne : e.name ≠ [dot] := by
      intro hdot
      have hmem : slash ∈ e.name := by simp [hname]
      rw [hdot] at hmem
      exact absurd hmem (by decide)
    -- behind the last slash stands the last segment, which is a proper name
    have hlast := h.resolve_left hne v (hname ▸ mem_of_mem_tail (mem_segments_last hv))
    rw [basename_of_last_slash hname hv]
    exact ⟨hlast.2.1, fun hdot => absurd hdot hlast.2.2.1, fun hdot => absurd hdot hne⟩

/-- What the names below a directory begin with. -/
def stem (d : FileEntry) : List UInt8 := if d.name = [dot] then [] else d.name ++ [slash]

/-- The sequence of a directory. -/
theorem sortKey_directory {d : FileEntry} (h : NormalisedName d.name) (hdir : d.isDir = true) :
    sortKey d = (stem d).map (rank .path) := by
  have hbase : d.basename = [46] ↔ d.name = [dot] := h.basename.2
  rw [sortKey_eq, stem]
  by_cases hdot : d.name = [dot]
  · rw [if_pos ⟨hdir, hbase.mpr hdot⟩, hdot]
    rfl
  · rw [if_neg fun hcur => hdot (hbase.mp hcur.2), if_neg hdot, if_pos hdir, Walker.nameKey]
    rw [← append_assoc, ← map_append, dirPart_append_basename, map_append]
    rfl

theorem sortKey_item (hdir : e.isDir = false) :
    sortKey e = (dirPart e.name).map (rank .path) ++ e.basename.map (rank .item) := by
  rw [sortKey_eq, if_neg (by simp [hdir]), if_neg (by simp [hdir]), Walker.nameKey, if_neg nofun,
    append_nil]

/-- Names of files without a directory are compared at the first byte in which they differ. -/
theorem fNameCmp_files {x y : FileEntry} {s t : List UInt8} {a b : UInt8} (hx : x.isDir = false)
    (hy : y.isDir = false) (hxs : slash ∉ x.name) (hys : slash ∉ y.name)
    (hxname : x.name = u ++ a :: s) (hyname : y.name = u ++ b :: t) (hne : a ≠ b) :
    fNameCmp x y = compare a b := by
  have hkey : ∀ {e : FileEntry}, e.isDir = false → slash ∉ e.name →
      sortKey e = e.name.map (rank .item) := by
    intro e hdir hslash
    have happ := dirPart_append_basename e
    rw [dirPart_of_not_mem hslash, nil_append] at happ
    rw [sortKey_item hdir, dirPart_of_not_mem hslash, happ]
    rfl
  have hcmp : compare a b ≠ .eq := fun heq => hne (Std.LawfulEqCmp.eq_of_compare heq)
  rw [fNameCmp_eq, hkey hx hxs, hkey hy hys, hxname, hyname, map_append, map_append,
    compareKeys, compareLex_append_left, map_cons, map_cons, List.compareLex_cons_cons,
    compare_rank]
  cases hab : compare a b with
  | eq => exact absurd hab hcmp
  | lt | gt => rfl

/-! ## The bytes of a sequence -/

/-- The bytes of a sequence. -/
def keyBytes (key : List Nat) : List UInt8 := key.map UInt8.ofNat

theorem keyBytes_map (t : FncType) (name : List UInt8) : keyBytes (name.map (rank t)) = name := by
  rw [keyBytes, map_map]
  exact (map_congr_left fun c _ => ofNat_rank t c).trans (map_id name)

theorem keyBytes_directory {d : FileEntry} (h : NormalisedName d.name) (hdir : d.isDir = true) :
    keyBytes (sortKey d) = stem d := by
  rw [sortKey_directory h hdir, keyBytes_map]

theorem keyBytes_item (hdir : e.isDir = false) :
    keyBytes (sortKey e) = e.name := by
  have happ : keyBytes (sortKey e) = keyBytes ((dirPart e.name).map (rank .path)) ++
      keyBytes (e.basename.map (rank .item)) := by
    rw [sortKey_item hdir]
    exact map_append
  rw [happ, keyBytes_map, keyBytes_map, dirPart_append_basename]

theorem stem_inj (h : stem a = stem b) : a.name = b.name := by
  unfold stem at h
  split_ifs at h with ha hb hb
  · rw [ha, hb]
  · simp at h
  · simp at h
  · exact append_cancel_right h

/-- The types tell a directory from everything else. -/
theorem isDir_of_sortKey (ha : NormalisedName a.name) (hb : NormalisedName b.name)
    (h : sortKey a = sortKey b) (hdir : a.isDir = true) : b.isDir = true := by
  by_contra hitem
  rw [Bool.not_eq_true] at hitem
  obtain ⟨c, hc⟩ := exists_mem_of_ne_nil _ hb.basename.1
  have hmem : rank .item c ∈ sortKey a := by
    rw [h, sortKey_item hitem]
    exact mem_append_right _ (mem_map_of_mem hc)
  rw [sortKey_directory ha hdir] at hmem
  obtain ⟨d, -, hd⟩ := mem_map.mp hmem
  have hlt := c.toNat_lt
  simp [rank] at hd
  omega

theorem sortKey_inj (ha : NormalisedName a.name) (hb : NormalisedName b.name)
    (h : sortKey a = sortKey b) : a.name = b.name ∧ a.isDir = b.isDir := by
  have hbytes : keyBytes (sortKey a) = keyBytes (sortKey b) := congrArg keyBytes h
  cases hdir : a.isDir with
  | true =>
    have hdir' := isDir_of_sortKey ha hb h hdir
    rw [keyBytes_directory ha hdir, keyBytes_directory hb hdir'] at hbytes
    exact ⟨stem_inj hbytes, hdir'.symm⟩
  | false =>
    have hdir' : b.isDir = false := by
      by_contra hb'
      rw [Bool.not_eq_false] at hb'
      rw [isDir_of_sortKey hb ha h.symm hb'] at hdir
      exact absurd hdir nofun
    rw [keyBytes_item hdir, keyBytes_item hdir'] at hbytes
    exact ⟨hbytes, hdir'.symm⟩

/-! ## Trees -/

/-- A directory, under the name it is listed with. -/
def IsEntryOf (d x : FileEntry) : Prop := x.name = d.name ∧ x.isDir = true

def Below (d x : FileEntry) : Prop := stem d <+: x.name ∧ ¬IsEntryOf d x

def InTree (d x : FileEntry) : Prop := IsEntryOf d x ∨ Below d x

def ChildOf (d x : FileEntry) : Prop := Below d x ∧ slash ∉ x.name.drop (stem d).length

/-- Lists in which the trees of all directories stand together. -/
structure TreeOrdered (entries : List FileEntry) : Prop where
  /-- A directory precedes its descendants. -/
  precedes : ∀ (d x : FileEntry) (i j : Nat), d.isDir = true → entries[i]? = some d →
    entries[j]? = some x → Below d x → i < j
  /-- A directory and its descendants are contiguous. -/
  contiguous : ∀ (d x y z : FileEntry) (i j k : Nat), d ∈ entries → d.isDir = true →
    entries[i]? = some x → entries[j]? = some y → entries[k]? = some z → i ≤ j → j ≤ k →
    InTree d x → InTree d z → InTree d y
  /-- The children that are not directories precede those that are. -/
  filesFirst : ∀ (d x y : FileEntry) (i j : Nat), NormalisedName d.name → d.isDir = true →
    entries[i]? = some x → entries[j]? = some y → ChildOf d x → ChildOf d y →
    x.isDir = false → y.isDir = true → i < j

theorem stem_eq (d : FileEntry) : stem d = [] ∧ d.name = [dot] ∨ stem d = d.name ++ [slash] := by
  unfold stem
  split_ifs with hdot
  · exact .inl ⟨rfl, hdot⟩
  · exact .inr rfl

theorem prefix_dirPart {name : List UInt8} (h : u ++ [slash] <+: name) :
    u ++ [slash] <+: dirPart name := by
  obtain ⟨w, rfl⟩ := h
  rw [append_assoc, singleton_append]
  obtain hw | ⟨a, v, rfl, hv⟩ := last_slash w
  · rw [dirPart_of_last_slash hw]
  · have happ : u ++ slash :: (a ++ slash :: v) = (u ++ slash :: a) ++ slash :: v := by simp
    rw [happ, dirPart_of_last_slash hv]
    exact ⟨a ++ [slash], by simp⟩

section Tree

variable {d x y : FileEntry}

theorem stem_prefix_dirPart (h : stem d <+: x.name) : stem d <+: dirPart x.name := by
  obtain ⟨hnil, -⟩ | hstem := stem_eq d
  · rw [hnil]
    exact nil_prefix
  · rw [hstem] at h ⊢
    exact prefix_dirPart h

/-- A directory below another one. -/
theorem stem_prefix_stem (h : stem d <+: x.name) : stem d <+: stem x := by
  obtain ⟨-, hdot⟩ | hstem := stem_eq x
  · obtain ⟨hnil, -⟩ | hstem := stem_eq d
    · rw [hnil]
      exact nil_prefix
    · have hmem : slash ∈ x.name := h.subset (by simp [hstem])
      rw [hdot] at hmem
      exact absurd hmem (by decide)
  · rw [hstem]
    exact h.trans (prefix_append _ _)

/-- **The path of a directory begins the sequences of its tree**, -/
theorem inTree_initial (hx : NormalisedName x.name) (h : InTree d x) :
    (stem d).map (rank .path) <+: sortKey x := by
  obtain ⟨hname, hdir⟩ | ⟨hinitial, -⟩ := h
  · have hstem : stem d = stem x := by unfold stem; rw [hname]
    rw [sortKey_directory hx hdir, hstem]
  · cases hdir : x.isDir with
    | true =>
      rw [sortKey_directory hx hdir]
      exact (stem_prefix_stem hinitial).map _
    | false =>
      rw [sortKey_item hdir]
      exact ((stem_prefix_dirPart hinitial).map _).trans (prefix_append _ _)

theorem inTree_of_prefix (hx : NormalisedName x.name)
    (h : (stem d).map (rank .path) <+: sortKey x) : InTree d x := by
  have hbytes : stem d <+: keyBytes (sortKey x) := by
    have hmap := h.map UInt8.ofNat
    rwa [show map UInt8.ofNat ((stem d).map (rank .path)) = stem d from keyBytes_map _ _]
      at hmap
  have hbelow : stem d <+: x.name → InTree d x := by
    intro hinitial
    by_cases hself : IsEntryOf d x
    · exact .inl hself
    · exact .inr ⟨hinitial, hself⟩
  -- the key of a directory has a slash at the end that its name does not have
  cases hdir : x.isDir with
  | true =>
    rw [keyBytes_directory hx hdir] at hbytes
    obtain ⟨hnil, hdot⟩ | hstem := stem_eq x
    · apply hbelow
      rw [hnil] at hbytes
      exact hbytes.trans nil_prefix
    · rw [hstem, prefix_concat_iff] at hbytes
      obtain heq | hinitial := hbytes
      · exact .inl ⟨(stem_inj (heq.trans hstem.symm)).symm, hdir⟩
      · exact hbelow hinitial
  | false =>
    rw [keyBytes_item hdir] at hbytes
    exact hbelow hbytes

theorem fNameCmp_below (hd : NormalisedName d.name) (hx : NormalisedName x.name)
    (hdir : d.isDir = true) (h : Below d x) : fNameCmp d x = .lt := by
  rw [fNameCmp_eq]
  refine compareLex_of_prefix ?_ ?_
  · rw [sortKey_directory hd hdir]
    exact inTree_initial hx (.inr h)
  · intro heq
    obtain ⟨hname, hdirs⟩ := sortKey_inj hd hx heq
    exact h.2 ⟨hname.symm, hdirs ▸ hdir⟩

theorem dirPart_child (h : ChildOf d x) : dirPart x.name = stem d := by
  obtain ⟨⟨⟨c, hname⟩, -⟩, hc⟩ := h
  rw [← hname, drop_left] at hc
  rw [← hname]
  obtain ⟨hnil, -⟩ | hstem := stem_eq d
  · rw [hnil]
    exact dirPart_of_not_mem hc
  · simpa [hstem] using dirPart_of_last_slash hc

theorem compare_item_path (a b : UInt8) : compare (rank .item a) (rank .path b) = .lt :=
  compare_rank_types (show FncType.item ≠ .path from nofun) a b

theorem fNameCmp_children (hx : NormalisedName x.name) (hy : NormalisedName y.name)
    (hchildx : ChildOf d x) (hchildy : ChildOf d y) (hitem : x.isDir = false)
    (hdir : y.isDir = true) : fNameCmp x y = .lt := by
  obtain ⟨t, ht⟩ := stem_prefix_stem hchildy.1.1
  have hne : t ≠ [] := by
    rintro rfl
    rw [append_nil] at ht
    exact hchildy.1.2 ⟨(stem_inj ht).symm, hdir⟩
  have hkeyx : sortKey x = (stem d).map (rank .path) ++ x.basename.map (rank .item) := by
    rw [sortKey_item hitem, dirPart_child hchildx]
  have hkeyy : sortKey y = (stem d).map (rank .path) ++ t.map (rank .path) := by
    rw [sortKey_directory hy hdir, ← ht, map_append]
  rw [fNameCmp_eq, hkeyx, hkeyy, compareKeys, compareLex_append_left]
  obtain ⟨a, as, has⟩ := exists_cons_of_ne_nil hx.basename.1
  obtain ⟨b, bs, hbs⟩ := exists_cons_of_ne_nil hne
  rw [has, hbs, map_cons, map_cons, List.compareLex_cons_cons, compare_item_path]
  rfl

end Tree

/-! ## Sorted lists -/

section Sorted

variable {entries : List FileEntry} {x y : FileEntry} {i j : Nat}

theorem canonicallySorted_canonicalSort (entries : List FileEntry) :
    CanonicallySorted (canonicalSort entries) := by
  have hcmp : (fun a b => decide (fNameCmp a b ≠ .gt)) = fun a b => (fNameCmp a b).isLE := by
    funext a b
    cases fNameCmp a b <;> rfl
  unfold CanonicallySorted canonicalSort
  rw [hcmp]
  refine (pairwise_mergeSort_isLE entries).imp ?_
  intro a b hle hgt
  rw [hgt] at hle
  exact absurd hle nofun

theorem CanonicallySorted.isLE (h : CanonicallySorted entries) (hi : entries[i]? = some x)
    (hj : entries[j]? = some y) (hij : i ≤ j) : (fNameCmp x y).isLE = true := by
  obtain rfl | hlt := Nat.eq_or_lt_of_le hij
  · obtain rfl : x = y := Option.some.inj (hi.symm.trans hj)
    exact Std.ReflCmp.isLE_rfl
  · obtain ⟨hi', rfl⟩ := List.getElem?_eq_some_iff.mp hi
    obtain ⟨hj', rfl⟩ := List.getElem?_eq_some_iff.mp hj
    exact Ordering.isLE_iff_ne_gt.mpr (pairwise_iff_getElem.mp h i j hi' hj' hlt)

theorem CanonicallySorted.lt_of_lt (h : CanonicallySorted entries) (hi : entries[i]? = some x)
    (hj : entries[j]? = some y) (hlt : fNameCmp x y = .lt) : i < j := by
  by_contra hij
  have hle := h.isLE hj hi (Nat.le_of_not_lt hij)
  have hswap : fNameCmp y x = (fNameCmp x y).swap := Std.OrientedCmp.eq_swap
  rw [hswap, hlt] at hle
  exact absurd hle nofun

/-- **A sorted list of normalised names is in tree order.** -/
theorem CanonicallySorted.treeOrdered (h : CanonicallySorted entries)
    (hnames : ∀ e ∈ entries, NormalisedName e.name) : TreeOrdered entries where
  precedes := by
    intro d x i j hdir hi hj hbelow
    have hd := hnames d (mem_of_getElem? hi)
    have hx := hnames x (mem_of_getElem? hj)
    exact h.lt_of_lt hi hj (fNameCmp_below hd hx hdir hbelow)
  contiguous := by
    intro d x y z i j k hmem hdir hi hj hk hij hjk hx hz
    have hxy := h.isLE hi hj hij
    have hyz := h.isLE hj hk hjk
    rw [fNameCmp_eq] at hxy hyz
    -- the keys of a tree have a common beginning, and so has every key between two of them
    refine inTree_of_prefix (hnames y (mem_of_getElem? hj)) ?_
    exact prefix_of_between (inTree_initial (hnames x (mem_of_getElem? hi)) hx)
      (inTree_initial (hnames z (mem_of_getElem? hk)) hz) hxy hyz
  filesFirst := by
    intro d x y i j hd hdir hi hj hchildx hchildy hitem hdiry
    have hx := hnames x (mem_of_getElem? hi)
    have hy := hnames y (mem_of_getElem? hj)
    exact h.lt_of_lt hi hj (fNameCmp_children hx hy hchildx hchildy hitem hdiry)

end Sorted

theorem fNameCmp_eq_iff (ha : NormalisedName a.name) (hb : NormalisedName b.name) :
    fNameCmp a b = .eq ↔ a.name = b.name ∧ a.isDir = b.isDir := by
  constructor
  · intro heq
    rw [fNameCmp_eq] at heq
    exact sortKey_inj ha hb (Std.LawfulEqCmp.eq_of_compare heq)
  · rintro ⟨hname, hdir⟩
    rw [fNameCmp_congr hname hdir rfl rfl]
    exact Std.ReflCmp.compare_self

/-- **The canonical order is a tree order.** On all entries it is a total preorder; it tells
entries with normalised names apart by name and by which of them are directories, and sorts their
lists into tree order. -/
theorem canonical_tree_order :
    (∀ a, fNameCmp a a = .eq) ∧
    (∀ a b, fNameCmp b a = (fNameCmp a b).swap) ∧
    (∀ a b c, (fNameCmp a b).isLE → (fNameCmp b c).isLE → (fNameCmp a c).isLE) ∧
    (∀ a b : FileEntry, NormalisedName a.name → NormalisedName b.name →
      (fNameCmp a b = .eq ↔ a.name = b.name ∧ a.isDir = b.isDir)) ∧
    ∀ entries : List FileEntry, (∀ e ∈ entries, NormalisedName e.name) →
      TreeOrdered (canonicalSort entries) := by
  refine ⟨fun a => Std.ReflCmp.compare_self, fun a b => Std.OrientedCmp.eq_swap,
    fun a b c => Std.TransCmp.isLE_trans, fun a b => fNameCmp_eq_iff, ?_⟩
  intro entries hnames
  refine (canonicallySorted_canonicalSort entries).treeOrdered ?_
  intro e he
  exact hnames e ((mergeSort_perm entries _).mem_iff.mp he)

def named (name : List UInt8) (mode : UInt32) : FileEntry :=
  { FileEntry.default with name := name, mode := mode }

/-- The directories `.` and `a`, and a file and a directory in `a`. -/
def smallTree : List FileEntry :=
  [named [97, 47, 98] sIfdir, named [97] sIfdir, named [97, 47, 120] sIfreg, named [46] sIfdir]

theorem smallTree_treeOrdered :
    (∀ e ∈ smallTree, NormalisedName e.name) ∧ TreeOrdered (canonicalSort smallTree) := by
  have hnames : ∀ e ∈ smallTree, NormalisedName e.name := by
    unfold NormalisedName IsName
    decide
  exact ⟨hnames, canonical_tree_order.2.2.2.2 smallTree hnames⟩

/-- The directory `a/.` counts as `a`, and a file of `a` stands between it and `a/./x`. -/
def dottedTree : List FileEntry :=
  [named [97, 47, 46] sIfdir, named [97, 47, 45] sIfreg, named [97, 47, 46, 47, 120] sIfreg]

/-- Names with a component `.` need not be sorted into tree order. -/
theorem dotted_not_treeOrdered : ¬TreeOrdered (canonicalSort dottedTree) := by
  have hsorted : CanonicallySorted dottedTree := by decide +kernel
  rw [canonicalSort_of_sorted hsorted]
  intro h
  have hmiddle := h.contiguous (named [97, 47, 46] sIfdir) (named [97, 47, 46] sIfdir)
    (named [97, 47, 45] sIfreg) (named [97, 47, 46, 47, 120] sIfreg) 0 1 2 (by decide) (by decide)
    rfl rfl rfl (by decide) (by decide) (.inl ⟨rfl, by decide⟩)
    (.inr ⟨by decide, fun hself => absurd hself.2 (by decide)⟩)
  obtain ⟨hname, -⟩ | ⟨hstem, -⟩ := hmiddle
  · exact absurd hname (by decide)
  · exact absurd hstem (by decide)

end Ferrosync
