import Ferrosync.Codec.Entry

set_option autoImplicit false

/-! # The canonical order of a file list

`f_name_cmp` compares two entries by walking their paths, where a directory has a slash behind its
name. Whether a walker stands on a path or on an item decides before the bytes do, so that the
files of a directory come before its subdirectories.
-/

namespace Ferrosync

open UnixPath

/-- `State` of a walker. -/
inductive WalkState where
  | dir
  | slash
  | base
  | trailing
  | done
  deriving DecidableEq, Repr

inductive FncType where
  | path
  | item
  deriving DecidableEq, Repr

structure Walker where
  basename : List UInt8
  dirname : Option (List UInt8)
  isDir : Bool
  state : WalkState
  fncType : FncType
  pos : Nat
  deriving DecidableEq, Repr

namespace Walker

def new (e : FileEntry) : Walker :=
  match e.dirname with
  | some d =>
    ⟨e.basename, some d, e.isDir, if d = [] then .slash else .dir, .path, 0⟩
  | none =>
    if e.isDir ∧ e.basename = [46] then ⟨e.basename, none, e.isDir, .trailing, .item, 0⟩
    else ⟨e.basename, none, e.isDir, .base, if e.isDir then .path else .item, 0⟩

/-- `Walker::current_char`, with the walker it leaves behind. -/
def currentChar (w : Walker) : Option UInt8 × Walker :=
  match w.state with
  | .dir =>
    match (w.dirname.getD [])[w.pos]? with
    | some c => (some c, w)
    | none => (some UnixPath.slash, { w with state := .slash, pos := 0 })
  | .slash => (some UnixPath.slash, w)
  | .base =>
    match w.basename[w.pos]? with
    | some c => (some c, w)
    | none =>
      if w.fncType = .path then (some UnixPath.slash, { w with state := .trailing })
      else (none, { w with state := .done, fncType := .item })
  | .trailing => (none, { w with state := .done, fncType := .item })
  | .done => (none, w)

def advance (w : Walker) : Walker :=
  match w.state with
  | .dir => { w with pos := w.pos + 1 }
  | .slash =>
    -- a directory called `.` has no name of its own
    if w.isDir ∧ w.basename = [46] then { w with fncType := .item, state := .trailing, pos := 0 }
    else { w with fncType := if w.isDir then .path else .item, state := .base, pos := 0 }
  | .base => { w with pos := w.pos + 1 }
  | .trailing => { w with fncType := .item, state := .done, pos := 0 }
  | .done => w

def remaining (w : Walker) : Nat :=
  match w.state with
  | .dir => (w.dirname.getD []).length - w.pos + w.basename.length + 3
  | .slash => w.basename.length + 2
  | .base => w.basename.length - w.pos + 1
  | .trailing => 0
  | .done => 0

end Walker

def typeOrder (a : FncType) : Ordering := if a = .path then .gt else .lt

/-- The loop of `f_name_cmp`. A walker moves on in every round. -/
def compareWalkers : Nat → Walker → Walker → Ordering
  | 0, _, _ => .eq
  | fuel + 1, wa, wb =>
    let ca := wa.currentChar
    let cb := wb.currentChar
    match ca.1, cb.1 with
    | none, none => .eq
    | none, some _ =>
      if ca.2.fncType ≠ cb.2.fncType then typeOrder ca.2.fncType else .lt
    | some _, none =>
      if ca.2.fncType ≠ cb.2.fncType then typeOrder ca.2.fncType else .gt
    | some ac, some bc =>
      if ac ≠ bc then compare ac bc
      else
        let na := ca.2.advance
        let nb := cb.2.advance
        if na.fncType ≠ nb.fncType then
          let ma := na.currentChar
          let mb := nb.currentChar
          if ma.1.isSome ∨ mb.1.isSome then typeOrder ma.2.fncType
          else compareWalkers fuel ma.2 mb.2
        else compareWalkers fuel na nb

def fNameCmp (a b : FileEntry) : Ordering :=
  let wa := Walker.new a
  let wb := Walker.new b
  if wa.fncType ≠ wb.fncType then typeOrder wa.fncType
  else compareWalkers (wa.remaining + 2) wa wb

/-- `canonical_sort`; the sort is stable. -/
def canonicalSort (entries : List FileEntry) : List FileEntry :=
  entries.mergeSort fun a b => fNameCmp a b ≠ .gt

def CanonicallySorted (entries : List FileEntry) : Prop :=
  entries.Pairwise fun a b => fNameCmp a b ≠ .gt

instance (entries : List FileEntry) : Decidable (CanonicallySorted entries) :=
  inferInstanceAs (Decidable (List.Pairwise _ _))

/-! ## Laws -/

namespace Walker

/-- A character that is read leaves fewer to read. -/
theorem remaining_advance_lt {w : Walker} {c : UInt8} (h : w.currentChar.1 = some c) :
    w.currentChar.2.advance.remaining < w.remaining := by
  obtain ⟨base, dirname, isDir, state, fncType, pos⟩ := w
  -- behind the slash comes the name, or nothing for the directory `.`
  have hslash : ∀ d t p, (advance ⟨base, d, isDir, .slash, t, p⟩).remaining < base.length + 2 := by
    intro d t p
    simp only [advance]
    split <;> simp [remaining]
  cases state with
  | dir =>
    simp only [currentChar] at h ⊢
    cases hget : (dirname.getD [])[pos]? with
    | some d =>
      obtain ⟨hlt, -⟩ := List.getElem?_eq_some_iff.mp hget
      simp only [advance, remaining]
      omega
    | none =>
      have := hslash dirname fncType 0
      simp only [remaining] at this ⊢
      omega
  | slash => exact hslash dirname fncType pos
  | base =>
    simp only [currentChar] at h ⊢
    cases hget : base[pos]? with
    | some d =>
      obtain ⟨hlt, -⟩ := List.getElem?_eq_some_iff.mp hget
      simp only [advance, remaining]
      omega
    | none =>
      simp only [hget] at h ⊢
      by_cases hpath : fncType = .path
      · simp [hpath, advance, remaining]
      · simp [hpath] at h
  | trailing | done => simp [currentChar] at h

end Walker

theorem fNameCmp_congr {a a' b b' : FileEntry} (ha : a.name = a'.name) (hda : a.isDir = a'.isDir)
    (hb : b.name = b'.name) (hdb : b.isDir = b'.isDir) : fNameCmp a b = fNameCmp a' b' := by
  have hnew : ∀ {e e' : FileEntry}, e.name = e'.name → e.isDir = e'.isDir →
      Walker.new e = Walker.new e' := by
    intro e e' hname hdir
    unfold Walker.new FileEntry.dirname FileEntry.basename
    rw [hname, hdir]
  unfold fNameCmp
  rw [hnew ha hda, hnew hb hdb]

theorem canonicalSort_of_sorted {entries : List FileEntry} (h : CanonicallySorted entries) :
    canonicalSort entries = entries :=
  List.mergeSort_of_pairwise (h.imp fun hab => decide_eq_true hab)

/-- Sortedness is about names and which of them are directories. -/
theorem CanonicallySorted.of_forall₂ {as bs : List FileEntry}
    (h : List.Forall₂ (fun a b : FileEntry => a.name = b.name ∧ a.isDir = b.isDir) as bs)
    (has : CanonicallySorted as) : CanonicallySorted bs := by
  unfold CanonicallySorted at has ⊢
  induction h with
  | nil => exact List.Pairwise.nil
  | cons hab htail ih =>
    rw [List.pairwise_cons] at has ⊢
    refine ⟨?_, ih has.2⟩
    intro b hb
    obtain ⟨i, hi, rfl⟩ := List.mem_iff_getElem.mp hb
    have hlen := htail.length_eq
    have hi' : i < _ := hlen ▸ hi
    obtain ⟨hname, hdir⟩ := htail.get hi' hi
    have hsame := fNameCmp_congr hab.1 hab.2 hname hdir
    exact fun hgt => has.1 _ (List.getElem_mem hi') (hsame.trans hgt)

end Ferrosync
