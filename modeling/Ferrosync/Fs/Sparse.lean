import Mathlib.Tactic

set_option autoImplicit false

/-! # Sparse files

`write_file_sparse` goes over blocks of zeros and writes the others. What has been gone over counts
as zeros, so the file reads as the data (`writeFileSparse_content`).
-/

namespace Ferrosync

/-- A file that is being written, with the position in it. -/
structure OpenFile where
  content : List UInt8
  pos : Nat
  deriving DecidableEq, Repr

namespace OpenFile

def openTruncated (_prior : List UInt8) : OpenFile := ⟨[], 0⟩

/-- `SeekFrom::Current`, also past the end. -/
def seek (f : OpenFile) (n : Nat) : OpenFile := { f with pos := f.pos + n }

/-- `write_all`; a gap in front of the position is filled with zeros. -/
def writeAll (f : OpenFile) (block : List UInt8) : OpenFile where
  content := f.content.take f.pos ++ List.replicate (f.pos - f.content.length) 0 ++ block ++
    f.content.drop (f.pos + block.length)
  pos := f.pos + block.length

def setLen (f : OpenFile) (n : Nat) : OpenFile :=
  { f with content := f.content.take n ++ List.replicate (n - f.content.length) 0 }

/-- A block of zeros is gone over. -/
def writeBlock (f : OpenFile) (block : List UInt8) : OpenFile :=
  if block.all (· = 0) then f.seek block.length else f.writeAll block

end OpenFile

def sparseBlockSize : Nat := 4096

/-- The loop over the blocks. -/
def writeSparseBlocks (data : List UInt8) (f : OpenFile) : OpenFile :=
  if _h : data = [] then f
  else
    writeSparseBlocks (data.drop sparseBlockSize) (f.writeBlock (data.take sparseBlockSize))
  termination_by data.length
  decreasing_by
    have := List.length_pos_of_ne_nil _h
    rw [List.length_drop, sparseBlockSize]
    omega

def writeFileSparse (prior data : List UInt8) : List UInt8 :=
  let f := writeSparseBlocks data (.openTruncated prior)
  if data ≠ [] then (f.setLen data.length).content else f.content

namespace OpenFile

/-- The content up to the position, with the gap filled. -/
def filled (f : OpenFile) : List UInt8 :=
  f.content ++ List.replicate (f.pos - f.content.length) 0

/-- The position is not inside of the content. -/
def AtEnd (f : OpenFile) : Prop := f.content.length ≤ f.pos

variable {f : OpenFile} {block : List UInt8}

theorem filled_seek (h : f.AtEnd) (hzero : block.all (· = 0) = true) :
    (f.seek block.length).AtEnd ∧ (f.seek block.length).filled = f.filled ++ block := by
  have hblock : block = List.replicate block.length 0 := by
    rw [List.eq_replicate_iff]
    exact ⟨rfl, by simpa using hzero⟩
  unfold AtEnd at h
  refine ⟨Nat.le_trans h (Nat.le_add_right ..), ?_⟩
  have hgap : f.pos + block.length - f.content.length =
      f.pos - f.content.length + block.length := by omega
  rw [filled, filled, seek, hgap, List.replicate_add, ← hblock, List.append_assoc]

theorem filled_writeAll (h : f.AtEnd) :
    (f.writeAll block).AtEnd ∧ (f.writeAll block).filled = f.filled ++ block := by
  unfold AtEnd at h
  have hcontent : (f.writeAll block).content = f.filled ++ block := by
    simp [writeAll, filled, List.take_of_length_le h,
      List.drop_of_length_le (Nat.le_trans h (Nat.le_add_right ..))]
  have hlen : (f.writeAll block).content.length = (f.writeAll block).pos := by
    rw [hcontent]
    simp [filled, writeAll]
    omega
  refine ⟨hlen.le, ?_⟩
  rw [filled, hlen, Nat.sub_self, hcontent]
  exact List.append_nil _

theorem filled_writeBlock (h : f.AtEnd) (block : List UInt8) :
    (f.writeBlock block).AtEnd ∧ (f.writeBlock block).filled = f.filled ++ block := by
  unfold writeBlock
  split_ifs with hzero
  · exact filled_seek h hzero
  · exact filled_writeAll h

end OpenFile

open OpenFile in
/-- Each block is added to what the file reads as. -/
theorem writeSparseBlocks_filled {data : List UInt8} {f : OpenFile} (h : f.AtEnd) :
    (writeSparseBlocks data f).AtEnd ∧ (writeSparseBlocks data f).filled = f.filled ++ data := by
  fun_induction writeSparseBlocks data f with
  | case1 => exact ⟨h, (List.append_nil _).symm⟩
  | case2 data f hne ih =>
    have hstep := filled_writeBlock h (data.take sparseBlockSize)
    obtain ⟨hend, hfilled⟩ := ih hstep.1
    refine ⟨hend, ?_⟩
    rw [hfilled, hstep.2, List.append_assoc, List.take_append_drop]

/-- **The file reads as the data.** -/
theorem writeFileSparse_content (prior data : List UInt8) :
    writeFileSparse prior data = data ∧ (writeFileSparse prior data).length = data.length := by
  obtain ⟨hend, hfilled⟩ := @writeSparseBlocks_filled data (.openTruncated prior) (Nat.le_refl 0)
  have hfilled : (writeSparseBlocks data (.openTruncated prior)).filled = data := hfilled
  have hpos : (writeSparseBlocks data (.openTruncated prior)).pos = data.length := by
    have hlen := congrArg List.length hfilled
    rw [OpenFile.filled, List.length_append, List.length_replicate] at hlen
    unfold OpenFile.AtEnd at hend
    omega
  have hcontent : writeFileSparse prior data = data := by
    unfold writeFileSparse
    dsimp only
    split_ifs with hne
    · rw [OpenFile.setLen, ← hpos, List.take_of_length_le hend]
      exact hfilled
    · rw [not_not] at hne
      rw [hne, writeSparseBlocks]
      rfl
  exact ⟨hcontent, congrArg List.length hcontent⟩

end Ferrosync
