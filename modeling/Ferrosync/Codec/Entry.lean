import Ferrosync.Types
import Ferrosync.Lib.UnixPath
import Mathlib.Data.List.DropRight

set_option autoImplicit false

/-! # File list entries

`FileEntry`, one file of a transfer, with its access control lists and extended attributes, and
the file type bits of its mode.
-/

namespace Ferrosync

open UnixPath

/-! ## Modes -/

def sIfmt : UInt32 := 0o170000

def sIfreg : UInt32 := 0o100000

def sIfdir : UInt32 := 0o040000

/-- `S_IFLNK`, also on the wire. -/
def sIflnk : UInt32 := 0o120000

def sIfblk : UInt32 := 0o060000

def sIfchr : UInt32 := 0o020000

def sIfifo : UInt32 := 0o010000

def sIfsock : UInt32 := 0o140000

/-! ## Attributes -/

inductive AceKind where
  | user
  | group
  deriving DecidableEq, Repr

structure PosixAce where
  kind : AceKind
  id : Nat
  name : Option (List UInt8)
  access : Nat
  deriving DecidableEq, Repr

structure PosixAclEntries where
  userObj : Option Nat
  groupObj : Option Nat
  mask : Option Nat
  other : Option Nat
  named : List PosixAce
  deriving DecidableEq, Repr

def PosixAclEntries.default : PosixAclEntries := ⟨none, none, none, none, []⟩

/-- `PosixAcl`, the only kind of `Acl`. -/
structure PosixAcl where
  access : PosixAclEntries
  default : Option PosixAclEntries
  deriving DecidableEq, Repr

structure XattrEntry where
  name : List UInt8
  value : List UInt8
  deriving DecidableEq, Repr

structure ExtendedAttributes where
  entries : List XattrEntry
  deriving DecidableEq, Repr

structure HardLinkInfo where
  dev : Nat
  ino : Nat
  nlink : Nat
  deriving DecidableEq, Repr

structure FileEntry where
  name : List UInt8
  len : Int
  mtime : Int
  mtimeNsec : Nat
  mode : UInt32
  uid : Nat
  gid : Nat
  rdev : Nat
  linkTarget : List UInt8
  checksum : List UInt8
  flags : Nat
  userName : List UInt8
  groupName : List UInt8
  hlinkSource : Option (List UInt8)
  hardLinkInfo : Option HardLinkInfo
  acl : Option PosixAcl
  xattrs : Option ExtendedAttributes
  deriving DecidableEq, Repr

/-- The part of a name up to its last slash. -/
def dirPart (name : List UInt8) : List UInt8 := name.rdropWhile (· ≠ slash)

/-- What stands before the last slash of a name, if it has one. -/
def parentOf (name : List UInt8) : Option (List UInt8) :=
  if name.contains slash then some (dirPart name).dropLast else none

namespace FileEntry

def default : FileEntry where
  name := []
  len := 0
  mtime := 0
  mtimeNsec := 0
  mode := 0
  uid := 0
  gid := 0
  rdev := 0
  linkTarget := []
  checksum := []
  flags := 0
  userName := []
  groupName := []
  hlinkSource := none
  hardLinkInfo := none
  acl := none
  xattrs := none

def isFile (e : FileEntry) : Bool := e.mode &&& sIfmt = sIfreg

def isDir (e : FileEntry) : Bool := e.mode &&& sIfmt = sIfdir

def isSymlink (e : FileEntry) : Bool := e.mode &&& sIfmt = sIflnk

section Kinds

variable {e : FileEntry}

theorem isSymlink_of_isDir (h : e.isDir = true) : e.isSymlink = false := by
  unfold isDir at h
  unfold isSymlink
  rw [decide_eq_true_eq] at h
  rw [h]
  decide

theorem isSymlink_of_isFile (h : e.isFile = true) : e.isSymlink = false := by
  unfold isFile at h
  unfold isSymlink
  rw [decide_eq_true_eq] at h
  rw [h]
  decide

theorem isDir_of_isFile (h : e.isFile = true) : e.isDir = false := by
  unfold isFile at h
  unfold isDir
  rw [decide_eq_true_eq] at h
  rw [h]
  decide

end Kinds

/-- `FileEntry::hard_link_info`: the identity of a regular file. -/
def linkInfo (e : FileEntry) : Option HardLinkInfo := if e.isFile then e.hardLinkInfo else none

/-- `FileEntry::dirname`. -/
def dirname (e : FileEntry) : Option (List UInt8) := parentOf e.name

def basename (e : FileEntry) : List UInt8 := e.name.rtakeWhile (· ≠ slash)

def rdevMajor (e : FileEntry) : Nat := e.rdev / 2 ^ 8 % 2 ^ 32

/-- `FileEntry::path`: the bytes of the name as they are. -/
def path (e : FileEntry) : Path := Path.ofBytes e.name

end FileEntry

end Ferrosync
