import Ferrosync.Lib.Binary64
import Ferrosync.Lib.ByteStream
import Ferrosync.Lib.Loop

set_option autoImplicit false

/-! # Shared types of the program

Errors, checksum algorithms and the parts of the program that live outside this repository.

Signed 32-bit values are modelled as integers; where the source narrows a value, the model
applies `toI32` explicitly. A Rust panic and a loop that does not terminate are `Fault`s: they
are outcomes of their own, so that "returns `.ok`" excludes both.
-/

namespace Ferrosync

open ByteStream

/-! ## Errors -/

/-- The kinds of `std::io::Error` the modelled code can meet. -/
inductive IoKind where
  | unexpectedEof
  | notFound
  | permissionDenied
  | other
  deriving DecidableEq, Repr

/-- `ProtocolError`, restricted to the variants the modelled functions construct. -/
inductive ProtocolError where
  | invalidVarint (detail : String)
  | wireValueOutOfRange (field : String) (value max : Int)
  | checksumMismatch (expected actual : String)
  | handshake (message : String)
  | io (kind : IoKind)
  deriving DecidableEq, Repr

/-- Outcomes that are not values of the source's `Result`. -/
inductive Fault where
  | panic
  | diverged
  deriving DecidableEq, Repr

/-- An error of a modelled function: `ProtocolError`, an error of the file system, or a fault. -/
inductive Failure where
  | protocol (e : ProtocolError)
  | fs (kind : IoKind)
  | fault (f : Fault)
  deriving DecidableEq, Repr

/-- Readers of the wire. -/
abbrev Wire := Reader Failure

def unexpectedEof : Failure := .protocol (.io .unexpectedEof)

def outOfRange (field : String) (value max : Int) : Failure :=
  .protocol (.wireValueOutOfRange field value max)

/-! ## Machine integers -/

/-- `x as i32`: the representative of `x` modulo `2 ^ 32` in the signed range. -/
def toI32 (x : Int) : Int := x.bmod (2 ^ 32)

/-- `x as usize` for a signed `x`, on a 64-bit target. -/
def asUsize (x : Int) : Nat := (x % 2 ^ 64).toNat

def IsI32 (x : Int) : Prop := -2 ^ 31 ≤ x ∧ x < 2 ^ 31

instance (x : Int) : Decidable (IsI32 x) := inferInstanceAs (Decidable (_ ∧ _))

theorem toI32_eq {x : Int} (h : IsI32 x) : toI32 x = x := by
  obtain ⟨h₁, h₂⟩ := h
  unfold toI32
  rw [Int.bmod_def]
  split <;> omega

theorem isI32_toI32 (x : Int) : IsI32 (toI32 x) := by
  unfold IsI32 toI32
  rw [Int.bmod_def]
  split <;> omega

/-- A build with overflow checks, whose arithmetic panics, or one whose arithmetic wraps around. -/
inductive Build where
  | checked
  | wrapping
  deriving DecidableEq, Repr

/-- The result of an `i32` operation. -/
def Build.i32 (b : Build) (x : Int) : Except Failure Int :=
  match b with
  | .checked => if IsI32 x then .ok x else .error (.fault .panic)
  | .wrapping => .ok (toI32 x)

theorem Build.i32_eq {b : Build} {x : Int} (h : IsI32 x) : b.i32 x = .ok x := by
  cases b with
  | checked => exact if_pos h
  | wrapping => exact congrArg Except.ok (toI32_eq h)

/-- What has been subtracted can be added again. -/
theorem Build.i32_add_of_sub {b : Build} {x y diff : Int} (hx : IsI32 x)
    (h : b.i32 (x - y) = .ok diff) : b.i32 (y + diff) = .ok x := by
  cases b with
  | checked =>
    unfold Build.i32 at h
    dsimp only at h
    split_ifs at h
    cases h
    rw [add_sub_cancel]
    exact if_pos hx
  | wrapping =>
    cases h
    show Except.ok (toI32 (y + toI32 (x - y))) = .ok x
    simpa [toI32, add_sub_cancel] using toI32_eq hx

def toI64 (x : Int) : Int := x.bmod (2 ^ 64)

def IsI64 (x : Int) : Prop := -2 ^ 63 ≤ x ∧ x < 2 ^ 63

theorem isI64_toI64 (x : Int) : IsI64 (toI64 x) := by
  unfold toI64 IsI64
  rw [Int.bmod_def]
  split <;> omega

theorem toI64_eq {x : Int} (h : IsI64 x) : toI64 x = x := by
  obtain ⟨h₁, h₂⟩ := h
  unfold toI64
  rw [Int.bmod_def]
  split <;> omega

theorem asUsize_ofNat {n : Nat} (h : n < 2 ^ 64) : asUsize n = n := by
  unfold asUsize
  omega

theorem asUsize_of_nonneg {x : Int} (h₀ : 0 ≤ x) (h : x < 2 ^ 64) : asUsize x = x.toNat := by
  unfold asUsize
  omega

/-! ## Checksum algorithms -/

inductive ChecksumType where
  | none
  | md4
  | md5
  | blake3
  | xxh3
  | xxh128
  deriving DecidableEq, Repr

inductive CompressType where
  | none
  | zlib
  | zlibx
  | zstd
  | lz4
  deriving DecidableEq, Repr

def ChecksumType.digestLen : ChecksumType → Nat
  | .none => 0
  | .md4 => 16
  | .md5 => 16
  | .blake3 => 32
  | .xxh3 => 8
  | .xxh128 => 16

/-- What the program takes from outside: the hash crates, with the lengths of their digests, and
the logarithm of the floating-point library. Nothing is assumed of the hashes beyond their lengths,
so two inputs may have one digest; of the logarithm of a count only that it is not negative. -/
structure Externals where
  md4 : List UInt8 → List UInt8
  md5 : List UInt8 → List UInt8
  blake3 : List UInt8 → List UInt8
  xxh3 : List UInt8 → Nat
  xxh3WithSeed : List UInt8 → Nat → Nat
  xxh128 : List UInt8 → Nat
  xxh128WithSeed : List UInt8 → Nat → Nat
  /-- `(count as f64).log2()` for a positive count. -/
  log2 : Int → ℚ
  md4_length : ∀ d, (md4 d).length = 16
  md5_length : ∀ d, (md5 d).length = 16
  blake3_length : ∀ d, (blake3 d).length = 32
  log2_nonneg : ∀ count, 0 < count → 0 ≤ log2 count

/-- `ProtocolContext`: the negotiated parameters of the delta algorithm. -/
structure ProtocolContext where
  seed : Int32
  checksumType : ChecksumType
  charOffset : UInt32
  properSeedOrder : Bool
  blockSizeOverride : Option Int32

end Ferrosync
