import Ferrosync.Lib.ByteStream
import Ferrosync.Lib.Base64
import Ferrosync.Types
import Ferrosync.Server.Module

set_option autoImplicit false

/-! # Challenge-response authentication

The daemon sends a challenge; the client answers with its user name and a digest of its
password and the challenge; the daemon looks the password up in the secrets file, computes the
digest itself and compares.
-/

namespace Ferrosync.Server

open ByteStream

/-! ## Digests -/

/-- The output of MD4 and of MD5. -/
abbrev Digest16 := { bytes : List UInt8 // bytes.length = 16 }

/-- The two digest functions of the authentication protocol. -/
structure Digests where
  md4 : List UInt8 → Digest16
  md5 : List UInt8 → Digest16

/-- What one call of `generate_challenge` reads: the clock, the process and a counter. -/
structure ChallengeSeed where
  secs : Nat
  nanos : Nat
  pid : Nat
  counter : Nat

def generateChallenge (digests : Digests) (seed : ChallengeSeed) : Text :=
  let input := leBytes 8 seed.secs ++ leBytes 4 seed.nanos ++ leBytes 4 seed.pid ++
    leBytes 8 seed.counter ++ List.replicate 8 0
  Base64.encode (digests.md5 input)

theorem generateChallenge_eq (digests : Digests) (seed : ChallengeSeed) :
    ∃ raw : List UInt8, raw.length = 16 ∧ generateChallenge digests seed = Base64.encode raw := by
  exact ⟨_, (digests.md5 _).property, rfl⟩

def maxPasswordLen : Nat := 64

/-- The password's bytes, cut off or filled up with zeros to `maxPasswordLen`. -/
def padPassword (password : Text) : List UInt8 :=
  let bytes := (Text.encode password).take maxPasswordLen
  bytes ++ List.replicate (maxPasswordLen - bytes.length) 0

def computeResponse (digests : Digests) (password challenge : Text) : Text :=
  Base64.encode (digests.md5 (padPassword password ++ Text.encode challenge))

/-- The differences of all positions are collected before the answer is known. -/
def constantTimeEq (a b : List UInt8) : Bool :=
  if a.length ≠ b.length then false
  else (a.zip b).foldl (fun diff p => diff ||| (p.1 ^^^ p.2)) (0 : UInt8) = 0

theorem foldl_diff_eq_zero (a b : List UInt8) (diff : UInt8) (hlen : a.length = b.length) :
    (a.zip b).foldl (fun diff p => diff ||| (p.1 ^^^ p.2)) diff = 0 ↔ diff = 0 ∧ a = b := by
  induction a generalizing b diff with
  | nil =>
    have hb : b = [] := List.length_eq_zero_iff.mp hlen.symm
    simp [hb]
  | cons x a ih =>
    cases b with
    | nil => simp at hlen
    | cons y b =>
      rw [List.zip_cons_cons, List.foldl_cons, ih b _ (by simpa using hlen)]
      simp only [UInt8.or_eq_zero_iff, UInt8.xor_eq_zero_iff, List.cons.injEq]
      tauto

theorem constantTimeEq_iff (a b : List UInt8) : constantTimeEq a b = true ↔ a = b := by
  unfold constantTimeEq
  split_ifs with hlen
  · constructor
    · intro h
      cases h
    · intro h
      exact absurd (congrArg List.length h) hlen
  · have hlen : a.length = b.length := not_not.mp hlen
    simp [foldl_diff_eq_zero a b 0 hlen]

/-! ## The secrets file -/

inductive AuthError where
  | readSecretsFile (path : PathBuf) (source : IoKind)
  | authFailed (user : Text)
  | userNotFound (user : Text)
  | invalidResponse
  deriving DecidableEq, Repr

/-- The user and password of one line; comments, empty lines and lines without a colon have
none. -/
def secretsEntry (line : Text) : Option (Text × Text) :=
  let line := Text.trim line
  if line = [] ∨ line.head? = some '#' then none
  else (Text.splitOnce ':' line).map fun p => (Text.trim p.1, Text.trim p.2)

/-- The password of the first line that is an entry of `user`. -/
def findPassword (user : Text) (lines : List Text) : Option Text :=
  lines.findSome? fun line =>
    match secretsEntry line with
    | some (fileUser, password) => if fileUser = user then some password else none
    | none => none

/-- `readToString` is `std::fs::read_to_string`. -/
def lookupPassword (readToString : PathBuf → Except IoKind Text) (user : Text)
    (secretsPath : PathBuf) : Except AuthError Text :=
  match readToString secretsPath with
  | .error e => .error (.readSecretsFile secretsPath e)
  | .ok content =>
    match findPassword user (Text.lines content) with
    | some password => .ok password
    | none => .error (.userNotFound user)

def verifyResponse (digests : Digests) (readToString : PathBuf → Except IoKind Text)
    (user clientHash challenge : Text) (secretsPath : PathBuf) : Except AuthError Unit := do
  let password ← lookupPassword readToString user secretsPath
  let expectedHash := computeResponse digests password challenge
  if constantTimeEq (Text.encode expectedHash) (Text.encode clientHash) then .ok ()
  else .error (.authFailed user)

def parseAuthResponse (line : Text) : Except AuthError (Text × Text) :=
  match Text.splitOnce ' ' (Text.trim line) with
  | some (user, hash) =>
    if user ≠ [] ∧ hash ≠ [] then .ok (user, hash) else .error .invalidResponse
  | none => .error .invalidResponse

/-! ## What is checked -/

/-- The secrets file gives `user` the password `password`: the first of the user's entries
does. -/
def PasswordOf (content user password : Text) : Prop :=
  ∃ before line after, Text.lines content = before ++ line :: after ∧
    secretsEntry line = some (user, password) ∧
    ∀ earlier ∈ before, ∀ other, secretsEntry earlier ≠ some (user, other)

theorem findPassword_eq_some_iff (content user password : Text) :
    findPassword user (Text.lines content) = some password ↔
      PasswordOf content user password := by
  have hentry : ∀ line p, (match secretsEntry line with
      | some (fileUser, password) => if fileUser = user then some password else none
      | none => none) = some p ↔ secretsEntry line = some (user, p) := by
    intro line p
    cases hs : secretsEntry line with
    | none => simp
    | some e => simp [Prod.ext_iff]
  have hnone : ∀ line, (match secretsEntry line with
      | some (fileUser, password) => if fileUser = user then some password else none
      | none => none) = none ↔ ∀ p, secretsEntry line ≠ some (user, p) := by
    intro line
    rw [Option.eq_none_iff_forall_ne_some]
    exact forall_congr' fun p => not_congr (hentry line p)
  unfold findPassword PasswordOf
  rw [List.findSome?_eq_some_iff]
  simp only [hentry, hnone]

theorem verifyResponse_eq_ok_iff (digests : Digests) (readToString : PathBuf → Except IoKind Text)
    (user clientHash challenge : Text) (secretsPath : PathBuf) :
    verifyResponse digests readToString user clientHash challenge secretsPath = .ok () ↔
      ∃ content password, readToString secretsPath = .ok content ∧
        PasswordOf content user password ∧
        clientHash = computeResponse digests password challenge := by
  unfold verifyResponse lookupPassword
  cases hread : readToString secretsPath with
  | error e => simp [bind, Except.bind]
  | ok content =>
    have hcontent : ∀ password, PasswordOf content user password ↔
        findPassword user (Text.lines content) = some password :=
      fun password => (findPassword_eq_some_iff content user password).symm
    cases hfind : findPassword user (Text.lines content) with
    | none => simp [hcontent, hfind, bind, Except.bind]
    | some password =>
      -- the comparison in constant time is one of the encoded texts
      have heq : constantTimeEq (Text.encode (computeResponse digests password challenge))
          (Text.encode clientHash) = true ↔
            clientHash = computeResponse digests password challenge := by
        rw [constantTimeEq_iff, Text.encode_injective.eq_iff]
        exact eq_comm
      simp [hcontent, hfind, bind, Except.bind, heq]

theorem parseAuthResponse_eq_ok_iff (line user hash : Text) :
    parseAuthResponse line = .ok (user, hash) ↔
      Text.trim line = user ++ ' ' :: hash ∧ ' ' ∉ user ∧ user ≠ [] ∧ hash ≠ [] := by
  unfold parseAuthResponse
  constructor
  · intro h
    cases hs : Text.splitOnce ' ' (Text.trim line) with
    | none => simp [hs] at h
    | some p =>
      obtain ⟨u, r⟩ := p
      obtain ⟨htrim, hspace⟩ := Text.splitOnce_eq_some hs
      by_cases hne : u ≠ [] ∧ r ≠ []
      · have hur : u = user ∧ r = hash := by simpa [hs, hne] using h
        obtain ⟨rfl, rfl⟩ := hur
        exact ⟨htrim, hspace, hne⟩
      · simp only [hs, if_neg hne] at h
        cases h
  · rintro ⟨htrim, hspace, huser, hhash⟩
    simp [htrim, Text.splitOnce_append hspace, huser, hhash]

end Ferrosync.Server
