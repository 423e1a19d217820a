import Ferrosync.Lib.Text

set_option autoImplicit false

/-! # Modules of the daemon

The registry of exported modules, their access rules by host and their authentication
settings. A computation whose arithmetic overflows is `none` in a build with overflow checks,
where it panics, and wraps in one without.
-/

namespace Ferrosync.Server

/-- A path of the configuration file. -/
abbrev PathBuf := Text

/-- `ModuleAuth`: `authUsers` as it stands in the configuration, empty for anonymous access. -/
structure ModuleAuth where
  authUsers : Text
  secretsFile : Option PathBuf
  deriving DecidableEq, Repr

namespace ModuleAuth

def requiresAuth (auth : ModuleAuth) : Bool := auth.authUsers ≠ []

/-- The separators of `auth users`. -/
def isSeparator (c : Char) : Bool := c == ',' || Text.isAsciiWhitespace c

def userList (auth : ModuleAuth) : List Text :=
  if auth.authUsers = [] then []
  else ((Text.split isSeparator auth.authUsers).map Text.trim).filter (· ≠ [])

end ModuleAuth

/-! ## Access by host -/

/-- The four numbers of a dotted address, as far as its parts are numbers. -/
def octets (addr : Text) : List UInt8 := (Text.split (· == '.') addr).filterMap Text.parseU8

def beU32 (a b c d : UInt8) : BitVec 32 := a.toBitVec ++ b.toBitVec ++ c.toBitVec ++ d.toBitVec

/-- `u32::MAX << (32 - prefix_len)`: with `prefix_len = 0` the shift overflows, and wraps to a
shift by nothing. -/
def cidrMask (overflowChecks : Bool) (prefixLen : UInt8) : Option (BitVec 32) :=
  if 32 ≤ prefixLen then some (BitVec.allOnes 32)
  else if prefixLen = 0 then
    if overflowChecks then none else some (BitVec.allOnes 32)
  else some (BitVec.allOnes 32 <<< (32 - prefixLen.toNat))

def cidrMatch (overflowChecks : Bool) (network : Text) (prefixLen : UInt8) (addr : Text) :
    Option Bool :=
  match octets network, octets addr with
  | [n1, n2, n3, n4], [a1, a2, a3, a4] => do
    let mask ← cidrMask overflowChecks prefixLen
    return beU32 n1 n2 n3 n4 &&& mask = beU32 a1 a2 a3 a4 &&& mask
  | _, _ => some false

def hostMatches (overflowChecks : Bool) (pattern addr : Text) : Option Bool :=
  if pattern = ['*'] then some true
  else if pattern = addr then some true
  else match Text.splitOnce '/' pattern with
    | some (network, prefixLenStr) =>
      match Text.parseU8 prefixLenStr with
      | some prefixLen => cidrMatch overflowChecks network prefixLen addr
      | none => some false
    | none => some false

structure AccessControl where
  hostsAllow : List Text
  hostsDeny : List Text
  deriving DecidableEq, Repr

namespace AccessControl

protected def default : AccessControl := ⟨[], []⟩

/-- A set `hostsAllow` decides alone. -/
def checkHost (access : AccessControl) (overflowChecks : Bool) (addr : Text) : Option Bool :=
  if access.hostsAllow ≠ [] then access.hostsAllow.anyM (hostMatches overflowChecks · addr)
  else do
    let denied ← access.hostsDeny.anyM (hostMatches overflowChecks · addr)
    return !denied

end AccessControl

/-! ## The registry -/

/-- A module, with what the connection handler reads of it. -/
structure Module where
  name : Text
  path : PathBuf
  readOnly : Bool
  list : Bool
  comment : Text
  auth : ModuleAuth
  access : AccessControl
  deriving DecidableEq, Repr

/-- `order` holds the keys of `modules` in the order of their first registration. -/
structure ModuleRegistry where
  modules : Text → Option Module
  order : List Text

namespace ModuleRegistry

def new : ModuleRegistry := ⟨fun _ => none, []⟩

/-- The key is the name in lower case; a module of the same key is replaced. -/
def register (registry : ModuleRegistry) (module : Module) : ModuleRegistry :=
  let key := Text.toAsciiLowercase module.name
  { modules := Function.update registry.modules key (some module)
    order := if (registry.modules key).isSome then registry.order else registry.order ++ [key] }

def resolveModule (registry : ModuleRegistry) (name : Text) : Option Module :=
  registry.modules (Text.toAsciiLowercase name)

def listVisible (registry : ModuleRegistry) : List Module :=
  (registry.order.filterMap registry.modules).filter (·.list)

@[simp] theorem resolveModule_register (registry : ModuleRegistry) (module : Module) :
    (registry.register module).resolveModule module.name = some module := by
  simp [register, resolveModule]

end ModuleRegistry

/-! ## Who is listed -/

/-- A listed user is a trimmed piece of `auth users` with no separator in it. -/
theorem mem_userList {auth : ModuleAuth} {user : Text} (h : user ∈ auth.userList) :
    user ≠ [] ∧ (∀ c ∈ user.head?, Text.isWhitespace c = false) ∧
      ∀ c ∈ user, ModuleAuth.isSeparator c = false := by
  unfold ModuleAuth.userList at h
  split_ifs at h with hset
  · exact absurd h List.not_mem_nil
  · obtain ⟨hmem, hne⟩ := List.mem_filter.mp h
    obtain ⟨piece, hpiece, rfl⟩ := List.mem_map.mp hmem
    refine ⟨by simpa using hne, fun c hc => Text.head_trim hc, fun c hc => ?_⟩
    exact Text.not_of_mem_split hpiece c ((Text.trim_infix piece).subset hc)

end Ferrosync.Server
