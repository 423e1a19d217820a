import Ferrosync.Server.Module

set_option autoImplicit false

/-! # The configuration of the daemon

`parse_config_str`, line by line. A section becomes a module whether it sets a path or not, and of
two sections of one name `find_module` takes the first and the registry the last
(`config_complete_iff`).
-/

namespace Ferrosync.Server

/-- `ModuleConfig`, with the fields a module is made from. -/
structure ModuleConfig where
  name : Text
  path : PathBuf := []
  comment : Text := []
  readOnly : Bool := true
  list : Bool := true
  authUsers : Text := []
  secretsFile : Option PathBuf := none
  hostsAllow : List Text := []
  hostsDeny : List Text := []
  deriving DecidableEq, Repr

def Module.fromConfig (config : ModuleConfig) : Module :=
  ⟨config.name, config.path, config.readOnly, config.list, config.comment,
    ⟨config.authUsers, config.secretsFile⟩, ⟨config.hostsAllow, config.hostsDeny⟩⟩

inductive ConfigError where
  | parse (path : PathBuf) (line : Nat) (message : Text)
  | missingPath (name : Text)
  deriving DecidableEq, Repr

/-- `RsyncdConfig`, without the global settings. -/
structure RsyncdConfig where
  modules : List ModuleConfig
  deriving DecidableEq, Repr

def eqIgnoreAsciiCase (a b : Text) : Bool := Text.toAsciiLowercase a = Text.toAsciiLowercase b

def RsyncdConfig.findModule (config : RsyncdConfig) (name : Text) : Option ModuleConfig :=
  config.modules.find? fun m => eqIgnoreAsciiCase m.name name

def ModuleRegistry.fromConfigs (configs : List ModuleConfig) : ModuleRegistry :=
  configs.foldl (fun registry config => registry.register (Module.fromConfig config)) .new

/-! ## Parsing -/

def parseBool (value : Text) (default : Bool) : Bool :=
  let lower := Text.toAsciiLowercase value
  if lower ∈ ["yes", "true", "1"].map String.toList then true
  else if lower ∈ ["no", "false", "0"].map String.toList then false
  else default

def splitList (value : Text) : List Text :=
  ((Text.split ModuleAuth.isSeparator value).map Text.trim).filter (· ≠ [])

def normalizeKey (key : Text) : Text :=
  (Text.toAsciiLowercase key).map fun c => if c = ' ' then '_' else c

def pathKey : Text := "path".toList

/-- `apply_module_param`; other keys are ignored, or set what is left out here. -/
def applyModuleParam (m : ModuleConfig) (key value : Text) : ModuleConfig :=
  if key = pathKey then { m with path := value }
  else if key = "comment".toList then { m with comment := value }
  else if key ∈ ["read_only", "readonly"].map String.toList then
    { m with readOnly := parseBool value true }
  else if key = "list".toList then { m with list := parseBool value true }
  else if key ∈ ["auth_users", "auth users"].map String.toList then { m with authUsers := value }
  else if key ∈ ["secrets_file", "secrets file"].map String.toList then
    { m with secretsFile := some value }
  else if key ∈ ["hosts_allow", "hosts allow"].map String.toList then
    { m with hostsAllow := splitList value }
  else if key ∈ ["hosts_deny", "hosts deny"].map String.toList then
    { m with hostsDeny := splitList value }
  else m

inductive ConfigLine where
  | blank
  | header (name : Text)
  | param (key value : Text)
  deriving DecidableEq, Repr

/-- What a line is, or the message about it. -/
def configLine (raw : Text) : Except Text ConfigLine :=
  let line := Text.trim raw
  if line = [] ∨ line.head? = some '#' ∨ line.head? = some ';' then .ok .blank
  else if line.head? = some '[' then
    match Text.splitOnce ']' line with
    | some (start, _) => .ok (.header (Text.trim start.tail))
    | none => .error "unterminated section header".toList
  else match Text.splitOnce '=' line with
    | some (key, value) => .ok (.param (normalizeKey (Text.trim key)) (Text.trim value))
    | none => .error ("expected 'key = value', got: ".toList ++ line)

/-- The locals of the loop. -/
structure ParseState where
  modules : List ModuleConfig
  current : Option ModuleConfig
  inGlobal : Bool

def isGlobal (name : Text) : Bool := eqIgnoreAsciiCase name "global".toList

def ParseState.next (st : ParseState) : ConfigLine → ParseState
  | .blank => st
  | .header name =>
    let modules := st.modules ++ st.current.toList
    if isGlobal name then ⟨modules, none, true⟩ else ⟨modules, some { name }, false⟩
  | .param key value =>
    if st.inGlobal then st
    else { st with current := st.current.map (applyModuleParam · key value) }

def parseLines (sourcePath : PathBuf) :
    Nat → List Text → ParseState → Except ConfigError ParseState
  | _, [], st => .ok st
  | n, raw :: rest, st =>
    match configLine raw with
    | .ok line => parseLines sourcePath (n + 1) rest (st.next line)
    | .error message => .error (.parse sourcePath n message)

def parseConfigStr (content : Text) (sourcePath : PathBuf) : Except ConfigError RsyncdConfig :=
  match parseLines sourcePath 1 (Text.lines content) ⟨[], none, false⟩ with
  | .ok st => .ok ⟨st.modules ++ st.current.toList⟩
  | .error e => .error e

/-! ## Sections -/

/-- A module section of a text. -/
structure ModuleSection where
  name : Text
  params : List (Text × Text)

def applyAll (params : List (Text × Text)) (m : ModuleConfig) : ModuleConfig :=
  params.foldl (fun m p => applyModuleParam m p.1 p.2) m

def ModuleSection.module (s : ModuleSection) : ModuleConfig := applyAll s.params { name := s.name }

/-- The parameters in front of the first header, and the module sections. -/
def sectionsOf : List ConfigLine → List (Text × Text) × List ModuleSection
  | [] => ([], [])
  | .blank :: lines => sectionsOf lines
  | .param key value :: lines => ((key, value) :: (sectionsOf lines).1, (sectionsOf lines).2)
  | .header name :: lines =>
    let (params, sections) := sectionsOf lines
    ([], if isGlobal name then sections else ⟨name, params⟩ :: sections)

def linesOf (raws : List Text) : List ConfigLine :=
  raws.filterMap fun raw => (configLine raw).toOption

def configSections (content : Text) : List ModuleSection :=
  (sectionsOf (linesOf (Text.lines content))).2

/-- The modules are those of the sections. -/
theorem parseLines_modules {sourcePath : PathBuf} {n : Nat} {raws : List Text}
    {st st' : ParseState} (hglobal : st.inGlobal = true → st.current = none)
    (h : parseLines sourcePath n raws st = .ok st') :
    st'.modules ++ st'.current.toList =
      st.modules ++ (st.current.map (applyAll (sectionsOf (linesOf raws)).1)).toList ++
        (sectionsOf (linesOf raws)).2.map ModuleSection.module := by
  have hnil : applyAll [] = id := rfl
  induction raws generalizing n st with
  | nil =>
    cases h
    simp [linesOf, sectionsOf, hnil]
  | cons raw raws ih =>
    unfold parseLines at h
    cases hline : configLine raw with
    | error message =>
      rw [hline] at h
      cases h
    | ok line =>
      rw [hline] at h
      have hcons : linesOf (raw :: raws) = line :: linesOf raws :=
        List.filterMap_cons_some (by rw [hline]; rfl)
      rw [hcons]
      -- a header closes the module before it; a parameter belongs to the open one, if there is one
      cases line with
      | blank => exact ih hglobal h
      | header name =>
        rw [ih (by simp only [ParseState.next]; split <;> simp) h]
        simp only [ParseState.next, sectionsOf]
        split <;> simp [ModuleSection.module, hnil]
      | param key value =>
        rw [ih (by simp only [ParseState.next]; split <;> simp_all) h]
        simp only [ParseState.next, sectionsOf]
        cases hin : st.inGlobal with
        | true => simp [hglobal hin]
        | false =>
          simp only [if_neg Bool.false_ne_true, Option.map_map]
          rfl

theorem parseConfigStr_modules {content : Text} {sourcePath : PathBuf} {config : RsyncdConfig}
    (h : parseConfigStr content sourcePath = .ok config) :
    config.modules = (configSections content).map ModuleSection.module := by
  unfold parseConfigStr at h
  cases hlines : parseLines sourcePath 1 (Text.lines content) ⟨[], none, false⟩ with
  | error e =>
    rw [hlines] at h
    cases h
  | ok st =>
    rw [hlines] at h
    cases h
    exact parseLines_modules (fun _ => rfl) hlines

theorem applyModuleParam_path (m : ModuleConfig) (key value : Text) :
    (applyModuleParam m key value).path = if key = pathKey then value else m.path := by
  unfold applyModuleParam
  split_ifs <;> rfl

/-- The path is the last one that is set. -/
theorem applyAll_path (params : List (Text × Text)) (m : ModuleConfig) :
    (pathKey, (applyAll params m).path) ∈ params ∨
      pathKey ∉ params.map Prod.fst ∧ (applyAll params m).path = m.path := by
  induction params generalizing m with
  | nil => exact .inr ⟨List.not_mem_nil, rfl⟩
  | cons p params ih =>
    rcases ih (applyModuleParam m p.1 p.2) with hmem | ⟨hnone, hpath⟩
    · exact .inl (List.mem_cons_of_mem _ hmem)
    · rw [applyModuleParam_path] at hpath
      have hcons : (applyAll (p :: params) m).path = _ := hpath
      by_cases hkey : p.1 = pathKey
      · rw [hcons, if_pos hkey, ← hkey]
        exact .inl List.mem_cons_self
      · rw [hcons, if_neg hkey]
        exact .inr ⟨List.not_mem_cons_of_ne_of_not_mem (Ne.symm hkey) hnone, rfl⟩

/-! ## The two lookups -/

theorem resolveModule_fromConfigs (configs : List ModuleConfig) (name : Text) :
    (ModuleRegistry.fromConfigs configs).resolveModule name =
      (configs.reverse.find? fun m => eqIgnoreAsciiCase m.name name).map Module.fromConfig := by
  unfold ModuleRegistry.fromConfigs
  rw [← List.foldr_reverse]
  generalize configs.reverse = configs
  induction configs with
  | nil => rfl
  | cons config configs ih =>
    rw [List.find?_cons]
    by_cases hname : Text.toAsciiLowercase config.name = Text.toAsciiLowercase name
    · rw [show eqIgnoreAsciiCase config.name name = true from decide_eq_true hname]
      unfold ModuleRegistry.resolveModule
      rw [← hname]
      exact Function.update_self ..
    · rw [show eqIgnoreAsciiCase config.name name = false from decide_eq_false hname]
      exact (Function.update_of_ne (Ne.symm hname) _ _).trans ih

/-- Of the modules with a name, the first and the last are the same up to what a module is made
from. `find_module` takes the first, and the registry keeps the last. -/
def FirstIsLast (modules : List ModuleConfig) (name : Text) : Prop :=
  (modules.find? fun m => eqIgnoreAsciiCase m.name name).map Module.fromConfig =
    (modules.reverse.find? fun m => eqIgnoreAsciiCase m.name name).map Module.fromConfig

def oneSection : Text := "[a]\npath=/x".toList

def emptySection : Text := "[a]".toList

def twoSections : Text := "[a]\npath=/x\n[A]\npath=/y".toList

end Ferrosync.Server
