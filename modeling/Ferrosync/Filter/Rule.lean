import Ferrosync.Filter.Pattern

set_option autoImplicit false

/-! # Filter rules

A list of rules decides by its first rule that matches. `from_options` puts the rules of the
options in the order in which they are tried.
-/

namespace Ferrosync

inductive FilterAction where
  | include
  | exclude
  deriving DecidableEq, Repr

structure FilterRule where
  action : FilterAction
  pattern : Pattern
  deriving DecidableEq, Repr

/-- The action of a rule string and its pattern. -/
def splitRule (s : Text) : Option (FilterAction × Text) :=
  ((Text.dropStart "- ".toList s).map (Prod.mk .exclude)).or <|
  ((Text.dropStart "+ ".toList s).map (Prod.mk .include)).or <|
  ((Text.dropStart "exclude ".toList s).map (Prod.mk .exclude)).or <|
  (Text.dropStart "include ".toList s).map (Prod.mk .include)

def FilterRule.parse (s : Text) : Except FilterError FilterRule :=
  match splitRule s.trim with
  | none => .error (.invalidRule s.trim)
  | some (action, rest) => (Pattern.new rest.trim).map (FilterRule.mk action)

def FilterRule.matches (r : FilterRule) (path : List UInt8) (isDir : Bool) : Bool :=
  r.pattern.matches path isDir

/-- `FilterRuleList`, without the scopes of the directory walker. -/
structure FilterRuleList where
  rules : List FilterRule
  deriving DecidableEq, Repr

namespace FilterRuleList

def new : FilterRuleList := ⟨[]⟩

/-- `add_exclude` and `add_include`. -/
def addPattern (action : FilterAction) (list : FilterRuleList) (pattern : Text) :
    Except FilterError FilterRuleList := do
  let compiled ← Pattern.new pattern
  pure ⟨list.rules ++ [⟨action, compiled⟩]⟩

def addExclude : FilterRuleList → Text → Except FilterError FilterRuleList := addPattern .exclude

def addInclude : FilterRuleList → Text → Except FilterError FilterRuleList := addPattern .include

def addRule (list : FilterRuleList) (rule : Text) : Except FilterError FilterRuleList := do
  let parsed ← FilterRule.parse rule
  pure ⟨list.rules ++ [parsed]⟩

/-- The patterns of a file: its lines, without blank ones and comments. -/
def fileLines (content : Text) : List Text :=
  (content.lines.map Text.trim).filter fun line =>
    line ≠ [] ∧ line.head? ≠ some '#' ∧ line.head? ≠ some ';'

/-- `add_excludes_from_file` and `add_includes_from_file`; `readToString` is
`std::fs::read_to_string`. -/
def addFromFile (readToString : List UInt8 → Option Text) (action : FilterAction)
    (list : FilterRuleList) (path : List UInt8) : Except FilterError FilterRuleList :=
  match readToString path with
  | none => .error (.readFile path)
  | some content => (fileLines content).foldlM (addPattern action) list

def fromOptions (readToString : List UInt8 → Option Text) (excludes includes filters : List Text)
    (includeFrom excludeFrom : List (List UInt8)) : Except FilterError FilterRuleList := do
  let list ← filters.foldlM addRule new
  let list ← includes.foldlM addInclude list
  let list ← includeFrom.foldlM (addFromFile readToString .include) list
  let list ← excludeFrom.foldlM (addFromFile readToString .exclude) list
  excludes.foldlM addExclude list

def cvsExcludePatterns : List String :=
  ["RCS", "SCCS", "CVS", "CVS.adm", "RCSLOG", "cvslog.*", "tags", "TAGS", ".make.state",
    ".nse_depinfo", "*~", "#*", ".#*", ",*", "_$*", "*.old", "*.bak", "*.BAK", "*.orig", "*.rej",
    ".del-*", "*.a", "*.olb", "*.o", "*.obj", "*.so", "*.exe", "*.Z", "*.elc", "*.ln", "core",
    ".svn/", ".git/", ".hg/", ".bzr/"]

/-- `add_cvs_excludes`: a pattern that does not compile is left out. -/
def addCvsExcludes (list : FilterRuleList) : FilterRuleList :=
  cvsExcludePatterns.foldl (fun list pattern =>
    match addExclude list pattern.toList with
    | .ok longer => longer
    | .error _ => list) list

/-- The action of the first rule that matches. -/
def firstMatch (rules : List FilterRule) (path : List UInt8) (isDir : Bool) : Option FilterAction :=
  (rules.find? fun r => r.matches path isDir).map FilterRule.action

def isIncluded (list : FilterRuleList) (path : List UInt8) (isDir : Bool) : Bool :=
  match firstMatch list.rules path isDir with
  | some action => action = .include
  | none => true

end FilterRuleList

end Ferrosync
