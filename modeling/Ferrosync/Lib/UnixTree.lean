import Ferrosync.Lib.UnixPath

set_option autoImplicit false

/-! # File trees with symbolic links

A tree is a partial map from locations (the names from `/` on) to nodes. `follow` resolves a list
of components against the links of the tree, as the kernel does, with a bound on the number of
links; a component that is missing or is not a directory is walked through as if it were one, so
that a path has a resolution also before it exists.

* `Unlinked links root names`: no link on the way along the names;
* `Closed links root`: no link below `root` leads out of it;
* `Closed.inside`: below such a root, components without `..` never lead out;
* `LinksInside`, `Below`: the same for a path `dest` that leads to the root and the paths below it;
* the operations of a file system on a tree, and which of them leave its links alone.
-/

namespace UnixPath

/-- The names from `/` on. -/
abbrev Loc := List (List UInt8)

inductive Node where
  | dir
  | file
  | symlink (target : Path)
  deriving DecidableEq

abbrev Tree := Loc → Option Node

/-- The target of the link at a location. -/
def Tree.links (t : Tree) (loc : Loc) : Option Path :=
  match t loc with
  | some (.symlink target) => some target
  | _ => none

/-- Where the components of a path are walked from. -/
def Path.start (dir : Loc) (p : Path) : Loc := if p.absolute then [] else dir

/-! ## Resolution -/

/-- Walk up to the first link, and go on from its target with `jump`. -/
def walkLinks (links : Loc → Option Path) (jump : Loc → List Part → Option Loc) :
    Loc → List Part → Option Loc
  | loc, [] => some loc
  | loc, .cur :: ps => walkLinks links jump loc ps
  | loc, .up :: ps => walkLinks links jump loc.dropLast ps
  | loc, .normal name :: ps =>
    match links (loc ++ [name]) with
    | some target => jump (target.start loc) (target.parts ++ ps)
    | none => walkLinks links jump (loc ++ [name]) ps

/-- Resolve components, through at most `n` links. -/
def follow (links : Loc → Option Path) : Nat → Loc → List Part → Option Loc
  | 0 => walkLinks links fun _ _ => none
  | n + 1 => walkLinks links (follow links n)

/-- The kernel's bound. -/
def maxLinks : Nat := 40

/-- Where a path leads, the last component followed. -/
def Tree.resolve (t : Tree) (cwd : Loc) (p : Path) : Option Loc :=
  follow t.links maxLinks (p.start cwd) p.parts

/-- The location a path names, the last component not followed. -/
def Tree.place (t : Tree) (cwd : Loc) (p : Path) : Option Loc :=
  match p.parts.getLast? with
  | some (.normal name) =>
    (follow t.links maxLinks (p.start cwd) p.parts.dropLast).map (· ++ [name])
  | _ => t.resolve cwd p

section Follow

variable {links : Loc → Option Path}

@[simp] theorem follow_nil (n : Nat) (loc : Loc) : follow links n loc [] = some loc := by
  cases n <;> rfl

@[simp] theorem follow_cur (n : Nat) (loc : Loc) (ps : List Part) :
    follow links n loc (.cur :: ps) = follow links n loc ps := by
  cases n <;> rfl

@[simp] theorem follow_up (n : Nat) (loc : Loc) (ps : List Part) :
    follow links n loc (.up :: ps) = follow links n loc.dropLast ps := by
  cases n <;> rfl

theorem follow_name {loc : Loc} {name : List UInt8} (h : links (loc ++ [name]) = none) (n : Nat)
    (ps : List Part) :
    follow links n loc (.normal name :: ps) = follow links n (loc ++ [name]) ps := by
  cases n <;> simp [follow, walkLinks, h]

theorem follow_link_zero {loc : Loc} {name : List UInt8} {target : Path}
    (h : links (loc ++ [name]) = some target) (ps : List Part) :
    follow links 0 loc (.normal name :: ps) = none := by
  simp [follow, walkLinks, h]

theorem follow_link_succ {loc : Loc} {name : List UInt8} {target : Path}
    (h : links (loc ++ [name]) = some target) (n : Nat) (ps : List Part) :
    follow links (n + 1) loc (.normal name :: ps) =
      follow links n (target.start loc) (target.parts ++ ps) := by
  simp [follow, walkLinks, h]

/-- The resolutions within a budget, as a relation; proofs about `follow` are inductions on
it. -/
inductive Follows (links : Loc → Option Path) : Nat → Loc → List Part → Loc → Prop where
  | nil {n loc} : Follows links n loc [] loc
  | cur {n loc ps r} (h : Follows links n loc ps r) : Follows links n loc (.cur :: ps) r
  | up {n loc ps r} (h : Follows links n loc.dropLast ps r) : Follows links n loc (.up :: ps) r
  | name {n loc name ps r} (hname : links (loc ++ [name]) = none)
      (h : Follows links n (loc ++ [name]) ps r) : Follows links n loc (.normal name :: ps) r
  | link {n loc name target ps r} (hlink : links (loc ++ [name]) = some target)
      (h : Follows links n (target.start loc) (target.parts ++ ps) r) :
      Follows links (n + 1) loc (.normal name :: ps) r

/-- A walk yields what the relation allows, if the jumps from its links do. -/
theorem follows_of_jumps {n : Nat}
    (hjump : ∀ (loc r : Loc) (name : List UInt8) (target : Path) (ps : List Part),
      links (loc ++ [name]) = some target → follow links n loc (.normal name :: ps) = some r →
      Follows links n loc (.normal name :: ps) r) :
    ∀ (ps : List Part) (loc r : Loc), follow links n loc ps = some r → Follows links n loc ps r := by
  intro ps
  induction ps with
  | nil =>
    intro loc r h
    rw [follow_nil] at h
    cases h
    exact .nil
  | cons p ps ih =>
    intro loc r h
    cases p with
    | cur => exact .cur (ih loc r (by simpa using h))
    | up => exact .up (ih _ r (by simpa using h))
    | normal name =>
      cases hlink : links (loc ++ [name]) with
      | none => exact .name hlink (ih _ r (by rwa [follow_name hlink] at h))
      | some target => exact hjump loc r name target ps hlink h

theorem follows_of_follow :
    ∀ (n : Nat) (ps : List Part) (loc r : Loc), follow links n loc ps = some r →
      Follows links n loc ps r := by
  intro n
  -- Induction on the jumps: a link starts over with one jump less.
  induction n with
  | zero =>
    refine follows_of_jumps fun loc r name target ps hlink h => ?_
    simp [follow_link_zero hlink] at h
  | succ n ih =>
    refine follows_of_jumps fun loc r name target ps hlink h => ?_
    rw [follow_link_succ hlink] at h
    exact .link hlink (ih _ _ r h)

theorem Follows.follow_eq {n : Nat} {loc r : Loc} {ps : List Part} (h : Follows links n loc ps r) :
    follow links n loc ps = some r := by
  induction h with
  | nil => exact follow_nil _ _
  | cur _ ih => simpa using ih
  | up _ ih => simpa using ih
  | name hname _ ih => rwa [follow_name hname]
  | link hlink _ ih => rwa [follow_link_succ hlink]

theorem follow_eq_some_iff {n : Nat} {loc r : Loc} {ps : List Part} :
    follow links n loc ps = some r ↔ Follows links n loc ps r :=
  ⟨follows_of_follow n ps loc r, Follows.follow_eq⟩

/-- A resolution passes through the resolution of what comes first. -/
theorem Follows.split {n : Nat} {loc r : Loc} {all : List Part} (h : Follows links n loc all r) :
    ∀ (ps qs : List Part), all = ps ++ qs →
      ∃ mid m, Follows links n loc ps mid ∧ Follows links m mid qs r := by
  induction h with
  | nil =>
    intro ps qs heq
    obtain ⟨rfl, rfl⟩ := List.nil_eq_append_iff.mp heq
    exact ⟨_, 0, .nil, .nil⟩
  | cur hrest ih =>
    intro ps qs heq
    rcases List.cons_eq_append_iff.mp heq with ⟨rfl, rfl⟩ | ⟨ps', rfl, heq'⟩
    · exact ⟨_, _, .nil, .cur hrest⟩
    · obtain ⟨mid, m, hmid, hqs⟩ := ih ps' qs heq'
      exact ⟨mid, m, .cur hmid, hqs⟩
  | up hrest ih =>
    intro ps qs heq
    rcases List.cons_eq_append_iff.mp heq with ⟨rfl, rfl⟩ | ⟨ps', rfl, heq'⟩
    · exact ⟨_, _, .nil, .up hrest⟩
    · obtain ⟨mid, m, hmid, hqs⟩ := ih ps' qs heq'
      exact ⟨mid, m, .up hmid, hqs⟩
  | name hname hrest ih =>
    intro ps qs heq
    rcases List.cons_eq_append_iff.mp heq with ⟨rfl, rfl⟩ | ⟨ps', rfl, heq'⟩
    · exact ⟨_, _, .nil, .name hname hrest⟩
    · obtain ⟨mid, m, hmid, hqs⟩ := ih ps' qs heq'
      exact ⟨mid, m, .name hname hmid, hqs⟩
  | @link n loc name target rest r hlink hrest ih =>
    intro ps qs heq
    rcases List.cons_eq_append_iff.mp heq with ⟨rfl, rfl⟩ | ⟨ps', rfl, heq'⟩
    · exact ⟨_, _, .nil, .link hlink hrest⟩
    · -- what is left of the budget goes to the target and the rest together
      obtain ⟨mid, m, hmid, hqs⟩ := ih (target.parts ++ ps') qs (by rw [heq', List.append_assoc])
      exact ⟨mid, m, .link hlink hmid, hqs⟩

end Follow

/-! ## Roots that nothing leads out of -/

section Closed

variable {links : Loc → Option Path} {root : Loc}

/-- No link below the root leads out of it. -/
def Closed (links : Loc → Option Path) (root : Loc) : Prop :=
  ∀ dir name target, root <+: dir → links (dir ++ [name]) = some target →
    ∀ n r, Follows links n (target.start dir) target.parts r → root <+: r

/-- **Components without `..` stay below a closed root.** -/
theorem Closed.inside (hclosed : Closed links root) :
    ∀ (ps : List Part) {n : Nat} {loc r : Loc}, Part.up ∉ ps → root <+: loc →
      Follows links n loc ps r → root <+: r := by
  intro ps
  induction ps with
  | nil =>
    intro n loc r _ hloc h
    cases h
    exact hloc
  | cons p ps ih =>
    intro n loc r hup hloc h
    rw [List.mem_cons, not_or] at hup
    cases h with
    | cur h => exact ih hup.2 hloc h
    | up h => exact absurd rfl hup.1
    | name _ h => exact ih hup.2 (hloc.trans (List.prefix_append loc _)) h
    | link hlink h =>
      obtain ⟨mid, m, hmid, hrest⟩ := h.split _ ps rfl
      exact ih hup.2 (hclosed _ _ _ hloc hlink _ mid hmid) hrest

/-- The target of a link is relative and has no `..`. -/
def Path.Plain (p : Path) : Prop := p.absolute = false ∧ Part.up ∉ p.parts

/-- Where all links below the root are plain, nothing leads out. -/
theorem closed_of_plain
    (hplain : ∀ dir name target, root <+: dir → links (dir ++ [name]) = some target →
      target.Plain) : Closed links root := by
  -- without `..` a walk only goes deeper, and a relative link starts over where it stands
  have hgen : ∀ {n : Nat} {loc r : Loc} {ps : List Part}, Follows links n loc ps r →
      Part.up ∉ ps → root <+: loc → root <+: r := by
    intro n loc r ps h
    induction h with
    | nil => exact fun _ hloc => hloc
    | cur _ ih =>
      simp
      omega
    | up _ _ => exact fun hup => absurd List.mem_cons_self hup
    | name _ _ ih =>
      intro hup hloc
      exact ih (fun hmem => hup (List.mem_cons_of_mem _ hmem))
        (hloc.trans (List.prefix_append _ _))
    | link hlink _ ih =>
      intro hup hloc
      obtain ⟨habs, htarget⟩ := hplain _ _ _ hloc hlink
      refine ih ?_ ?_
      · rw [List.mem_append, not_or]
        exact ⟨htarget, fun hmem => hup (List.mem_cons_of_mem _ hmem)⟩
      · rw [Path.start, if_neg (by simp [habs])]
        exact hloc
  intro dir name target hdir hlink n r h
  obtain ⟨habs, htarget⟩ := hplain dir name target hdir hlink
  rw [Path.start, if_neg (by simp [habs])] at h
  exact hgen h htarget hdir

end Closed

/-- The path `dest` leads to `root`, and no link below `root` leads out of it, whatever other links
it goes through. -/
structure LinksInside (cwd : Loc) (dest : Path) (root : Loc) (t : Tree) : Prop where
  leads : t.resolve cwd dest = some root
  closed : Closed t.links root

/-- All of it is decided by the links of the tree. -/
theorem LinksInside.congr {cwd : Loc} {dest : Path} {root : Loc} {t t' : Tree}
    (h : LinksInside cwd dest root t) (hlinks : t'.links = t.links) :
    LinksInside cwd dest root t' := by
  constructor
  · rw [Tree.resolve, hlinks]
    exact h.leads
  · rw [hlinks]
    exact h.closed

/-! ## Paths below another -/

/-- `p` is `dest`, with components other than `..` after it. -/
def Below (dest p : Path) : Prop :=
  ∃ ps, p = ⟨dest.absolute, dest.parts ++ ps⟩ ∧ Part.up ∉ ps

/-- The same with at least one. -/
def StrictlyBelow (dest p : Path) : Prop :=
  ∃ ps, p = ⟨dest.absolute, dest.parts ++ ps⟩ ∧ Part.up ∉ ps ∧ ps ≠ []

section Below

variable {dest p : Path}

theorem StrictlyBelow.below (h : StrictlyBelow dest p) : Below dest p := by
  obtain ⟨ps, heq, hup, -⟩ := h
  exact ⟨ps, heq, hup⟩

theorem below_refl (dest : Path) : Below dest dest := ⟨[], by simp, by simp⟩

theorem up_not_mem_dropCur {ps : List Part} (h : Part.up ∉ ps) : Part.up ∉ dropCur ps :=
  fun hmem => h (mem_dropCur.mp hmem).1

/-- Joining a plain path appends components other than `..`. -/
theorem join_plain (p : Path) {rel : Path} (hrel : rel.Plain) :
    ∃ qs, p.join rel = ⟨p.absolute, p.parts ++ qs⟩ ∧ Part.up ∉ qs ∧
      (dropCur rel.parts ≠ [] → qs ≠ []) := by
  obtain ⟨habs, hup⟩ := hrel
  rw [Path.join, if_neg (by simp [habs])]
  split_ifs with hempty
  · refine ⟨rel.parts, ?_, hup, ?_⟩
    · rw [hempty.1, hempty.2, List.nil_append, ← habs]
    · rintro hparts hnil
      rw [hnil] at hparts
      exact hparts rfl
  · exact ⟨dropCur rel.parts, rfl, up_not_mem_dropCur hup, id⟩

theorem Below.join (h : Below dest p) {rel : Path} (hrel : rel.Plain) : Below dest (p.join rel) := by
  obtain ⟨ps, rfl, hup⟩ := h
  obtain ⟨qs, heq, hqs, -⟩ := join_plain ⟨dest.absolute, dest.parts ++ ps⟩ hrel
  refine ⟨ps ++ qs, by rw [heq, List.append_assoc], ?_⟩
  simp [hup, hqs]

theorem Below.join_strict (h : Below dest p) {rel : Path} (hrel : rel.Plain)
    (hparts : dropCur rel.parts ≠ []) : StrictlyBelow dest (p.join rel) := by
  obtain ⟨ps, rfl, hup⟩ := h
  obtain ⟨qs, heq, hqs, hne⟩ := join_plain ⟨dest.absolute, dest.parts ++ ps⟩ hrel
  refine ⟨ps ++ qs, by rw [heq, List.append_assoc], ?_, ?_⟩
  · simp [hup, hqs]
  · simp [hne hparts]

theorem Path.single_plain (name : List UInt8) : (Path.single name).Plain :=
  ⟨rfl, by simp [Path.single]⟩

theorem Below.join_single (h : Below dest p) (name : List UInt8) :
    StrictlyBelow dest (p.join (.single name)) :=
  h.join_strict (Path.single_plain name) (by simp [Path.single, dropCur])

theorem StrictlyBelow.parent (h : StrictlyBelow dest p) : ∃ q, p.parent = some q ∧ Below dest q := by
  obtain ⟨ps, rfl, hup, hne⟩ := h
  refine ⟨⟨dest.absolute, (dest.parts ++ ps).dropLast⟩, by simp [Path.parent, hne], ps.dropLast, ?_, ?_⟩
  · rw [dropLast_append_of_ne_nil _ hne]
  · exact fun hmem => hup (List.mem_of_mem_dropLast hmem)

variable {cwd root : Loc} {t : Tree}

/-- What comes after the components of `dest` is walked from the root. -/
theorem LinksInside.follow_inside (h : LinksInside cwd dest root t) {ps : List Part} {r : Loc}
    (hup : Part.up ∉ ps)
    (hr : follow t.links maxLinks (dest.start cwd) (dest.parts ++ ps) = some r) : root <+: r := by
  obtain ⟨mid, m, hmid, hrest⟩ := (follow_eq_some_iff.mp hr).split dest.parts ps rfl
  have hroot : mid = root := by
    have hleads := h.leads
    simpa [Tree.resolve, hmid.follow_eq] using hleads
  exact h.closed.inside ps hup (hroot ▸ List.prefix_rfl) hrest

/-- **A path below leads to a place below.** -/
theorem LinksInside.resolve_inside (h : LinksInside cwd dest root t) (hp : Below dest p) {r : Loc}
    (hr : t.resolve cwd p = some r) : root <+: r := by
  obtain ⟨ps, rfl, hup⟩ := hp
  exact h.follow_inside hup hr

theorem LinksInside.place_inside (h : LinksInside cwd dest root t) (hp : StrictlyBelow dest p)
    {r : Loc} (hr : t.place cwd p = some r) : root <+: r := by
  have hbelow := hp.below
  obtain ⟨ps, rfl, hup, hne⟩ := hp
  unfold Tree.place at hr
  split at hr
  · obtain ⟨mid, hmid, rfl⟩ := Option.map_eq_some_iff.mp hr
    simp only [dropLast_append_of_ne_nil _ hne] at hmid
    have hinside := h.follow_inside (fun hmem => hup (List.mem_of_mem_dropLast hmem)) hmid
    exact hinside.trans (List.prefix_append mid _)
  · exact h.resolve_inside hbelow hr

end Below

/-! ## Operations -/

namespace Tree

def find (t : Tree) (cwd : Loc) (p : Path) : Option Node := (t.place cwd p).bind t

/-- `mkdir` of one directory; what is there stays. -/
def mkdirOne (t : Tree) (cwd : Loc) (p : Path) : Tree :=
  match t.place cwd p with
  | some loc => if t loc = none then Function.update t loc (some .dir) else t
  | none => t

/-- `create_dir_all`, up to the first `k` components. -/
def mkdirAll (t : Tree) (cwd : Loc) (p : Path) (k : Nat) : Tree :=
  (List.range k).foldl (fun t i => t.mkdirOne cwd ⟨p.absolute, p.parts.take (i + 1)⟩) t

/-- A file is opened for writing, and created if it is missing. -/
def Opens (t : Tree) (cwd : Loc) (p : Path) (t' : Tree) : Prop :=
  ∃ loc, t.resolve cwd p = some loc ∧ (t loc = none ∨ t loc = some .file) ∧
    t' = Function.update t loc (some .file)

/-- `remove_file`, of a file or a link. -/
def Removes (t : Tree) (cwd : Loc) (p : Path) (t' : Tree) : Prop :=
  ∃ loc node, t.place cwd p = some loc ∧ t loc = some node ∧ node ≠ .dir ∧
    t' = Function.update t loc none

def Symlinks (t : Tree) (cwd : Loc) (target p : Path) (t' : Tree) : Prop :=
  ∃ loc, t.place cwd p = some loc ∧ t loc = none ∧
    t' = Function.update t loc (some (.symlink target))

/-- `hard_link`; a link as source is not followed. -/
def HardLinks (t : Tree) (cwd : Loc) (src p : Path) (t' : Tree) : Prop :=
  ∃ node loc, t.find cwd src = some node ∧ node ≠ .dir ∧ t.place cwd p = some loc ∧
    t loc = none ∧ t' = Function.update t loc (some node)

/-- `rename`, with everything below the source. -/
def Renames (t : Tree) (cwd : Loc) (src dst : Path) (t' : Tree) : Prop :=
  ∃ old new, t.place cwd src = some old ∧ (t old).isSome ∧ t.place cwd dst = some new ∧
    t' = fun loc =>
      if new <+: loc then t (old ++ loc.drop new.length) else if old <+: loc then none else t loc

section Links

variable {t t' : Tree} {cwd : Loc} {p : Path}

/-- Putting something else than a link where no link was. -/
theorem links_update {loc : Loc} {node : Node} (hold : t.links loc = none)
    (hnew : ∀ target, node ≠ .symlink target) :
    links (Function.update t loc (some node)) = t.links := by
  funext l
  by_cases h : l = loc
  · subst h
    rw [hold]
    cases node with
    | dir | file => simp [links]
    | symlink target => exact absurd rfl (hnew target)
  · simp [links, h]

theorem mkdirOne_links (t : Tree) (cwd : Loc) (p : Path) : (t.mkdirOne cwd p).links = t.links := by
  unfold mkdirOne
  split
  · split_ifs with hnone
    · exact links_update (by simp [links, hnone]) (by simp)
    · rfl
  · rfl

theorem mkdirAll_links (t : Tree) (cwd : Loc) (p : Path) (k : Nat) :
    (t.mkdirAll cwd p k).links = t.links := by
  induction k with
  | zero => rfl
  | succ k ih =>
    have hsucc : t.mkdirAll cwd p (k + 1) =
        (t.mkdirAll cwd p k).mkdirOne cwd ⟨p.absolute, p.parts.take (k + 1)⟩ := by
      simp [mkdirAll, List.range_succ]
    rw [hsucc, mkdirOne_links, ih]

theorem Opens.links (h : t.Opens cwd p t') : t'.links = t.links := by
  obtain ⟨loc, -, hold, rfl⟩ := h
  refine links_update ?_ (by simp)
  rcases hold with hold | hold <;> simp [Tree.links, hold]

end Links

end Tree

end UnixPath
