import Ferrosync.Lib.Utf8

set_option autoImplicit false

/-! # Unix paths by components

Paths as the Rust standard library sees them: a flag for the root and a list of components, with
`.` kept only at the start of a relative path. `join`, `parent`, `file_name` and `with_file_name`
act on components. The *lexical* meaning of a path, `resolve`, is the list of names one ends up
with when `..` takes back the name before it and no link is followed.

* `Climbs ps`: some prefix of `ps` has more `..` than names;
* `within_join`: joining a relative path that does not climb stays below the base;
* `segments_lossy`: the lossy form of a text has the same components, up to the lossy form of
  their names;
* `ofBytes_spell`: names with `/` between them are read back.
-/

namespace UnixPath

open List

variable {name bs : List UInt8} {names cwd : List (List UInt8)}

def slash : UInt8 := 0x2F

def dot : UInt8 := 0x2E

/-- A component other than the root. -/
inductive Part where
  | cur
  | up
  | normal (name : List UInt8)
  deriving DecidableEq, Repr

structure Path where
  absolute : Bool
  parts : List Part
  deriving DecidableEq, Repr

/-! ## From bytes to components -/

/-- Split at every `/`. -/
def segments : List UInt8 → List (List UInt8)
  | [] => [[]]
  | b :: bs =>
    if b = slash then [] :: segments bs
    else match segments bs with
      | [] => [[b]]
      | s :: ss => (b :: s) :: ss

def Part.ofSegment (s : List UInt8) : Option Part :=
  if s = [] then none
  else if s = [dot] then some .cur
  else if s = [dot, dot] then some .up
  else some (.normal s)

def dropCur (ps : List Part) : List Part := ps.filter fun p => p ≠ .cur

/-- `Path::new(bytes).components()`. A `.` counts only as the first component of a relative
path. -/
def Path.ofBytes (bytes : List UInt8) : Path :=
  let parts := (segments bytes).filterMap Part.ofSegment
  if bytes.head? = some slash then ⟨true, dropCur parts⟩
  else match parts with
    | [] => ⟨false, []⟩
    | p :: ps => ⟨false, p :: dropCur ps⟩

/-! ## Operations -/

def Path.join (base other : Path) : Path :=
  if other.absolute then other
  else if base.absolute = false ∧ base.parts = [] then other
  else ⟨base.absolute, base.parts ++ dropCur other.parts⟩

/-- The path of the names below another. -/
def Path.below (base : Path) (names : List (List UInt8)) : Path :=
  ⟨base.absolute, base.parts ++ names.map .normal⟩

def Path.parent (p : Path) : Option Path :=
  if p.parts = [] then none else some ⟨p.absolute, p.parts.dropLast⟩

def Path.fileName (p : Path) : Option (List UInt8) :=
  match p.parts.getLast? with
  | some (.normal name) => some name
  | _ => none

def Path.withFileName (p name : Path) : Path :=
  if p.fileName.isSome then (p.parent.getD p).join name else p.join name

/-! ## Lexical meaning -/

/-- The names after one component. -/
def step (loc : List (List UInt8)) : Part → List (List UInt8)
  | .cur => loc
  | .up => loc.dropLast
  | .normal name => loc ++ [name]

def walk (loc : List (List UInt8)) (ps : List Part) : List (List UInt8) := ps.foldl step loc

/-- Where a path leads, lexically, from the working directory `cwd`. -/
def Path.resolve (cwd : List (List UInt8)) (p : Path) : List (List UInt8) :=
  walk (if p.absolute then [] else cwd) p.parts

/-- `p` is `root` or below it. -/
def Within (cwd : List (List UInt8)) (root p : Path) : Prop := root.resolve cwd <+: p.resolve cwd

instance (cwd : List (List UInt8)) (root p : Path) : Decidable (Within cwd root p) :=
  inferInstanceAs (Decidable (_ <+: _))

/-- From depth `n`, some prefix has more `..` than there are names to take back. -/
def climbsFrom : Nat → List Part → Bool
  | _, [] => false
  | n, .cur :: ps => climbsFrom n ps
  | 0, .up :: _ => true
  | n + 1, .up :: ps => climbsFrom n ps
  | n, .normal _ :: ps => climbsFrom (n + 1) ps

/-- The components lead above where they start. -/
def Climbs (ps : List Part) : Prop := climbsFrom 0 ps = true

instance (ps : List Part) : Decidable (Climbs ps) := inferInstanceAs (Decidable (_ = true))

/-! ## Walking -/

@[simp] theorem walk_nil (loc : List (List UInt8)) : walk loc [] = loc := rfl

@[simp] theorem walk_cons (loc : List (List UInt8)) (p : Part) (ps : List Part) :
    walk loc (p :: ps) = walk (step loc p) ps := rfl

theorem walk_append (loc : List (List UInt8)) (ps qs : List Part) :
    walk loc (ps ++ qs) = walk (walk loc ps) qs := List.foldl_append

theorem walk_dropCur (ps : List Part) : ∀ loc, walk loc (dropCur ps) = walk loc ps := by
  induction ps with
  | nil => exact fun _ => rfl
  | cons p ps ih =>
    intro loc
    cases p with
    | cur => exact ih loc
    | up => exact ih _
    | normal name => exact ih _

/-- A walk that does not climb keeps what it starts from. -/
theorem prefix_walk (base : List (List UInt8)) :
    ∀ (ps : List Part) (names : List (List UInt8)), climbsFrom names.length ps = false →
      base <+: walk (base ++ names) ps
  | [], names, _ => List.prefix_append base names
  | .cur :: ps, names, h => prefix_walk base ps names h
  | .up :: ps, names, h => by
    rcases List.eq_nil_or_concat names with rfl | ⟨init, last, rfl⟩
    · cases h
    · rw [List.concat_eq_append, List.length_append] at h
      simpa [walk_cons, step] using prefix_walk base ps init h
  | .normal name :: ps, names, h => by
    rw [walk_cons, step, List.append_assoc]
    refine prefix_walk base ps (names ++ [name]) ?_
    rw [List.length_append]
    exact h

variable {ps : List Part} {base other : Path}

theorem climbsFrom_append {qs : List Part} :
    ∀ {n : Nat}, climbsFrom n (ps ++ qs) = false → climbsFrom n ps = false := by
  induction ps with
  | nil => exact fun _ => rfl
  | cons p ps ih =>
    intro n h
    cases p with
    | cur => exact ih h
    | normal name => exact ih h
    | up =>
      cases n with
      | zero => exact h
      | succ n => exact ih h

theorem climbsFrom_dropCur (ps : List Part) :
    ∀ n, climbsFrom n (dropCur ps) = climbsFrom n ps := by
  induction ps with
  | nil => exact fun _ => rfl
  | cons p ps ih =>
    intro n
    cases p with
    | cur => exact ih n
    | normal name => exact ih (n + 1)
    | up =>
      cases n with
      | zero => rfl
      | succ n => exact ih n

theorem not_climbs_of_no_up (h : Part.up ∉ ps) : ¬ Climbs ps := by
  have hgen : ∀ (qs : List Part), Part.up ∉ qs → ∀ n, climbsFrom n qs = false := by
    intro qs
    induction qs with
    | nil => exact fun _ _ => rfl
    | cons p qs ih =>
      intro hqs n
      rw [mem_cons, not_or] at hqs
      cases p with
      | cur => exact ih hqs.2 n
      | normal name => exact ih hqs.2 (n + 1)
      | up => exact absurd rfl hqs.1
  rw [Climbs, hgen ps h 0]
  simp

/-! ## Joining -/

theorem resolve_join (h : other.absolute = false) (cwd : List (List UInt8)) :
    (base.join other).resolve cwd = walk (base.resolve cwd) other.parts := by
  rw [Path.join, if_neg (by simp [h])]
  by_cases hbase : base.absolute = false ∧ base.parts = []
  · simp [Path.resolve, h, hbase.1, hbase.2]
  · simp [hbase, Path.resolve, walk_append, walk_dropCur]

theorem within_refl (cwd : List (List UInt8)) (p : Path) : Within cwd p p := List.prefix_rfl

/-- **Joining stays below**: a relative path that does not climb stays below what it is joined
to. -/
theorem within_join {root : Path} (hbase : Within cwd root base) (habs : other.absolute = false)
    (hclimb : ¬ Climbs other.parts) : Within cwd root (base.join other) := by
  rw [Within, resolve_join habs]
  refine List.IsPrefix.trans hbase ?_
  have h := prefix_walk (base.resolve cwd) other.parts [] (by simpa [Climbs] using hclimb)
  rwa [append_nil] at h

def Path.single (name : List UInt8) : Path := ⟨false, [.normal name]⟩

theorem within_join_single {root : Path} (h : Within cwd root base) (name : List UInt8) :
    Within cwd root (base.join (.single name)) :=
  within_join h rfl (by simp [Path.single, Climbs, climbsFrom])

theorem climbsFrom_dropLast {n : Nat} (h : climbsFrom n ps = false) :
    climbsFrom n ps.dropLast = false := by
  rcases eq_nil_or_concat ps with rfl | ⟨init, last, rfl⟩
  · rfl
  · rw [concat_eq_append] at h ⊢
    simpa using climbsFrom_append h

theorem dropLast_append_of_ne_nil {α : Type} (as : List α) {bs : List α} (h : bs ≠ []) :
    (as ++ bs).dropLast = as ++ bs.dropLast := by
  rw [dropLast_append, if_neg (by simpa using h)]

/-- The parent of a path joined from at least one component other than `.` is below the base. -/
theorem within_parent_join {root q : Path} (habs : other.absolute = false)
    (hclimb : ¬ Climbs other.parts) (hparts : dropCur other.parts ≠ [])
    (hq : (root.join other).parent = some q) : Within cwd root q := by
  have hfalse : climbsFrom 0 other.parts = false := by simpa [Climbs] using hclimb
  -- the parent drops the last component of `other`, so it is a walk from the root as well
  obtain ⟨ps, hps, hresolve⟩ : ∃ ps, climbsFrom 0 ps = false ∧
      q.resolve cwd = walk (root.resolve cwd) ps := by
    rw [Path.join, if_neg (by simp [habs])] at hq
    by_cases hbase : root.absolute = false ∧ root.parts = []
    · rw [Path.parent] at hq
      split_ifs at hq
      obtain rfl := Option.some.inj hq
      refine ⟨other.parts.dropLast, climbsFrom_dropLast hfalse, ?_⟩
      simp [Path.resolve, habs, hbase.1, hbase.2]
    · rw [if_neg hbase, Path.parent, if_neg (by simp [hparts])] at hq
      obtain rfl := Option.some.inj hq
      refine ⟨(dropCur other.parts).dropLast, climbsFrom_dropLast ?_, ?_⟩
      · rw [climbsFrom_dropCur, hfalse]
      · simp only [Path.resolve]
        rw [dropLast_append_of_ne_nil _ hparts, walk_append]
  rw [Within, hresolve]
  have h := prefix_walk (root.resolve cwd) ps [] hps
  rwa [append_nil] at h

theorem parent_join_single (base : Path) (name : List UInt8) :
    (base.join (.single name)).parent = some base := by
  obtain ⟨absolute, parts⟩ := base
  by_cases h : absolute = false ∧ parts = []
  · obtain ⟨rfl, rfl⟩ := h
    rfl
  · have hjoin : Path.join ⟨absolute, parts⟩ (.single name) = ⟨absolute, parts ++ [.normal name]⟩ := by
      rw [Path.join, if_neg h]
      rfl
    rw [hjoin, Path.parent, if_neg (by simp), dropLast_concat]

/-! ## Lossy forms -/

theorem slash_ascii : slash < 0x80 := by decide

theorem segments_append_slash (as bs : List UInt8) (h : slash ∉ as) :
    segments (as ++ slash :: bs) = as :: segments bs := by
  induction as with
  | nil => rw [nil_append, segments, if_pos rfl]
  | cons a as ih =>
    rw [mem_cons, not_or] at h
    rw [cons_append, segments, if_neg (Ne.symm h.1), ih h.2]

theorem segments_of_no_slash (h : slash ∉ bs) : segments bs = [bs] := by
  induction bs with
  | nil => rfl
  | cons b bs ih =>
    rw [mem_cons, not_or] at h
    rw [segments, if_neg (Ne.symm h.1), ih h.2]

/-- Every text is free of `/` or splits at its first one. -/
theorem no_slash_or_split (bs : List UInt8) :
    slash ∉ bs ∨ ∃ as cs, bs = as ++ slash :: cs ∧ slash ∉ as := by
  induction bs with
  | nil => exact .inl (by simp)
  | cons b bs ih =>
    by_cases hb : b = slash
    · exact .inr ⟨[], bs, by rw [hb]; rfl, by simp⟩
    · have hb' : slash ≠ b := Ne.symm hb
      rcases ih with h | ⟨as, cs, rfl, has⟩
      · exact .inl (by simp [hb', h])
      · exact .inr ⟨b :: as, cs, rfl, by simp [hb', has]⟩

/-- **The lossy form has the lossy segments.** -/
theorem segments_lossy (bs : List UInt8) :
    segments (Utf8.lossy bs) = (segments bs).map Utf8.lossy := by
  rcases no_slash_or_split bs with h | ⟨as, cs, heq, has⟩
  · have hlossy : slash ∉ Utf8.lossy bs := fun hmem => h (Utf8.mem_of_mem_lossy slash_ascii hmem)
    rw [segments_of_no_slash h, segments_of_no_slash hlossy, map_singleton]
  · have hlossy : slash ∉ Utf8.lossy as := fun hmem => has (Utf8.mem_of_mem_lossy slash_ascii hmem)
    rw [heq, Utf8.lossy_append_ascii slash_ascii, segments_append_slash _ _ hlossy,
      segments_append_slash _ _ has, segments_lossy cs, map_cons]
termination_by bs.length

theorem ofSegment_eq_up_iff (s : List UInt8) : Part.ofSegment s = some .up ↔ s = [dot, dot] := by
  unfold Part.ofSegment
  split_ifs with h₁ h₂ h₃
  · simp [h₁]
  · simp [h₂]
  · simp [h₃]
  · simp [h₃]

theorem ofSegment_eq_normal {s : List UInt8} (h : Part.ofSegment s = some (.normal name)) :
    s = name ∧ name ≠ [] ∧ name ≠ [dot] ∧ name ≠ [dot, dot] := by
  unfold Part.ofSegment at h
  split_ifs at h with h₁ h₂ h₃
  · cases h
  · cases h
  · cases h
    exact ⟨rfl, h₁, h₂, h₃⟩

theorem ofSegment_lossy_eq_up_iff (s : List UInt8) :
    Part.ofSegment (Utf8.lossy s) = some .up ↔ Part.ofSegment s = some .up := by
  rw [ofSegment_eq_up_iff, ofSegment_eq_up_iff]
  constructor
  · intro h
    have hascii : ∀ b ∈ Utf8.lossy s, b < 0x80 := by
      rw [h]
      simp [dot]
    rwa [Utf8.lossy_eq_of_ascii hascii] at h
  · rintro rfl
    decide

theorem lossy_head_slash_iff (bs : List UInt8) :
    (Utf8.lossy bs).head? = some slash ↔ bs.head? = some slash := by
  constructor
  · intro h
    have hmem : slash ∈ bs := Utf8.mem_of_mem_lossy slash_ascii (mem_of_mem_head? h)
    rcases no_slash_or_split bs with hno | ⟨as, cs, rfl, has⟩
    · exact absurd hmem hno
    rw [Utf8.lossy_append_ascii slash_ascii] at h
    -- the text before the first `/` is empty, or it would be the head of the lossy form
    cases hl : Utf8.lossy as with
    | nil =>
      have heq : Utf8.lossy as = as := Utf8.lossy_eq_of_ascii (by simp [hl])
      have has_nil : as = [] := by
        rw [← heq, hl]
      rw [has_nil]
      rfl
    | cons b t =>
      rw [hl, cons_append, head?_cons, Option.some.injEq] at h
      refine absurd (Utf8.mem_of_mem_lossy slash_ascii ?_) has
      rw [hl, h]
      exact mem_cons_self
  · intro h
    cases bs with
    | nil => cases h
    | cons b cs =>
      rw [head?_cons, Option.some.injEq] at h
      rw [h]
      rfl

theorem ofBytes_absolute (bs : List UInt8) :
    (Path.ofBytes bs).absolute = true ↔ bs.head? = some slash := by
  unfold Path.ofBytes
  split_ifs with h
  · simp [h]
  · cases (segments bs).filterMap Part.ofSegment <;> simp [h]

theorem mem_dropCur {p : Part} : p ∈ dropCur ps ↔ p ∈ ps ∧ p ≠ .cur := by
  simp [dropCur]

theorem up_mem_ofBytes (bs : List UInt8) :
    Part.up ∈ (Path.ofBytes bs).parts ↔ ∃ s ∈ segments bs, Part.ofSegment s = some .up := by
  rw [← mem_filterMap]
  unfold Path.ofBytes
  split_ifs with h
  · simp [mem_dropCur]
  · cases (segments bs).filterMap Part.ofSegment <;> simp [mem_dropCur]

/-- A text that is the name of a directory entry. -/
def IsName (bs : List UInt8) : Prop :=
  slash ∉ bs ∧ bs ≠ [] ∧ bs ≠ [dot] ∧ bs ≠ [dot, dot]

instance : DecidablePred IsName := fun _ => inferInstanceAs (Decidable (_ ∧ _))

theorem no_slash_of_mem_segments (bs : List UInt8) : ∀ s ∈ segments bs, slash ∉ s := by
  induction bs with
  | nil => simp [segments]
  | cons b bs ih =>
    intro s hs
    rw [segments] at hs
    split_ifs at hs with hb
    · rcases mem_cons.mp hs with rfl | hs
      · simp
      · exact ih s hs
    -- the byte joins the first segment of the rest
    · have hb' : slash ≠ b := Ne.symm hb
      cases hseg : segments bs with
      | nil =>
        rw [hseg] at hs
        rw [mem_singleton.mp hs]
        simp [hb']
      | cons t ts =>
        rw [hseg] at hs ih
        rcases mem_cons.mp hs with rfl | hs
        · simp [hb', ih t (by simp)]
        · exact ih s (by simp [hs])

theorem normal_mem_ofBytes (h : Part.normal name ∈ (Path.ofBytes bs).parts) :
    IsName name := by
  have hmem : Part.normal name ∈ (segments bs).filterMap Part.ofSegment := by
    unfold Path.ofBytes at h
    split_ifs at h
    · exact (mem_dropCur.mp h).1
    · cases hparts : (segments bs).filterMap Part.ofSegment with
      | nil =>
        rw [hparts] at h
        cases h
      | cons p ps =>
        rw [hparts] at h
        rcases mem_cons.mp h with h | h
        · exact mem_cons.mpr (.inl h)
        · exact mem_cons_of_mem p (mem_dropCur.mp h).1
  obtain ⟨s, hs, hname⟩ := mem_filterMap.mp hmem
  obtain ⟨rfl, hne⟩ := ofSegment_eq_normal hname
  exact ⟨no_slash_of_mem_segments bs s hs, hne⟩

theorem IsName.ofBytes_eq (h : IsName bs) : Path.ofBytes bs = .single bs := by
  obtain ⟨hslash, hne, hdot, hdots⟩ := h
  have hhead : bs.head? ≠ some slash := fun hmem => hslash (mem_of_mem_head? hmem)
  rw [Path.ofBytes, if_neg hhead, segments_of_no_slash hslash]
  simp [Part.ofSegment, hne, hdot, hdots, Path.single, dropCur]

/-- A name stays one in its lossy form with a suffix. -/
theorem IsName.lossy_append {suffix : List UInt8} (h : IsName name) (hsuffix : slash ∉ suffix) :
    IsName (Utf8.lossy name ++ suffix) := by
  obtain ⟨hslash, hne, hdot, hdots⟩ := h
  -- otherwise the lossy form is all dots, so it is the name itself
  have hdots' : ∀ rest, Utf8.lossy name ++ suffix = rest → (∀ b ∈ rest, b = dot) →
      name ++ suffix = rest := by
    intro rest heq hrest
    have hascii : ∀ b ∈ Utf8.lossy name, b < 0x80 := by
      intro b hb
      rw [hrest b (heq ▸ mem_append_left suffix hb)]
      decide
    rwa [Utf8.lossy_eq_of_ascii hascii] at heq
  refine ⟨?_, ?_, ?_, ?_⟩
  · rw [mem_append, not_or]
    exact ⟨fun hmem => hslash (Utf8.mem_of_mem_lossy slash_ascii hmem), hsuffix⟩
  · intro heq
    exact hne (append_eq_nil_iff.mp (hdots' [] heq (by simp))).1
  · intro heq
    rcases append_eq_singleton_iff.mp (hdots' [dot] heq (by simp)) with ⟨h, -⟩ | ⟨h, -⟩
    · exact hne h
    · exact hdot h
  · intro heq
    have happ := hdots' [dot, dot] heq (by simp)
    match name, hne, hdot, hdots, happ with
    | [a], _, hdot, _, happ => exact hdot (by simp_all)
    | [a, b], _, _, hdots, happ => exact hdots (by simp_all)
    | a :: b :: c :: rest, _, _, _, happ => simp at happ

theorem dropCur_ofBytes_of_last_cur (h : (Path.ofBytes bs).parts.getLast? = some .cur) :
    dropCur (Path.ofBytes bs).parts = [] := by
  have hcur : ∀ ps, (dropCur ps).getLast? ≠ some .cur := by
    intro ps hlast
    exact (mem_dropCur.mp (mem_of_getLast? hlast)).2 rfl
  unfold Path.ofBytes at h ⊢
  split_ifs at h ⊢
  · exact absurd h (hcur _)
  -- a `.` is kept in front only, and so it is last only if it is alone
  · cases hparts : (segments bs).filterMap Part.ofSegment with
    | nil => rfl
    | cons p ps =>
      rw [hparts] at h
      cases hrest : dropCur ps with
      | nil =>
        simp only [hrest, getLast?_singleton, Option.some.injEq] at h
        simp only [hrest, h]
        rfl
      | cons q qs =>
        simp only [hrest] at h
        rw [getLast?_cons_cons, ← hrest] at h
        exact absurd h (hcur ps)

/-- A file name, for a joined path that ends neither in `.` nor in `..`. -/
theorem fileName_join (habs : other.absolute = false) (hup : Part.up ∉ other.parts)
    (hcur : other.parts.getLast? ≠ some .cur) (hparts : dropCur other.parts ≠ []) :
    ∃ name, (base.join other).fileName = some name ∧ Part.normal name ∈ other.parts := by
  have hlast : ∃ p, (base.join other).parts.getLast? = some p ∧ p ∈ other.parts ∧ p ≠ .cur := by
    rw [Path.join, if_neg (by simp [habs])]
    split_ifs
    · have hne : other.parts ≠ [] := by
        rintro hnil
        rw [hnil] at hparts
        exact hparts rfl
      refine ⟨other.parts.getLast hne, getLast?_eq_some_getLast hne, getLast_mem hne, ?_⟩
      rintro heq
      exact hcur (by rw [getLast?_eq_some_getLast hne, heq])
    · refine ⟨(dropCur other.parts).getLast hparts, ?_, ?_⟩
      · rw [getLast?_append_of_ne_nil _ hparts, getLast?_eq_some_getLast hparts]
      · exact mem_dropCur.mp (getLast_mem hparts)
  -- the last part of the joined path is a part of `other`, and no `.`
  obtain ⟨p, hp, hmem, hne⟩ := hlast
  cases p with
  | cur => exact absurd rfl hne
  | up => exact absurd hmem hup
  | normal name => exact ⟨name, by simp [Path.fileName, hp], hmem⟩

/-- A text and its lossy form are absolute together. -/
theorem ofBytes_lossy_absolute (bs : List UInt8) :
    (Path.ofBytes (Utf8.lossy bs)).absolute = (Path.ofBytes bs).absolute := by
  rw [Bool.eq_iff_iff, ofBytes_absolute, ofBytes_absolute, lossy_head_slash_iff]

theorem up_mem_ofBytes_lossy (bs : List UInt8) :
    Part.up ∈ (Path.ofBytes (Utf8.lossy bs)).parts ↔ Part.up ∈ (Path.ofBytes bs).parts := by
  rw [up_mem_ofBytes, up_mem_ofBytes, segments_lossy]
  simp [ofSegment_lossy_eq_up_iff]

/-! ## Paths spelled by their names -/

/-- Names with a `/` between them. -/
def spell : List (List UInt8) → List UInt8
  | [] => []
  | [name] => name
  | name :: next :: rest => name ++ slash :: spell (next :: rest)

theorem spell_snoc (hne : names ≠ []) (name : List UInt8) :
    spell (names ++ [name]) = spell names ++ slash :: name := by
  induction names with
  | nil => exact absurd rfl hne
  | cons first rest ih =>
    cases rest with
    | nil => rfl
    | cons next rest =>
      show first ++ slash :: spell (next :: rest ++ [name]) = _
      rw [ih (cons_ne_nil _ _)]
      simp [spell]

theorem segments_spell (h : ∀ name ∈ names, slash ∉ name) (hne : names ≠ []) :
    segments (spell names) = names := by
  induction names with
  | nil => exact absurd rfl hne
  | cons first rest ih =>
    rw [forall_mem_cons] at h
    cases rest with
    | nil => exact segments_of_no_slash h.1
    | cons next rest =>
      rw [spell, segments_append_slash _ _ h.1, ih h.2 (cons_ne_nil _ _)]

theorem dropCur_map_normal (names : List (List UInt8)) :
    dropCur (names.map .normal) = names.map .normal := by
  refine filter_eq_self.mpr fun p hp => ?_
  obtain ⟨name, -, rfl⟩ := mem_map.mp hp
  rfl

theorem IsName.ofSegment_eq (h : IsName name) :
    Part.ofSegment name = some (.normal name) := by
  obtain ⟨-, hne, hdot, hdots⟩ := h
  simp [Part.ofSegment, hne, hdot, hdots]

/-- Names are read back from their spelling. -/
theorem ofBytes_spell (h : ∀ name ∈ names, IsName name) (hne : names ≠ []) :
    Path.ofBytes (spell names) = ⟨false, names.map .normal⟩ := by
  have hparts : (segments (spell names)).filterMap Part.ofSegment = names.map .normal := by
    rw [segments_spell (fun name hname => (h name hname).1) hne, ← filterMap_eq_map]
    exact filterMap_congr fun name hname => (h name hname).ofSegment_eq
  obtain ⟨first, rest, rfl⟩ := exists_cons_of_ne_nil hne
  have hhead : (spell (first :: rest)).head? ≠ some slash := by
    obtain ⟨hslash, hfirst, -⟩ := h first mem_cons_self
    obtain ⟨b, name, rfl⟩ := exists_cons_of_ne_nil hfirst
    have hb : b ≠ slash := fun heq => hslash (heq ▸ mem_cons_self)
    cases rest <;> simpa [spell] using hb
  rw [Path.ofBytes, if_neg hhead, hparts]
  show (⟨false, .normal first :: dropCur (rest.map .normal)⟩ : Path) = _
  rw [dropCur_map_normal]
  rfl

theorem join_spell (base : Path) (h : ∀ name ∈ names, IsName name) (hne : names ≠ []) :
    base.join (Path.ofBytes (spell names)) = ⟨base.absolute, base.parts ++ names.map .normal⟩ := by
  rw [ofBytes_spell h hne, Path.join, if_neg (by simp)]
  split_ifs with hempty
  · rw [hempty.1, hempty.2]
    rfl
  · rw [dropCur_map_normal]

theorem segments_ne_nil (bs : List UInt8) : segments bs ≠ [] := by
  cases bs with
  | nil => exact cons_ne_nil _ _
  | cons b bs =>
    rw [segments]
    split_ifs
    · exact cons_ne_nil _ _
    · split <;> exact cons_ne_nil _ _

end UnixPath
