import Ferrosync.Lib.Text

set_option autoImplicit false

/-! # Glob patterns

`Pattern::new` compiles a pattern into segments, one per iteration of its loop; `matches` tries
them against a path, and for a pattern without a slash also against the last component.
-/

namespace Ferrosync

inductive FilterError where
  | invalidRule (rule : Text)
  | invalidPattern (pattern : Text) (message : String)
  | readFile (path : List UInt8)
  deriving DecidableEq, Repr

inductive Segment where
  /-- Any bytes but the slash. -/
  | star
  /-- Any bytes. -/
  | doubleStar
  /-- One byte but the slash. -/
  | question
  | literal (bytes : List UInt8)
  /-- One byte of a class, or not of it. -/
  | charClass (chars : List UInt8) (negated : Bool)
  deriving DecidableEq, Repr

/-- `Pattern`; the text for display is left out. -/
structure Pattern where
  anchored : Bool
  dirOnly : Bool
  segments : List Segment
  deriving DecidableEq, Repr

/-! ## Compiling -/

/-- `lo..=hi`. -/
def byteRange (lo hi : UInt8) : List UInt8 :=
  (List.range' lo.toNat (hi.toNat + 1 - lo.toNat)).map UInt8.ofNat

/-- The bytes of a class and what stands behind its bracket; `none` if there is none. -/
def classChars : List UInt8 → Option (List UInt8 × List UInt8)
  | [] => none
  | c :: d :: hi :: rest =>
    if c = 0x5D then some ([], d :: hi :: rest)
    else if d = 0x2D then (classChars rest).map fun (chars, tail) => (byteRange c hi ++ chars, tail)
    else (classChars (d :: hi :: rest)).map fun (chars, tail) => (c :: chars, tail)
  | c :: rest =>
    if c = 0x5D then some ([], rest)
    else (classChars rest).map fun (chars, tail) => (c :: chars, tail)

/-- `parse_char_class`, on the bytes behind the opening bracket. -/
def parseCharClass (body : List UInt8) : Except FilterError (Segment × List UInt8) :=
  let negated : Bool := body.head? = some 0x21 ∨ body.head? = some 0x5E
  match classChars (if negated then body.tail else body) with
  | some (chars, tail) => .ok (.charClass chars negated, tail)
  | none =>
    .error (.invalidPattern (Text.fromUtf8Lossy (0x5B :: body)) "unterminated character class")

/-- The bytes that end a literal: the star, the question mark and the bracket. -/
def isSpecial (b : UInt8) : Bool := b = 0x2A || b = 0x3F || b = 0x5B

/-- The slash behind a double star is implied. -/
def skipSlash : List UInt8 → List UInt8
  | [] => []
  | b :: rest => if b = 0x2F then rest else b :: rest

/-- One iteration of the loop of `compile`, at the byte `b`. -/
def nextSegment (b : UInt8) (rest : List UInt8) : Except FilterError (Segment × List UInt8) :=
  if b = 0x2A then
    if rest.head? = some 0x2A then .ok (.doubleStar, skipSlash rest.tail) else .ok (.star, rest)
  else if b = 0x3F then .ok (.question, rest)
  else if b = 0x5B then parseCharClass rest
  else .ok (.literal (b :: rest.takeWhile fun c => !isSpecial c),
    rest.dropWhile fun c => !isSpecial c)

theorem skipSlash_suffix (bytes : List UInt8) : skipSlash bytes <:+ bytes := by
  fun_cases skipSlash bytes <;> simp

theorem classChars_suffix {bytes chars tail : List UInt8}
    (h : classChars bytes = some (chars, tail)) : tail <:+ bytes := by
  fun_induction classChars bytes generalizing chars tail with
  | case1 => cases h
  | case2 d hi rest => cases h; exact List.suffix_cons _ _
  | case3 c hi rest hc ih =>
    obtain ⟨⟨chars', tail'⟩, hrec, heq⟩ := Option.map_eq_some_iff.mp h
    cases heq
    exact (ih hrec).trans (List.suffix_append [c, 0x2D, hi] rest)
  | case4 c d hi rest hc hd ih =>
    obtain ⟨⟨chars', tail'⟩, hrec, heq⟩ := Option.map_eq_some_iff.mp h
    cases heq
    exact (ih hrec).trans (List.suffix_cons _ _)
  | case5 rest hshort => cases h; exact List.suffix_cons _ _
  | case6 c rest hshort hc ih =>
    obtain ⟨⟨chars', tail'⟩, hrec, heq⟩ := Option.map_eq_some_iff.mp h
    cases heq
    exact (ih hrec).trans (List.suffix_cons _ _)

theorem parseCharClass_ok {body tail : List UInt8} {segment : Segment}
    (h : parseCharClass body = .ok (segment, tail)) :
    (∃ chars negated, segment = .charClass chars negated) ∧ tail <:+ body := by
  unfold parseCharClass at h
  dsimp only at h
  split at h
  · rename_i chars tail' hclass
    cases h
    refine ⟨⟨_, _, rfl⟩, (classChars_suffix hclass).trans ?_⟩
    split_ifs
    · exact List.tail_suffix _
    · exact List.suffix_rfl
  · cases h

/-- Each iteration takes at least the byte it looks at. -/
theorem nextSegment_suffix {b : UInt8} {rest tail : List UInt8} {segment : Segment}
    (h : nextSegment b rest = .ok (segment, tail)) : tail <:+ rest := by
  unfold nextSegment at h
  split_ifs at h
  · cases h
    exact (skipSlash_suffix _).trans (List.tail_suffix _)
  · cases h
    exact List.suffix_rfl
  · cases h
    exact List.suffix_rfl
  · exact (parseCharClass_ok h).2
  · cases h
    exact List.dropWhile_suffix _

def compile : List UInt8 → Except FilterError (List Segment)
  | [] => .ok []
  | b :: rest =>
    match h : nextSegment b rest with
    | .error e => .error e
    | .ok (segment, tail) =>
      have : tail.length < rest.length + 1 := Nat.lt_succ_of_le (nextSegment_suffix h).length_le
      (compile tail).map (segment :: ·)
  termination_by bytes => bytes.length

def Pattern.new (pattern : Text) : Except FilterError Pattern :=
  let anchored : Bool := pattern.head? = some '/'
  let body := if anchored then pattern.tail else pattern
  let dirOnly : Bool := body.getLast? = some '/'
  let body := if dirOnly then body.dropLast else body
  (compile (Text.encode body)).map fun segments =>
    ⟨anchored || body.contains '/', dirOnly, segments⟩

/-! ## Matching -/

/-- The rests that a star can leave: it stops behind the first slash. -/
def starRests : List UInt8 → List (List UInt8)
  | [] => [[]]
  | c :: text => (c :: text) :: if c = 0x2F then [] else starRests text

/-- `match_recursive`. -/
def matchSegments : List Segment → List UInt8 → Bool
  | [], text => text.isEmpty
  | .literal lit :: segments, text =>
    if lit <+: text then matchSegments segments (text.drop lit.length) else false
  | .star :: segments, text => (starRests text).any (matchSegments segments)
  | .doubleStar :: segments, text => text.tails.any (matchSegments segments)
  | .question :: segments, text =>
    match text with
    | [] => false
    | c :: text => if c ≠ 0x2F then matchSegments segments text else false
  | .charClass chars negated :: segments, text =>
    match text with
    | [] => false
    | c :: text =>
      if (if negated then !chars.contains c else chars.contains c)
      then matchSegments segments text else false

/-- The component behind the last slash, if there is a slash. -/
def lastComponent (path : List UInt8) : Option (List UInt8) :=
  if path.contains 0x2F then some (path.rtakeWhile fun b => b ≠ 0x2F) else none

def Pattern.matches (p : Pattern) (path : List UInt8) (isDir : Bool) : Bool :=
  if p.dirOnly && !isDir then false
  else if p.anchored then matchSegments p.segments path
  else matchSegments p.segments path || (lastComponent path).any (matchSegments p.segments)

end Ferrosync
