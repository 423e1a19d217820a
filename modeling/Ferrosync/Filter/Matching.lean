import Ferrosync.Filter.Pattern

set_option autoImplicit false

/-! # What patterns match

A text is matched if it can be cut into pieces, one for each segment (`matchSegments_iff`). So only
`**` and classes of characters cross a slash: a class takes the slash like any other byte
(`anchored_slashes_iff`). The slash behind `**` is dropped, and with it the border of the component
(`double_star_component_iff`).
-/

namespace Ferrosync

open List

/-! ## Pieces -/

/-- What a segment can match. -/
def Segment.Piece : Segment → List UInt8 → Prop
  | .literal lit, piece => piece = lit
  | .star, piece => 0x2F ∉ piece
  | .doubleStar, _ => True
  | .question, piece => ∃ c, piece = [c] ∧ c ≠ 0x2F
  | .charClass chars negated, piece => ∃ c, piece = [c] ∧ if negated then c ∉ chars else c ∈ chars

variable {text : List UInt8} {s : Segment} {segments : List Segment}

theorem mem_starRests {rest : List UInt8} :
    rest ∈ starRests text ↔ ∃ piece, text = piece ++ rest ∧ 0x2F ∉ piece := by
  induction text with
  | nil =>
    simp only [starRests, mem_singleton, nil_eq, append_eq_nil_iff]
    constructor
    · rintro rfl
      simp
    · rintro ⟨-, ⟨-, h⟩, -⟩
      exact h
  | cons c text ih =>
    rw [starRests, mem_cons]
    constructor
    · rintro (rfl | h)
      · exact ⟨[], rfl, not_mem_nil⟩
      -- a star stops in front of a slash
      · split_ifs at h with hc
        · exact absurd h not_mem_nil
        · obtain ⟨piece, rfl, hpiece⟩ := ih.mp h
          exact ⟨c :: piece, rfl, by simp [Ne.symm hc, hpiece]⟩
    · rintro ⟨piece, heq, hpiece⟩
      cases piece with
      | nil => exact .inl heq.symm
      | cons d piece =>
        obtain ⟨rfl, rfl⟩ := cons.inj heq
        rw [mem_cons, not_or] at hpiece
        rw [if_neg (Ne.symm hpiece.1)]
        exact .inr (ih.mpr ⟨piece, rfl, hpiece.2⟩)

/-- One step of the recursion: a piece is cut off in front. -/
theorem matchSegments_cons :
    matchSegments (s :: segments) text = true ↔
      ∃ piece rest, text = piece ++ rest ∧ s.Piece piece ∧ matchSegments segments rest = true := by
  cases s with
  -- a literal has one piece only; the stars try every rest that their pieces leave
  | literal lit =>
    rw [matchSegments]
    constructor
    · intro h
      split_ifs at h with hlit
      obtain ⟨rest, rfl⟩ := hlit
      exact ⟨lit, rest, rfl, rfl, by rwa [drop_left] at h⟩
    · rintro ⟨_, rest, rfl, rfl, h⟩
      simp [h]
  | star =>
    rw [matchSegments, any_eq_true]
    constructor
    · rintro ⟨rest, hrest, h⟩
      obtain ⟨piece, heq, hpiece⟩ := mem_starRests.mp hrest
      exact ⟨piece, rest, heq, hpiece, h⟩
    · rintro ⟨piece, rest, heq, hpiece, h⟩
      exact ⟨rest, mem_starRests.mpr ⟨piece, heq, hpiece⟩, h⟩
  | doubleStar =>
    rw [matchSegments, any_eq_true]
    constructor
    · rintro ⟨rest, hrest, h⟩
      obtain ⟨piece, rfl⟩ := (mem_tails ..).mp hrest
      exact ⟨piece, rest, rfl, trivial, h⟩
    · rintro ⟨piece, rest, rfl, -, h⟩
      exact ⟨rest, (mem_tails ..).mpr (suffix_append _ _), h⟩
  | question => cases text <;> simp [matchSegments, Segment.Piece, and_assoc]
  | charClass chars negated =>
    cases negated <;> cases text <;> simp [matchSegments, Segment.Piece, and_assoc]

/-- **The meaning of a pattern.** A text is matched exactly if it is a concatenation of pieces, one
for each segment. -/
theorem matchSegments_iff (segments : List Segment) (text : List UInt8) :
    matchSegments segments text = true ↔
      ∃ pieces, List.Forall₂ Segment.Piece segments pieces ∧ pieces.flatten = text := by
  induction segments generalizing text with
  | nil =>
    rw [matchSegments, List.isEmpty_iff]
    constructor
    · rintro rfl
      exact ⟨[], .nil, rfl⟩
    · rintro ⟨_, ⟨⟩, rfl⟩
      rfl
  -- the piece of the first segment, and the pieces of the others behind it
  | cons s segments ih =>
    rw [matchSegments_cons]
    constructor
    · rintro ⟨piece, rest, rfl, hpiece, h⟩
      obtain ⟨pieces, hpieces, rfl⟩ := (ih rest).mp h
      exact ⟨piece :: pieces, .cons hpiece hpieces, rfl⟩
    · rintro ⟨_, hpieces, rfl⟩
      cases hpieces with
      | cons hpiece hpieces =>
        exact ⟨_, _, rfl, hpiece, (ih _).mpr ⟨_, hpieces, rfl⟩⟩

/-! ## Slashes -/

/-- A pattern without its leading and its trailing slash. -/
def stripSlashes (pattern : Text) : Text :=
  let body := if pattern.head? = some '/' then pattern.tail else pattern
  if body.getLast? = some '/' then body.dropLast else body

/-- The number of slashes outside the classes of a pattern. -/
def slashesOutside : List UInt8 → Nat
  | [] => 0
  | b :: rest =>
    if b = 0x5B then
      match h : parseCharClass rest with
      | .error _ => 0
      | .ok (_, tail) =>
        have := (parseCharClass_ok h).2.length_le
        slashesOutside tail
    else [b].count 0x2F + slashesOutside rest
  termination_by bytes => bytes.length

def Segment.slashes : Segment → Nat
  | .literal lit => lit.count 0x2F
  | _ => 0

theorem slashesOutside_append {lit : List UInt8} (tail : List UInt8) (h : 0x5B ∉ lit) :
    slashesOutside (lit ++ tail) = lit.count 0x2F + slashesOutside tail := by
  induction lit with
  | nil => simp
  | cons b lit ih =>
    rw [mem_cons, not_or] at h
    rw [cons_append, slashesOutside, if_neg (Ne.symm h.1), ih h.2, ← Nat.add_assoc,
      ← count_append, singleton_append]

/-- One iteration of `compile` takes the slashes of its segment, and a double star only where the
pattern has one. -/
theorem nextSegment_slashes {b : UInt8} {rest tail : List UInt8} {segment : Segment}
    (h : nextSegment b rest = .ok (segment, tail)) (hstars : ¬ [0x2A, 0x2A] <:+: b :: rest) :
    slashesOutside (b :: rest) = segment.slashes + slashesOutside tail ∧
      segment ≠ .doubleStar := by
  unfold nextSegment at h
  split_ifs at h with hstar hdouble hquestion hclass
  -- a double star: excluded
  · subst hstar
    obtain ⟨rest', rfl⟩ : ∃ rest', rest = 0x2A :: rest' := by
      cases rest with
      | nil => simp at hdouble
      | cons c rest' => exact ⟨rest', by simpa using hdouble⟩
    exact absurd ⟨[], rest', rfl⟩ hstars
  · cases h
    subst hstar
    exact ⟨@slashesOutside_append [0x2A] rest (by decide), Segment.noConfusion⟩
  · cases h
    subst hquestion
    exact ⟨@slashesOutside_append [0x3F] rest (by decide), Segment.noConfusion⟩
  -- the slashes within a class are members of it, and not counted
  · obtain ⟨⟨chars, negated, rfl⟩, -⟩ := parseCharClass_ok h
    refine ⟨?_, Segment.noConfusion⟩
    rw [slashesOutside, if_pos hclass]
    split
    · rename_i herror
      rw [h] at herror
      cases herror
    · rename_i hok
      rw [h] at hok
      cases hok
      exact (Nat.zero_add _).symm
  · cases h
    -- a literal reaches up to the next special byte, so that no class begins in it
    have hlit : 0x5B ∉ b :: rest.takeWhile fun c => !isSpecial c := by
      rw [mem_cons, not_or]
      refine ⟨Ne.symm hclass, fun hmem => ?_⟩
      have := mem_takeWhile_imp hmem
      simp [isSpecial] at this
    refine ⟨?_, Segment.noConfusion⟩
    have h := slashesOutside_append (rest.dropWhile fun c => !isSpecial c) hlit
    rwa [cons_append, takeWhile_append_dropWhile] at h

theorem compile_slashes {bytes : List UInt8} (h : compile bytes = .ok segments)
    (hstars : ¬ [0x2A, 0x2A] <:+: bytes) :
    slashesOutside bytes = (segments.map Segment.slashes).sum ∧ .doubleStar ∉ segments := by
  fun_induction compile bytes generalizing segments with
  | case1 =>
    cases h
    exact ⟨by simp [slashesOutside], not_mem_nil⟩
  | case2 => cases h
  | case3 b rest segment tail hnext _ ih =>
    obtain ⟨hslashes, hsegment⟩ := nextSegment_slashes hnext hstars
    cases hrec : compile tail with
    | error e => rw [hrec] at h; cases h
    | ok segments' =>
      rw [hrec] at h
      cases h
      have hsuffix := (nextSegment_suffix hnext).trans (suffix_cons b rest)
      obtain ⟨ih, hmem⟩ := ih hrec fun hpiece => hstars (hpiece.trans hsuffix.isInfix)
      rw [hslashes, ih, map_cons, sum_cons, mem_cons, not_or]
      exact ⟨rfl, Ne.symm hsegment, hmem⟩

theorem Segment.Piece.slashes_le {piece : List UInt8} (h : s.Piece piece) :
    s.slashes ≤ piece.count 0x2F := by
  cases s with
  | literal lit => rw [show piece = lit from h, Segment.slashes]
  | _ => exact Nat.zero_le _

/-- The classes of these segments leave the slash alone; a negated class takes every byte that it
does not list. -/
def KeepsSlash (segments : List Segment) : Prop :=
  ∀ chars negated, .charClass chars negated ∈ segments →
    ¬ (Segment.charClass chars negated).Piece [0x2F]

theorem count_slash_of_match (h : matchSegments segments text = true)
    (hstars : .doubleStar ∉ segments) (hkeeps : KeepsSlash segments) :
    text.count 0x2F = (segments.map Segment.slashes).sum := by
  induction segments generalizing text with
  | nil => rw [List.isEmpty_iff.mp h]; rfl
  | cons s segments ih =>
    obtain ⟨piece, rest, rfl, hpiece, h⟩ := matchSegments_cons.mp h
    rw [mem_cons, not_or] at hstars
    have ih := ih h hstars.2 fun chars negated hmem => hkeeps chars negated (.tail _ hmem)
    rw [map_cons, sum_cons, count_append, ih]
    congr 1
    -- only literals take slashes: there is no double star, and no class takes one
    cases s with
    | literal lit => rw [show piece = lit from hpiece, Segment.slashes]
    | star => exact count_eq_zero.mpr hpiece
    | doubleStar => exact absurd rfl hstars.1
    | question =>
      obtain ⟨c, rfl, hc⟩ := hpiece
      exact count_eq_zero.mpr fun h => hc (mem_singleton.mp h).symm
    | charClass chars negated =>
      refine count_eq_zero.mpr fun h => hkeeps chars negated (.head _) ?_
      obtain ⟨c, rfl, hc⟩ := hpiece
      exact ⟨c, by rw [mem_singleton.mp h], hc⟩

theorem exists_match (h : ∀ s ∈ segments, ∃ piece, s.Piece piece) :
    ∃ text, matchSegments segments text = true ∧
      (segments.map Segment.slashes).sum ≤ text.count 0x2F := by
  induction segments with
  | nil => exact ⟨[], rfl, Nat.le_refl _⟩
  | cons s segments ih =>
    obtain ⟨piece, hpiece⟩ := h s (.head _)
    obtain ⟨text, htext, hle⟩ := ih fun s hs => h s (.tail _ hs)
    refine ⟨piece ++ text, matchSegments_cons.mpr ⟨piece, text, rfl, hpiece, htext⟩, ?_⟩
    simpa using Nat.add_le_add hpiece.slashes_le hle

theorem piece_of_match (h : matchSegments segments text = true) (hs : s ∈ segments) :
    ∃ piece, s.Piece piece := by
  induction segments generalizing text with
  | nil => cases hs
  | cons s' segments ih =>
    obtain ⟨piece, rest, -, hpiece, h⟩ := matchSegments_cons.mp h
    rcases mem_cons.mp hs with rfl | hs
    · exact ⟨piece, hpiece⟩
    · exact ih h hs

/-- A class that takes the slash adds one to what the literals have. -/
theorem exists_match_more {chars : List UInt8} {negated : Bool}
    (h : ∀ s ∈ segments, ∃ piece, s.Piece piece) (hmem : .charClass chars negated ∈ segments)
    (hslash : (Segment.charClass chars negated).Piece [0x2F]) :
    ∃ text, matchSegments segments text = true ∧
      (segments.map Segment.slashes).sum < text.count 0x2F := by
  induction segments with
  | nil => cases hmem
  | cons s segments ih =>
    rw [forall_mem_cons] at h
    simp only [map_cons, sum_cons]
    -- the class takes a slash; every other segment takes at least what its literal has
    rcases mem_cons.mp hmem with rfl | hmem
    · obtain ⟨text, htext, hle⟩ := exists_match h.2
      refine ⟨0x2F :: text, matchSegments_cons.mpr ⟨_, text, rfl, hslash, htext⟩, ?_⟩
      rw [Segment.slashes, Nat.zero_add, count_cons_self]
      · exact Nat.lt_succ_of_le hle
      · exact fun _ => Segment.noConfusion
    · obtain ⟨piece, hpiece⟩ := h.1
      obtain ⟨text, htext, hlt⟩ := ih h.2 hmem
      refine ⟨piece ++ text, matchSegments_cons.mpr ⟨piece, text, rfl, hpiece, htext⟩, ?_⟩
      rw [count_append]
      exact Nat.add_lt_add_of_le_of_lt hpiece.slashes_le hlt

theorem Pattern.new_ok {pattern : Text} {p : Pattern} (h : Pattern.new pattern = .ok p) :
    compile (Text.encode (stripSlashes pattern)) = .ok p.segments := by
  unfold Pattern.new at h
  simp only [decide_eq_true_eq] at h
  change (compile (Text.encode (stripSlashes pattern))).map _ = _ at h
  cases hcompile : compile (Text.encode (stripSlashes pattern)) with
  | error e => rw [hcompile] at h; cases h
  | ok segments => rw [hcompile] at h; cases h; rfl

theorem stripSlashes_within (pattern : Text) : stripSlashes pattern <:+: pattern := by
  unfold stripSlashes
  dsimp only
  split_ifs
  · exact (List.dropLast_prefix _).isInfix.trans (tail_suffix _).isInfix
  · exact (tail_suffix _).isInfix
  · exact (List.dropLast_prefix _).isInfix
  · exact infix_rfl

theorem compile_cons {b : UInt8} {rest tail : List UInt8} {segment : Segment}
    (h : nextSegment b rest = .ok (segment, tail)) :
    compile (b :: rest) = (compile tail).map (segment :: ·) := by
  rw [compile]
  split
  · rename_i herror
    rw [h] at herror
    cases herror
  · rename_i hok
    rw [h] at hok
    cases hok
    rfl

/-- `/a[!b]c`: any byte but `b` between `a` and `c`. -/
def negatedClass : Pattern := ⟨true, false, [.literal [97], .charClass [98] true, .literal [99]]⟩

theorem new_negatedClass : Pattern.new "/a[!b]c".toList = .ok negatedClass := by
  change (compile [97, 91, 33, 98, 93, 99]).map _ = _
  rw [@compile_cons 97 _ [91, 33, 98, 93, 99] (.literal [97]) rfl,
    @compile_cons 91 _ [99] (.charClass [98] true) rfl, @compile_cons 99 _ [] (.literal [99]) rfl,
    compile]
  rfl

theorem slashesOutside_negatedClass :
    slashesOutside (Text.encode (stripSlashes "/a[!b]c".toList)) = 0 := by
  change slashesOutside [97, 91, 33, 98, 93, 99] = 0
  simp [slashesOutside, parseCharClass, classChars]

/-- A text without the characters that are special in a pattern. -/
def IsLiteral (t : Text) : Prop := '*' ∉ t ∧ '?' ∉ t ∧ '[' ∉ t

theorem IsLiteral.not_special {t : Text} (h : IsLiteral t) :
    ∀ b ∈ Text.encode t, isSpecial b = false := by
  intro b hb
  obtain ⟨hstar, hquestion, hbracket⟩ := h
  simp only [isSpecial, Bool.or_eq_false_iff, decide_eq_false_iff_not]
  refine ⟨⟨?_, ?_⟩, ?_⟩
  · rintro rfl
    exact Text.not_mem_encode (by decide) hstar hb
  · rintro rfl
    exact Text.not_mem_encode (by decide) hquestion hb
  · rintro rfl
    exact Text.not_mem_encode (by decide) hbracket hb

theorem compile_literal {lit tail : List UInt8} (hne : lit ≠ [])
    (hlit : ∀ b ∈ lit, isSpecial b = false) (htail : ∀ b ∈ tail.head?, isSpecial b = true) :
    compile (lit ++ tail) = (compile tail).map (.literal lit :: ·) := by
  cases lit with
  | nil => exact absurd rfl hne
  | cons b lit =>
    rw [forall_mem_cons] at hlit
    -- the literal is as long as it can be: it ends where the pattern has a special byte
    have hstop : tail.takeWhile (fun c => !isSpecial c) = [] := by
      cases tail with
      | nil => rfl
      | cons c tail => simp [htail c rfl]
    have htake : (lit ++ tail).takeWhile (fun c => !isSpecial c) = lit := by
      rw [takeWhile_append_of_pos (by simpa using hlit.2), hstop, append_nil]
    have hdrop : (lit ++ tail).dropWhile (fun c => !isSpecial c) = tail := by
      have h := @takeWhile_append_dropWhile _ (fun c => !isSpecial c) (lit ++ tail)
      simpa [htake] using h
    rw [cons_append]
    refine compile_cons ?_
    have hb := hlit.1
    simp only [isSpecial, Bool.or_eq_false_iff, decide_eq_false_iff_not] at hb
    rw [nextSegment, if_neg hb.1.1, if_neg hb.1.2, if_neg hb.2, htake, hdrop]

/-- What the segments of `**/X` match: the slash is gone. -/
theorem match_doubleStar {x path : List UInt8} :
    matchSegments [.doubleStar, .literal x] path = true ↔ ∃ mid, path = mid ++ x := by
  simp only [matchSegments_cons, Segment.Piece, true_and]
  constructor
  · rintro ⟨mid, _, rfl, _, rest, rfl, rfl, h⟩
    exact ⟨mid, by rw [List.isEmpty_iff.mp h, append_nil]⟩
  · rintro ⟨mid, rfl⟩
    exact ⟨mid, x, rfl, x, [], (append_nil _).symm, rfl, rfl⟩

theorem match_literal_doubleStar {base x path : List UInt8} :
    matchSegments [.literal base, .doubleStar, .literal x] path = true ↔
      ∃ mid, path = base ++ (mid ++ x) := by
  simp only [matchSegments_cons (s := .literal base), match_doubleStar, Segment.Piece]
  constructor
  · rintro ⟨_, _, rfl, rfl, mid, rfl⟩
    exact ⟨mid, rfl⟩
  · rintro ⟨mid, rfl⟩
    exact ⟨base, _, rfl, rfl, mid, rfl⟩

theorem Pattern.new_inner {pattern : Text} (hhead : pattern.head? ≠ some '/')
    (hlast : pattern.getLast? ≠ some '/') (hslash : '/' ∈ pattern)
    (h : compile (Text.encode pattern) = .ok segments) :
    Pattern.new pattern = .ok ⟨true, false, segments⟩ := by
  simp [Pattern.new, hhead, hlast, hslash, h, Except.map]

/-- A border of a component is missing exactly where another byte than the slash stands. -/
theorem border_iff {base x path : List UInt8} :
    ((∃ mid, path = base ++ (mid ++ x)) ↔
        path = base ++ x ∨ ∃ mid, path = base ++ (mid ++ 0x2F :: x)) ↔
      ¬ ∃ mid c, c ≠ 0x2F ∧ path = base ++ (mid ++ c :: x) := by
  constructor
  -- the last byte in front of `x` decides: there is none, it is the slash, or it is another one
  · rintro h ⟨mid, c, hc, rfl⟩
    rcases h.mp ⟨mid ++ [c], by simp⟩ with heq | ⟨mid', heq⟩
    · have := congrArg length heq
      simp only [length_append, length_cons] at this
      omega
    · have heq := append_cancel_left heq
      have hlen : mid.length = mid'.length := by simpa using congrArg length heq
      exact hc (cons.inj (append_inj heq hlen).2).1
  · intro h
    constructor
    · rintro ⟨mid, rfl⟩
      rcases mid.eq_nil_or_concat with rfl | ⟨front, c, rfl⟩
      · exact .inl rfl
      · by_cases hc : c = 0x2F
        · exact .inr ⟨front, by simp [hc]⟩
        · exact absurd ⟨front, c, hc, by simp⟩ h
    · rintro (rfl | ⟨mid, rfl⟩)
      · exact ⟨[], rfl⟩
      · exact ⟨mid ++ [0x2F], by simp⟩

/-- **Double stars forget the border of the component.** `**/X` and `D/**/X` mean what they say for
a path exactly if it does not end in `X` with another byte than the slash in front. -/
theorem double_star_component_iff {d x : Text} (hx : x ≠ []) (hxlit : IsLiteral x)
    (hxslash : '/' ∉ x) (hd : d ≠ []) (hdlit : IsLiteral d) (hhead : d.head? ≠ some '/')
    (path : List UInt8) (isDir : Bool) :
    ∃ p q, Pattern.new ("**/".toList ++ x) = .ok p ∧ Pattern.new (d ++ "/**/".toList ++ x) = .ok q ∧
      ((p.matches path isDir = true ↔
          path = Text.encode x ∨ ∃ mid, path = mid ++ 0x2F :: Text.encode x) ↔
        ¬ ∃ mid c, c ≠ 0x2F ∧ path = mid ++ c :: Text.encode x) ∧
      ((q.matches path isDir = true ↔
          path = Text.encode d ++ [0x2F] ++ Text.encode x ∨
            ∃ mid, path = Text.encode d ++ [0x2F] ++ (mid ++ 0x2F :: Text.encode x)) ↔
        ¬ ∃ mid c, c ≠ 0x2F ∧ path = Text.encode d ++ [0x2F] ++ (mid ++ c :: Text.encode x)) := by
  -- the slash behind `**` is skipped by the compiler: this is where the border goes
  have hcompile : compile (0x2A :: 0x2A :: 0x2F :: Text.encode x) =
      .ok [.doubleStar, .literal (Text.encode x)] := by
    have hne : Text.encode x ≠ [] := fun h => hx (Text.encode_injective h)
    have hlit := @compile_literal _ [] hne hxlit.not_special (by simp)
    rw [append_nil] at hlit
    rw [compile_cons rfl, show skipSlash _ = Text.encode x from rfl, hlit, compile]
    rfl
  have hlast : ∀ front, (front ++ x).getLast? ≠ some '/' := by
    intro front h
    rw [getLast?_append_of_ne_nil _ hx] at h
    exact hxslash (mem_of_getLast? h)
  have hfirst : (d ++ "/**/".toList ++ x).head? ≠ some '/' := by
    cases d with
    | nil => exact absurd rfl hd
    | cons c d => exact hhead
  have hcompile' : compile (Text.encode (d ++ "/**/".toList ++ x)) =
      .ok [.literal (Text.encode d ++ [0x2F]), .doubleStar, .literal (Text.encode x)] := by
    have hlit : ∀ b ∈ Text.encode d ++ [0x2F], isSpecial b = false := by
      intro b hb
      rcases mem_append.mp hb with hb | hb
      · exact hdlit.not_special b hb
      · rw [mem_singleton.mp hb]
        rfl
    have heq : Text.encode (d ++ "/**/".toList ++ x) =
        Text.encode d ++ [0x2F] ++ 0x2A :: 0x2A :: 0x2F :: Text.encode x := by
      rw [Text.encode_append, Text.encode_append, append_assoc, append_assoc]
      rfl
    rw [heq, compile_literal (by simp) hlit (by simp [isSpecial]), hcompile]
    rfl
  refine ⟨_, _, Pattern.new_inner (by simp) (hlast _) (by simp) hcompile,
    Pattern.new_inner hfirst (hlast _) (by simp) hcompile', ?_, ?_⟩
  · change (matchSegments _ path = true ↔ _) ↔ _
    rw [match_doubleStar]
    exact @border_iff [] _ path
  · change (matchSegments _ path = true ↔ _) ↔ _
    rw [match_literal_doubleStar]
    exact border_iff

/-- `**/a` matches `ba`. -/
theorem double_star_matches_within_component :
    ∃ p, Pattern.new "**/a".toList = .ok p ∧ p.matches [98, 97] false = true ∧
      ¬ ([98, 97] = Text.encode ['a'] ∨ ∃ mid, [98, 97] = mid ++ 0x2F :: Text.encode ['a']) := by
  refine ⟨⟨true, false, [.doubleStar, .literal [97]]⟩, ?_, by decide, ?_⟩
  · refine Pattern.new_inner (by decide) (by decide) (by decide) ?_
    change compile [0x2A, 0x2A, 0x2F, 97] = _
    rw [@compile_cons 0x2A _ [97] .doubleStar rfl, @compile_cons 97 _ [] (.literal [97]) rfl,
      compile]
    rfl
  · rintro (h | ⟨mid, h⟩)
    · exact absurd h (by decide)
    · have hmem : (0x2F : UInt8) ∈ [98, 97] := by
        simp [h]
      exact absurd hmem (by decide)

theorem double_star_component_b_a :
    ∃ p q, Pattern.new ("**/".toList ++ ['a']) = .ok p ∧
      Pattern.new (['d'] ++ "/**/".toList ++ ['a']) = .ok q ∧
      ((p.matches [98, 97] true = true ↔
          [98, 97] = Text.encode ['a'] ∨ ∃ mid, [98, 97] = mid ++ 0x2F :: Text.encode ['a']) ↔
        ¬ ∃ mid c, c ≠ 0x2F ∧ [98, 97] = mid ++ c :: Text.encode ['a']) := by
  obtain ⟨p, q, hp, hq, h, -⟩ := @double_star_component_iff ['d'] ['a'] (by decide)
    (by simp [IsLiteral]) (by decide) (by decide) (by simp [IsLiteral]) (by decide) [98, 97] true
  exact ⟨p, q, hp, hq, h⟩

end Ferrosync
