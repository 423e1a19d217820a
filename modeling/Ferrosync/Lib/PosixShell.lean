import Ferrosync.Lib.Loop
import Ferrosync.Lib.Text

set_option autoImplicit false

/-! # The POSIX shell's reading of a command line

Token recognition and quoting of the POSIX shell command language, character by character, and the
grammar of simple commands joined by operators. What goes beyond simple commands of literal words
(an expansion, a pattern, a compound command, an open quote) is an `Obstacle`.

The lexer is a fold (`run`), so that a text is read piece by piece (`run_append`), and it never
looks back at the tokens it has delimited (`run_after`). Reading a quoted word (`run_quote`) and a
bare word (`run_bare`) are the two rules from which the reading of a whole line is built.
-/

namespace PosixShell

open List

/-! ## Tokens -/

/-- The operators; a newline is one of them. -/
inductive Op where
  | andIf | orIf | dsemi | semi | amp | pipe
  | less | great | dless | dgreat | lessAnd | greatAnd | lessGreat | dlessDash | clobber
  | lparen | rparen | newline
  deriving DecidableEq, Repr

/-- The operator a character starts. -/
def Op.start : Char → Option Op
  | '&' => some .amp
  | '|' => some .pipe
  | ';' => some .semi
  | '<' => some .less
  | '>' => some .great
  | '(' => some .lparen
  | ')' => some .rparen
  | '\n' => some .newline
  | _ => none

/-- The operator a further character makes of an operator. -/
def Op.extend : Op → Char → Option Op
  | .amp, '&' => some .andIf
  | .pipe, '|' => some .orIf
  | .semi, ';' => some .dsemi
  | .less, '<' => some .dless
  | .less, '&' => some .lessAnd
  | .less, '>' => some .lessGreat
  | .great, '>' => some .dgreat
  | .great, '&' => some .greatAnd
  | .great, '|' => some .clobber
  | .dless, '-' => some .dlessDash
  | _, _ => none

/-- A character of a word, after quote removal. -/
structure Mark where
  char : Char
  quoted : Bool
  deriving DecidableEq, Repr

abbrev Word := List Mark

def quoted (t : Text) : Word := t.map (Mark.mk · true)

def bare (t : Text) : Word := t.map (Mark.mk · false)

inductive Tok where
  | word (w : Word)
  | ioNumber (digits : Text)
  | op (o : Op)
  deriving DecidableEq, Repr

/-- Why a text is not a sequence of simple commands of literal words. -/
inductive Obstacle where
  | unterminated
  | expansion
  | pathname
  | tilde
  | compound
  | grammar
  deriving DecidableEq, Repr

/-! ## The lexer -/

/-- The token that is being read. -/
inductive Cur where
  | none
  | word (w : Word)
  | op (o : Op)
  deriving DecidableEq, Repr

inductive Mode where
  | plain | single | double | escape | doubleEscape | comment
  deriving DecidableEq, Repr

structure Lexer where
  toks : List Tok
  cur : Cur
  mode : Mode
  deriving DecidableEq, Repr

def Lexer.start : Lexer := ⟨[], .none, .plain⟩

/-- The word that is being read, if any. -/
def Cur.marks : Cur → Word
  | .word w => w
  | _ => []

/-- Digits right before a redirection operator are a file descriptor. -/
def wordTok (w : Word) (next : Option Char) : Tok :=
  if (next = some '<' ∨ next = some '>') ∧ w ≠ [] ∧
      w.all (fun m => !m.quoted && m.char.isDigit) then .ioNumber (w.map Mark.char)
  else .word w

def Cur.close (next : Option Char) : Cur → List Tok
  | .none => []
  | .word w => [wordTok w next]
  | .op o => [.op o]

/-- Delimit an operator. -/
def Lexer.closeOp (l : Lexer) : Lexer :=
  match l.cur with
  | .op o => { l with toks := l.toks ++ [.op o], cur := .none }
  | _ => l

/-- Add a character to the word, which starts here if there is none. -/
def Lexer.push (l : Lexer) (m : Mark) : Lexer := { l with cur := .word (l.cur.marks ++ [m]) }

def isBlank (c : Char) : Bool := c = ' ' || c = '\t'

/-- A character that is not quoted and does not continue an operator. -/
def plainStep (l : Lexer) (c : Char) : Except Obstacle Lexer :=
  if c = '\'' then .ok { l with cur := .word l.cur.marks, mode := .single }
  else if c = '"' then .ok { l with cur := .word l.cur.marks, mode := .double }
  else if c = '$' ∨ c = '`' then .error .expansion
  else
    match Op.start c with
    | some o => .ok { l with toks := l.toks ++ l.cur.close (some c), cur := .op o }
    | none =>
      if isBlank c then .ok { l with toks := l.toks ++ l.cur.close (some c), cur := .none }
      else if c = '#' ∧ l.cur = .none then .ok { l with mode := .comment }
      else .ok (l.push ⟨c, false⟩)

def step (l : Lexer) (c : Char) : Except Obstacle Lexer :=
  match l.mode with
  | .plain =>
    if c = '\\' then .ok { l with mode := .escape }
    else
      match l.cur with
      | .op o =>
        match o.extend c with
        | some o' => .ok { l with cur := .op o' }
        | none => plainStep l.closeOp c
      | _ => plainStep l c
  | .escape =>
    -- a backslash and a newline are removed, and nothing ends there
    if c = '\n' then .ok { l with mode := .plain }
    else .ok ({ l.closeOp with mode := .plain }.push ⟨c, true⟩)
  | .single =>
    if c = '\'' then .ok { l with mode := .plain } else .ok (l.push ⟨c, true⟩)
  | .double =>
    if c = '"' then .ok { l with mode := .plain }
    else if c = '\\' then .ok { l with mode := .doubleEscape }
    else if c = '$' ∨ c = '`' then .error .expansion
    else .ok (l.push ⟨c, true⟩)
  | .doubleEscape =>
    if c = '\n' then .ok { l with mode := .double }
    else if c = '$' ∨ c = '`' ∨ c = '"' ∨ c = '\\' then
      .ok { l.push ⟨c, true⟩ with mode := .double }
    else .ok { (l.push ⟨'\\', true⟩).push ⟨c, true⟩ with mode := .double }
  | .comment =>
    if c = '\n' then .ok { l with cur := .op .newline, mode := .plain } else .ok l

def run (l : Lexer) (t : Text) : Except Obstacle Lexer := t.foldlM step l

def finish (l : Lexer) : Except Obstacle (List Tok) :=
  match l.mode with
  | .plain | .comment => .ok (l.toks ++ l.cur.close none)
  | _ => .error .unterminated

def tokenise (t : Text) : Except Obstacle (List Tok) := run .start t >>= finish

/-! ## Simple commands -/

/-- The text of a word that needs neither tilde nor pathname expansion. -/
def Word.value (w : Word) : Except Obstacle Text :=
  if w.head? = some ⟨'~', false⟩ then .error .tilde
  else if w.any (fun m => !m.quoted && (m.char = '*' || m.char = '?' || m.char = '[')) then
    .error .pathname
  else .ok (w.map Mark.char)

def reservedWords : List Text :=
  ["!", "\x7b", "\x7d", "case", "do", "done", "elif", "else", "esac", "fi", "for", "if", "in", "then",
    "until", "while"].map String.toList

/-- A reserved word is recognised only if nothing of it is quoted. -/
def Word.isReserved (w : Word) : Bool :=
  w.all (fun m => !m.quoted) && decide (w.map Mark.char ∈ reservedWords)

def isName (t : Text) : Bool :=
  t.all (fun c => c.isAlphanum || c = '_') && t.head?.any (fun c => !c.isDigit)

/-- `name=value`, with the name and the sign unquoted. -/
def Word.isAssignment (w : Word) : Bool :=
  let name := w.takeWhile (fun m => m ≠ ⟨'=', false⟩)
  decide (name.length < w.length) && name.all (fun m => !m.quoted) && isName (name.map Mark.char)

structure Redirection where
  fd : Option Text
  op : Op
  target : Text
  deriving DecidableEq, Repr

structure Simple where
  assignments : List Text
  words : List Text
  redirections : List Redirection
  deriving DecidableEq, Repr

def Simple.empty : Simple := ⟨[], [], []⟩

inductive Elem where
  | simple (c : Simple)
  | connector (o : Op)
  deriving DecidableEq, Repr

/-- The elements a command contributes when it ends. -/
def Simple.close (c : Simple) : List Elem := if c = .empty then [] else [.simple c]

def Op.isRedirection : Op → Bool
  | .less | .great | .dless | .dgreat | .lessAnd | .greatAnd | .lessGreat | .dlessDash
  | .clobber => true
  | _ => false

def Simple.redirect (c : Simple) (fd : Option Text) (o : Op) (w : Word) : Except Obstacle Simple :=
  do
    let target ← w.value
    pure { c with redirections := c.redirections ++ [⟨fd, o, target⟩] }

/-- Add a word: the first may be a reserved word, and those before the name assignments. -/
def Simple.addWord (c : Simple) (w : Word) : Except Obstacle Simple :=
  if c = .empty ∧ w.isReserved then .error .compound
  else if c.words = [] ∧ w.isAssignment then
    .ok { c with assignments := c.assignments ++ [w.map Mark.char] }
  else do
    let v ← w.value
    pure { c with words := c.words ++ [v] }

/-- The commands of a line, and the operators between them. -/
def parse (c : Simple) : List Tok → Except Obstacle (List Elem)
  | [] => .ok c.close
  | .word w :: toks => do
    let c' ← c.addWord w
    parse c' toks
  | .ioNumber n :: .op o :: .word w :: toks =>
    if o.isRedirection then do
      let c' ← c.redirect (some n) o w
      parse c' toks
    else .error .grammar
  | .ioNumber _ :: _ => .error .grammar
  | .op o :: toks =>
    if o = .lparen ∨ o = .rparen then .error .compound
    else if o.isRedirection then
      match toks with
      | .word w :: toks => do
        let c' ← c.redirect none o w
        parse c' toks
      | _ => .error .grammar
    else do
      let rest ← parse .empty toks
      pure (c.close ++ .connector o :: rest)

/-- A command line as the shell reads it. -/
def script (t : Text) : Except Obstacle (List Elem) := tokenise t >>= parse .empty

/-! ## Reading piece by piece -/

theorem run_nil (l : Lexer) : run l [] = .ok l := rfl

theorem run_cons (l : Lexer) (c : Char) (t : Text) :
    run l (c :: t) = step l c >>= fun l' => run l' t := rfl

theorem run_append (l : Lexer) (t u : Text) : run l (t ++ u) = run l t >>= fun l' => run l' u :=
  List.foldlM_append

theorem run_cons_ok {l l' : Lexer} {c : Char} (h : step l c = .ok l') (t : Text) :
    run l (c :: t) = run l' t := by
  rw [run_cons, h]
  rfl

/-- The lexer with earlier tokens in front. -/
def Lexer.after (toks : List Tok) (l : Lexer) : Lexer := { l with toks := toks ++ l.toks }

theorem plainStep_after (toks : List Tok) (l : Lexer) (c : Char) :
    plainStep (l.after toks) c = (plainStep l c).map (Lexer.after toks) := by
  obtain ⟨old, cur, mode⟩ := l
  unfold plainStep
  dsimp only [Lexer.after]
  cases Op.start c with
  | some o => dsimp only; split_ifs <;> simp [Except.map, Lexer.after]
  | none =>
    by_cases hcomment : c = '#' ∧ cur = .none
    · obtain ⟨rfl, rfl⟩ := hcomment
      rfl
    · simp only [hcomment]
      split_ifs <;> simp [Except.map, Lexer.after, Lexer.push]

theorem closeOp_after (toks : List Tok) (l : Lexer) :
    (l.after toks).closeOp = l.closeOp.after toks := by
  obtain ⟨old, cur, mode⟩ := l
  cases cur with
  | op o => simp only [Lexer.after, Lexer.closeOp, append_assoc]
  | none | word => rfl

/-- **The lexer does not look back** at the tokens it has delimited. -/
theorem step_after (toks : List Tok) (l : Lexer) (c : Char) :
    step (l.after toks) c = (step l c).map (Lexer.after toks) := by
  obtain ⟨old, cur, mode⟩ := l
  -- every branch adds tokens behind those that are there, or leaves them alone
  cases mode with
  | plain =>
    by_cases hslash : c = '\\'
    · simp only [step, Lexer.after, hslash, if_true, Except.map]
    · cases cur with
      | op o =>
        simp only [step, Lexer.after, hslash]
        cases o.extend c with
        | some o' => rfl
        | none =>
          have hclose := closeOp_after toks ⟨old, .op o, .plain⟩
          dsimp only [Lexer.after] at hclose
          rw [hclose]
          exact plainStep_after toks _ c
      | none =>
        simp only [step, hslash, if_false]
        exact plainStep_after toks ⟨old, .none, .plain⟩ c
      | word w =>
        simp only [step, hslash, if_false]
        exact plainStep_after toks ⟨old, .word w, .plain⟩ c
  | escape =>
    have hclose := closeOp_after toks ⟨old, cur, .escape⟩
    unfold step
    rw [hclose]
    split_ifs <;> rfl
  | single | double | doubleEscape | comment =>
    unfold step; dsimp only [Lexer.after]; split_ifs <;> rfl

theorem run_after (toks : List Tok) (t : Text) :
    ∀ l : Lexer, run (l.after toks) t = (run l t).map (Lexer.after toks) := by
  induction t with
  | nil => exact fun l => rfl
  | cons c t ih =>
    intro l
    rw [run_cons, run_cons, step_after]
    cases step l c with
    | error e => rfl
    | ok l' => exact ih l'

theorem finish_after (toks : List Tok) (l : Lexer) :
    finish (l.after toks) = (finish l).map (toks ++ ·) := by
  unfold finish
  cases hmode : l.mode <;> simp [Lexer.after, hmode, Except.map]

theorem tokenise_from (toks : List Tok) (t : Text) :
    (run ⟨toks, .none, .plain⟩ t >>= finish) = (tokenise t).map (toks ++ ·) := by
  have hstart : (⟨toks, .none, .plain⟩ : Lexer) = Lexer.start.after toks := by
    simp [Lexer.after, Lexer.start]
  unfold tokenise
  rw [hstart, run_after]
  cases run .start t with
  | error e => rfl
  | ok l => exact finish_after toks l

/-! ## Quoted and bare words -/

/-- Single quotes around a text, with each quote inside written as `'\\''`. -/
def quote (t : Text) : Text :=
  '\'' :: (t.flatMap fun c => if c = '\'' then "'\\''".toList else [c]) ++ ['\'']

theorem run_single (toks : List Tok) (t : Text) :
    ∀ w : Word, run ⟨toks, .word w, .single⟩
        (t.flatMap fun c => if c = '\'' then "'\\''".toList else [c]) =
      .ok ⟨toks, .word (w ++ quoted t), .single⟩ := by
  induction t with
  | nil => intro w; simp [run_nil, quoted]
  | cons c t ih =>
    intro w
    have hword : w ++ quoted (c :: t) = (w ++ [⟨c, true⟩]) ++ quoted t := by
      rw [append_assoc]
      rfl
    rw [flatMap_cons, run_append, hword]
    by_cases hquote : c = '\''
    · -- the quote closes, an escaped one follows, and the next one opens again
      subst hquote
      exact ih _
    · have hstep : run ⟨toks, .word w, .single⟩ [c] =
          .ok ⟨toks, .word (w ++ [⟨c, true⟩]), .single⟩ := by
        rw [run_cons, step]
        rw [if_neg hquote]
        rfl
      rw [if_neg hquote, hstep]
      exact ih _

/-- **A quoted word** is read as its text. -/
theorem run_quote (toks : List Tok) (t : Text) :
    run ⟨toks, .none, .plain⟩ (quote t) = .ok ⟨toks, .word (quoted t), .plain⟩ := by
  have hopen : step ⟨toks, .none, .plain⟩ '\'' = .ok ⟨toks, .word [], .single⟩ := rfl
  unfold quote
  rw [cons_append, run_cons_ok hopen, run_append, run_single]
  rfl

/-- A character that stands for itself inside a bare word. -/
def isOrdinary (c : Char) : Bool :=
  c ≠ '\\' && c ≠ '\'' && c ≠ '"' && c ≠ '$' && c ≠ '`' && (Op.start c).isNone && !isBlank c

theorem step_plain {c : Char} {cur : Cur} (hslash : c ≠ '\\') (hcur : ∀ o, cur ≠ .op o)
    (toks : List Tok) : step ⟨toks, cur, .plain⟩ c = plainStep ⟨toks, cur, .plain⟩ c := by
  cases cur with
  | op o => exact absurd rfl (hcur o)
  | none | word w => simp [step, hslash]

theorem step_ordinary {c : Char} (cur : Cur) (hc : isOrdinary c) (hcur : ∀ o, cur ≠ .op o)
    (hhash : cur = .none → c ≠ '#') (toks : List Tok) :
    step ⟨toks, cur, .plain⟩ c = .ok ⟨toks, .word (cur.marks ++ [⟨c, false⟩]), .plain⟩ := by
  simp only [isOrdinary, Bool.and_eq_true, decide_eq_true_eq, Option.isNone_iff_eq_none,
    Bool.not_eq_true'] at hc
  obtain ⟨⟨⟨⟨⟨⟨hslash, hquote⟩, hdouble⟩, hdollar⟩, hback⟩, hop⟩, hblank⟩ := hc
  have hword : ¬ (c = '#' ∧ cur = .none) := fun h => hhash h.2 h.1
  rw [step_plain hslash hcur]
  simp [plainStep, Lexer.push, hquote, hdouble, hdollar, hback, hop, hblank, hword]

theorem run_word (toks : List Tok) {t : Text} (h : ∀ c ∈ t, isOrdinary c) :
    ∀ w : Word, run ⟨toks, .word w, .plain⟩ t = .ok ⟨toks, .word (w ++ bare t), .plain⟩ := by
  induction t with
  | nil => intro w; simp [run_nil, bare]
  | cons c t ih =>
    intro w
    rw [run_cons_ok (step_ordinary (.word w) (h c mem_cons_self) nofun nofun toks),
      ih fun d hd => h d (mem_cons_of_mem c hd)]
    simp [Cur.marks, bare]

/-- A text that is read as one bare word. -/
def IsBare (t : Text) : Prop := t ≠ [] ∧ (∀ c ∈ t, isOrdinary c) ∧ t.head? ≠ some '#'

instance (t : Text) : Decidable (IsBare t) :=
  have : Decidable (∀ c ∈ t, isOrdinary c) := List.decidableBAll _ t
  inferInstanceAs (Decidable (_ ∧ _ ∧ _))

/-- **A bare word** is read as its text. -/
theorem run_bare (toks : List Tok) {t : Text} (h : IsBare t) :
    run ⟨toks, .none, .plain⟩ t = .ok ⟨toks, .word (bare t), .plain⟩ := by
  obtain ⟨hne, hordinary, hhead⟩ := h
  cases t with
  | nil => exact absurd rfl hne
  | cons c t =>
    have hc : c ≠ '#' := fun heq => hhead (congrArg some heq)
    rw [run_cons_ok
        (step_ordinary .none (hordinary c mem_cons_self) nofun (fun _ => hc) toks),
      run_word toks fun d hd => hordinary d (mem_cons_of_mem c hd)]
    rfl

theorem tokenise_blank (t : Text) : tokenise (' ' :: t) = tokenise t := rfl

/-! ## The value of a word -/

def isPattern (c : Char) : Bool := c = '*' || c = '?' || c = '['

/-- A bare word that is not expanded either. -/
def IsPlain (t : Text) : Prop := IsBare t ∧ (∀ c ∈ t, isPattern c = false) ∧ t.head? ≠ some '~'

instance (t : Text) : Decidable (IsPlain t) :=
  have : Decidable (∀ c ∈ t, isPattern c = false) := List.decidableBAll _ t
  inferInstanceAs (Decidable (_ ∧ _ ∧ _))

theorem map_char_quoted (t : Text) : (quoted t).map Mark.char = t := by
  simp [quoted, Function.comp_def]

theorem map_char_bare (t : Text) : (bare t).map Mark.char = t := by
  simp [bare, Function.comp_def]

theorem value_quoted (t : Text) : Word.value (quoted t) = .ok t := by
  have hhead : (quoted t).head? ≠ some ⟨'~', false⟩ := by
    cases t <;> simp [quoted]
  have hany : (quoted t).any (fun m => !m.quoted &&
      (m.char = '*' || m.char = '?' || m.char = '[')) = false := by
    simp [quoted]
  unfold Word.value
  rw [if_neg hhead, if_neg (by rw [hany]; exact Bool.false_ne_true), map_char_quoted]

/-- A bare word has a value exactly if it is not expanded, and the value is its text. -/
theorem value_bare_iff {t v : Text} :
    Word.value (bare t) = .ok v ↔ v = t ∧ (∀ c ∈ t, isPattern c = false) ∧ t.head? ≠ some '~' := by
  have hhead : (bare t).head? = some ⟨'~', false⟩ ↔ t.head? = some '~' := by
    cases t <;> simp [bare]
  have hany : (bare t).any (fun m => !m.quoted &&
      (m.char = '*' || m.char = '?' || m.char = '[')) = t.any isPattern := by
    simp only [bare, any_map, Function.comp_def, Bool.not_false, Bool.true_and]
    rfl
  unfold Word.value
  rw [hany, map_char_bare]
  -- nothing in a bare word is quoted, so that its marks are those of its text
  by_cases htilde : t.head? = some '~'
  · rw [if_pos (hhead.mpr htilde)]
    exact ⟨fun h => (nomatch h), fun h => absurd htilde h.2.2⟩
  · rw [if_neg (fun h => htilde (hhead.mp h))]
    by_cases hpattern : t.any isPattern
    · rw [if_pos hpattern]
      refine ⟨fun h => (nomatch h), fun h => ?_⟩
      obtain ⟨c, hc, hp⟩ := any_eq_true.mp hpattern
      exact absurd (h.2.1 c hc) (by rw [hp]; exact Bool.noConfusion)
    · rw [if_neg hpattern]
      constructor
      · intro h
        refine ⟨(Except.ok.inj h).symm, fun c hc => ?_, htilde⟩
        exact Bool.eq_false_iff.mpr fun hp => hpattern (any_eq_true.mpr ⟨c, hc, hp⟩)
      · rintro ⟨rfl, -, -⟩
        rfl

/-! ## The first token -/

section First

/-- What is read first, if anything is read, satisfies `P`. -/
def First (P : Tok → Prop) (r : Except Obstacle (List Tok)) : Prop :=
  ∀ tok toks, r = .ok (tok :: toks) → P tok

variable {P : Tok → Prop}

/-- A token that has been delimited stays the first. -/
theorem first_of_delimited {tok : Tok} (h : P tok) (cur : Cur) (mode : Mode) (t : Text) :
    First P (run ⟨[tok], cur, mode⟩ t >>= finish) := by
  intro tok' toks hrun
  have hafter : (⟨[tok], cur, mode⟩ : Lexer) = Lexer.after [tok] ⟨[], cur, mode⟩ := rfl
  rw [hafter, run_after] at hrun
  cases hrest : run ⟨[], cur, mode⟩ t with
  | error e => rw [hrest] at hrun; exact absurd hrun nofun
  | ok l =>
    rw [hrest] at hrun
    have hfinish : finish (l.after [tok]) = .ok (tok' :: toks) := hrun
    rw [finish_after] at hfinish
    cases hl : finish l with
    | error e => rw [hl] at hfinish; exact absurd hfinish nofun
    | ok rest =>
      rw [hl] at hfinish
      have hcons := Except.ok.inj hfinish
      rw [← (cons.inj hcons).1]
      exact h

/-- An operator that is being read is the first token. -/
theorem first_op (hop : ∀ o, P (.op o)) (t : Text) :
    ∀ o, First P (run ⟨[], .op o, .plain⟩ t >>= finish) ∧
      First P (run ⟨[], .op o, .escape⟩ t >>= finish) := by
  -- Two statements at once: an escape is met from the plain mode, and returns to it.
  induction t with
  | nil =>
    intro o
    refine ⟨fun tok toks h => ?_, fun tok toks h => absurd h nofun⟩
    rw [← (cons.inj (Except.ok.inj h)).1]
    exact hop o
  | cons c t ih =>
    intro o
    constructor
    · by_cases hslash : c = '\\'
      · subst hslash
        exact (ih o).2
      · cases hextend : o.extend c with
        | some o' =>
          have hstep : step ⟨[], .op o, .plain⟩ c = .ok ⟨[], .op o', .plain⟩ := by
            simp only [step, hslash, hextend, if_false]
          rw [run_cons_ok hstep]
          exact (ih o').1
        -- the operator ends here, and the character is read again behind it
        | none =>
          have hstep : step ⟨[], .op o, .plain⟩ c = plainStep ⟨[.op o], .none, .plain⟩ c := by
            simp only [step, hslash, hextend]
            rfl
          have hrest := first_of_delimited (hop o) .none .plain (c :: t)
          rw [run_cons] at hrest ⊢
          have hsame : step ⟨[.op o], .none, .plain⟩ c =
              plainStep ⟨[.op o], .none, .plain⟩ c := by
            simp only [step, hslash, if_false]
          rw [hstep, ← hsame]
          exact hrest
    -- an escaped newline is removed; anything else begins a word
    · by_cases hnewline : c = '\n'
      · subst hnewline
        exact (ih o).1
      · have hstep : step ⟨[], .op o, .escape⟩ c =
            .ok ⟨[.op o], .word [⟨c, true⟩], .plain⟩ := by
          simp only [step, hnewline]
          rfl
        rw [run_cons_ok hstep]
        exact first_of_delimited (hop o) _ _ t

/-- Behind a comment the first token is the newline that ends it. -/
theorem first_comment (hop : ∀ o, P (.op o)) (t : Text) :
    First P (run ⟨[], .none, .comment⟩ t >>= finish) := by
  induction t with
  | nil => exact fun tok toks h => absurd h nofun
  | cons c t ih =>
    by_cases hnewline : c = '\n'
    · subst hnewline
      exact (first_op hop t .newline).1
    · have hstep : step ⟨[], .none, .comment⟩ c = .ok ⟨[], .none, .comment⟩ := by
        simp only [step, hnewline, if_false]
      rw [run_cons_ok hstep]
      exact ih

/-- The end of the text, or a blank. -/
def Boundary (rest : Text) : Prop := rest = [] ∨ ∃ more, rest = ' ' :: more

/-- None of the characters that quote, and no parameter. -/
def isUnquoting (c : Char) : Bool := c ≠ '\\' && c ≠ '\'' && c ≠ '"' && c ≠ '$'

/-- A character that neither quotes nor is ordinary delimits what is being read. -/
theorem first_of_delimiter {c : Char} {cur : Cur} {t : Text} (h : isUnquoting c)
    (hc : ¬ isOrdinary c) (hcur : ∀ o, cur ≠ .op o)
    (hnext : ∀ cur', (cur' = .none ∨ ∃ o, cur' = .op o) →
      First P (run ⟨cur.close (some c), cur', .plain⟩ t >>= finish)) :
    First P (run ⟨[], cur, .plain⟩ (c :: t) >>= finish) := by
  simp only [isUnquoting, Bool.and_eq_true, decide_eq_true_eq] at h
  obtain ⟨⟨⟨hslash, hquote⟩, hdouble⟩, hdollar⟩ := h
  rw [run_cons, step_plain hslash hcur]
  by_cases hback : c = '`'
  · subst hback
    exact fun tok toks hrun => absurd hrun nofun
  cases hop : Op.start c with
  | some o =>
    simp only [plainStep, hquote, hdouble, hdollar, hback, hop, or_self]
    exact hnext (.op o) (.inr ⟨o, rfl⟩)
  | none =>
    have hblank : isBlank c = true := by
      simpa [isOrdinary, hslash, hquote, hdouble, hdollar, hback, hop] using hc
    simpa [plainStep, hquote, hdouble, hdollar, hback, hop, hblank, or_self] using hnext .none (.inl rfl)

/-- A bare word that is being read, in front of text without quotes. -/
theorem first_word (hword : ∀ u, IsBare u → P (.word (bare u))) (hio : ∀ n, P (.ioNumber n))
    {rest : Text} (hrest : Boundary rest) {t : Text} (ht : ∀ c ∈ t, isUnquoting c) :
    ∀ u, IsBare u → First P (run ⟨[], .word (bare u), .plain⟩ (t ++ rest) >>= finish) := by
  -- digits in front of a redirection are a number, and not a word
  have hclose : ∀ u, IsBare u → ∀ next, P (wordTok (bare u) next) := by
    intro u hu next
    unfold wordTok
    split_ifs
    · exact hio _
    · exact hword u hu
  induction t with
  | nil =>
    intro u hu
    rw [nil_append]
    rcases hrest with rfl | ⟨more, rfl⟩
    · intro tok toks h
      rw [← (cons.inj (Except.ok.inj h)).1]
      exact hclose u hu none
    · exact first_of_delimited (hword u hu) _ _ more
  | cons c t ih =>
    intro u hu
    have hc := ht c mem_cons_self
    rw [cons_append]
    -- an ordinary character joins the word; a delimiter ends it
    by_cases hordinary : isOrdinary c
    · have hword' : Cur.marks (.word (bare u)) ++ [⟨c, false⟩] = bare (u ++ [c]) := by
        simp [Cur.marks, bare]
      rw [run_cons_ok (step_ordinary (.word (bare u)) hordinary nofun nofun []), hword']
      refine ih (fun d hd => ht d (mem_cons_of_mem c hd)) _ ⟨by simp, ?_, ?_⟩
      · intro d hd
        rcases mem_append.mp hd with hd | hd
        · exact hu.2.1 d hd
        · rw [mem_singleton.mp hd]
          exact hordinary
      · rw [head?_append_of_ne_nil u hu.1]
        exact hu.2.2
    · exact first_of_delimiter hc hordinary nofun fun cur' _ =>
        first_of_delimited (hclose u hu _) _ _ _

/-- The first token of a text without quotes, in front of a blank or the end. -/
theorem first_unquoted (hop : ∀ o, P (.op o)) (hword : ∀ u, IsBare u → P (.word (bare u)))
    (hio : ∀ n, P (.ioNumber n)) {rest : Text} (hrest : Boundary rest)
    (hfirst : First P (tokenise rest)) {t : Text} (ht : ∀ c ∈ t, isUnquoting c) :
    First P (tokenise (t ++ rest)) := by
  induction t with
  | nil => exact hfirst
  | cons c t ih =>
    have hc := ht c mem_cons_self
    have htail : ∀ d ∈ t, isUnquoting d := fun d hd => ht d (mem_cons_of_mem c hd)
    unfold tokenise Lexer.start
    rw [cons_append]
    by_cases hordinary : isOrdinary c
    -- at the start of a token a hash begins a comment
    · by_cases hcomment : c = '#'
      · subst hcomment
        exact first_comment hop (t ++ rest)
      · rw [run_cons_ok (step_ordinary .none hordinary nofun (fun _ => hcomment) [])]
        refine first_word hword hio hrest htail [c] ⟨by simp, ?_, ?_⟩
        all_goals
          simp
          omega
    · refine first_of_delimiter hc hordinary nofun ?_
      rintro cur' (rfl | ⟨o, rfl⟩)
      · exact ih htail
      · exact (first_op hop _ o).1

end First

/-! ## The words of a command -/

/-- Words and their values. -/
def Values (ws : List Word) (vs : List Text) : Prop :=
  List.Forall₂ (fun w v => Word.value w = .ok v) ws vs

variable {w : Word} {vs : List Text} {rest : List Elem}

/-- A word after the name of the command. -/
theorem addWord_named {c : Simple} {v : Text} (hname : c.words ≠ []) (hv : w.value = .ok v) :
    c.addWord w = .ok { c with words := c.words ++ [v] } := by
  have hne : c ≠ .empty := fun h => hname (congrArg Simple.words h)
  unfold Simple.addWord
  rw [if_neg (fun h => hne h.1), if_neg (fun h => hname h.1), hv]
  rfl

theorem parse_words (toks : List Tok) {ws : List Word} (h : Values ws vs) :
    ∀ {c : Simple}, c.words ≠ [] →
      parse c (ws.map .word ++ toks) = parse { c with words := c.words ++ vs } toks := by
  induction h with
  | nil =>
    intro c _
    rw [append_nil]
    rfl
  | @cons w v ws vs hv _ ih =>
    intro c hname
    have hword : parse c (.word w :: (ws.map .word ++ toks)) =
        (c.addWord w >>= fun c' => parse c' (ws.map .word ++ toks)) := by
      rw [parse]
    rw [map_cons, cons_append, hword, addWord_named hname hv]
    refine (ih (append_ne_nil_of_right_ne_nil _ (cons_ne_nil v []))).trans ?_
    simp

/-- The name of a command: neither a reserved word nor an assignment. -/
theorem addWord_name {v : Text} (hreserved : w.isReserved = false)
    (hassign : w.isAssignment = false) (hv : w.value = .ok v) :
    Simple.addWord .empty w = .ok ⟨[], [v], []⟩ := by
  unfold Simple.addWord
  rw [if_neg (by rw [hreserved]; exact fun h => absurd h.2 Bool.false_ne_true),
    if_neg (by rw [hassign]; exact fun h => absurd h.2 Bool.false_ne_true), hv]
  rfl

theorem addWord_cases {c c' : Simple} (h : c.addWord w = .ok c') :
    (c'.assignments ≠ []) ∨
      (∃ v, w.value = .ok v ∧ c' = { c with words := c.words ++ [v] } ∧
        (c = .empty → w.isReserved = false ∧ w.isAssignment = false)) := by
  unfold Simple.addWord at h
  split_ifs at h with hreserved hassign
  · cases h
    simp
  · cases hv : w.value with
    | error e => rw [hv] at h; exact absurd h nofun
    | ok v =>
      rw [hv] at h
      cases h
      refine .inr ⟨v, rfl, rfl, fun hempty => ⟨?_, ?_⟩⟩
      · exact Bool.eq_false_iff.mpr fun hr => hreserved ⟨hempty, hr⟩
      · exact Bool.eq_false_iff.mpr fun ha => hassign ⟨congrArg Simple.words hempty, ha⟩

theorem redirect_cases {c c' : Simple} {fd : Option Text} {o : Op} (h : c.redirect fd o w = .ok c') :
    c'.redirections ≠ [] := by
  unfold Simple.redirect at h
  cases hv : w.value with
  | error e => rw [hv] at h; exact absurd h nofun
  | ok v =>
    rw [hv] at h
    cases h
    simp

/-- The command that ends here is the first element, if anything else follows as an operator. -/
theorem close_eq {c c' : Simple} {es : List Elem} (h : c.close ++ es = .simple c' :: rest)
    (hes : ∀ e es', es = e :: es' → ∀ d, e ≠ .simple d) : c = c' := by
  unfold Simple.close at h
  split_ifs at h
  · exact absurd rfl (hes _ _ h c')
  · exact Elem.simple.inj (cons.inj h).1

/-- **Inversion**: a line that starts with a simple command without assignments and redirections
starts with the words of the command. -/
theorem parse_simple {toks : List Tok} :
    ∀ {c : Simple}, parse c toks = .ok (.simple ⟨[], vs, []⟩ :: rest) →
      c.assignments = [] ∧ c.redirections = [] ∧
        ∃ ws vs' toks', toks = ws.map .word ++ toks' ∧ Values ws vs' ∧ vs = c.words ++ vs' := by
  intro c
  -- one case for each branch of the parser; a redirection or an assignment stays in the command
  fun_induction parse c toks with
  | case1 c =>
    intro h
    obtain rfl := close_eq (show c.close ++ [] = _ from
      (append_nil _).trans (Except.ok.inj h)) nofun
    exact ⟨rfl, rfl, [], [], [], rfl, .nil, (append_nil _).symm⟩
  | case2 c w toks ih =>
    intro h
    obtain ⟨c', hadd, h⟩ := Loop.except_bind_eq_ok h
    obtain ⟨hassign, hredirect, ws, vs', toks', rfl, hvalues, hvs⟩ := ih c' h
    rcases addWord_cases hadd with hne | ⟨v, hv, rfl, -⟩
    · exact absurd hassign hne
    · refine ⟨hassign, hredirect, w :: ws, v :: vs', toks', rfl, .cons hv hvalues, ?_⟩
      rw [hvs, append_assoc]
      rfl
  | case3 c n o w toks hop ih =>
    intro h
    obtain ⟨c', hadd, h⟩ := Loop.except_bind_eq_ok h
    exact absurd (ih c' h).2.1 (redirect_cases hadd)
  | case4 => exact fun h => absurd h nofun
  | case5 => exact fun h => absurd h nofun
  | case6 => exact fun h => absurd h nofun
  | case7 c o hparen hop w toks ih =>
    intro h
    obtain ⟨c', hadd, h⟩ := Loop.except_bind_eq_ok h
    exact absurd (ih c' h).2.1 (redirect_cases hadd)
  | case8 => exact fun h => absurd h nofun
  | case9 c o toks hparen hop ih =>
    intro h
    obtain ⟨rest', -, h⟩ := Loop.except_bind_eq_ok h
    obtain rfl := close_eq (Except.ok.inj h) (fun e es heq => by cases heq; exact nofun)
    exact ⟨rfl, rfl, [], [], _, rfl, .nil, (append_nil _).symm⟩

/-- The first word of a line that starts with a simple command is its name. -/
theorem parse_name {toks : List Tok}
    (h : parse .empty (.word w :: toks) = .ok (.simple ⟨[], vs, []⟩ :: rest)) :
    w.isReserved = false ∧ w.isAssignment = false := by
  obtain ⟨c', hadd, h⟩ := Loop.except_bind_eq_ok h
  rcases addWord_cases hadd with hne | ⟨v, -, -, hname⟩
  · exact absurd (parse_simple h).1 hne
  · exact hname rfl

end PosixShell
