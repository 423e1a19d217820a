import Ferrosync.Lib.PosixShell

set_option autoImplicit false

/-! # The command line of the ssh transport

`remote_command` builds the line that the remote user's shell reads. An argument is put in single
quotes if it contains a space, a quote, a backslash or a dollar sign, and is left bare otherwise.
Quoting is right for every text. Leaving bare is right for the texts that the shell takes as they
are, which excludes the empty text and everything with an operator, a pattern, a backquote, a tab
or a newline in it (`remote_command_read_iff`).
-/

namespace Ferrosync.Transport

open PosixShell

/-- The part of `SshTransport` that the command line depends on. -/
structure SshTransport where
  rsyncPath : Text
  args : List Text
  deriving DecidableEq, Repr

def SshTransport.new (rsyncPath : Text) (amSender : Bool) (options : List Text) (path : Text) :
    SshTransport :=
  ⟨rsyncPath, (if amSender then [] else ["--sender".toList]) ++ options ++ [".".toList, path]⟩

def isRsyncPath (path : Text) : Bool :=
  (path.split (· = '/')).getLast?.getD path = "rsync".toList

/-- The characters for which an argument is quoted. -/
def needsQuotes (arg : Text) : Bool :=
  arg.contains ' ' || arg.contains '\'' || arg.contains '"' || arg.contains '\\' ||
    arg.contains '$'

/-- The closure `escape` of `remote_command`. -/
def escape (arg : Text) : Text := if needsQuotes arg then quote arg else arg

/-- The escaped arguments, with spaces between them. -/
def argsStr (args : List Text) : Text := [' '].intercalate (args.map escape)

def remoteCommand (t : SshTransport) : Text :=
  if t.rsyncPath = "ferrosync".toList then
    "command -v ferrosync >/dev/null 2>&1 && exec ferrosync --server ".toList ++ argsStr t.args ++
      " || exec rsync --server ".toList ++ argsStr t.args
  else if isRsyncPath t.rsyncPath then
    escape t.rsyncPath ++ " --server ".toList ++ argsStr t.args
  else escape t.rsyncPath ++ " --server ".toList ++ argsStr t.args

/-! ## What the line is meant to say -/

/-- One command: the binary, `--server` and the arguments. -/
def directScript (t : SshTransport) : List Elem :=
  [.simple ⟨[], t.rsyncPath :: "--server".toList :: t.args, []⟩]

/-- Look for `ferrosync`; execute it if it is there, and `rsync` otherwise. -/
def fallbackScript (args : List Text) : List Elem :=
  [.simple ⟨[], ["command".toList, "-v".toList, "ferrosync".toList],
      [⟨none, .great, "/dev/null".toList⟩, ⟨some "2".toList, .greatAnd, "1".toList⟩]⟩,
    .connector .andIf,
    .simple ⟨[], "exec".toList :: "ferrosync".toList :: "--server".toList :: args, []⟩,
    .connector .orIf,
    .simple ⟨[], "exec".toList :: "rsync".toList :: "--server".toList :: args, []⟩]

/-- The shell reads the line as it was meant: the words of the command are the binary and its
arguments, each one word, with the fallback if the binary is the default one. -/
def ReadAsMeant (t : SshTransport) : Prop :=
  script (remoteCommand t) =
    .ok (if t.rsyncPath = "ferrosync".toList then fallbackScript t.args else directScript t)

instance (t : SshTransport) : Decidable (ReadAsMeant t) := inferInstanceAs (Decidable (_ = _))

/-- An argument that is quoted, or that the shell takes as it is. -/
def SafeWord (arg : Text) : Prop := needsQuotes arg = true ∨ IsPlain arg

/-- A binary that the shell takes as the name of a command. -/
def SafeName (path : Text) : Prop :=
  SafeWord path ∧ (needsQuotes path = true ∨ path ∉ reservedWords ∧
    Word.isAssignment (bare path) = false)

/-! ## One argument -/

/-- The word the shell makes of an argument. -/
def wordOf (arg : Text) : Word :=
  if needsQuotes arg then quoted arg else bare arg

variable {arg rest : Text} {args : List Text}

theorem value_wordOf (h : SafeWord arg) : Word.value (wordOf arg) = .ok arg := by
  unfold wordOf
  by_cases hquote : needsQuotes arg
  · rw [if_pos hquote]
    exact value_quoted arg
  · rw [if_neg hquote]
    exact value_bare_iff.mpr ⟨rfl, (h.resolve_left hquote).2⟩

theorem run_escape (h : SafeWord arg) (toks : List Tok) :
    run ⟨toks, .none, .plain⟩ (escape arg) = .ok ⟨toks, .word (wordOf arg), .plain⟩ := by
  unfold escape wordOf
  by_cases hquote : needsQuotes arg
  · simpa [hquote] using run_quote toks arg
  · simpa [hquote] using run_bare toks (h.resolve_left hquote).1

/-- A safe argument in front of a blank or the end is one token. -/
theorem tokenise_escape (h : SafeWord arg) (hrest : Boundary rest) :
    tokenise (escape arg ++ rest) =
      (tokenise rest).map (Tok.word (wordOf arg) :: ·) := by
  unfold tokenise Lexer.start
  rw [run_append, run_escape h]
  rcases hrest with rfl | ⟨more, rfl⟩
  · rfl
  · show (run ⟨[], .word (wordOf arg), .plain⟩ (' ' :: more) >>= finish) = _
    exact tokenise_from [.word (wordOf arg)] more

/-- What is not quoted has no character that quotes. -/
theorem unquoting_of_not_needsQuotes (h : needsQuotes arg = false) : ∀ c ∈ arg, isUnquoting c := by
  intro c hc
  simp only [needsQuotes, Bool.or_eq_false_iff] at h
  obtain ⟨⟨⟨⟨-, hsingle⟩, hdouble⟩, hslash⟩, hdollar⟩ := h
  have hne : ∀ {d : Char}, arg.contains d = false → c ≠ d := by
    rintro d hd rfl
    exact absurd (List.contains_iff_mem.mpr hc) (by rw [hd]; exact Bool.false_ne_true)
  simp [isUnquoting, hne hsingle, hne hdouble, hne hslash, hne hdollar]

/-! ## A list of arguments -/

theorem argsStr_nil : argsStr [] = [] := rfl

theorem argsStr_singleton (arg : Text) : argsStr [arg] = escape arg := by
  simp [argsStr]

theorem argsStr_cons (arg : Text) (h : args ≠ []) :
    argsStr (arg :: args) = escape arg ++ ' ' :: argsStr args := by
  cases args with
  | nil => exact absurd rfl h
  | cons next args => simp [argsStr, List.intercalate]

theorem argsStr_split (arg : Text) (args : List Text) (hrest : Boundary rest) :
    ∃ rest', argsStr (arg :: args) ++ rest = escape arg ++ rest' ∧ Boundary rest' ∧
      tokenise rest' = tokenise (argsStr args ++ rest) := by
  cases args with
  | nil => exact ⟨rest, by rw [argsStr_singleton], hrest, rfl⟩
  | cons next args =>
    refine ⟨' ' :: (argsStr (next :: args) ++ rest), ?_, .inr ⟨_, rfl⟩,
      tokenise_blank _⟩
    simp [argsStr_cons arg (List.cons_ne_nil next args)]

theorem tokenise_args (hrest : Boundary rest) (h : ∀ arg ∈ args, SafeWord arg) :
    tokenise (argsStr args ++ rest) =
      (tokenise rest).map ((args.map wordOf).map Tok.word ++ ·) := by
  induction args with
  | nil =>
    rw [argsStr_nil, List.nil_append]
    cases tokenise rest <;> rfl
  | cons arg args ih =>
    obtain ⟨rest', htext, hrest', htoks⟩ := argsStr_split arg args hrest
    rw [htext, tokenise_escape (h arg List.mem_cons_self) hrest', htoks,
      ih fun a ha => h a (List.mem_cons_of_mem arg ha)]
    cases tokenise rest <;> rfl

/-- A token that is no word, or a word whose text is safe. -/
def ReadsSafe (tok : Tok) : Prop := ∀ w v, tok = .word w → Word.value w = .ok v → SafeWord v

/-- Whatever the arguments are, the first word read is safe. -/
theorem first_args (hrest : Boundary rest) (hfirst : First ReadsSafe (tokenise rest)) :
    ∀ args : List Text, First ReadsSafe (tokenise (argsStr args ++ rest))
  | [] => hfirst
  | arg :: args => by
    obtain ⟨rest', htext, hrest', htoks⟩ := argsStr_split arg args hrest
    rw [htext]
    -- a quoted argument is one word; an unquoted one is read up to its first delimiter
    cases hquote : needsQuotes arg with
    | true =>
      have hsafe : SafeWord arg := .inl hquote
      rw [tokenise_escape hsafe hrest']
      intro tok toks h w v hw hv
      cases hmore : tokenise rest' with
      | error e => rw [hmore] at h; exact absurd h nofun
      | ok more =>
        rw [hmore] at h
        have htok : Tok.word (wordOf arg) = tok := (List.cons.inj (Except.ok.inj h)).1
        obtain rfl : wordOf arg = w := Tok.word.inj (htok.trans hw)
        rw [value_wordOf hsafe] at hv
        rw [← Except.ok.inj hv]
        exact hsafe
    | false =>
      have hescape : escape arg = arg := if_neg (by rw [hquote]; exact Bool.false_ne_true)
      rw [hescape]
      refine first_unquoted (fun o w v hw => absurd hw nofun) ?_
        (fun n w v hw => absurd hw nofun) hrest' ?_ (unquoting_of_not_needsQuotes hquote)
      · intro u hu w v hw hv
        obtain rfl := Tok.word.inj hw
        obtain ⟨rfl, hplain⟩ := value_bare_iff.mp hv
        exact .inr ⟨hu, hplain⟩
      · rw [htoks]
        exact first_args hrest hfirst args

/-- Arguments that are read as their own texts are safe. -/
theorem safe_of_read (hrest : Boundary rest) (hfirst : First ReadsSafe (tokenise rest))
    {toks : List Tok} :
    ∀ {args : List Text} {ws : List Word},
      tokenise (argsStr args ++ rest) = .ok (ws.map Tok.word ++ toks) →
      Values ws args → ∀ arg ∈ args, SafeWord arg
  | [], _, _, _ => fun arg harg => absurd harg List.not_mem_nil
  | arg :: args, [], _, hvalues => nomatch hvalues
  | arg :: args, w :: ws, h, .cons hv hvalues => by
    have hsafe : SafeWord arg := first_args hrest hfirst (arg :: args) _ _ h w arg rfl hv
    obtain ⟨rest', htext, hrest', htoks⟩ := argsStr_split arg args hrest
    -- a safe argument is one word, and the next ones are read behind it
    rw [htext, tokenise_escape hsafe hrest', htoks] at h
    intro a ha
    rcases List.mem_cons.mp ha with rfl | ha
    · exact hsafe
    cases hmore : tokenise (argsStr args ++ rest) with
    | error e => rw [hmore] at h; exact absurd h nofun
    | ok more =>
      rw [hmore] at h
      have htail : more = ws.map Tok.word ++ toks := (List.cons.inj (Except.ok.inj h)).2
      exact safe_of_read hrest hfirst (hmore.trans (congrArg _ htail)) hvalues a ha

theorem values_args (h : ∀ arg ∈ args, SafeWord arg) : Values (args.map wordOf) args := by
  unfold Values
  rw [List.forall₂_map_left_iff, List.forall₂_same]
  exact fun arg harg => value_wordOf (h arg harg)

/-! ## The direct command -/

theorem safeWord_server : SafeWord "--server".toList := .inr (by decide)

/-- What follows the arguments of a direct command: the blank after `--server` if there are none. -/
def directRest (args : List Text) : Text := if args = [] then [' '] else []

theorem boundary_directRest (args : List Text) : Boundary (directRest args) := by
  unfold directRest
  split_ifs
  · exact .inr ⟨[], rfl⟩
  · exact .inl rfl

theorem tokenise_directRest (args : List Text) : tokenise (directRest args) = .ok [] := by
  unfold directRest
  split_ifs <;> rfl

/-- The direct line is the binary, `--server` and the arguments, joined in the same way. -/
theorem directLine_eq (path : Text) (args : List Text) :
    escape path ++ " --server ".toList ++ argsStr args =
      argsStr (path :: "--server".toList :: args) ++ directRest args := by
  have hserver : escape "--server".toList = "--server".toList := by decide
  rw [argsStr_cons path (List.cons_ne_nil _ _)]
  cases args with
  | nil =>
    rw [argsStr_singleton, argsStr_nil, List.append_nil, List.append_assoc]
    rfl
  | cons arg args =>
    rw [argsStr_cons _ (List.cons_ne_nil _ _), hserver]
    simp [directRest]

theorem isReserved_bare (t : Text) :
    Word.isReserved (bare t) = decide (t ∈ reservedWords) := by
  have hall : (bare t).all (fun m => !m.quoted) = true := by simp [bare]
  unfold Word.isReserved
  rw [hall, map_char_bare, Bool.true_and]

/-- A quoted word is neither reserved nor an assignment. -/
theorem quoted_name {t : Text} (h : t ≠ []) :
    Word.isReserved (quoted t) = false ∧
      Word.isAssignment (quoted t) = false := by
  constructor
  · cases t with
    | nil => exact absurd rfl h
    | cons c t => simp [Word.isReserved, quoted]
  · have hname : (quoted t).takeWhile (fun m => m ≠ ⟨'=', false⟩) =
        quoted t := by
      refine List.takeWhile_eq_self_iff.mpr fun m hm => ?_
      obtain ⟨c, -, rfl⟩ := List.mem_map.mp hm
      simp
    unfold Word.isAssignment
    rw [hname]
    simp

theorem name_iff {path : Text} (h : SafeWord path) :
    SafeName path ↔ Word.isReserved (wordOf path) = false ∧
      Word.isAssignment (wordOf path) = false := by
  unfold SafeName wordOf
  cases hquote : needsQuotes path with
  | true =>
    have hne : path ≠ [] := by rintro rfl; exact absurd hquote (by decide)
    exact ⟨fun _ => quoted_name hne, fun _ => ⟨h, .inl rfl⟩⟩
  | false =>
    rw [if_neg Bool.false_ne_true, isReserved_bare, decide_eq_false_iff_not]
    constructor
    · rintro ⟨-, hbad | hname⟩
      · exact absurd hbad Bool.false_ne_true
      · exact hname
    · exact fun hname => ⟨h, .inr hname⟩

/-- **The direct command** is read as meant exactly if the binary is a safe name and the arguments
are safe. -/
theorem direct_read_iff (path : Text) (args : List Text) :
    script (escape path ++ " --server ".toList ++ argsStr args) =
        .ok (directScript ⟨path, args⟩) ↔
      SafeName path ∧ ∀ arg ∈ args, SafeWord arg := by
  rw [directLine_eq]
  have hrest := boundary_directRest args
  -- from left to right the words are compared; the name must not be a keyword or an assignment
  constructor
  · intro h
    obtain ⟨toks, htoks, hparse⟩ := Loop.except_bind_eq_ok h
    obtain ⟨-, -, ws, vs, toks', rfl, hvalues, hvs⟩ := parse_simple hparse
    obtain rfl : path :: "--server".toList :: args = vs := hvs
    have hfirst : First ReadsSafe (tokenise (directRest args)) := by
      rw [tokenise_directRest]
      exact fun tok toks h => absurd h nofun
    have hsafe := safe_of_read hrest hfirst htoks hvalues
    have hpath : SafeWord path := hsafe path List.mem_cons_self
    refine ⟨(name_iff hpath).mpr ?_, fun arg harg =>
      hsafe arg (List.mem_cons_of_mem _ (List.mem_cons_of_mem _ harg))⟩
    rw [tokenise_args hrest hsafe, tokenise_directRest] at htoks
    rw [← Except.ok.inj htoks] at hparse
    exact parse_name hparse
  · rintro ⟨hname, hargs⟩
    have hpath : SafeWord path := hname.1
    have hsafe : ∀ arg ∈ path :: "--server".toList :: args, SafeWord arg := by
      intro arg harg
      rcases List.mem_cons.mp harg with rfl | harg
      · exact hpath
      rcases List.mem_cons.mp harg with rfl | harg
      · exact safeWord_server
      · exact hargs arg harg
    obtain ⟨hreserved, hassign⟩ := (name_iff hpath).mp hname
    have hvalues := values_args fun arg harg => hsafe arg (List.mem_cons_of_mem path harg)
    have hparse : parse .empty
        (Tok.word (wordOf path) :: (("--server".toList :: args).map wordOf).map Tok.word) =
          .ok (directScript ⟨path, args⟩) := by
      rw [parse, addWord_name hreserved hassign (value_wordOf hpath)]
      have hwords := parse_words [] hvalues
        (c := ⟨[], [path], []⟩) (List.cons_ne_nil path [])
      rw [List.append_nil] at hwords
      exact hwords
    have htoks : tokenise (argsStr (path :: "--server".toList :: args) ++
        directRest args) =
          .ok (Tok.word (wordOf path) :: (("--server".toList :: args).map wordOf).map Tok.word) := by
      rw [tokenise_args hrest hsafe, tokenise_directRest]
      exact congrArg Except.ok (List.append_nil _)
    unfold script
    rw [htoks]
    exact hparse

/-! ## The command with a fallback -/

/-- The tokens in front of the first arguments. -/
def lookToks : List Tok :=
  [.word (bare "command".toList), .word (bare "-v".toList),
    .word (bare "ferrosync".toList), .op .great,
    .word (bare "/dev/null".toList), .ioNumber "2".toList, .op .greatAnd,
    .word (bare "1".toList), .op .andIf, .word (bare "exec".toList),
    .word (bare "ferrosync".toList), .word (bare "--server".toList)]

/-- The tokens between the arguments. -/
def elseToks : List Tok :=
  [.op .orIf, .word (bare "exec".toList), .word (bare "rsync".toList),
    .word (bare "--server".toList)]

theorem run_look :
    run .start
        "command -v ferrosync >/dev/null 2>&1 && exec ferrosync --server ".toList =
      .ok ⟨lookToks, .none, .plain⟩ := by
  decide

theorem run_else :
    run .start " || exec rsync --server ".toList = .ok ⟨elseToks, .none, .plain⟩ := by
  decide

/-- Reading goes on behind a part that ends between two tokens. -/
theorem tokenise_behind {front : Text} {toks : List Tok}
    (h : run .start front = .ok ⟨toks, .none, .plain⟩) (rest : Text) :
    tokenise (front ++ rest) = (tokenise rest).map (toks ++ ·) := by
  rw [← tokenise_from]
  unfold tokenise
  rw [run_append, h]
  rfl

theorem tokenise_else (args : List Text) :
    tokenise (" || exec rsync --server ".toList ++ argsStr args) =
      (tokenise (argsStr args)).map (elseToks ++ ·) :=
  tokenise_behind run_else _

/-- The elements in front of the command that is tried first. -/
def lookElems : List Elem :=
  [.simple ⟨[], ["command".toList, "-v".toList, "ferrosync".toList],
      [⟨none, .great, "/dev/null".toList⟩, ⟨some "2".toList, .greatAnd, "1".toList⟩]⟩,
    .connector .andIf]

theorem parse_look (toks : List Tok) :
    parse .empty (lookToks ++ toks) =
      (parse ⟨[], ["exec".toList, "ferrosync".toList, "--server".toList], []⟩ toks >>=
        fun rest => pure (lookElems ++ rest)) := by
  rfl

theorem parse_else (c : Simple) (hc : c ≠ .empty) (toks : List Tok) :
    parse c (elseToks ++ toks) =
      (parse ⟨[], ["exec".toList, "rsync".toList, "--server".toList], []⟩ toks >>=
        fun rest => pure (.simple c :: .connector .orIf :: rest)) := by
  have hclose : c.close = [.simple c] := if_neg hc
  have hparse : parse c (elseToks ++ toks) =
      (parse ⟨[], ["exec".toList, "rsync".toList, "--server".toList], []⟩ toks >>=
        fun rest => pure (c.close ++ .connector .orIf :: rest)) := rfl
  rw [hparse, hclose]
  rfl

/-- **The command with a fallback** is read as meant exactly if the arguments are safe. -/
theorem fallback_read_iff (args : List Text) :
    script ("command -v ferrosync >/dev/null 2>&1 && exec ferrosync --server ".toList ++
        argsStr args ++ " || exec rsync --server ".toList ++ argsStr args) =
        .ok (fallbackScript args) ↔
      ∀ arg ∈ args, SafeWord arg := by
  have hrest : Boundary (" || exec rsync --server ".toList ++ argsStr args) := .inr ⟨_, rfl⟩
  have hfirst : First ReadsSafe
      (tokenise (" || exec rsync --server ".toList ++ argsStr args)) := by
    rw [tokenise_else]
    intro tok toks h w v hw
    cases hargs : tokenise (argsStr args) with
    | error e => rw [hargs] at h; exact absurd h nofun
    | ok more =>
      rw [hargs] at h
      have htok : Tok.op .orIf = tok := (List.cons.inj (Except.ok.inj h)).1
      exact absurd (htok.trans hw) nofun
  unfold script
  rw [List.append_assoc, List.append_assoc, tokenise_behind run_look]
  constructor
  · intro h
    obtain ⟨toks, htoks, hparse⟩ := Loop.except_bind_eq_ok h
    cases hline : tokenise
        (argsStr args ++ (" || exec rsync --server ".toList ++ argsStr args)) with
    | error e => rw [hline] at htoks; exact absurd htoks nofun
    | ok line =>
      rw [hline] at htoks
      obtain rfl : lookToks ++ line = toks := Except.ok.inj htoks
      rw [parse_look] at hparse
      obtain ⟨elems, helems, hparse⟩ := Loop.except_bind_eq_ok hparse
      have htail : lookElems ++ elems = fallbackScript args := Except.ok.inj hparse
      have helems' : elems = (fallbackScript args).drop 2 := by
        rw [← htail]
        rfl
      rw [helems'] at helems
      -- the arguments of the first branch are enough: those of the second are the same
      obtain ⟨-, -, ws, vs, toks', rfl, hvalues, hvs⟩ := parse_simple helems
      obtain rfl : args = vs := by simpa using hvs
      exact safe_of_read hrest hfirst hline hvalues
  · intro hargs
    have hvalues := values_args hargs
    have hlast : tokenise (argsStr args) = .ok ((args.map wordOf).map Tok.word) := by
      have h := tokenise_args (.inl rfl) hargs
      rw [List.append_nil] at h
      rw [h]
      exact congrArg Except.ok (List.append_nil _)
    set words : List Tok := (args.map wordOf).map Tok.word with hwords
    have htried : parse ⟨[], ["exec".toList, "ferrosync".toList, "--server".toList], []⟩
        (words ++ (elseToks ++ words)) =
        parse ⟨[], "exec".toList :: "ferrosync".toList :: "--server".toList :: args, []⟩
          (elseToks ++ words) :=
      parse_words _ hvalues (List.cons_ne_nil _ _)
    have hother : parse ⟨[], ["exec".toList, "rsync".toList, "--server".toList], []⟩
        words =
        .ok [.simple ⟨[], "exec".toList :: "rsync".toList :: "--server".toList :: args, []⟩] := by
      have h := parse_words [] hvalues
        (c := ⟨[], ["exec".toList, "rsync".toList, "--server".toList], []⟩) (List.cons_ne_nil _ _)
      rw [List.append_nil] at h
      exact h
    have hne : (⟨[], "exec".toList :: "ferrosync".toList :: "--server".toList :: args, []⟩ : Simple) ≠
        .empty := fun h => absurd (congrArg Simple.words h) (List.cons_ne_nil _ _)
    rw [tokenise_args hrest hargs, tokenise_else, hlast]
    simp only [Except.map, Loop.ok_bind]
    rw [parse_look, htried, parse_else _ hne, hother]
    rfl

/-- **What the remote shell reads.** The line is read as meant exactly if the binary is the default
or a safe name, and every argument is safe. -/
theorem remote_command_read_iff (t : SshTransport) :
    ReadAsMeant t ↔ (t.rsyncPath = "ferrosync".toList ∨ SafeName t.rsyncPath) ∧
      ∀ arg ∈ t.args, SafeWord arg := by
  unfold ReadAsMeant remoteCommand
  by_cases hdefault : t.rsyncPath = "ferrosync".toList
  · rw [if_pos hdefault, if_pos hdefault, fallback_read_iff]
    exact ⟨fun h => ⟨.inl hdefault, h⟩, fun h => h.2⟩
  · rw [if_neg hdefault, if_neg hdefault, ite_self]
    refine (direct_read_iff t.rsyncPath t.args).trans ?_
    exact ⟨fun h => ⟨.inr h.1, h.2⟩, fun h => ⟨h.1.resolve_left hdefault, h.2⟩⟩

/-- A remote path with a semicolon starts a second command. -/
theorem remote_path_runs_command :
    PosixShell.script (remoteCommand (.new "rsync".toList true [] "/a;id".toList)) =
      .ok [.simple ⟨[], ["rsync".toList, "--server".toList, ".".toList, "/a".toList], []⟩,
        .connector .semi, .simple ⟨[], ["id".toList], []⟩] ∧
      ¬ ReadAsMeant (.new "rsync".toList true [] "/a;id".toList) := by
  have hread : script (remoteCommand (.new "rsync".toList true [] "/a;id".toList)) =
      .ok [.simple ⟨[], ["rsync".toList, "--server".toList, ".".toList, "/a".toList], []⟩,
        .connector .semi, .simple ⟨[], ["id".toList], []⟩] := by
    decide +kernel
  refine ⟨hread, fun h => ?_⟩
  have hlen := congrArg List.length (Except.ok.inj (hread.symm.trans h))
  exact absurd hlen (by decide)

end Ferrosync.Transport
