import Ferrosync.Engine.OptionRoundTrip
import Ferrosync.Filter.Rule
import Ferrosync.Protocol.Varint

set_option autoImplicit false

/-! # The filter list of a remote session

The client sends its rules ahead of the file list, each behind its length, and a zero after the
last; the server reads them and throws them away. `filter_list_framing_iff` says when the two
agree on whether there is a list and on where it ends; `sent_rules_decide_alike` compares the
meaning of the rules sent with that of the rules the client itself applies.
-/

namespace Ferrosync

open ByteStream List

variable {n : Nat} {o : TransferOptions} {rule pattern : Text} {rest : List UInt8}

/-! ## The client -/

/-- The rule strings in the order in which they are sent. -/
def sentRules (o : TransferOptions) : List Text :=
  o.filters ++
    if o.delete = .excluded then []
    else o.includes.map ("+ ".toList ++ ·) ++ o.excludes.map ("- ".toList ++ ·)

/-- A rule behind its length. -/
def ruleBytes (rule : Text) : List UInt8 :=
  writeInt (toI32 (Text.encode rule).length) ++ Text.encode rule

def collectFilterList (o : TransferOptions) : List UInt8 :=
  (sentRules o).flatMap ruleBytes ++ writeInt 0

/-- Whether the client sends the list: `run_push` has a condition, `run_pull` has none. -/
def sendsFilterList (o : TransferOptions) (amSender : Bool) : Bool :=
  if amSender then o.delete ≠ .none || o.pruneEmptyDirs else true

/-! ## The server -/

/-- Whether the server reads a list: `handle_receive_impl` has a condition, `handle_send_impl` has
none. -/
def expectsFilterList (server : TransferOptions) (amSender : Bool) : Bool :=
  if amSender then server.delete ≠ .none else true

/-- The rules up to the zero, at most `n` of them. -/
def readRules : Nat → Wire (List (List UInt8))
  | 0 => Reader.fail (.fault .diverged)
  | n + 1 => do
    let len ← readInt
    if len = 0 then pure []
    else do
      let rule ← readExact unexpectedEof len.natAbs
      let rules ← readRules n
      pure (rule :: rules)

/-- The list as it stands on the wire. Each rule takes at least a byte. -/
def readFilterList : Wire (List (List UInt8)) := fun input => readRules (input.length + 1) input

def readAndDiscardFilterList : Wire Unit := do
  let _ ← readFilterList
  pure ()

/-! ## The framing -/

/-- A rule that the reader does not take for the end of the list, and whose length it sees. -/
def Framed (rule : Text) : Prop := rule ≠ [] ∧ (Text.encode rule).length ≤ 2 ^ 31

theorem toI32_natAbs (h : n ≤ 2 ^ 31) : (toI32 n).natAbs = n := by
  unfold toI32
  rcases Nat.lt_or_ge n (2 ^ 31) with hlt | hge
  · rw [Int.bmod_eq_of_le (by omega) (by omega)]
    exact Int.natAbs_natCast n
  · have hn : n = 2 ^ 31 := Nat.le_antisymm h hge
    rw [hn]
    decide

theorem readRules_zero (n : Nat) (rest : List UInt8) :
    readRules (n + 1) (writeInt 0 ++ rest) = .ok ([], rest) := by
  rw [readRules, bind_ok (reads_int (by decide) rest)]
  rfl

theorem readRules_rule (hrule : Framed rule) {input : List UInt8} {rules : List (List UInt8)}
    (h : readRules n input = .ok (rules, rest)) :
    readRules (n + 1) (ruleBytes rule ++ input) = .ok (Text.encode rule :: rules, rest) := by
  obtain ⟨hne, hle⟩ := hrule
  have hpos : 1 ≤ (Text.encode rule).length := Text.one_le_length_encode hne
  have habs := toI32_natAbs hle
  have hzero : toI32 (Text.encode rule).length ≠ 0 := by
    omega
  rw [readRules, ruleBytes, append_assoc, bind_ok (reads_int (isI32_toI32 _) _), if_neg hzero,
    bind_ok (Reads.exact_of_length habs.symm input), bind_ok h]
  rfl

/-- A list of framed rules is read back, and nothing behind it is touched. -/
theorem readRules_sent {rules : List Text} (hrules : ∀ rule ∈ rules, Framed rule)
    {tail : List UInt8} {more : List (List UInt8)} (htail : readRules n tail = .ok (more, rest)) :
    readRules (rules.length + n) (rules.flatMap ruleBytes ++ tail) =
      .ok (rules.map Text.encode ++ more, rest) := by
  induction rules with
  | nil => simpa using htail
  | cons rule rules ih =>
    have hmore := ih fun r hr => hrules r (mem_cons_of_mem _ hr)
    rw [length_cons, Nat.add_right_comm, flatMap_cons, append_assoc]
    exact readRules_rule (hrules rule mem_cons_self) hmore

theorem readRules_mono {m : Nat} (hnm : n ≤ m) {input : List UInt8} {rules : List (List UInt8)}
    (h : readRules n input = .ok (rules, rest)) :
    readRules m input = .ok (rules, rest) := by
  induction n generalizing m input rules rest with
  | zero => cases h
  | succ n ih =>
    obtain ⟨m, rfl⟩ : ∃ k, m = k + 1 := ⟨m - 1, by omega⟩
    rw [readRules] at h ⊢
    obtain ⟨len, input', hlen, h⟩ := bind_eq_ok h
    rw [bind_ok hlen]
    by_cases hzero : len = 0
    · rwa [if_pos hzero] at h ⊢
    · rw [if_neg hzero] at h ⊢
      obtain ⟨rule, input'', hrule, h⟩ := bind_eq_ok h
      obtain ⟨rules', rest', hrules, h⟩ := bind_eq_ok h
      rwa [bind_ok hrule, bind_ok (ih (by omega) hrules)]

theorem length_rules_le (rules : List Text) : rules.length ≤ (rules.flatMap ruleBytes).length := by
  induction rules with
  | nil => exact Nat.le_refl _
  | cons rule rules ih =>
    have hlen : 4 ≤ (ruleBytes rule).length := by simp [ruleBytes]
    rw [flatMap_cons, length_append, length_cons]
    omega

/-- Framed rules, and then what the reader takes for the end of the list. -/
theorem readFilterList_sent {rules : List Text} (hrules : ∀ rule ∈ rules, Framed rule)
    (rest : List UInt8) :
    readFilterList (rules.flatMap ruleBytes ++ (writeInt 0 ++ rest)) =
      .ok (rules.map Text.encode, rest) := by
  have hread := readRules_sent hrules (readRules_zero 0 rest)
  rw [append_nil] at hread
  refine readRules_mono ?_ hread
  have := length_rules_le rules
  rw [length_append]
  omega

theorem collectFilterList_append (o : TransferOptions) (rest : List UInt8) :
    collectFilterList o ++ rest = (sentRules o).flatMap ruleBytes ++ (writeInt 0 ++ rest) :=
  List.append_assoc _ _ _

theorem readFilterList_collect (hrules : ∀ rule ∈ sentRules o, Framed rule) (rest : List UInt8) :
    readFilterList (collectFilterList o ++ rest) = .ok ((sentRules o).map Text.encode, rest) := by
  rw [collectFilterList_append]
  exact readFilterList_sent hrules rest

/-- An empty rule ends the list for the reader, and the rules behind it are left on the wire. -/
theorem readFilterList_empty_rule {before after : List Text}
    (hbefore : ∀ rule ∈ before, Framed rule) :
    readFilterList ((before ++ [] :: after).flatMap ruleBytes ++ writeInt 0) =
      .ok (before.map Text.encode, after.flatMap ruleBytes ++ writeInt 0) := by
  have hempty : ruleBytes [] = writeInt 0 := rfl
  have hsplit : (before ++ [] :: after).flatMap ruleBytes ++ writeInt 0 =
      before.flatMap ruleBytes ++ (writeInt 0 ++ (after.flatMap ruleBytes ++ writeInt 0)) := by
    rw [flatMap_append, flatMap_cons, hempty]
    simp only [append_assoc]
  rw [hsplit]
  exact readFilterList_sent hbefore _

/-- The reader takes exactly the bytes of the list, whatever comes behind them. -/
def ConsumedExactly (o : TransferOptions) : Prop :=
  ∀ rest, readAndDiscardFilterList (collectFilterList o ++ rest) = .ok ((), rest)

theorem sent_ne_nil (h : rule ∈ sentRules o) (hempty : rule = []) : [] ∈ o.filters := by
  rcases mem_append.mp h with hfilter | hrest
  · rwa [hempty] at hfilter
  · exfalso
    split_ifs at hrest with hdelete
    · cases hrest
    · rcases mem_append.mp hrest with hmem | hmem
      all_goals
        obtain ⟨pattern, -, rfl⟩ := mem_map.mp hmem
        exact absurd hempty (by simp)

theorem consumedExactly_iff (hlen : ∀ rule ∈ sentRules o, (Text.encode rule).length ≤ 2 ^ 31) :
    ConsumedExactly o ↔ [] ∉ o.filters := by
  constructor
  · intro hexact hmem
    -- The rules before the first empty one are read, and its length ends the list.
    have hsent : [] ∈ sentRules o := mem_append_left _ hmem
    obtain ⟨before, after, hsplit, hnone⟩ := eq_append_cons_of_mem hsent
    have hbefore : ∀ rule ∈ before, Framed rule := by
      intro rule hrule
      refine ⟨fun hempty => hnone (hempty ▸ hrule), hlen rule ?_⟩
      rw [hsplit]
      exact mem_append_left _ hrule
    have hread := hexact []
    rw [append_nil, collectFilterList, hsplit, readAndDiscardFilterList,
      bind_ok (readFilterList_empty_rule hbefore)] at hread
    have hleft : after.flatMap ruleBytes ++ writeInt 0 = [] :=
      congrArg Prod.snd (Except.ok.inj hread)
    have hlength := congrArg length hleft
    simp [writeInt_length] at hlength
  · intro hnone rest
    have hframed : ∀ rule ∈ sentRules o, Framed rule := fun rule hrule =>
      ⟨fun hempty => hnone (sent_ne_nil hrule hempty), hlen rule hrule⟩
    rw [readAndDiscardFilterList, bind_ok (readFilterList_collect hframed rest)]
    rfl

/-- **Framing.** With rules of at most `2 ^ 31` bytes, both sides agree on the list exactly if a push
prunes empty directories only together with a deletion, and no filter rule is empty where a list
is sent. -/
theorem filter_list_framing_iff (o : TransferOptions) (amSender : Bool) (modulePath : List UInt8)
    (hlen : ∀ rule ∈ sentRules o, (Text.encode rule).length ≤ 2 ^ 31) :
    (∃ server, parseServerArgsConfig (buildServerOptionsConfig o amSender) modulePath
        (!amSender) = .ok server ∧
      sendsFilterList o amSender = expectsFilterList server amSender ∧
      (sendsFilterList o amSender = true → ConsumedExactly o)) ↔
      (amSender = true → o.pruneEmptyDirs = true → o.delete ≠ .none) ∧
      (amSender = true → o.delete = .none ∨ [] ∉ o.filters) ∧
      (amSender = false → [] ∉ o.filters) := by
  rw [parse_build, consumedExactly_iff hlen]
  have hserver : ∀ P : TransferOptions → Prop,
      (∃ server, (Except.ok (received o amSender modulePath) : Except Failure TransferOptions) =
        .ok server ∧ P server) ↔ P (received o amSender modulePath) := by
    intro P
    constructor
    · rintro ⟨server, hserver, hP⟩
      rwa [Except.ok.inj hserver]
    · intro hP
      exact ⟨_, rfl, hP⟩
  rw [hserver]
  -- a push sends the list only with a deletion; a pull always sends it
  cases amSender with
  | true =>
    have hdelete : (received o true modulePath).delete = o.delete := rfl
    unfold sendsFilterList expectsFilterList
    rw [hdelete]
    by_cases hnone : o.delete = .none
    · cases o.pruneEmptyDirs <;> simp [hnone]
    · simp [hnone]
  | false => simp [sendsFilterList, expectsFilterList]

/-- `--prune-empty-dirs` without a deletion. -/
def pruneOnly : TransferOptions := { TransferOptions.default with pruneEmptyDirs := true }

/-- `--filter ''` with `--delete`. -/
def emptyFilter : TransferOptions :=
  { TransferOptions.default with filters := [[]], delete := .during }

/-- A push that prunes sends a list that the server takes for the start of the file list; behind
an empty rule the server stops four bytes early. -/
theorem filter_list_out_of_step :
    (∃ server, parseServerArgsConfig (buildServerOptionsConfig pruneOnly true) [] false =
        .ok server ∧ sendsFilterList pruneOnly true = true ∧
      expectsFilterList server true = false) ∧
    ∃ server, parseServerArgsConfig (buildServerOptionsConfig emptyFilter true) [] false =
        .ok server ∧ sendsFilterList emptyFilter true = true ∧
      expectsFilterList server true = true ∧
      readAndDiscardFilterList (collectFilterList emptyFilter) = .ok ((), [0, 0, 0, 0]) :=
  ⟨⟨_, parse_build pruneOnly true [], rfl, rfl⟩,
    ⟨_, parse_build emptyFilter true [], rfl, rfl, by decide⟩⟩

/-- `--delete` with a filter rule and an exclude. -/
def deleteFiltered : TransferOptions :=
  { TransferOptions.default with
    filters := ["+ keep".toList], excludes := ["*.o".toList], delete := .during }

/-- The list of a push with `--delete` is read to its end. -/
theorem filter_list_framing_delete :
    ∃ server, parseServerArgsConfig (buildServerOptionsConfig deleteFiltered true) [] false =
        .ok server ∧
      sendsFilterList deleteFiltered true = expectsFilterList server true ∧
      (sendsFilterList deleteFiltered true = true → ConsumedExactly deleteFiltered) :=
  (filter_list_framing_iff deleteFiltered true [] (by decide)).mpr (by decide)

/-! ## The meaning of the rules -/

/-- The rules the client applies itself: `from_options`, and the patterns of `-C`. -/
def localFilters (readToString : List UInt8 → Option Text) (o : TransferOptions)
    (includeFrom excludeFrom : List (List UInt8)) : Except FilterError FilterRuleList :=
  (FilterRuleList.fromOptions readToString o.excludes o.includes o.filters includeFrom
    excludeFrom).map fun list => if o.cvsExclude then list.addCvsExcludes else list

def decodeRule (bytes : List UInt8) : Except FilterError FilterRule :=
  FilterRule.parse (Text.fromUtf8Lossy bytes)

/-- The rules that a peer gets who keeps the list. -/
def peerRules (input : List UInt8) : Except Failure (Except FilterError (List FilterRule)) :=
  (readFilterList input).map fun (raw, _) => raw.mapM decodeRule

/-- A pattern that is the same behind a plus or minus sign. -/
def PlainPattern (pattern : Text) : Prop := pattern ≠ [] ∧ pattern.trim = pattern

/-- A file that adds no rule. -/
def NoPatterns (readToString : List UInt8 → Option Text) (path : List UInt8) : Prop :=
  ∃ content, readToString path = some content ∧ FilterRuleList.fileLines content = []

/-- The options whose rules are all sent, and sent as they are: a rule is trimmed behind its sign,
and those of `--include-from`, `--exclude-from` and `--cvs-exclude` are not sent. -/
structure AllSent (readToString : List UInt8 → Option Text) (o : TransferOptions)
    (includeFrom excludeFrom : List (List UInt8)) : Prop where
  includes : ∀ pattern ∈ o.includes, PlainPattern pattern
  excludes : ∀ pattern ∈ o.excludes, PlainPattern pattern
  includeFrom : ∀ path ∈ includeFrom, NoPatterns readToString path
  excludeFrom : ∀ path ∈ excludeFrom, NoPatterns readToString path
  cvsExclude : o.cvsExclude = false

namespace FilterRuleList

/-- Adding rules one by one, by a function that parses each. -/
theorem foldlM_add {add : FilterRuleList → Text → Except FilterError FilterRuleList}
    {parse : Text → Except FilterError FilterRule}
    (hadd : ∀ list x, add list x = (parse x).map fun r => ⟨list.rules ++ [r]⟩)
    (xs : List Text) (list : FilterRuleList) :
    xs.foldlM add list = (xs.mapM parse).map fun rules => ⟨list.rules ++ rules⟩ := by
  induction xs generalizing list with
  | nil => simp [mapM_nil, Except.map, pure, Except.pure]
  | cons x xs ih =>
    rw [foldlM_cons, mapM_cons, hadd]
    cases parse x with
    | error e => rfl
    | ok r =>
      show xs.foldlM add ⟨list.rules ++ [r]⟩ = _
      rw [ih]
      cases xs.mapM parse with
      | error e => rfl
      | ok rules =>
        show Except.ok _ = Except.ok _
        simp

theorem addRule_eq (list : FilterRuleList) (rule : Text) :
    addRule list rule = (FilterRule.parse rule).map fun r => ⟨list.rules ++ [r]⟩ := by
  unfold addRule
  cases FilterRule.parse rule <;> rfl

theorem addPattern_eq (action : FilterAction) (list : FilterRuleList) (pattern : Text) :
    addPattern action list pattern =
      ((Pattern.new pattern).map (FilterRule.mk action)).map fun r => ⟨list.rules ++ [r]⟩ := by
  unfold addPattern
  cases Pattern.new pattern <;> rfl

theorem foldlM_files_none {readToString : List UInt8 → Option Text} {action : FilterAction}
    {paths : List (List UInt8)} (hpaths : ∀ path ∈ paths, NoPatterns readToString path)
    (list : FilterRuleList) :
    paths.foldlM (addFromFile readToString action) list = .ok list := by
  induction paths with
  | nil => rfl
  | cons path paths ih =>
    obtain ⟨content, hread, hnone⟩ := hpaths path mem_cons_self
    have hfile : addFromFile readToString action list path = .ok list := by
      rw [addFromFile, hread]
      show foldlM _ list (fileLines content) = _
      rw [hnone]
      rfl
    rw [foldlM_cons, hfile]
    exact ih fun p hp => hpaths p (mem_cons_of_mem _ hp)

end FilterRuleList

theorem fromUtf8Lossy_encode (t : Text) : Text.fromUtf8Lossy (Text.encode t) = t :=
  Text.encode_injective (Text.encode_fromUtf8Lossy_iff.mpr (by rw [Text.decode_encode]; rfl))

theorem trim_signed {sign : Char} (hsign : Text.isWhitespace sign = false)
    (h : PlainPattern pattern) : Text.trim (sign :: ' ' :: pattern) = sign :: ' ' :: pattern := by
  obtain ⟨hne, htrim⟩ := h
  refine Text.trim_eq_self ?_ ?_
  · intro c hc
    cases hc
    exact hsign
  · intro c hc
    have hlast : pattern.getLast? = some c := by
      rw [← hc, getLast?_cons_cons, getLast?_cons_of_ne_nil hne]
    rw [← htrim] at hlast
    exact Text.last_trim hlast

/-- A plain pattern behind its sign is parsed to the rule of the sign. -/
theorem parse_signed {sign : Char} {action : FilterAction}
    (hsign : (sign, action) ∈ [('+', FilterAction.include), ('-', .exclude)])
    (h : PlainPattern pattern) :
    FilterRule.parse (sign :: ' ' :: pattern) = (Pattern.new pattern).map (FilterRule.mk action) := by
  rcases mem_pair.mp hsign with heq | heq
  all_goals
    cases heq
    unfold FilterRule.parse
    rw [trim_signed (by decide) h]
    show (Pattern.new pattern.trim).map _ = _
    rw [h.2]

theorem mapM_congr_mem {α β : Type} {f g : α → Except FilterError β} {xs : List α}
    (h : ∀ x ∈ xs, f x = g x) : xs.mapM f = xs.mapM g := by
  induction xs with
  | nil => rfl
  | cons x xs ih =>
    simp [h x mem_cons_self, ih fun y hy => h y (mem_cons_of_mem _ hy)]

/-- The rules that are sent, parsed one by one, are the rules of the client. -/
theorem localFilters_eq {readToString : List UInt8 → Option Text}
    {includeFrom excludeFrom : List (List UInt8)}
    (hall : AllSent readToString o includeFrom excludeFrom) (hmode : o.delete ≠ .excluded) :
    localFilters readToString o includeFrom excludeFrom =
      ((sentRules o).mapM FilterRule.parse).map FilterRuleList.mk := by
  have hincludes : (o.includes.map ("+ ".toList ++ ·)).mapM FilterRule.parse =
      o.includes.mapM fun p => (Pattern.new p).map (FilterRule.mk .include) := by
    rw [mapM_map]
    exact mapM_congr_mem fun p hp => parse_signed (.head _) (hall.includes p hp)
  have hexcludes : (o.excludes.map ("- ".toList ++ ·)).mapM FilterRule.parse =
      o.excludes.mapM fun p => (Pattern.new p).map (FilterRule.mk .exclude) := by
    rw [mapM_map]
    exact mapM_congr_mem fun p hp => parse_signed (.tail _ (.head _)) (hall.excludes p hp)
  unfold localFilters FilterRuleList.fromOptions sentRules
  rw [if_neg hmode, hall.cvsExclude, mapM_append, mapM_append, hincludes, hexcludes]
  simp only [FilterRuleList.foldlM_add FilterRuleList.addRule_eq,
    FilterRuleList.foldlM_add (FilterRuleList.addPattern_eq .include),
    FilterRuleList.foldlM_add (FilterRuleList.addPattern_eq .exclude),
    FilterRuleList.addInclude, FilterRuleList.addExclude,
    FilterRuleList.foldlM_files_none hall.includeFrom,
    FilterRuleList.foldlM_files_none hall.excludeFrom]
  -- the three groups of rules, in the order in which they are parsed
  cases o.filters.mapM FilterRule.parse with
  | error e => rfl
  | ok filters =>
    cases o.includes.mapM fun p => (Pattern.new p).map (FilterRule.mk .include) with
    | error e => rfl
    | ok includes =>
      cases o.excludes.mapM fun p => (Pattern.new p).map (FilterRule.mk .exclude) with
      | error e => rfl
      | ok excludes =>
        show Except.ok _ = Except.ok _
        simp [FilterRuleList.new]

theorem ne_nil_of_parse {r : FilterRule} (h : FilterRule.parse rule = .ok r) :
    rule ≠ [] := by
  rintro rfl
  cases h

theorem forall_ok_of_mapM {α β : Type} {f : α → Except FilterError β} {xs : List α} {ys : List β}
    (h : xs.mapM f = .ok ys) : ∀ x ∈ xs, ∃ y, f x = .ok y := by
  induction xs generalizing ys with
  | nil => exact fun _ hx => nomatch hx
  | cons x xs ih =>
    rw [mapM_cons] at h
    obtain ⟨y, hy, h⟩ := Loop.except_bind_eq_ok h
    obtain ⟨ys', hys, -⟩ := Loop.except_bind_eq_ok h
    intro z hz
    rcases mem_cons.mp hz with rfl | hz
    · exact ⟨y, hy⟩
    · exact ih hys z hz

/-- **The meaning of the rules sent.** Where every rule is sent and none changes on its way, a
peer that keeps the list decides on every path as the client does. -/
theorem sent_rules_decide_alike (readToString : List UInt8 → Option Text) (o : TransferOptions)
    (includeFrom excludeFrom : List (List UInt8))
    (hall : AllSent readToString o includeFrom excludeFrom) (hmode : o.delete ≠ .excluded)
    (hlen : ∀ rule ∈ sentRules o, (Text.encode rule).length ≤ 2 ^ 31) (list : FilterRuleList)
    (hlocal : localFilters readToString o includeFrom excludeFrom = .ok list) :
    ∃ rules, peerRules (collectFilterList o) = .ok (.ok rules) ∧
      ∀ path isDir, FilterRuleList.firstMatch rules path isDir =
        FilterRuleList.firstMatch list.rules path isDir := by
  rw [localFilters_eq hall hmode] at hlocal
  cases hparse : (sentRules o).mapM FilterRule.parse with
  | error e =>
    rw [hparse] at hlocal
    cases hlocal
  | ok rules =>
    rw [hparse] at hlocal
    cases hlocal
    -- a rule that parses is not empty, and an empty one would end the list
    have hframed : ∀ rule ∈ sentRules o, Framed rule := by
      intro rule hrule
      obtain ⟨r, hr⟩ := forall_ok_of_mapM hparse rule hrule
      exact ⟨ne_nil_of_parse hr, hlen rule hrule⟩
    have hread := readFilterList_collect hframed []
    rw [append_nil] at hread
    have hdecode : ((sentRules o).map Text.encode).mapM decodeRule = .ok rules := by
      rw [mapM_map, ← hparse]
      refine mapM_congr_mem fun rule _ => ?_
      show FilterRule.parse (Text.fromUtf8Lossy (Text.encode rule)) = _
      rw [fromUtf8Lossy_encode]
    refine ⟨rules, ?_, fun _ _ => rfl⟩
    rw [peerRules, hread]
    show Except.ok (mapM decodeRule _) = _
    rw [hdecode]

/-- The compiled form of a pattern of one ordinary letter. -/
theorem new_a : Pattern.new ['a'] = .ok ⟨false, false, [.literal [0x61]]⟩ := by
  have hcompile : compile [0x61] = .ok [.literal [0x61]] := by
    rw [compile]
    show (compile []).map _ = _
    rw [compile]
    rfl
  show (compile [0x61]).map _ = _
  rw [hcompile]
  rfl

/-- `--exclude-from` with a file of one line. -/
def oneLine : List UInt8 → Option Text := fun _ => some ['a']

/-- The client excludes the file, and the rules it sends say nothing about it. -/
theorem exclude_from_not_sent :
    ∃ list, localFilters oneLine TransferOptions.default [] [[]] = .ok list ∧
      FilterRuleList.firstMatch list.rules [0x61] false = some .exclude ∧
      peerRules (collectFilterList TransferOptions.default) = .ok (.ok []) := by
  have hfile : FilterRuleList.addFromFile oneLine .exclude .new [] =
      .ok ⟨[⟨.exclude, false, false, [.literal [0x61]]⟩]⟩ := by
    show FilterRuleList.addPattern .exclude .new ['a'] >>= _ = _
    rw [FilterRuleList.addPattern_eq, new_a]
    rfl
  refine ⟨⟨[⟨.exclude, false, false, [.literal [0x61]]⟩]⟩, ?_, by decide, by decide⟩
  unfold localFilters FilterRuleList.fromOptions
  simp only [TransferOptions.default, foldlM_nil, foldlM_cons, pure_bind, hfile]
  rfl

def excludeA : TransferOptions := { TransferOptions.default with excludes := [['a']] }

/-- The peer excludes what the client excludes. -/
theorem sent_rules_exclude_a :
    localFilters (fun _ => none) excludeA [] [] =
        .ok ⟨[⟨.exclude, false, false, [.literal [0x61]]⟩]⟩ ∧
      ∃ rules, peerRules (collectFilterList excludeA) = .ok (.ok rules) ∧
        ∀ path isDir, FilterRuleList.firstMatch rules path isDir =
          FilterRuleList.firstMatch [⟨.exclude, false, false, [.literal [0x61]]⟩] path isDir := by
  have hlocal : localFilters (fun _ => none) excludeA [] [] =
      .ok ⟨[⟨.exclude, false, false, [.literal [0x61]]⟩]⟩ := by
    show (FilterRuleList.addPattern .exclude .new ['a'] >>= fun list => pure list).map _ = _
    rw [FilterRuleList.addPattern_eq, new_a]
    rfl
  have hall : AllSent (fun _ => none) excludeA [] [] :=
    ⟨by simp [excludeA, TransferOptions.default], by simp [excludeA, PlainPattern]; decide,
      by simp, by simp, rfl⟩
  exact ⟨hlocal, sent_rules_decide_alike _ excludeA [] [] hall (by decide) (by decide) _ hlocal⟩

end Ferrosync
