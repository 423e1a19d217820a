import Mathlib.Data.List.DropRight
import Mathlib.Tactic
import Ferrosync.Lib.Utf8

set_option autoImplicit false

/-! # Text

A string of the Rust standard library as the list of its characters, the operations on it that
a line protocol uses (`trim`, `split`, `split_once`, `lines`, `parse`), and its bytes.
-/

/-- A string: its Unicode scalar values. -/
abbrev Text := List Char

instance : LawfulBEq Text := List.instLawfulBEq

namespace Text

/-! ## Characters -/

/-- `char::is_whitespace`: the characters with the property `White_Space`. -/
def isWhitespace (c : Char) : Bool :=
  (0x09 ≤ c.toNat && c.toNat ≤ 0x0D) || c.toNat == 0x20 || c.toNat == 0x85 || c.toNat == 0xA0 ||
    c.toNat == 0x1680 || (0x2000 ≤ c.toNat && c.toNat ≤ 0x200A) || c.toNat == 0x2028 ||
    c.toNat == 0x2029 || c.toNat == 0x202F || c.toNat == 0x205F || c.toNat == 0x3000

/-- `char::is_ascii_whitespace`: space, tab, line feed, form feed, carriage return. -/
def isAsciiWhitespace (c : Char) : Bool :=
  c == ' ' || c == '\t' || c == '\n' || c == '\x0C' || c == '\r'

def toAsciiLowercase (t : Text) : Text := t.map Char.toLower

/-! ## Trimming -/

def trimStart (t : Text) : Text := t.dropWhile isWhitespace

def trimEnd (t : Text) : Text := t.rdropWhile isWhitespace

def trim (t : Text) : Text := trimEnd (trimStart t)

/-- `str::strip_suffix` with one character, the text itself if it does not end in it. -/
def stripLast (c : Char) (t : Text) : Text :=
  if t.getLast? = some c then t.dropLast else t

/-- `str::trim_start_matches` with a non-empty string. -/
def trimStartMatches (start t : Text) : Text :=
  if _h : start ≠ [] ∧ start <+: t then trimStartMatches start (t.drop start.length) else t
termination_by t.length
decreasing_by
  have hpos := List.length_pos_of_ne_nil _h.1
  have hle := _h.2.length_le
  rw [List.length_drop]
  omega

variable {t : Text} {c : Char} {bytes : List UInt8}

theorem trimStartMatches_of_not_prefix {start : Text} (h : ¬ start <+: t) :
    trimStartMatches start t = t := by
  rw [trimStartMatches, dif_neg fun hc => h hc.2]

theorem trimStartMatches_append {start : Text} (hne : start ≠ []) (t : Text) :
    trimStartMatches start (start ++ t) = trimStartMatches start t := by
  rw [trimStartMatches, dif_pos ⟨hne, List.prefix_append start t⟩, List.drop_left]

/-! ## Splitting -/

/-- `str::split` with a predicate on characters. -/
def split (p : Char → Bool) (t : Text) : List Text := t.splitOnP p

def splitWhitespace (t : Text) : List Text := (t.split isWhitespace).filter (· ≠ [])

/-- `str::split_once` with a character: the parts before and after its first occurrence. -/
def splitOnce (c : Char) : Text → Option (Text × Text)
  | [] => none
  | a :: t => if a = c then some ([], t) else (splitOnce c t).map fun p => (a :: p.1, p.2)

/-- `str::lines`: a line ends with a line feed, and with it goes one carriage return; the last
line may lack the line feed, and then keeps its carriage return. -/
def lines (t : Text) : List Text :=
  let pieces := t.split (· == '\n')
  pieces.dropLast.map (stripLast '\r') ++ pieces.getLast?.toList.filter (· ≠ [])

/-! ## Numbers -/

/-- The value of a run of decimal digits. -/
def decimal (t : Text) : Nat := t.foldl (fun n c => 10 * n + (c.toNat - '0'.toNat)) 0

/-- `str::parse` for an unsigned type: digits after at most one plus sign, up to the largest
value. -/
def parseUnsigned (max : Nat) (t : Text) : Option Nat :=
  let digits := if t.head? = some '+' then t.tail else t
  if digits ≠ [] ∧ digits.all Char.isDigit ∧ decimal digits ≤ max then some (decimal digits)
  else none

/-- `str::parse::<u8>`. -/
def parseU8 (t : Text) : Option UInt8 := (parseUnsigned 255 t).map UInt8.ofNat

/-- `str::parse::<i32>`. -/
def parseI32 (t : Text) : Option Int :=
  if t.head? = some '-' then
    if t.tail ≠ [] ∧ t.tail.all Char.isDigit ∧ decimal t.tail ≤ 2 ^ 31 then
      some (-(decimal t.tail : Int))
    else none
  else (parseUnsigned (2 ^ 31 - 1) t).map Int.ofNat

/-- A number as `format!` writes it. -/
def ofNat (n : Nat) : Text := Nat.toDigits 10 n

def ofInt (i : Int) : Text := if i < 0 then '-' :: ofNat i.natAbs else ofNat i.toNat

theorem isDigit_ofNat (n : Nat) : (ofNat n).all Char.isDigit = true :=
  List.all_eq_true.mpr fun _ => Nat.isDigit_of_mem_toDigits (by decide) (by decide)

theorem decimal_ofNat (n : Nat) : decimal (ofNat n) = n :=
  Nat.ofDigitChars_toDigits (by decide) (by decide)

/-- A number does not start with a sign. -/
theorem head_ofNat_ne (n : Nat) (hc : c.isDigit = false) : (ofNat n).head? ≠ some c := by
  intro h
  have hdigit := List.all_eq_true.mp (isDigit_ofNat n) c (List.mem_of_head? h)
  rw [hc] at hdigit
  cases hdigit

theorem parseUnsigned_ofNat {max n : Nat} (h : n ≤ max) : parseUnsigned max (ofNat n) = some n := by
  unfold parseUnsigned
  rw [if_neg (head_ofNat_ne n (by decide))]
  rw [if_pos ⟨Nat.toDigits_ne_nil, isDigit_ofNat n, by rw [decimal_ofNat]; exact h⟩, decimal_ofNat]

theorem parseI32_ofInt {i : Int} (hlo : -2 ^ 31 ≤ i) (hhi : i < 2 ^ 31) :
    parseI32 (ofInt i) = some i := by
  unfold ofInt parseI32
  by_cases hneg : i < 0
  · rw [if_pos hneg, List.head?_cons, if_pos rfl, List.tail_cons, decimal_ofNat,
      if_pos ⟨Nat.toDigits_ne_nil, isDigit_ofNat _, by omega⟩]
    congr 1
    omega
  · rw [if_neg hneg, if_neg (head_ofNat_ne _ (by decide)), parseUnsigned_ofNat (by omega)]
    simp
    omega

/-! ## Beginnings -/

/-- `str::starts_with`. -/
def startsWith (s t : Text) : Bool := s.isPrefixOf t

/-- `str::strip_prefix`. -/
def dropStart : Text → Text → Option Text
  | [], t => some t
  | _ :: _, [] => none
  | c :: s, d :: t => if c = d then dropStart s t else none

/-! ## Bytes -/

/-- `str::as_bytes`: UTF-8. -/
def encode (t : Text) : List UInt8 := t.flatMap String.utf8EncodeChar

/-- `String::from_utf8`. -/
def decode (bytes : List UInt8) : Option Text :=
  (ByteArray.utf8Decode? bytes.toByteArray).map Array.toList

@[simp] theorem encode_nil : encode [] = [] := rfl

@[simp] theorem encode_append (s t : Text) : encode (s ++ t) = encode s ++ encode t :=
  List.flatMap_append

theorem encode_cons (c : Char) (t : Text) : encode (c :: t) = String.utf8EncodeChar c ++ encode t :=
  rfl

theorem decode_encode (t : Text) : decode (encode t) = some t := by
  have h : (encode t).toByteArray.utf8Decode? = some t.toArray := List.utf8Decode?_utf8Encode
  simp [decode, h]

theorem encode_of_decode (h : decode bytes = some t) : encode t = bytes := by
  obtain ⟨chars, hchars, rfl⟩ := Option.map_eq_some_iff.mp h
  have hsome : (ByteArray.utf8Decode? bytes.toByteArray).isSome := by simp [hchars]
  have hback := ByteArray.utf8Encode_get_utf8Decode? (b := bytes.toByteArray) (h := hsome)
  have hsame : (encode chars.toList).toByteArray = bytes.toByteArray := by
    simp only [hchars] at hback
    exact hback
  simpa using hsame

/-- `String::from_utf8_lossy`: what is not UTF-8 is replaced. -/
def fromUtf8Lossy (bytes : List UInt8) : Text :=
  match decode bytes with
  | some t => t
  | none => (decode (Utf8.lossy bytes)).getD []

/-- Nothing has been replaced exactly if there was nothing to replace. -/
theorem encode_fromUtf8Lossy_iff :
    encode (fromUtf8Lossy bytes) = bytes ↔ (decode bytes).isSome := by
  constructor
  · intro h
    have hdecode := decode_encode (fromUtf8Lossy bytes)
    rw [h] at hdecode
    rw [hdecode]
    rfl
  · intro h
    obtain ⟨t, ht⟩ := Option.isSome_iff_exists.mp h
    rw [fromUtf8Lossy, ht]
    exact encode_of_decode ht

theorem encode_injective : Function.Injective encode := by
  intro s t h
  have hst : some s = some t := by rw [← decode_encode s, ← decode_encode t, h]
  exact Option.some.inj hst

theorem encode_infix {s : Text} (h : s <:+: t) : encode s <:+: encode t := by
  obtain ⟨a, b, rfl⟩ := h
  simp

theorem length_encode_le (t : Text) : (encode t).length ≤ 4 * t.length := by
  induction t with
  | nil => simp
  | cons c t ih =>
    have hc : (String.utf8EncodeChar c).length ≤ 4 := by
      simpa using c.utf8Size_le_four
    rw [encode_cons, List.length_append, List.length_cons]
    omega

/-! ## Slices

A slice of a text is given by byte offsets into its UTF-8 encoding. The slicing operators panic if
an offset is beyond the end or inside a character, or if the end is before the start. -/

/-- `str::len`: the number of bytes. -/
def len (t : Text) : Nat := (t.map Char.utf8Size).sum

/-- The parts in front of a byte offset and behind it, if the offset is between two characters. -/
def splitAtByte : Nat → Text → Option (Text × Text)
  | 0, t => some ([], t)
  | _ + 1, [] => none
  | n + 1, c :: t =>
    if c.utf8Size ≤ n + 1 then
      (splitAtByte (n + 1 - c.utf8Size) t).map fun parts => (c :: parts.1, parts.2)
    else none

theorem splitAtByte_append (a b : Text) : splitAtByte (len a) (a ++ b) = some (a, b) := by
  induction a with
  | nil => cases b <;> rfl
  | cons c a ih =>
    have hpos := c.utf8Size_pos
    obtain ⟨n, hn⟩ : ∃ n, len (c :: a) = n + 1 := Nat.exists_eq_add_one.mpr (by simp [len]; omega)
    have hrest : n + 1 - c.utf8Size = len a := by
      rw [← hn]
      simp [len]
    have hle : c.utf8Size ≤ n + 1 := by
      rw [← hn]
      simp [len]
    rw [hn, List.cons_append, splitAtByte, if_pos hle, hrest, ih]
    rfl

/-- `&t[start..]`. -/
def sliceFrom (start : Nat) (t : Text) : Option Text := (splitAtByte start t).map Prod.snd

/-- `&t[start..stop]`. -/
def slice (start stop : Nat) (t : Text) : Option Text :=
  if start ≤ stop then (splitAtByte stop t).bind fun parts => sliceFrom start parts.1 else none

/-- `str::find`: the byte offset of the first occurrence. -/
def find (c : Char) (t : Text) : Option Nat :=
  if c ∈ t then some (len (t.takeWhile (· ≠ c))) else none

theorem one_le_length_encode (h : t ≠ []) : 1 ≤ (encode t).length := by
  cases t with
  | nil => exact absurd rfl h
  | cons c t =>
    have hc : 1 ≤ (String.utf8EncodeChar c).length := by
      rw [String.length_utf8EncodeChar]
      exact c.utf8Size_pos
    rw [encode_cons, List.length_append]
    omega

/-- The byte of an ASCII character is in no other character's encoding. -/
theorem eq_of_ascii_mem_utf8EncodeChar {a : Char} (ha : a.toNat < 0x80)
    (h : UInt8.ofNat a.toNat ∈ String.utf8EncodeChar c) : c = a := by
  have key : ∀ n < 256, UInt8.ofNat a.toNat = UInt8.ofNat n → a.toNat = n := by
    intro n hn he
    have := congrArg UInt8.toNat he
    simp only [UInt8.toNat_ofNat'] at this
    omega
  unfold String.utf8EncodeChar at h
  -- the bytes of the longer forms are all at least `0x80`
  have hlong : ∀ n < 256, 0x80 ≤ n → UInt8.ofNat a.toNat ≠ UInt8.ofNat n := by
    intro n hn hge he
    have := key n hn he
    omega
  dsimp only at h
  split_ifs at h with h1 h2 h3
  · have heq : a.toNat = c.val.toNat := key _ (by omega) (List.mem_singleton.mp h)
    exact Char.ext (UInt32.toNat_inj.mp heq.symm)
  all_goals
    simp only [List.mem_cons, List.not_mem_nil, or_false] at h
    exfalso
  · rcases h with h | h
    all_goals exact hlong _ (by omega) (by omega) h
  · rcases h with h | h | h
    all_goals exact hlong _ (by omega) (by omega) h
  · rcases h with h | h | h | h
    all_goals exact hlong _ (by omega) (by omega) h

theorem not_mem_encode {a : Char} (ha : a.toNat < 0x80) (h : a ∉ t) :
    UInt8.ofNat a.toNat ∉ encode t := by
  intro hmem
  obtain ⟨c, hc, hbyte⟩ := List.mem_flatMap.mp hmem
  have hca : c = a := eq_of_ascii_mem_utf8EncodeChar ha hbyte
  exact h (hca ▸ hc)

/-! ## Lines of bytes -/

/-- The bytes up to and with the first line feed, and those after it. -/
def takeLine : List UInt8 → List UInt8 × List UInt8
  | [] => ([], [])
  | b :: bytes => if b = 10 then ([b], bytes) else (b :: (takeLine bytes).1, (takeLine bytes).2)

theorem length_takeLine (input : List UInt8) :
    (takeLine input).1.length + (takeLine input).2.length = input.length := by
  induction input with
  | nil => rfl
  | cons b bytes ih =>
    unfold takeLine
    split_ifs
    · simp [Nat.add_comm]
    · simp only [List.length_cons]
      omega

theorem takeLine_of_not_mem (h : (10 : UInt8) ∉ bytes) : takeLine bytes = (bytes, []) := by
  induction bytes with
  | nil => rfl
  | cons b bytes ih =>
    have hb : b ≠ 10 := fun hb => h (hb ▸ List.mem_cons_self)
    have hrest : (10 : UInt8) ∉ bytes := fun hm => h (List.mem_cons_of_mem b hm)
    simp [takeLine, hb, ih hrest]

theorem takeLine_append (h : (10 : UInt8) ∉ bytes) (rest : List UInt8) :
    takeLine (bytes ++ 10 :: rest) = (bytes ++ [10], rest) := by
  induction bytes with
  | nil => simp [takeLine]
  | cons b bytes ih =>
    have hb : b ≠ 10 := fun hb => h (hb ▸ List.mem_cons_self)
    have hrest : (10 : UInt8) ∉ bytes := fun hm => h (List.mem_cons_of_mem b hm)
    simp [takeLine, hb, ih hrest]

theorem encode_line (t : Text) : encode (t ++ ['\n']) = encode t ++ [10] := by
  rw [encode_append]
  rfl

/-- An encoded line is taken whole, and no more. -/
theorem takeLine_encode (h : '\n' ∉ t) (rest : List UInt8) :
    takeLine (encode (t ++ ['\n']) ++ rest) = (encode (t ++ ['\n']), rest) := by
  rw [encode_line, List.append_assoc]
  exact takeLine_append (not_mem_encode (by decide) h) rest

/-! ## What the operations keep -/

theorem trim_infix (t : Text) : trim t <:+: t :=
  ((List.rdropWhile_prefix isWhitespace (trimStart t)).isInfix).trans
    (List.dropWhile_suffix isWhitespace).isInfix

/-- Nothing is trimmed off a text whose ends are not whitespace. -/
theorem trim_eq_self (hhead : ∀ c ∈ t.head?, isWhitespace c = false)
    (hlast : ∀ c ∈ t.getLast?, isWhitespace c = false) : trim t = t := by
  have hstart : trimStart t = t := by
    cases t with
    | nil => rfl
    | cons a t =>
      have ha : isWhitespace a = false := hhead a rfl
      simp [trimStart, ha]
  rw [trim, hstart, trimEnd, List.rdropWhile_eq_self_iff]
  intro hne
  simp [hlast _ (List.getLast?_eq_getLast_of_ne_nil hne)]

theorem trim_append_newline (hhead : ∀ c ∈ t.head?, isWhitespace c = false)
    (hlast : ∀ c ∈ t.getLast?, isWhitespace c = false) : trim (t ++ ['\n']) = t := by
  cases t with
  | nil => decide
  | cons a t =>
    have ha : isWhitespace a = false := hhead a rfl
    have hstart : trimStart (a :: t ++ ['\n']) = a :: t ++ ['\n'] := by simp [trimStart, ha]
    have hstart' : trimStart (a :: t) = a :: t := by simp [trimStart, ha]
    have hself := trim_eq_self hhead hlast
    rw [trim, hstart'] at hself
    rw [trim, hstart, trimEnd, List.rdropWhile_concat_pos _ _ _ (by decide)]
    exact hself

theorem head_trim (h : (trim t).head? = some c) : isWhitespace c = false := by
  have hpre : trim t <+: trimStart t := List.rdropWhile_prefix isWhitespace (trimStart t)
  have hstart : (trimStart t).head? = some c := by
    obtain ⟨b, hb⟩ := hpre
    rw [← hb, List.head?_append, h]
    rfl
  cases hs : trimStart t with
  | nil => simp [hs] at hstart
  | cons a s =>
    have hac : a = c := by simpa [hs] using hstart
    have hlen : 0 < (t.dropWhile isWhitespace).length := by
      have : t.dropWhile isWhitespace = a :: s := hs
      simp [this]
    have hnot := List.dropWhile_get_zero_not isWhitespace t hlen
    have hget : (t.dropWhile isWhitespace).get ⟨0, hlen⟩ = a := by
      have : t.dropWhile isWhitespace = a :: s := hs
      simp [this]
    rw [hget, hac] at hnot
    simpa using hnot

theorem last_trim (h : (trim t).getLast? = some c) : isWhitespace c = false := by
  have hne : trim t ≠ [] := by
    intro hnil
    simp [hnil] at h
  have hnot := List.rdropWhile_last_not isWhitespace (trimStart t) hne
  have hlast : (trim t).getLast hne = c := by
    simpa [List.getLast?_eq_getLast_of_ne_nil hne] using h
  have hc : (List.rdropWhile isWhitespace (trimStart t)).getLast hne = c := hlast
  simpa [hc] using hnot

theorem splitOnce_append {a : Text} (ha : c ∉ a) (b : Text) :
    splitOnce c (a ++ c :: b) = some (a, b) := by
  induction a with
  | nil => simp [splitOnce]
  | cons x a ih =>
    have hx : x ≠ c := fun h => ha (h ▸ List.mem_cons_self)
    have hrest : c ∉ a := fun h => ha (List.mem_cons_of_mem x h)
    simp [splitOnce, hx, ih hrest]

theorem splitOnce_eq_some {a b : Text} (h : splitOnce c t = some (a, b)) :
    t = a ++ c :: b ∧ c ∉ a := by
  induction t generalizing a with
  | nil => simp [splitOnce] at h
  | cons x t ih =>
    by_cases hx : x = c
    · have hab : [] = a ∧ t = b := by simpa [splitOnce, hx] using h
      obtain ⟨rfl, rfl⟩ := hab
      simp [hx]
    · simp only [splitOnce, if_neg hx, Option.map_eq_some_iff] at h
      obtain ⟨⟨a', b'⟩, hab, rfl, rfl⟩ := h
      obtain ⟨rfl, hc⟩ := ih hab
      exact ⟨rfl, by simp [Ne.symm hx, hc]⟩

theorem not_of_mem_split {p : Char → Bool} {piece : Text} (h : piece ∈ split p t) :
    ∀ c ∈ piece, p c = false := by
  induction t generalizing piece with
  | nil =>
    have : piece = [] := by simpa [split] using h
    simp [this]
  | cons x t ih =>
    rw [split, List.splitOnP_cons_eq_if_modifyHead] at h
    split_ifs at h with hx
    · rcases List.mem_cons.mp h with rfl | h
      · simp
      · exact ih h
    -- the character joins the first piece of the rest
    · cases hs : t.splitOnP p with
      | nil => exact absurd hs (List.splitOnP_ne_nil p t)
      | cons first others =>
        rw [hs] at h
        rcases List.mem_cons.mp h with rfl | h
        · intro c hc
          rcases List.mem_cons.mp hc with rfl | hc
          · simpa using hx
          · exact ih (by rw [split, hs]; exact List.mem_cons_self) c hc
        · exact ih (by rw [split, hs]; exact List.mem_cons_of_mem _ h)

end Text
