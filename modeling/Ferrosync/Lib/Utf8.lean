import Mathlib.Tactic

set_option autoImplicit false

/-! # UTF-8 over bytes: validity and lossy conversion

A byte machine for UTF-8, and over it the two conversions of the Rust standard library:
`from_utf8`, which accepts valid sequences only, and `from_utf8_lossy`, which replaces every
maximal ill-formed part by the replacement character. Both stay at the level of bytes.

What is used of them is how they treat ASCII: an ASCII byte is never part of a longer
sequence (`lossy_append_ascii`), and a text whose lossy form is all ASCII is that form
(`lossy_eq_of_ascii`).
-/

namespace Utf8

/-- What the bytes read so far of an unfinished sequence still ask for. -/
inductive Need where
  | tail1
  | tail2
  | tail3
  | afterE0
  | afterED
  | afterF0
  | afterF4
  deriving DecidableEq, Repr

/-- `b` as a first byte: `none` if no sequence starts with it, `some none` if it is a whole
sequence. -/
def first (b : UInt8) : Option (Option Need) :=
  if b < 0x80 then some none
  else if 0xC2 ≤ b ∧ b ≤ 0xDF then some (some .tail1)
  else if b = 0xE0 then some (some .afterE0)
  else if b = 0xED then some (some .afterED)
  else if 0xE1 ≤ b ∧ b ≤ 0xEF then some (some .tail2)
  else if b = 0xF0 then some (some .afterF0)
  else if b = 0xF4 then some (some .afterF4)
  else if 0xF1 ≤ b ∧ b ≤ 0xF3 then some (some .tail3)
  else none

/-- The bytes that may come next, and what is needed after one of them. -/
def Need.range : Need → UInt8 × UInt8 × Option Need
  | .tail1 => (0x80, 0xBF, none)
  | .tail2 => (0x80, 0xBF, some .tail1)
  | .tail3 => (0x80, 0xBF, some .tail2)
  | .afterE0 => (0xA0, 0xBF, some .tail1)
  | .afterED => (0x80, 0x9F, some .tail1)
  | .afterF0 => (0x90, 0xBF, some .tail2)
  | .afterF4 => (0x80, 0x8F, some .tail2)

/-- `b` as the next byte of an unfinished sequence, as in `first`. -/
def Need.next (need : Need) (b : UInt8) : Option (Option Need) :=
  if need.range.1 ≤ b ∧ b ≤ need.range.2.1 then some need.range.2.2 else none

/-- The machine on a whole text; `true` if it never rejects and ends between sequences. -/
def validFrom : Option Need → List UInt8 → Bool
  | none, [] => true
  | some _, [] => false
  | none, b :: bs => match first b with
    | some st => validFrom st bs
    | none => false
  | some need, b :: bs => match need.next b with
    | some st => validFrom st bs
    | none => false

/-- `str::from_utf8` succeeds. -/
def valid (bytes : List UInt8) : Bool := validFrom none bytes

/-! ## Lossy conversion -/

def replacement : List UInt8 := [0xEF, 0xBF, 0xBD]

/-- An unfinished sequence, with its bytes. -/
abbrev Pending := Option (Need × List UInt8)

/-- Start a sequence with `b`: what is put out, and what stays pending. -/
def start (b : UInt8) : List UInt8 × Pending :=
  match first b with
  | some none => ([b], none)
  | some (some need) => ([], some (need, [b]))
  | none => (replacement, none)

def feed : Pending → UInt8 → List UInt8 × Pending
  | none, b => start b
  | some (need, bytes), b =>
    match need.next b with
    | some none => (bytes ++ [b], none)
    | some (some need') => ([], some (need', bytes ++ [b]))
    -- the part before `b` is ill-formed, and `b` starts anew
    | none => (replacement ++ (start b).1, (start b).2)

def finish : Pending → List UInt8
  | none => []
  | some _ => replacement

def lossyFrom (st : Pending) : List UInt8 → List UInt8
  | [] => finish st
  | b :: bs => (feed st b).1 ++ lossyFrom (feed st b).2 bs

/-- `String::from_utf8_lossy`. -/
def lossy (bytes : List UInt8) : List UInt8 := lossyFrom none bytes

/-! ## ASCII bytes -/

variable {c : UInt8}

theorem start_ascii (h : c < 0x80) : start c = ([c], none) := by
  simp only [start, first, if_pos h]

theorem next_ascii (need : Need) (h : c < 0x80) : need.next c = none := by
  have hlow : (0x80 : UInt8) ≤ need.range.1 := by cases need <;> decide
  refine if_neg fun hc => ?_
  exact absurd h (UInt8.not_lt.mpr (UInt8.le_trans hlow hc.1))

/-- An ASCII byte ends whatever is pending. -/
theorem feed_ascii (st : Pending) (h : c < 0x80) : feed st c = (finish st ++ [c], none) := by
  cases st with
  | none => exact start_ascii h
  | some p =>
    simp only [feed, next_ascii p.1 h, start_ascii h]
    rfl

theorem lossyFrom_append_ascii (h : c < 0x80) (bs : List UInt8) :
    ∀ (as : List UInt8) (st : Pending),
      lossyFrom st (as ++ c :: bs) = lossyFrom st as ++ c :: lossy bs
  | [], st => by
    show (feed st c).1 ++ lossyFrom (feed st c).2 bs = finish st ++ c :: lossy bs
    rw [feed_ascii st h, List.append_assoc]
    rfl
  | a :: as, st => by
    simp [lossyFrom, lossyFrom_append_ascii h bs as]

/-- **An ASCII byte separates**: the parts before and after it are converted on their own. -/
theorem lossy_append_ascii (h : c < 0x80) (as bs : List UInt8) :
    lossy (as ++ c :: bs) = lossy as ++ c :: lossy bs :=
  lossyFrom_append_ascii h bs as none

theorem lossy_cons_ascii (h : c < 0x80) (bs : List UInt8) :
    lossy (c :: bs) = c :: lossy bs :=
  lossy_append_ascii h [] bs

/-- A pending sequence has bytes, none of them ASCII. -/
def Pending.Wf : Pending → Prop
  | none => True
  | some (_, bytes) => bytes ≠ [] ∧ ∀ b ∈ bytes, ¬ b < 0x80

theorem replacement_not_ascii : ∀ b ∈ replacement, ¬ b < 0x80 := by
  simp [replacement]

/-! The three things that can happen at a byte, inside a sequence and at its start. -/

section Cases

variable {need need' : Need} {bytes : List UInt8} {b : UInt8}

theorem feed_done (h : need.next b = some none) :
    feed (some (need, bytes)) b = (bytes ++ [b], none) := by
  simp only [feed, h]

theorem feed_more (h : need.next b = some (some need')) :
    feed (some (need, bytes)) b = ([], some (need', bytes ++ [b])) := by
  simp only [feed, h]

theorem feed_reject (h : need.next b = none) :
    feed (some (need, bytes)) b = (replacement ++ (start b).1, (start b).2) := by
  simp only [feed, h]

theorem start_done (h : first b = some none) : start b = ([b], none) := by
  simp only [start, h]

theorem start_more (h : first b = some (some need)) : start b = ([], some (need, [b])) := by
  simp only [start, h]

theorem start_reject (h : first b = none) : start b = (replacement, none) := by
  simp only [start, h]

end Cases

theorem start_wf (b : UInt8) : (start b).2.Wf := by
  rcases h : first b with _ | _ | need
  · rw [start_reject h]
    trivial
  · rw [start_done h]
    trivial
  · rw [start_more h]
    refine ⟨by simp, ?_⟩
    intro x hx hlt
    rw [List.mem_singleton.mp hx] at hlt
    rw [first, if_pos hlt] at h
    cases h

theorem feed_wf {st : Pending} (hst : st.Wf) (b : UInt8) : (feed st b).2.Wf := by
  rcases st with _ | ⟨need, bytes⟩
  · exact start_wf b
  rcases h : need.next b with _ | _ | need'
  · rw [feed_reject h]
    exact start_wf b
  · rw [feed_done h]
    trivial
  · rw [feed_more h]
    refine ⟨by simp, ?_⟩
    intro x hx hlt
    rcases List.mem_append.mp hx with hx | hx
    · exact hst.2 x hx hlt
    · rw [List.mem_singleton.mp hx] at hlt
      rw [next_ascii need hlt] at h
      cases h

theorem eq_of_mem_start {b : UInt8} (hc : c < 0x80) (hmem : c ∈ (start b).1) : c = b := by
  rcases h : first b with _ | _ | need
  · rw [start_reject h] at hmem
    exact absurd hc (replacement_not_ascii c hmem)
  · simpa [start_done h] using hmem
  · rw [start_more h] at hmem
    cases hmem

/-- An ASCII byte is put out only where it is read. -/
theorem eq_of_mem_feed {st : Pending} (hst : st.Wf) {b : UInt8} (hc : c < 0x80)
    (hmem : c ∈ (feed st b).1) : c = b := by
  rcases st with _ | ⟨need, bytes⟩
  · exact eq_of_mem_start hc hmem
  rcases h : need.next b with _ | _ | need'
  · rw [feed_reject h] at hmem
    rcases List.mem_append.mp hmem with hx | hx
    · exact absurd hc (replacement_not_ascii c hx)
    · exact eq_of_mem_start hc hx
  · rw [feed_done h] at hmem
    rcases List.mem_append.mp hmem with hx | hx
    · exact absurd hc (hst.2 c hx)
    · exact List.mem_singleton.mp hx
  · rw [feed_more h] at hmem
    cases hmem

theorem mem_of_mem_lossyFrom (hc : c < 0x80) :
    ∀ (bs : List UInt8) (st : Pending), st.Wf → c ∈ lossyFrom st bs → c ∈ bs
  | [], none, _, hmem => by cases hmem
  | [], some _, _, hmem => absurd hc (replacement_not_ascii c hmem)
  | b :: bs, st, hst, hmem => by
    rcases List.mem_append.mp hmem with hx | hx
    · exact List.mem_cons.mpr (.inl (eq_of_mem_feed hst hc hx))
    · exact List.mem_cons_of_mem b (mem_of_mem_lossyFrom hc bs _ (feed_wf hst b) hx)

theorem mem_of_mem_lossy (hc : c < 0x80) {bs : List UInt8} (h : c ∈ lossy bs) :
    c ∈ bs :=
  mem_of_mem_lossyFrom hc bs none trivial h

/-! ## Texts whose lossy form is ASCII -/

/-- A pending sequence leaves a mark that is not ASCII, however it ends. -/
theorem exists_not_ascii_of_pending :
    ∀ (bs : List UInt8) (need : Need) (bytes : List UInt8), Pending.Wf (some (need, bytes)) →
      ∃ b ∈ lossyFrom (some (need, bytes)) bs, ¬ b < 0x80
  | [], _, _, _ => ⟨0xEF, by simp [lossyFrom, finish, replacement], by decide⟩
  | b :: bs, need, bytes, hst => by
    have hwf := feed_wf hst b
    rw [lossyFrom]
    rcases h : need.next b with _ | _ | need'
    · rw [feed_reject h]
      exact ⟨0xEF, by simp [replacement], by decide⟩
    · rw [feed_done h]
      obtain ⟨x, hx⟩ := List.exists_mem_of_ne_nil _ hst.1
      exact ⟨x, by simp [hx], hst.2 x hx⟩
    · rw [feed_more h] at hwf ⊢
      exact exists_not_ascii_of_pending bs need' (bytes ++ [b]) hwf

theorem exists_not_ascii_of_cons {b : UInt8} (hb : ¬ b < 0x80) (bs : List UInt8) :
    ∃ x ∈ lossy (b :: bs), ¬ x < 0x80 := by
  have hwf := start_wf b
  show ∃ x ∈ (start b).1 ++ lossyFrom (start b).2 bs, ¬ x < 0x80
  rcases h : first b with _ | _ | need
  · rw [start_reject h]
    exact ⟨0xEF, by simp [replacement], by decide⟩
  · rw [start_done h]
    exact ⟨b, by simp, hb⟩
  · rw [start_more h] at hwf ⊢
    exact exists_not_ascii_of_pending bs need [b] hwf

/-- **A text whose lossy form is all ASCII is that form.** -/
theorem lossy_eq_of_ascii :
    ∀ {bs : List UInt8}, (∀ b ∈ lossy bs, b < 0x80) → lossy bs = bs
  | [], _ => rfl
  | b :: bs, h => by
    by_cases hb : b < 0x80
    · rw [lossy_cons_ascii hb] at h ⊢
      rw [lossy_eq_of_ascii fun x hx => h x (List.mem_cons_of_mem b hx)]
    · obtain ⟨x, hx, hlt⟩ := exists_not_ascii_of_cons hb bs
      exact absurd (h x hx) hlt

end Utf8
