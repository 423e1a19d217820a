import Mathlib.Tactic

set_option autoImplicit false

/-! # Readers of byte streams

A reader consumes a prefix of a byte stream and returns a value with the unread rest, or
fails. The laws are stated for a field followed by arbitrary further bytes, so the law of a record
is the composition of the laws of its fields.

* `Reader ε α`: the monad, with `readExact` as its only primitive that touches the stream;
* `Reads p bs a`: `p` consumes exactly `bs` and returns `a`, whatever follows;
* `Stable eof p`: what `p` has decided is not changed by further bytes, and the error `eof`
  means that it still waits for bytes;
* `Tame E p`: `p` fails with errors in `E` only;
* `leBytes`/`ofLE`: little-endian naturals of a fixed width.
-/

namespace ByteStream

variable {bs rest : List UInt8} {n : Nat}

/-- A reader: from the stream to a value and the unread rest, or an error. -/
def Reader (ε α : Type) : Type := List UInt8 → Except ε (α × List UInt8)

section Monad

variable {ε α β : Type}

instance : Monad (Reader ε) where
  pure a := fun bs => .ok (a, bs)
  bind p f := fun bs =>
    match p bs with
    | .ok (a, rest) => f a rest
    | .error e => .error e

/-- Fail without touching the stream. -/
def Reader.fail (e : ε) : Reader ε α := fun _ => .error e

/-- Interpret a computation that does not touch the stream. -/
def Reader.lift (r : Except ε α) : Reader ε α := fun bs =>
  match r with
  | .ok a => .ok (a, bs)
  | .error e => .error e

@[simp] theorem pure_apply (a : α) (bs : List UInt8) :
    (pure a : Reader ε α) bs = .ok (a, bs) := rfl

theorem bind_apply (p : Reader ε α) (f : α → Reader ε β) (bs : List UInt8) :
    (p >>= f) bs =
      match p bs with
      | .ok (a, rest) => f a rest
      | .error e => .error e := rfl

theorem pure_eq_ok {a b : α} (h : (pure a : Reader ε α) bs = .ok (b, rest)) : a = b ∧ bs = rest :=
  Prod.mk.inj (Except.ok.inj h)

@[simp] theorem fail_apply (e : ε) (bs : List UInt8) :
    (Reader.fail e : Reader ε α) bs = .error e := rfl

variable {f : α → Reader ε β} {p : Reader ε α}

theorem bind_ok {a : α} (h : p bs = .ok (a, rest)) : (p >>= f) bs = f a rest := by
  rw [bind_apply, h]

theorem bind_error {e : ε} (h : p bs = .error e) : (p >>= f) bs = .error e := by
  rw [bind_apply, h]

instance : LawfulMonad (Reader ε) := LawfulMonad.mk' _
  (fun p => funext fun bs => by
    show (match p bs with | .ok (a, rest) => Except.ok (a, rest) | .error e => .error e) = p bs
    cases p bs <;> rfl)
  (fun _ _ => rfl)
  (fun p f g => funext fun bs => by
    rw [bind_apply, bind_apply, bind_apply]
    cases p bs <;> rfl)

theorem map_apply (h : α → β) (p : Reader ε α) (bs : List UInt8) :
    (h <$> p) bs =
      match p bs with
      | .ok (a, rest) => .ok (h a, rest)
      | .error e => .error e := rfl

/-- Only what the first part returns matters for the second. -/
theorem bind_congr_ok {g : α → Reader ε β}
    (h : ∀ a rest, p bs = .ok (a, rest) → f a rest = g a rest) : (p >>= f) bs = (p >>= g) bs := by
  cases hp : p bs with
  | error e => rw [bind_error hp, bind_error hp]
  | ok x => rw [bind_ok hp, bind_ok hp, h x.1 x.2 hp]

/-- A sequence that returns has returned from its first part. -/
theorem bind_eq_ok {b : β} (h : (p >>= f) bs = .ok (b, rest)) :
    ∃ a mid, p bs = .ok (a, mid) ∧ f a mid = .ok (b, rest) := by
  rw [bind_apply] at h
  split at h
  · exact ⟨_, _, by assumption, h⟩
  · cases h

/-- A sequence that fails has failed in its first part or after it. -/
theorem bind_eq_error {e : ε} (h : (p >>= f) bs = .error e) :
    p bs = .error e ∨ ∃ a mid, p bs = .ok (a, mid) ∧ f a mid = .error e := by
  rw [bind_apply] at h
  split at h
  · exact .inr ⟨_, _, by assumption, h⟩
  · rename_i e' he
    exact .inl (by rw [he, Except.error.inj h])

end Monad

/-! ## Exact reads -/

section Reads

variable {ε α β : Type}

/-- Read exactly `n` bytes; a stream that ends before fails with `eof`. -/
def readExact (eof : ε) (n : Nat) : Reader ε (List UInt8) := fun bs =>
  if n ≤ bs.length then .ok (bs.take n, bs.drop n) else .error eof

theorem readExact_eq_ok {eof : ε} {a : List UInt8} (h : readExact eof n bs = .ok (a, rest)) :
    a.length = n ∧ bs = a ++ rest := by
  unfold readExact at h
  split at h
  · obtain ⟨rfl, rfl⟩ := Prod.mk.inj (Except.ok.inj h)
    simp
    omega
  · cases h

/-- Run `p` `n` times and collect what it returns. -/
def Reader.times (p : Reader ε α) : Nat → Reader ε (List α)
  | 0 => pure []
  | n + 1 => do
    let a ← p
    let as ← Reader.times p n
    pure (a :: as)

/-- `p` consumes exactly the bytes `bs` and returns `a`, whatever follows them. -/
def Reads (p : Reader ε α) (bs : List UInt8) (a : α) : Prop :=
  ∀ rest, p (bs ++ rest) = .ok (a, rest)

theorem Reads.pure (a : α) : Reads (pure a : Reader ε α) [] a := fun _ => rfl

variable {a : α} {f : α → Reader ε β} {p : Reader ε α}

theorem Reads.bind {c : List UInt8} {b : β} (hp : Reads p bs a) (hf : Reads (f a) c b) :
    Reads (p >>= f) (bs ++ c) b := by
  intro rest
  rw [List.append_assoc, bind_ok (hp (c ++ rest)), hf rest]

/-- A continuation that consumes nothing. -/
theorem Reads.bind_nil {b : β} (hp : Reads p bs a) (hf : Reads (f a) [] b) :
    Reads (p >>= f) bs b := by
  have h := hp.bind hf
  rwa [List.append_nil] at h

/-- A last step that only repacks the value consumes nothing. -/
theorem Reads.map {g : α → β} (hp : Reads p bs a) :
    Reads (p >>= fun x => Pure.pure (g x)) bs (g a) := by
  intro rest
  rw [bind_ok (hp rest), pure_apply]

theorem Reads.exact (eof : ε) (bs : List UInt8) : Reads (readExact eof bs.length) bs bs := by
  intro rest
  simp [readExact]

theorem Reads.exact_of_length {eof : ε} (h : bs.length = n) :
    Reads (readExact eof n) bs bs := h ▸ Reads.exact eof bs

theorem Reads.times {γ : Type} (encode : γ → List UInt8) (value : γ → α) :
    ∀ xs : List γ, (∀ x ∈ xs, Reads p (encode x) (value x)) →
      Reads (p.times xs.length) (xs.flatMap encode) (xs.map value)
  | [], _ => Reads.pure []
  | x :: xs, h => by
    have hx : Reads p (encode x) (value x) := h x (by simp)
    have hxs := Reads.times encode value xs fun y hy => h y (by simp [hy])
    exact hx.bind hxs.map

theorem Reads.congr {cs : List UInt8} {b : α} (h : Reads p bs a) (hbs : bs = cs) (hab : a = b) :
    Reads p cs b := hbs ▸ hab ▸ h

/-- A field that is read as a value does not begin with a field that is read as another. -/
theorem Reads.eq_of_initial {cs : List UInt8} {b : α} (hbs : Reads p bs a) (hcs : Reads p cs b)
    (h : bs <+: cs) : a = b := by
  obtain ⟨more, rfl⟩ := h
  have hread := hcs []
  rw [List.append_nil, hbs more] at hread
  exact (Prod.mk.inj (Except.ok.inj hread)).1

end Reads

/-! ## Readers that do not look ahead -/

section Stable

variable {ε α β : Type} {eof : ε}

/-- The reader takes bytes from the front only, and more bytes do not change what it has
decided. -/
structure Stable (eof : ε) (p : Reader ε α) : Prop where
  suffix : ∀ {bs rest : List UInt8} {a : α}, p bs = .ok (a, rest) → rest <:+ bs
  ok : ∀ {bs rest : List UInt8} {a : α}, p bs = .ok (a, rest) →
    ∀ more, p (bs ++ more) = .ok (a, rest ++ more)
  error : ∀ {bs : List UInt8} {e : ε}, p bs = .error e → e ≠ eof →
    ∀ more, p (bs ++ more) = .error e

theorem Stable.pure (a : α) : Stable eof (Pure.pure a : Reader ε α) where
  suffix := by
    intro bs rest b h
    obtain ⟨-, rfl⟩ := pure_eq_ok h
    exact List.suffix_rfl
  ok := by
    intro bs rest b h more
    obtain ⟨rfl, rfl⟩ := pure_eq_ok h
    rfl
  error := by
    intro bs e h
    cases h

theorem Stable.fail (e : ε) : Stable eof (Reader.fail e : Reader ε α) where
  suffix := by
    intro bs rest b h
    cases h
  ok := by
    intro bs rest b h
    cases h
  error := by
    intro bs e' h _ more
    exact h

variable {p : Reader ε α}

theorem Stable.bind {f : α → Reader ε β} (hp : Stable eof p) (hf : ∀ a, Stable eof (f a)) :
    Stable eof (p >>= f) where
  suffix := by
    intro bs rest b h
    obtain ⟨a, mid, hread, hrest⟩ := bind_eq_ok h
    exact ((hf a).suffix hrest).trans (hp.suffix hread)
  ok := by
    intro bs rest b h more
    obtain ⟨a, mid, hread, hrest⟩ := bind_eq_ok h
    rw [bind_ok (hp.ok hread more)]
    exact (hf a).ok hrest more
  error := by
    intro bs e h hne more
    rcases bind_eq_error h with hread | ⟨a, mid, hread, hrest⟩
    · exact bind_error (hp.error hread hne more)
    · rw [bind_ok (hp.ok hread more)]
      exact (hf a).error hrest hne more

theorem Stable.exact (n : Nat) : Stable eof (readExact eof n) where
  suffix := by
    intro bs rest a h
    obtain ⟨-, rfl⟩ := readExact_eq_ok h
    exact List.suffix_append a rest
  ok := by
    intro bs rest a h more
    obtain ⟨hlen, rfl⟩ := readExact_eq_ok h
    rw [List.append_assoc]
    exact Reads.exact_of_length hlen (rest ++ more)
  error := by
    intro bs e h hne
    unfold readExact at h
    split at h
    · cases h
    · exact absurd (Except.error.inj h).symm hne

theorem Stable.ite {c : Prop} [Decidable c] {q : Reader ε α} (hp : Stable eof p) (hq : Stable eof q) :
    Stable eof (if c then p else q) := by
  split_ifs
  · exact hp
  · exact hq

theorem Stable.times (hp : Stable eof p) : ∀ n, Stable eof (p.times n)
  | 0 => Stable.pure []
  | n + 1 => hp.bind fun a => (Stable.times hp n).bind fun as => Stable.pure (a :: as)

end Stable

/-! ## Readers that fail in known ways -/

section Tame

variable {ε α β : Type} {E : ε → Prop}

/-- The reader fails with errors in `E` only, and never puts bytes back. -/
structure Tame (E : ε → Prop) (p : Reader ε α) : Prop where
  error : ∀ {bs : List UInt8} {e : ε}, p bs = .error e → E e
  length : ∀ {bs rest : List UInt8} {a : α}, p bs = .ok (a, rest) → rest.length ≤ bs.length

/-- The reader takes at least one byte. -/
structure Consumes (p : Reader ε α) : Prop where
  length : ∀ {bs rest : List UInt8} {a : α}, p bs = .ok (a, rest) → rest.length < bs.length

theorem Tame.pure (a : α) : Tame E (Pure.pure a : Reader ε α) where
  error := nofun
  length := by
    intro bs rest b h
    obtain ⟨-, rfl⟩ := pure_eq_ok h
    exact le_rfl

theorem Tame.fail {e : ε} (he : E e) : Tame E (Reader.fail e : Reader ε α) where
  error := fun h => Except.error.inj h ▸ he
  length := nofun

theorem Tame.exact {eof : ε} (heof : E eof) (n : Nat) : Tame E (readExact eof n) where
  error := by
    intro bs e h
    unfold readExact at h
    split at h
    · cases h
    · exact Except.error.inj h ▸ heof
  length := by
    intro bs rest a h
    obtain ⟨-, rfl⟩ := readExact_eq_ok h
    simp

/-- The reader is tame on these bytes. -/
def TameAt (E : ε → Prop) (p : Reader ε α) (bs : List UInt8) : Prop :=
  (∀ e, p bs = .error e → E e) ∧ ∀ a rest, p bs = .ok (a, rest) → rest.length ≤ bs.length

variable {p : Reader ε α} {f : α → Reader ε β}

theorem Tame.tameAt (h : Tame E p) (bs : List UInt8) : TameAt E p bs :=
  ⟨fun _ => h.error, fun _ _ => h.length⟩

theorem tame_iff : Tame E p ↔ ∀ bs, TameAt E p bs :=
  ⟨Tame.tameAt, fun h => ⟨fun he => (h _).1 _ he, fun hok => (h _).2 _ _ hok⟩⟩

theorem TameAt.bind (hp : TameAt E p bs) (hf : ∀ a mid, p bs = .ok (a, mid) → TameAt E (f a) mid) :
    TameAt E (p >>= f) bs := by
  constructor
  · intro e h
    rcases bind_eq_error h with hread | ⟨a, mid, hread, hrest⟩
    · exact hp.1 e hread
    · exact (hf a mid hread).1 e hrest
  · intro b rest h
    obtain ⟨a, mid, hread, hrest⟩ := bind_eq_ok h
    exact ((hf a mid hread).2 b rest hrest).trans (hp.2 a mid hread)

theorem Tame.bind (hp : Tame E p) (hf : ∀ a, Tame E (f a)) : Tame E (p >>= f) :=
  tame_iff.mpr fun bs => (hp.tameAt bs).bind fun a mid _ => (hf a).tameAt mid

theorem Tame.ite {c : Prop} [Decidable c] {q : Reader ε α} (hp : Tame E p) (hq : Tame E q) :
    Tame E (if c then p else q) := by
  split_ifs
  · exact hp
  · exact hq

theorem Tame.times (hp : Tame E p) : ∀ n, Tame E (p.times n)
  | 0 => Tame.pure []
  | n + 1 => hp.bind fun a => (Tame.times hp n).bind fun as => Tame.pure (a :: as)

theorem Consumes.bind (hp : Consumes p) (hf : ∀ a, Tame E (f a)) : Consumes (p >>= f) where
  length := by
    intro bs rest b h
    obtain ⟨a, mid, hread, hrest⟩ := bind_eq_ok h
    exact ((hf a).length hrest).trans_lt (hp.length hread)

theorem tame_consumes_bind (hp : Tame E p ∧ Consumes p) (hf : ∀ a, Tame E (f a)) :
    Tame E (p >>= f) ∧ Consumes (p >>= f) :=
  ⟨hp.1.bind hf, hp.2.bind hf⟩

theorem consumes_exact {eof : ε} (hn : 0 < n) : Consumes (readExact eof n) where
  length := by
    intro bs rest a h
    obtain ⟨hlen, rfl⟩ := readExact_eq_ok h
    rw [List.length_append]
    omega

end Tame

/-! ## Little-endian naturals -/

/-- The `w` least significant bytes of `n`, least significant first. -/
def leBytes : Nat → Nat → List UInt8
  | 0, _ => []
  | w + 1, n => UInt8.ofNat n :: leBytes w (n / 256)

/-- The natural a little-endian byte string denotes. -/
def ofLE : List UInt8 → Nat
  | [] => 0
  | b :: bs => b.toNat + 256 * ofLE bs

@[simp] theorem leBytes_length (w n : Nat) : (leBytes w n).length = w := by
  induction w generalizing n with
  | zero => rfl
  | succ w ih => simp [leBytes, ih]

/-- Reading back `w` bytes gives the number modulo `256 ^ w`. -/
theorem ofLE_leBytes (w n : Nat) : ofLE (leBytes w n) = n % 256 ^ w := by
  induction w generalizing n with
  | zero => simp [leBytes, ofLE, Nat.mod_one]
  | succ w ih =>
    rw [leBytes, ofLE, ih, UInt8.toNat_ofNat', pow_succ' 256, Nat.mod_mul]

theorem ofLE_leBytes_of_lt {w : Nat} (h : n < 256 ^ w) : ofLE (leBytes w n) = n := by
  rw [ofLE_leBytes, Nat.mod_eq_of_lt h]

theorem ofLE_lt (bs : List UInt8) : ofLE bs < 256 ^ bs.length := by
  induction bs with
  | nil => simp [ofLE]
  | cons b bs ih =>
    have hb : b.toNat < 256 := b.toNat_lt
    simp [ofLE, pow_succ']
    omega

/-! ## Cutting into chunks -/

section Chunks

variable {α : Type}

private def chunksAux (n : Nat) : Nat → List α → List (List α)
  | 0, _ => []
  | _ + 1, [] => []
  | k + 1, x :: xs => (x :: xs).take n :: chunksAux n k ((x :: xs).drop n)

/-- `slice.chunks(n)`: consecutive pieces of length `n`, the last one possibly shorter. -/
def chunks (n : Nat) (xs : List α) : List (List α) := chunksAux n xs.length xs

private theorem chunksAux_flatten (hn : 0 < n) :
    ∀ (k : Nat) (xs : List α), xs.length ≤ k → (chunksAux n k xs).flatten = xs
  | 0, xs, h => by simp [chunksAux, List.length_eq_zero_iff.mp (Nat.le_zero.mp h)]
  | _ + 1, [], _ => rfl
  | k + 1, x :: xs, h => by
    have hlen : ((x :: xs).drop n).length ≤ k := by
      rw [List.length_drop, List.length_cons]
      simp at h
      omega
    simp [chunksAux, chunksAux_flatten hn k _ hlen]

/-- The pieces concatenate to the whole. -/
theorem chunks_flatten (hn : 0 < n) (xs : List α) : (chunks n xs).flatten = xs :=
  chunksAux_flatten hn xs.length xs le_rfl

private theorem chunksAux_length (hn : 0 < n) :
    ∀ (k : Nat) (xs c : List α), c ∈ chunksAux n k xs → 0 < c.length ∧ c.length ≤ n
  | 0, _, _, h => by simp [chunksAux] at h
  | _ + 1, [], _, h => by simp [chunksAux] at h
  | k + 1, x :: xs, c, h => by
    rw [chunksAux, List.mem_cons] at h
    rcases h with rfl | h
    · simp
      omega
    · exact chunksAux_length hn k _ c h

variable {xs : List α}

theorem chunks_length (hn : 0 < n) {c : List α} (h : c ∈ chunks n xs) :
    0 < c.length ∧ c.length ≤ n :=
  chunksAux_length hn xs.length xs c h

@[simp] theorem chunks_nil (n : Nat) : chunks n ([] : List α) = [] := rfl

theorem chunks_of_length_le (hpos : xs ≠ []) (h : xs.length ≤ n) : chunks n xs = [xs] := by
  cases xs with
  | nil => exact absurd rfl hpos
  | cons x xs =>
    rw [chunks, List.length_cons, chunksAux, List.take_of_length_le h, List.drop_of_length_le h]
    cases xs.length <;> rfl

theorem chunks_ne_nil (hn : 0 < n) (hpos : xs ≠ []) : chunks n xs ≠ [] := by
  intro h
  have hflat := chunks_flatten hn xs
  rw [h] at hflat
  exact hpos hflat.symm

theorem length_le_of_chunks (hn : 0 < n) (h : (chunks n xs).length ≤ 1) : xs.length ≤ n := by
  have hflat := chunks_flatten hn xs
  have hpiece : ∀ c ∈ chunks n xs, 0 < c.length ∧ c.length ≤ n := fun _ => chunks_length hn
  match hchunks : chunks n xs with
  | [] =>
    rw [hchunks] at hflat
    rw [← hflat]
    exact Nat.zero_le n
  | [c] =>
    rw [hchunks] at hflat hpiece
    simpa [← hflat] using (hpiece c List.mem_cons_self).2
  | _ :: _ :: _ =>
    simp [hchunks] at h

end Chunks

end ByteStream
