import Mathlib.Data.List.GetD
import Ferrosync.Lib.Text

set_option autoImplicit false

/-! # Base64

The standard alphabet with padding. Encoding is injective among byte lists of one length
(`encode_inj`), and puts out no whitespace (`not_whitespace_of_mem_encode`).
-/

namespace Base64

def alphabet : Text := "ABCDEFGHIJKLMNOPQRSTUVWXYZabcdefghijklmnopqrstuvwxyz0123456789+/".toList

/-- The character of the six bits of `n` above its lowest `shift` bits. -/
def digit (n shift : Nat) : Char := alphabet.getD (n >>> shift &&& 0x3F) '='

/-- Three bytes at a time; the last one or two are padded. -/
def encode : List UInt8 → Text
  | [] => []
  | [a] =>
    let n := a.toNat <<< 16
    [digit n 18, digit n 12, '=', '=']
  | [a, b] =>
    let n := a.toNat <<< 16 ||| b.toNat <<< 8
    [digit n 18, digit n 12, digit n 6, '=']
  | a :: b :: c :: rest =>
    let n := a.toNat <<< 16 ||| b.toNat <<< 8 ||| c.toNat
    digit n 18 :: digit n 12 :: digit n 6 :: digit n 0 :: encode rest

theorem alphabet_length : alphabet.length = 64 := by decide

theorem alphabet_nodup : alphabet.Nodup := by decide

theorem sextet_eq (n shift : Nat) : n >>> shift &&& 0x3F = n / 2 ^ shift % 64 := by
  rw [Nat.shiftRight_eq_div_pow]
  exact Nat.and_two_pow_sub_one_eq_mod _ 6

theorem digit_mem (n shift : Nat) : digit n shift ∈ alphabet := by
  have hlt : n >>> shift &&& 0x3F < alphabet.length := by
    simp [sextet_eq, alphabet_length]
    omega
  rw [digit, List.getD_eq_getElem _ _ hlt]
  exact List.getElem_mem hlt

/-- A character tells the six bits it stands for. -/
theorem digit_inj {n m shift : Nat} (h : digit n shift = digit m shift) :
    n / 2 ^ shift % 64 = m / 2 ^ shift % 64 := by
  have hn : n / 2 ^ shift % 64 < alphabet.length := by
    simp [alphabet_length]
    omega
  have hm : m / 2 ^ shift % 64 < alphabet.length := by
    simp [alphabet_length]
    omega
  rw [digit, digit, sextet_eq, sextet_eq, List.getD_eq_getElem _ _ hn,
    List.getD_eq_getElem _ _ hm] at h
  exact (alphabet_nodup.getElem_inj_iff).mp h

/-! ## Groups of bytes as numbers -/

theorem group2_eq (a b : UInt8) :
    a.toNat <<< 16 ||| b.toNat <<< 8 = a.toNat * 65536 + b.toNat * 256 := by
  have hb : b.toNat <<< 8 < 2 ^ 16 := by
    have := b.toNat_lt
    rw [Nat.shiftLeft_eq]
    omega
  rw [← Nat.shiftLeft_add_eq_or_of_lt hb, Nat.shiftLeft_eq, Nat.shiftLeft_eq]

theorem group3_eq (a b c : UInt8) :
    a.toNat <<< 16 ||| b.toNat <<< 8 ||| c.toNat =
      a.toNat * 65536 + b.toNat * 256 + c.toNat := by
  have hc : c.toNat < 2 ^ 8 := c.toNat_lt
  have hshift : a.toNat * 65536 + b.toNat * 256 = (a.toNat * 256 + b.toNat) <<< 8 := by
    rw [Nat.shiftLeft_eq]
    omega
  rw [group2_eq, hshift, Nat.shiftLeft_add_eq_or_of_lt hc]

theorem group1_inj {a a' : UInt8} (h18 : digit (a.toNat <<< 16) 18 = digit (a'.toNat <<< 16) 18)
    (h12 : digit (a.toNat <<< 16) 12 = digit (a'.toNat <<< 16) 12) : a = a' := by
  have ha := a.toNat_lt
  have ha' := a'.toNat_lt
  have e18 := digit_inj h18
  have e12 := digit_inj h12
  rw [Nat.shiftLeft_eq, Nat.shiftLeft_eq] at e18 e12
  exact UInt8.toNat_inj.mp (by omega)

theorem group2_inj {a b a' b' : UInt8} {n n' : Nat} (hn : n = a.toNat * 65536 + b.toNat * 256)
    (hn' : n' = a'.toNat * 65536 + b'.toNat * 256) (h18 : digit n 18 = digit n' 18)
    (h12 : digit n 12 = digit n' 12) (h6 : digit n 6 = digit n' 6) : a = a' ∧ b = b' := by
  have ha := a.toNat_lt
  have hb := b.toNat_lt
  have ha' := a'.toNat_lt
  have hb' := b'.toNat_lt
  have e18 := digit_inj h18
  have e12 := digit_inj h12
  have e6 := digit_inj h6
  subst hn hn'
  exact ⟨UInt8.toNat_inj.mp (by omega), UInt8.toNat_inj.mp (by omega)⟩

theorem group3_inj {a b c a' b' c' : UInt8} {n n' : Nat}
    (hn : n = a.toNat * 65536 + b.toNat * 256 + c.toNat)
    (hn' : n' = a'.toNat * 65536 + b'.toNat * 256 + c'.toNat) (h18 : digit n 18 = digit n' 18)
    (h12 : digit n 12 = digit n' 12) (h6 : digit n 6 = digit n' 6) (h0 : digit n 0 = digit n' 0) :
    a = a' ∧ b = b' ∧ c = c' := by
  have ha := a.toNat_lt
  have hb := b.toNat_lt
  have hc := c.toNat_lt
  have ha' := a'.toNat_lt
  have hb' := b'.toNat_lt
  have hc' := c'.toNat_lt
  have e18 := digit_inj h18
  have e12 := digit_inj h12
  have e6 := digit_inj h6
  have e0 := digit_inj h0
  have hsame : n = n' := by omega
  subst hn hn'
  exact ⟨UInt8.toNat_inj.mp (by omega), UInt8.toNat_inj.mp (by omega),
    UInt8.toNat_inj.mp (by omega)⟩

/-- Two byte lists of one length with one encoding are the same. -/
theorem encode_inj : ∀ {xs ys : List UInt8}, xs.length = ys.length → encode xs = encode ys → xs = ys
  | [], [], _, _ => rfl
  | [a], [a'], _, h => by
    simp only [encode, List.cons.injEq] at h
    rw [group1_inj h.1 h.2.1]
  | [a, b], [a', b'], _, h => by
    simp only [encode, List.cons.injEq] at h
    obtain ⟨rfl, rfl⟩ := group2_inj (group2_eq a b) (group2_eq a' b') h.1 h.2.1 h.2.2.1
    rfl
  | a :: b :: c :: xs, a' :: b' :: c' :: ys, hlen, h => by
    simp only [encode, List.cons.injEq] at h
    obtain ⟨h18, h12, h6, h0, hrest⟩ := h
    obtain ⟨rfl, rfl, rfl⟩ := group3_inj (group3_eq a b c) (group3_eq a' b' c') h18 h12 h6 h0
    rw [encode_inj (by simpa using hlen) hrest]

/-! ## The characters of an encoding -/

theorem mem_encode : ∀ {xs : List UInt8} {c : Char}, c ∈ encode xs → c ∈ alphabet ∨ c = '='
  | [], c, h => absurd h List.not_mem_nil
  | [a], c, h => by
    simp only [encode, List.mem_cons, List.not_mem_nil, or_false] at h
    rcases h with rfl | rfl | rfl | rfl
    · exact Or.inl (digit_mem _ _)
    · exact Or.inl (digit_mem _ _)
    all_goals exact Or.inr rfl
  | [a, b], c, h => by
    simp only [encode, List.mem_cons, List.not_mem_nil, or_false] at h
    rcases h with rfl | rfl | rfl | rfl
    · exact Or.inl (digit_mem _ _)
    · exact Or.inl (digit_mem _ _)
    · exact Or.inl (digit_mem _ _)
    · exact Or.inr rfl
  | a :: b :: c :: xs, d, h => by
    simp only [encode, List.mem_cons] at h
    rcases h with rfl | rfl | rfl | rfl | h
    · exact Or.inl (digit_mem _ _)
    · exact Or.inl (digit_mem _ _)
    · exact Or.inl (digit_mem _ _)
    · exact Or.inl (digit_mem _ _)
    · exact mem_encode h

theorem not_whitespace_of_mem_encode {xs : List UInt8} {c : Char} (h : c ∈ encode xs) :
    Text.isWhitespace c = false := by
  have halphabet : alphabet.all (fun c => !Text.isWhitespace c) = true := by decide
  rcases mem_encode h with h | rfl
  · simpa using List.all_eq_true.mp halphabet c h
  · decide

theorem length_encode : ∀ xs : List UInt8, (encode xs).length = (xs.length + 2) / 3 * 4
  | [] => rfl
  | [_] => by simp [encode]
  | [_, _] => by simp [encode]
  | _ :: _ :: _ :: xs => by
    have ih := length_encode xs
    simp [encode]
    omega

theorem encode_ne_nil {xs : List UInt8} (h : xs ≠ []) : encode xs ≠ [] := by
  match xs, h with
  | [_], _ => simp [encode]
  | [_, _], _ => simp [encode]
  | _ :: _ :: _ :: _, _ => simp [encode]

end Base64
