import Mathlib.Tactic.Ring
import Mathlib.Data.String.Basic
import BEWallet.Rust

/-!
# Bytes: little-endian words and the `hex` crate

`leBytes k n` is `n`'s lowest `k` bytes, least significant first, as
`u64::to_le_bytes` and the consensus encoding of `u32` write them; `leValue`
reads them back.  `hexEncode`/`hexDecode` are `hex::encode`/`hex::decode`:
two lowercase digits per byte, and an error on an odd length or a character
that is not a hex digit.

    leValue (leBytes k n) = n % 256 ^ k                   (leValue_leBytes)
    hexDecode (hexEncode bs) = .ok bs                      (hexDecode_hexEncode)
    hexDecode s = .ok bs ↔ s.toLower = hexEncode bs        (hexDecode_eq_ok_iff)

`hashFromHex` is how `bitcoin_hashes` reads a hash that prints backwards:

    hashFromHex s = .ok t ↔ t.length = 32 ∧ s.toLower = hexEncode t.reverse
                                                           (hashFromHex_eq_ok_iff)
-/

namespace BEWallet

abbrev Bytes := List UInt8

/-- `n`'s lowest `k` bytes, least significant first. -/
def leBytes : Nat → Nat → Bytes
  | 0, _ => []
  | k + 1, n => UInt8.ofNat (n % 256) :: leBytes k (n / 256)

/-- The number whose little-endian bytes are `bs`. -/
def leValue : Bytes → Nat
  | [] => 0
  | b :: bs => b.toNat + 256 * leValue bs

@[simp] theorem length_leBytes (k n : Nat) : (leBytes k n).length = k := by
  induction k generalizing n with
  | zero => rfl
  | succ k ih => simp [leBytes, ih]

theorem leValue_leBytes (k n : Nat) : leValue (leBytes k n) = n % 256 ^ k := by
  induction k generalizing n with
  | zero => simp [leBytes, leValue, Nat.mod_one]
  | succ k ih =>
    have hb : (UInt8.ofNat (n % 256)).toNat = n % 256 :=
      UInt8.toNat_ofNat_of_lt (Nat.mod_lt _ (by decide))
    simp only [leBytes, leValue, hb, ih, Nat.pow_succ]
    rw [Nat.mul_comm (256 ^ k) 256, Nat.mod_mul]

/-- Bytes read as a number and written back, to as many bytes, are the same bytes. -/
theorem leBytes_leValue (bs : Bytes) : leBytes bs.length (leValue bs) = bs := by
  induction bs with
  | nil => rfl
  | cons b bs ih =>
    have hb : b.toNat < 256 := b.toNat_lt_size
    have hmod : (b.toNat + 256 * leValue bs) % 256 = b.toNat := by omega
    have hdiv : (b.toNat + 256 * leValue bs) / 256 = leValue bs := by omega
    rw [List.length_cons, leValue, leBytes, hmod, hdiv, ih]
    exact congrArg (· :: bs) (UInt8.toNat.inj (UInt8.toNat_ofNat_of_lt hb))

/-- `u64::to_le_bytes` -/
def u64ToLeBytes (v : UInt64) : Bytes := leBytes 8 v.toNat

/-- `u64::from_le_bytes` of the first eight bytes of `bs`. -/
def u64FromLeBytes (bs : Bytes) : UInt64 := UInt64.ofNat (leValue (bs.take 8))

/-- **A `u64` survives `to_le_bytes` then `from_le_bytes`**, whatever follows it. -/
theorem u64FromLeBytes_u64ToLeBytes (v : UInt64) (rest : Bytes) :
    u64FromLeBytes (u64ToLeBytes v ++ rest) = v := by
  have hv := v.toNat_lt_size
  unfold u64FromLeBytes u64ToLeBytes
  rw [List.take_append_of_le_length (by simp), List.take_of_length_le (by simp),
    leValue_leBytes, Nat.mod_eq_of_lt (by simpa using hv)]
  exact UInt64.toNat.inj (UInt64.toNat_ofNat_of_lt hv)

@[simp] theorem length_u64ToLeBytes (v : UInt64) : (u64ToLeBytes v).length = 8 := by
  simp [u64ToLeBytes]

/-! ## `hex` -/

/-- The lowercase hex digit of `n < 16`. -/
def hexDigit (n : Nat) : Char := Char.ofNat (if n < 10 then 48 + n else 87 + n)

/-- The value of a hex digit, either case. -/
def hexValue (c : Char) : Option Nat :=
  if 48 ≤ c.toNat ∧ c.toNat ≤ 57 then some (c.toNat - 48)
  else if 97 ≤ c.toNat ∧ c.toNat ≤ 102 then some (c.toNat - 87)
  else if 65 ≤ c.toNat ∧ c.toNat ≤ 70 then some (c.toNat - 55)
  else none

/-- Two digits per byte, high nibble first. -/
def hexChars (bs : Bytes) : List Char :=
  bs.flatMap fun b => [hexDigit (b.toNat / 16), hexDigit (b.toNat % 16)]

/-- `hex::encode` -/
def hexEncode (bs : Bytes) : String := ⟨hexChars bs⟩

def hexDecodeChars : List Char → Except Fault Bytes
  | [] => pure []
  | [_] => throwErr (.library "hex: odd length")
  | c₁ :: c₂ :: cs =>
    match hexValue c₁, hexValue c₂ with
    | some h, some l => do
      let rest ← hexDecodeChars cs
      pure (UInt8.ofNat (16 * h + l) :: rest)
    | _, _ => throwErr (.library "hex: invalid character")

/-- `hex::decode` -/
def hexDecode (s : String) : Except Fault Bytes := hexDecodeChars s.data

/-- Decoding hex ends in the bytes or an `Err`, never a panic. -/
theorem returns_hexDecodeChars : ∀ cs : List Char, Returns (hexDecodeChars cs)
  | [] => trivial
  | [_] => trivial
  | _ :: _ :: cs => by
    unfold hexDecodeChars
    split
    · exact Returns.bind (returns_hexDecodeChars cs) fun _ _ => returns_pure _
    · exact returns_throwErr _

theorem hexValue_hexDigit : ∀ n, n < 16 → hexValue (hexDigit n) = some n := by
  decide

theorem hexDecode_hexEncode (bs : Bytes) : hexDecode (hexEncode bs) = .ok bs := by
  show hexDecodeChars (hexChars bs) = _
  induction bs with
  | nil => rfl
  | cons b bs ih =>
    have hb := b.toNat_lt_size
    have h1 := hexValue_hexDigit (b.toNat / 16) (by change b.toNat < 256 at hb; omega)
    have h2 := hexValue_hexDigit (b.toNat % 16) (Nat.mod_lt _ (by decide))
    have hv : UInt8.ofNat (16 * (b.toNat / 16) + b.toNat % 16) = b := by
      rw [Nat.div_add_mod]; exact UInt8.toNat.inj (UInt8.toNat_ofNat_of_lt hb)
    show hexDecodeChars (_ :: _ :: hexChars bs) = _
    simp only [hexDecodeChars, h1, h2, ih, hv]
    rfl

theorem char_toNat_ofNat {m : Nat} (h : m < 0xd800) : (Char.ofNat m).toNat = m := by
  simp [Char.ofNat, show m.isValidChar from Or.inl h, Char.ofNatAux, Char.toNat, UInt32.toNat]

/-- A hex digit's value is below 16, and prints back as the digit lowercased. -/
theorem hexDigit_of_hexValue {c : Char} {n : Nat} (h : hexValue c = some n) :
    n < 16 ∧ hexDigit n = c.toLower := by
  unfold hexValue at h
  simp only [Char.toLower]
  split_ifs at h with h₁ h₂ h₃ <;> cases h
  · rw [hexDigit, if_pos (by omega), if_neg (by omega),
      show 48 + (c.toNat - 48) = c.toNat by omega, Char.ofNat_toNat]
    exact ⟨by omega, rfl⟩
  · rw [hexDigit, if_neg (by omega), if_neg (by omega),
      show 87 + (c.toNat - 87) = c.toNat by omega, Char.ofNat_toNat]
    exact ⟨by omega, rfl⟩
  · rw [hexDigit, if_neg (by omega), if_pos (by omega),
      show 87 + (c.toNat - 55) = c.toNat + 32 by omega]
    exact ⟨by omega, rfl⟩

theorem hexValue_toLower (c : Char) : hexValue c.toLower = hexValue c := by
  simp only [Char.toLower]
  split_ifs with h
  · -- an uppercase letter: only the `a`-`f` and `A`-`F` branches can apply
    have ht := char_toNat_ofNat (show c.toNat + 32 < 0xd800 by omega)
    unfold hexValue
    rw [ht, if_neg (by omega), if_neg (show ¬(48 ≤ c.toNat ∧ _) by omega),
      if_neg (show ¬(97 ≤ c.toNat ∧ _) by omega), if_neg (show ¬(65 ≤ c.toNat + 32 ∧ _) by omega)]
    split_ifs <;> first | omega | congr 1
  · rfl

/-- Hex decoding reads both cases alike. -/
theorem hexDecodeChars_map_toLower : ∀ cs : List Char,
    hexDecodeChars (cs.map Char.toLower) = hexDecodeChars cs
  | [] => rfl
  | [_] => rfl
  | c₁ :: c₂ :: cs => by
    simp only [List.map_cons, hexDecodeChars, hexValue_toLower, hexDecodeChars_map_toLower cs]

/-- What hex decoding reads, encoding writes back lowercased. -/
theorem hexChars_of_hexDecodeChars : ∀ {cs : List Char} {bs : Bytes},
    hexDecodeChars cs = .ok bs → hexChars bs = cs.map Char.toLower
  | [], _, h => by cases h; rfl
  | [_], _, h => by cases h
  | c₁ :: c₂ :: cs, bs, h => by
    simp only [hexDecodeChars] at h
    split at h
    · rename_i hi lo h₁ h₂
      obtain ⟨rest, hrest, h⟩ := bind_eq_ok.1 h
      cases h
      obtain ⟨hi16, d₁⟩ := hexDigit_of_hexValue h₁
      obtain ⟨lo16, d₂⟩ := hexDigit_of_hexValue h₂
      have hb : (UInt8.ofNat (16 * hi + lo)).toNat = 16 * hi + lo :=
        UInt8.toNat_ofNat_of_lt (by unfold UInt8.size; omega)
      have e₁ : (16 * hi + lo) / 16 = hi := by omega
      have e₂ : (16 * hi + lo) % 16 = lo := by omega
      simp only [hexChars, List.flatMap_cons, hb, e₁, e₂, d₁, d₂, List.map_cons]
      exact congrArg _ (hexChars_of_hexDecodeChars hrest)
    · cases h

/-- **`hex::decode` reads exactly the encodings, in either case**: it returns `bs` just
when the text, lowercased, is `hex::encode(bs)`. -/
theorem hexDecode_eq_ok_iff {s : String} {bs : Bytes} :
    hexDecode s = .ok bs ↔ s.toLower = hexEncode bs := by
  rw [String.toLower, String.map_eq]
  constructor
  · intro h
    rw [hexEncode, hexChars_of_hexDecodeChars h]
  · intro h
    have hd : s.data.map Char.toLower = hexChars bs := congrArg String.data h
    show hexDecodeChars s.data = _
    rw [← hexDecodeChars_map_toLower, hd]
    exact hexDecode_hexEncode bs

/-! ## `bitcoin_hashes` -/

/-- A hex digit is one byte in UTF-8. -/
theorem utf8Size_of_hexValue {c : Char} {n : Nat} (h : hexValue c = some n) : c.utf8Size = 1 := by
  have hc : c.toNat ≤ 102 := by unfold hexValue at h; split_ifs at h <;> omega
  exact if_pos (show c.val.toNat ≤ 127 by simp only [Char.toNat] at hc; omega)

theorem utf8ByteSize_of_hexDecodeChars : ∀ {cs : List Char} {bs : Bytes},
    hexDecodeChars cs = .ok bs → String.utf8ByteSize.go cs = 2 * bs.length
  | [], _, h => by cases h; rfl
  | [_], _, h => by cases h
  | c₁ :: c₂ :: cs, bs, h => by
    simp only [hexDecodeChars] at h
    split at h
    · rename_i h₁ h₂
      obtain ⟨rest, hrest, h⟩ := bind_eq_ok.1 h
      cases h
      simp only [String.utf8ByteSize.go, utf8Size_of_hexValue h₁, utf8Size_of_hexValue h₂,
        utf8ByteSize_of_hexDecodeChars hrest, List.length_cons]
      omega
    · cases h

/-- `FromHex::from_hex` of a 32-byte hash type of `bitcoin_hashes` that prints its bytes
backwards (`Txid`, and `AssetId` through `sha256::Midstate`): `HexIterator::new` rejects
an odd number of bytes, the array's `from_byte_iter` any number but 64, and reading the
bytes a character that is no hex digit. -/
def hashFromHex (s : String) : Except Fault Bytes :=
  if s.utf8ByteSize % 2 ≠ 0 then throwErr (.library "bitcoin_hashes: OddLengthString")
  else if s.utf8ByteSize ≠ 64 then throwErr (.library "bitcoin_hashes: InvalidLength")
  else match hexDecode s with
    | .ok b => pure b.reverse
    | .error _ => throwErr (.library "bitcoin_hashes: InvalidChar")

/-- **A hash text is read exactly when, lowercased, it is how the hash prints**: 32 bytes,
reversed, in hex. -/
theorem hashFromHex_eq_ok_iff {s : String} {t : Bytes} :
    hashFromHex s = .ok t ↔ t.length = 32 ∧ s.toLower = hexEncode t.reverse := by
  constructor
  · intro h
    unfold hashFromHex at h
    split_ifs at h with h₁ h₂
    · cases h
    · cases h
    split at h
    · rename_i b hb
      cases h
      have hl := utf8ByteSize_of_hexDecodeChars hb
      rw [List.length_reverse, List.reverse_reverse]
      exact ⟨by simp only [String.utf8ByteSize] at h₂; omega, hexDecode_eq_ok_iff.1 hb⟩
    · cases h
  · rintro ⟨hl, hs⟩
    have hd : hexDecode s = .ok t.reverse := hexDecode_eq_ok_iff.2 hs
    have hsz : s.utf8ByteSize = 64 := (utf8ByteSize_of_hexDecodeChars hd).trans (by simp [hl])
    rw [hashFromHex, hsz, hd]
    simp only [List.reverse_reverse]
    rfl

example : hashFromHex "abc" = throwErr (.library "bitcoin_hashes: OddLengthString") := by decide

end BEWallet
