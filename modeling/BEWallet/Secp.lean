import BEWallet.Elements

/-!
# What the wallet needs of the crates it calls

`Secp` collects the operations of `secp256k1-zkp`, `bitcoin_hashes` and
`aes-gcm-siv` that the LiquiDEX code calls, with the laws the code relies on
as fields.  Generator and commitment arithmetic is not abstract: with points
kept by their logarithm it is the library's own formula,

    Generator::new_blinded(tag, abf)      = H(tag) + abf·G      (newBlinded)
    PedersenCommitment::new(v, vbf, gen)  = v·gen + vbf·G       (pedersen)
    compute_adaptive_blinding_factor      balances the blinders (blindSum_adaptive)

`TxCodec` is `elements::encode` for transactions: serialization, parsing,
`txid`, and the round trip.
-/

namespace BEWallet

/-- `slip77::MasterBlindingKey`, by its 32 secret bytes. -/
structure MasterBlindingKey where
  bytes : Bytes
  deriving DecidableEq

/-- The operations of the libraries, with the laws the wallet relies on. -/
structure Secp where
  /-- `Generator::new_unblinded(Tag::from(asset))`: the asset's generator `H(asset)` -/
  tagPoint : AssetId → Point
  /-- `serialize()` of a generator or a commitment -/
  pointBytes : Point → Bytes
  /-- whether 33 bytes are the compressed form of a point of the curve -/
  onCurve : Bytes → Bool
  /-- `PublicKey::from_secret_key` -/
  pubOfSecret : Scalar → PublicKey
  /-- the coordinates `(x, y)` of `sk·pk`, as `SharedSecret::new_with_hash` hands them over -/
  ecdh : PublicKey → Scalar → Bytes × Bytes
  sha256 : Bytes → Bytes
  sha256_length : ∀ b, (sha256 b).length = 32
  sha256d : Bytes → Bytes
  hash160 : Bytes → Bytes
  /-- `MasterBlindingKey::derive_blinding_key(script)`: HMAC-SHA256 of the script -/
  slip77 : MasterBlindingKey → Script → Scalar
  /-- `Aes256GcmSiv::new(key).encrypt_in_place(nonce, b"", text)` -/
  aesEncrypt : (key nonce text : Bytes) → Except Error Bytes
  /-- `Aes256GcmSiv::new(key).decrypt_in_place(nonce, b"", text)` -/
  aesDecrypt : (key nonce text : Bytes) → Except Error Bytes
  aesDecrypt_aesEncrypt : ∀ k n p c, aesEncrypt k n p = .ok c → aesDecrypt k n c = .ok p
  /-- `decrypt_in_place` strips the 16-byte tag -/
  aesDecrypt_length : ∀ k n c p, aesDecrypt k n c = .ok p → p.length + 16 = c.length
  /-- `RangeProof::new(secp, min_value, commitment, value, vbf, message, script, secret,
  exp, bits, generator)` -/
  rangeProof : UInt64 → Point → UInt64 → Scalar → Bytes → Script → Scalar → Int → Nat →
    Point → Except Error Bytes
  /-- `SurjectionProof::new(secp, rng, tag, abf, domain)`; the first argument is the draw
  of the random source -/
  surjectionProof : Nat → AssetId → Scalar → List (Point × AssetId × Scalar) →
    Except Error Bytes
  /-- `Script::is_provably_unspendable` -/
  unspendable : Script → Bool

namespace Secp

variable (S : Secp)

/-- `Generator::new_blinded(secp, Tag::from(asset), abf)` -/
def newBlinded (a : AssetId) (abf : Scalar) : Point := S.tagPoint a + abf

/-- `PublicKey::from_slice` of 33 bytes. -/
def publicKeyFromSlice (c : Bytes) : Option PublicKey :=
  if h : c.length = 33 ∧ S.onCurve c = true then some ⟨c, h.1⟩ else none

/-- `Nonce::from_commitment(bytes)` -/
def nonceFromCommitment (c : Bytes) : Except Fault Nonce :=
  match S.publicKeyFromSlice c with
  | some pk => pure (.confidential pk)
  | none => throwErr (.library "elements: nonce commitment")

theorem publicKeyFromSlice_bytes {c : Bytes} {pk : PublicKey}
    (h : S.publicKeyFromSlice c = some pk) : pk.bytes = c := by
  unfold publicKeyFromSlice at h; split at h <;> cases h; rfl

/-- A key that parsed once parses again from its serialization. -/
theorem nonceFromCommitment_bytes {c : Bytes} {pk : PublicKey}
    (h : S.publicKeyFromSlice c = some pk) :
    S.nonceFromCommitment pk.bytes = .ok (.confidential pk) := by
  rw [nonceFromCommitment, S.publicKeyFromSlice_bytes h, h]; rfl

/-- The nonce a key's serialization parses to is that key. -/
theorem nonceFromCommitment_ok {pk : PublicKey} {n : Nonce}
    (h : S.nonceFromCommitment pk.bytes = .ok n) : n = .confidential pk := by
  unfold nonceFromCommitment at h
  split at h
  · rename_i pk' hpk'
    cases h
    obtain ⟨b, _⟩ := pk
    obtain ⟨b', _⟩ := pk'
    cases S.publicKeyFromSlice_bytes hpk'
    rfl
  · cases h

end Secp

/-- The 32 big-endian bytes of a scalar, as `SecretKey` and `Tweak` expose them. -/
def scalarBytes (k : Scalar) : Bytes := (leBytes 32 k.val).reverse

/-- `SecretKey::from_slice`: 32 big-endian bytes of a non-zero scalar below the order. -/
def secretKeyFromSlice (b : Bytes) : Option Scalar :=
  if b.length = 32 ∧ 0 < leValue b.reverse ∧ leValue b.reverse < secpOrder then
    some (leValue b.reverse : Scalar)
  else none

/-- `PedersenCommitment::new(secp, v, vbf, gen)` -/
def pedersen (v : UInt64) (vbf : Scalar) (gen : Point) : Point := (v.toNat : Scalar) * gen + vbf

/-- `secp256k1_zkp::CommitmentSecrets` -/
structure CommitmentSecrets where
  value : UInt64
  valueBf : Scalar
  generatorBf : Scalar
  deriving DecidableEq

/-- `v·abf + vbf`: what an output's commitment puts on `G` besides `v·H(asset)`. -/
def CommitmentSecrets.blind (c : CommitmentSecrets) : Scalar :=
  (c.value.toNat : Scalar) * c.generatorBf + c.valueBf

def blindSum (cs : List CommitmentSecrets) : Scalar := (cs.map CommitmentSecrets.blind).sum

/-- `CommitmentSecrets::new(value, value_bf, asset_bf)` of an output's secrets. -/
def TxOutSecrets.commitmentSecrets (u : TxOutSecrets) : CommitmentSecrets :=
  ⟨u.value, u.valueBf, u.assetBf⟩

/-- The value commitment an output with secrets `u` carries. -/
def TxOutSecrets.commitment (S : Secp) (u : TxOutSecrets) : Point :=
  pedersen u.value u.valueBf (S.newBlinded u.asset u.assetBf)

/-- **A commitment splits** into the amount on the asset's generator and the blind on `G`. -/
theorem TxOutSecrets.commitment_eq (S : Secp) (u : TxOutSecrets) :
    u.commitment S = (u.value.toNat : Scalar) * S.tagPoint u.asset + u.commitmentSecrets.blind := by
  simp only [commitment, pedersen, Secp.newBlinded, commitmentSecrets, CommitmentSecrets.blind]
  ring

/-- `compute_adaptive_blinding_factor(secp, v, abf, inputs, outputs)`: the value blinder
that `secp256k1_pedersen_blind_generator_blind_sum` picks for one more output. -/
def computeAdaptiveBlindingFactor (v : UInt64) (abf : Scalar)
    (ins outs : List CommitmentSecrets) : Scalar :=
  blindSum ins - blindSum outs - (v.toNat : Scalar) * abf

@[simp] theorem blindSum_nil : blindSum [] = 0 := rfl

@[simp] theorem blindSum_append (xs ys : List CommitmentSecrets) :
    blindSum (xs ++ ys) = blindSum xs + blindSum ys := by
  simp [blindSum]

@[simp] theorem blindSum_cons (c : CommitmentSecrets) (cs : List CommitmentSecrets) :
    blindSum (c :: cs) = c.blind + blindSum cs := by
  simp [blindSum]

/-- **The adaptive blinder balances the blinders**: with it the last output's blind
makes the outputs' sum equal the inputs'. -/
theorem blindSum_adaptive (v : UInt64) (abf : Scalar) (ins outs : List CommitmentSecrets) :
    blindSum (outs ++ [⟨v, computeAdaptiveBlindingFactor v abf ins outs, abf⟩]) =
      blindSum ins := by
  simp [CommitmentSecrets.blind, computeAdaptiveBlindingFactor]

/-- `elements::encode` for transactions. -/
structure TxCodec where
  serialize : Transaction → Bytes
  deserialize : Bytes → Except Error Transaction
  deserialize_serialize : ∀ tx, deserialize (serialize tx) = .ok tx
  /-- `tx.txid()` -/
  txid : Transaction → Bytes

/-- What the LiquiDEX code calls from the wallet crate's `utils.rs` and
`transaction.rs`, which are not among the sources. -/
structure Crate where
  /-- `derive_blinder(master_blinding_key, hash, vout, is_asset_blinder)` -/
  deriveBlinder : MasterBlindingKey → Bytes → UInt32 → Bool → Except Error Scalar
  /-- `estimated_fee(tx, fee_rate, n_changes)` -/
  estimatedFee : Transaction → Float → UInt8 → UInt64
  /-- `DUST_VALUE` -/
  dustValue : UInt64

/-- `SigHashType`: `All` or `SinglePlusAnyoneCanPay`, with its byte. -/
inductive SigHashType
  | all
  | singlePlusAnyoneCanPay
  deriving DecidableEq

def SigHashType.toByte : SigHashType → UInt8
  | .all => 0x01
  | .singlePlusAnyoneCanPay => 0x83

/-- An extended key (`ExtendedPrivKey`, `ExtendedPubKey`), by its serialization. -/
abbrev ExtendedKey := Bytes

abbrev DerivationPath := List UInt32

/-- What the wallet calls from `bip39`, `bip32` and ECDSA signing. -/
structure Keys where
  /-- `Mnemonic::parse_in(English, m)` then `to_seed("")`; fails on an invalid mnemonic -/
  mnemonicToSeed : String → Except Error Bytes
  /-- `ExtendedPrivKey::new_master(Testnet, seed)` -/
  newMaster : Bytes → Except Error ExtendedKey
  /-- `xprv.derive_priv(secp, path)` -/
  derivePriv : ExtendedKey → DerivationPath → Except Error ExtendedKey
  /-- the secret key of an extended private key -/
  privateKey : ExtendedKey → Scalar
  /-- `ExtendedPubKey::from_private` -/
  toXpub : ExtendedKey → ExtendedKey
  /-- `xpub.derive_pub(secp, path)`: the derived public key -/
  derivePub : ExtendedKey → DerivationPath → Except Error PublicKey
  /-- `SigHashCache::new(tx).segwitv0_sighash(index, script_code, value, type)` -/
  sighash : Transaction → Nat → Script → Value → SigHashType → Bytes
  /-- `secp.sign(message, key).serialize_der()` -/
  signDer : Bytes → Scalar → Bytes

/-- Modelled from the spec: `p2shwpkh_script(pk)` of `scripts.rs`, the nested
P2SH-P2WPKH script `OP_HASH160 <hash160(OP_0 <hash160(pk)>)> OP_EQUAL`. -/
def p2shwpkhScript (S : Secp) (pk : PublicKey) : Script :=
  [0xa9, 0x14] ++ S.hash160 ([0x00, 0x14] ++ S.hash160 pk.bytes) ++ [0x87]

/-- Modelled from the spec: `p2pkh_script(pk)` of `scripts.rs`, the script code of a
P2WPKH input, `OP_DUP OP_HASH160 <hash160(pk)> OP_EQUALVERIFY OP_CHECKSIG`. -/
def p2pkhScript (S : Secp) (pk : PublicKey) : Script :=
  [0x76, 0xa9, 0x14] ++ S.hash160 pk.bytes ++ [0x88, 0xac]

/-- Modelled from the spec: `p2shwpkh_script_sig(pk)` of `scripts.rs`, the push of the
redeem script `OP_0 <hash160(pk)>`. -/
def p2shwpkhScriptSig (S : Secp) (pk : PublicKey) : Script :=
  [0x16, 0x00, 0x14] ++ S.hash160 pk.bytes

theorem p2shwpkhScript_ne_nil (S : Secp) (pk : PublicKey) : p2shwpkhScript S pk ≠ [] := by
  simp [p2shwpkhScript]

end BEWallet
