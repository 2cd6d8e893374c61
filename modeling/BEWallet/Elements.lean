import Mathlib.Data.ZMod.Basic
import BEWallet.Bytes

/-!
# The `elements` data model

Transactions, outputs with their explicit or confidential fields, and the
unblinded secrets of an output, as the wallet reads and writes them.

Points of secp256k1 are kept by their discrete logarithm: the group is cyclic
of prime order `secpOrder` with generator `G`, so `Point := ZMod secpOrder`
loses nothing and makes the Pedersen algebra ring arithmetic.  No function of
the model turns a point's bytes back into its logarithm.

`add_input` and `add_output` live in `transaction.rs`, which is not among the
sources; they follow the spec (§4.3).
-/

namespace BEWallet

/-- The order of secp256k1. -/
def secpOrder : Nat := 0xFFFFFFFFFFFFFFFFFFFFFFFFFFFFFFFEBAAEDCE6AF48A03BBFD25E8CD0364141

/-- A scalar: a secret key or a blinding factor (`secp256k1_zkp::Tweak`). -/
abbrev Scalar := ZMod secpOrder

/-- A point `k·G`, kept as `k`. -/
abbrev Point := Scalar

/-- `elements::issuance::AssetId`: 32 bytes. -/
structure AssetId where
  bytes : Bytes
  size : bytes.length = 32
  deriving DecidableEq

/-- `asset.to_hex()`: hash types print their bytes backwards. -/
def AssetId.toHex (a : AssetId) : String := hexEncode a.bytes.reverse

/-- `asset_to_bin` then `AssetId::from_slice`. -/
def AssetId.fromHex (s : String) : Except Fault AssetId := do
  let b ← hexDecode s
  if h : b.reverse.length = 32 then pure ⟨b.reverse, h⟩
  else throwErr (.library "elements: asset id length")

theorem AssetId.fromHex_toHex (a : AssetId) : AssetId.fromHex a.toHex = .ok a := by
  have h : a.bytes.reverse.reverse.length = 32 := by simp [a.size]
  simp only [fromHex, toHex, hexDecode_hexEncode, bind, Except.bind, dif_pos h]
  congr 2
  exact List.reverse_reverse _

/-- `AssetId::from_str`: `FromHex` of its `sha256::Midstate`, which prints backwards.  The
64 digits `hashFromHex` accepts are 32 bytes, so the length test never fails; it only
builds the id. -/
def AssetId.fromStr (s : String) : Except Fault AssetId := do
  let b ← hashFromHex s
  if h : b.length = 32 then pure ⟨b, h⟩
  else throwErr (.library "bitcoin_hashes: InvalidLength")

/-- An asset id text is read exactly when, lowercased, it is how the id prints. -/
theorem AssetId.fromStr_eq_ok_iff {s : String} {a : AssetId} :
    AssetId.fromStr s = .ok a ↔ s.toLower = a.toHex := by
  constructor
  · intro h
    obtain ⟨b, hb, h⟩ := bind_eq_ok.1 h
    split at h
    · cases h
      exact (hashFromHex_eq_ok_iff.1 hb).2
    · cases h
  · intro h
    rw [fromStr, hashFromHex_eq_ok_iff.2 ⟨a.size, h⟩]
    simp only [bind, Except.bind, dif_pos a.size]
    rfl

/-- `secp256k1::PublicKey`, by its 33-byte compressed serialization. -/
structure PublicKey where
  bytes : Bytes
  size : bytes.length = 33
  deriving DecidableEq

abbrev Script := Bytes

/-- `elements::OutPoint` -/
structure OutPoint where
  txid : Bytes
  vout : UInt32
  deriving DecidableEq

/-- `outpoint.consensus_encode`: the txid, then `vout` as four little-endian bytes. -/
def OutPoint.encode (o : OutPoint) : Bytes := o.txid ++ leBytes 4 o.vout.toNat

/-- `confidential::Asset` -/
inductive Asset
  | null
  | explicit (a : AssetId)
  | confidential (g : Point)
  deriving DecidableEq

/-- `confidential::Value` -/
inductive Value
  | null
  | explicit (v : UInt64)
  | confidential (c : Point)
  deriving DecidableEq

/-- `confidential::Nonce` -/
inductive Nonce
  | null
  | explicit (b : Bytes)
  | confidential (pk : PublicKey)
  deriving DecidableEq

def Asset.isExplicit : Asset → Bool
  | .explicit _ => true
  | _ => false

def Value.isExplicit : Value → Bool
  | .explicit _ => true
  | _ => false

def Asset.commitment : Asset → Option Point
  | .confidential g => some g
  | _ => none

def Value.commitment : Value → Option Point
  | .confidential c => some c
  | _ => none

def Nonce.commitment : Nonce → Option PublicKey
  | .confidential pk => some pk
  | _ => none

/-- `TxOutWitness`: the output's proofs. -/
structure TxOutWitness where
  surjectionProof : Option Bytes := none
  rangeproof : Option Bytes := none
  deriving DecidableEq

/-- `elements::TxOut`; `TxOut::default()` is null everywhere. -/
structure TxOut where
  asset : Asset := .null
  value : Value := .null
  nonce : Nonce := .null
  scriptPubkey : Script := []
  witness : TxOutWitness := {}
  deriving DecidableEq

/-- `TxOut::is_fee`: an explicit output with an empty script. -/
def TxOut.isFee (o : TxOut) : Bool :=
  o.scriptPubkey.isEmpty && o.value.isExplicit && o.asset.isExplicit

/-- `elements::TxIn`: the fields the wallet reads or writes. -/
structure TxIn where
  previousOutput : OutPoint
  scriptSig : Script
  witness : List Bytes
  deriving DecidableEq

/-- `elements::Transaction` -/
structure Transaction where
  version : UInt32
  lockTime : UInt32
  input : List TxIn
  output : List TxOut
  deriving DecidableEq

/-- `elements::TxOutSecrets`: what unblinds an output. -/
structure TxOutSecrets where
  asset : AssetId
  assetBf : Scalar
  value : UInt64
  valueBf : Scalar
  deriving DecidableEq

/-- `AddressParams`: which chain an address is for. -/
inductive AddressParams
  | liquid
  | elements
  deriving DecidableEq

/-- `elements::Address`: the wallet's are P2SH-P2WPKH with a blinding key. -/
structure Address where
  scriptPubkey : Script
  blindingPubkey : Option PublicKey
  params : AddressParams
  deriving DecidableEq

/-- The empty `version: 2, lock_time: 0` transaction the builders start from. -/
def Transaction.empty : Transaction := ⟨2, 0, [], []⟩

/-- Modelled from the spec: `add_input(tx, outpoint)` of `transaction.rs` appends
an input with empty script_sig and witness. -/
def addInput (tx : Transaction) (o : OutPoint) : Transaction :=
  { tx with input := tx.input ++ [⟨o, [], []⟩] }

/-- Modelled from the spec: `add_output(tx, addr, amount, asset_hex)` of
`transaction.rs` appends an explicit output carrying the recipient's blinding
pubkey in the nonce field; an address without one is rejected. -/
def addOutput (tx : Transaction) (addr : Address) (value : UInt64) (assetHex : String) :
    Except Fault Transaction := do
  let pk ← okOr addr.blindingPubkey .invalidAddress
  let asset ← AssetId.fromHex assetHex
  let out : TxOut :=
    { asset := .explicit asset, value := .explicit value, nonce := .confidential pk,
      scriptPubkey := addr.scriptPubkey }
  pure { tx with output := tx.output ++ [out] }

@[simp] theorem addInput_output (tx : Transaction) (o : OutPoint) :
    (addInput tx o).output = tx.output := rfl

@[simp] theorem addInput_version (tx : Transaction) (o : OutPoint) :
    (addInput tx o).version = tx.version := rfl

@[simp] theorem addInput_lockTime (tx : Transaction) (o : OutPoint) :
    (addInput tx o).lockTime = tx.lockTime := rfl

@[simp] theorem addInput_input (tx : Transaction) (o : OutPoint) :
    (addInput tx o).input = tx.input ++ [⟨o, [], []⟩] := rfl

/-- What `addOutput` appends for an address with a blinding key. -/
theorem addOutput_eq {tx : Transaction} {addr : Address} {pk : PublicKey} (v : UInt64)
    (a : AssetId) (h : addr.blindingPubkey = some pk) :
    addOutput tx addr v a.toHex = .ok { tx with output := tx.output ++
      [{ asset := .explicit a, value := .explicit v, nonce := .confidential pk,
         scriptPubkey := addr.scriptPubkey }] } := by
  simp [addOutput, h, okOr, AssetId.fromHex_toHex]

theorem addOutput_ok {tx tx' : Transaction} {addr : Address} {v : UInt64} {a : AssetId}
    (h : addOutput tx addr v a.toHex = .ok tx') :
    ∃ pk, addr.blindingPubkey = some pk ∧ tx' = { tx with output := tx.output ++
      [{ asset := .explicit a, value := .explicit v, nonce := .confidential pk,
         scriptPubkey := addr.scriptPubkey }] } := by
  cases hpk : addr.blindingPubkey with
  | none => simp [addOutput, hpk, okOr, throwErr, bind, Except.bind] at h
  | some pk => exact ⟨pk, rfl, by rw [addOutput_eq v a hpk] at h; cases h; rfl⟩

/-- `add_output` of an asset given by its hex returns: `Err(InvalidAddress)` without a
blinding key, the transaction otherwise. -/
theorem returns_addOutput (tx : Transaction) (addr : Address) (v : UInt64) (a : AssetId) :
    Returns (addOutput tx addr v a.toHex) := by
  cases h : addr.blindingPubkey with
  | none => simp only [addOutput, h, okOr, throwErr, bind, Except.bind]; trivial
  | some pk => rw [addOutput_eq v a h]; trivial

end BEWallet
