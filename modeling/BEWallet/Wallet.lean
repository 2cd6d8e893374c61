import Mathlib.Data.List.Sort
import BEWallet.Liquidex.Balance

/-!
# The wallet: configuration, store snapshot, addresses, UTXOs, signing

`WalletCtx` holds the keys and the configuration; the store is a separate
`StoreCache` snapshot that the operations read, and that `get_address` writes
(the external index).  An operation that writes returns the store after it
next to its result, also when it then fails: the write is not rolled back.

    utxos … = .ok us → u ∈ us → u.unblinded = the store's record of u's outpoint
                                                            (mem_utxos)
-/

namespace BEWallet

/-- `ElementsNetwork` -/
inductive ElementsNetwork
  | liquid
  | elementsRegtest
  deriving DecidableEq

/-- `Config`: the fields the modelled code reads.  `policy_asset()` is the policy asset's
id as `interface.rs` uses it. -/
structure Config where
  development : Bool
  liquid : Bool
  mainnet : Bool
  policyAsset : AssetId
  spvEnabled : Bool

/-- `Config::network` -/
def Config.network (c : Config) : Except Fault ElementsNetwork :=
  match c.mainnet, c.development with
  | true, _ => pure .liquid
  | false, true => pure .elementsRegtest
  | _, _ => throwPanic "unsupported network"

/-- `address_params` -/
def addressParams : ElementsNetwork → AddressParams
  | .liquid => .liquid
  | .elementsRegtest => .elements

/-- `WalletCtx` without its store: the configuration and keys. -/
structure WalletCtx where
  config : Config
  xpub : ExtendedKey
  masterBlinding : MasterBlindingKey
  changeMaxDeriv : UInt32

/-- `indexes`: the last derived external and internal address indexes. -/
structure Indexes where
  external : UInt32
  internal : UInt32
  deriving DecidableEq

/-- `SPVVerifyResult`: where the SPV check of a transaction stands. -/
inductive SPVVerifyResult
  | inProgress
  | verified
  | notVerified
  | disabled
  deriving DecidableEq

/-- One snapshot of the store's cache. -/
structure StoreCache where
  allTxs : HashMap Bytes Transaction
  unblinded : Unblinded
  heights : HashMap Bytes (Option UInt32)
  paths : HashMap Script DerivationPath
  indexes : Indexes
  /-- `store_read.spent()`: the outpoints the wallet's transactions spend -/
  spent : List OutPoint
  /-- `txs_verif`: the SPV results by txid -/
  txsVerif : HashMap Bytes SPVVerifyResult := []

/-- `TXO` -/
structure TXO where
  outpoint : OutPoint
  scriptPubkey : Script
  height : Option UInt32
  deriving DecidableEq

/-- `UnblindedTXO` -/
structure UnblindedTXO where
  txo : TXO
  unblinded : TxOutSecrets
  deriving DecidableEq

/-- `a + b` on `u32`: overflow panics. -/
def addU32 (a b : UInt32) : Except Fault UInt32 :=
  if a.toNat + b.toNat < 2 ^ 32 then pure (a + b)
  else throwPanic "attempt to add with overflow"

theorem addU32_ok {a b c : UInt32} (h : addU32 a b = .ok c) :
    a.toNat + b.toNat < 2 ^ 32 ∧ c = a + b := by
  unfold addU32 at h
  split at h
  · cases h; exact ⟨‹_›, rfl⟩
  · cases h

theorem addU32_eq_ok {a b : UInt32} (h : a.toNat + b.toNat < 2 ^ 32) : addU32 a b = .ok (a + b) :=
  if_pos h

theorem u32_toNat_add_of_lt {a b : UInt32} (h : a.toNat + b.toNat < 2 ^ 32) :
    (a + b).toNat = a.toNat + b.toNat := by
  show (a.toBitVec + b.toBitVec).toNat = _
  rw [BitVec.toNat_add]
  exact Nat.mod_eq_of_lt h

section

variable (S : Secp) (K : Keys) (C : Crate) (codec : TxCodec) (w : WalletCtx)

/-- `mnemonic2xprv`: the account key at `m/49'/coin'/0'`, coin 1776 on Liquid and 1 on
regtest, from a master key made with Testnet parameters. -/
def mnemonic2xprv (mnemonic : String) (config : Config) : Except Fault ExtendedKey := do
  let seed ← liftErr (K.mnemonicToSeed mnemonic)
  let xprv ← liftErr (K.newMaster seed)
  let coinType : UInt32 := match ← config.network with
    | .liquid => 1776
    | .elementsRegtest => 1
  liftErr (K.derivePriv xprv [0x80000000 + 49, 0x80000000 + coinType, 0x80000000])

/-- `derive_address(xpub, [chain, index])` -/
def deriveAddress (xpub : ExtendedKey) (chain index : UInt32) : Except Fault Address := do
  let pk ← liftErr (K.derivePub xpub [chain, index])
  let script := p2shwpkhScript S pk
  let blindingKey := S.slip77 w.masterBlinding script
  let net ← w.config.network
  pure ⟨script, some (S.pubOfSecret blindingKey), addressParams net⟩

/-- `get_address`: bump the external index in the store, then derive that address. -/
def getAddress (st : StoreCache) : Except Fault Address × StoreCache :=
  match addU32 st.indexes.external 1 with
  | .error e => (.error e, st)
  | .ok pointer =>
    let st := { st with indexes := { st.indexes with external := pointer } }
    (deriveAddress S K w w.xpub 0 pointer, st)

/-- The unspent outputs of one wallet transaction that have a record, leaving out
policy-asset outputs below the dust value. -/
def txTxos (st : StoreCache) (tx : Transaction) (height : Option UInt32) : List UnblindedTXO :=
  (tx.output.enum.map fun (vout, output) =>
      (OutPoint.mk (codec.txid tx) (UInt32.ofNat vout), output)).filterMap
    fun (outpoint, output) =>
      if outpoint ∈ st.spent then none
      else match st.unblinded.get outpoint with
        | some u =>
          if u.value < C.dustValue ∧ u.asset = w.config.policyAsset then none
          else some ⟨⟨outpoint, output.scriptPubkey, height⟩, u⟩
        | none => none

/-- The loop of `utxos` over the `heights` map. -/
def utxosLoop (st : StoreCache) : HashMap Bytes (Option UInt32) → Except Fault (List UnblindedTXO)
  | [] => pure []
  | (txId, height) :: rest => do
    let tx ← okOr (st.allTxs.get txId) (.generic ("txos no tx " ++ hexEncode txId.reverse))
    let more ← utxosLoop st rest
    pure (txTxos C codec w st tx height ++ more)

/-- `utxos`: sorted by decreasing value (a stable sort). -/
def utxos (st : StoreCache) : Except Fault (List UnblindedTXO) := do
  let txos ← utxosLoop C codec w st st.heights
  pure (txos.insertionSort fun a b => b.unblinded.value ≤ a.unblinded.value)

/-- `internal_sign_elements`: the P2SH-P2WPKH `script_sig` and witness of one input. -/
def internalSignElements (tx : Transaction) (inputIndex : Nat) (path : DerivationPath)
    (value : Value) (xprv : ExtendedKey) (sighashType : Option SigHashType) :
    Except Fault (Script × List Bytes) := do
  let xprv ← match K.derivePriv xprv path with
    | .ok k => pure k
    | .error _ => throwPanic "called `Result::unwrap()` on an `Err` value"
  let sk := K.privateKey xprv
  let pk := S.pubOfSecret sk
  let ty := sighashType.getD .all
  let sighash := K.sighash tx inputIndex (p2pkhScript S pk) value ty
  if sighash.length ≠ 32 then throwPanic "called `Result::unwrap()` on an `Err` value"
  else pure (p2shwpkhScriptSig S pk, [K.signDer sighash sk ++ [ty.toByte], pk.bytes])

end

/-- A regtest wallet with the sample policy asset, for the concrete runs. -/
def Sample.wallet : WalletCtx := ⟨⟨true, true, false, Sample.policyAsset, false⟩, [], ⟨[]⟩, 0⟩

/-! ## Lemmas -/

theorem mem_txTxos {C : Crate} {codec : TxCodec} {w : WalletCtx} {st : StoreCache}
    {tx : Transaction} {height : Option UInt32} {u : UnblindedTXO}
    (h : u ∈ txTxos C codec w st tx height) :
    st.unblinded.get u.txo.outpoint = some u.unblinded := by
  simp only [txTxos, List.mem_filterMap, List.mem_map] at h
  obtain ⟨⟨o, out⟩, -, hu⟩ := h
  split at hu; · cases hu
  split at hu
  · split at hu; · cases hu
    cases hu; assumption
  · cases hu

theorem mem_utxosLoop {C : Crate} {codec : TxCodec} {w : WalletCtx} {st : StoreCache}
    {l : HashMap Bytes (Option UInt32)} {txos : List UnblindedTXO}
    (h : utxosLoop C codec w st l = .ok txos) {u : UnblindedTXO} (hu : u ∈ txos) :
    st.unblinded.get u.txo.outpoint = some u.unblinded := by
  induction l generalizing txos with
  | nil => cases h; cases hu
  | cons e rest ih =>
    simp only [utxosLoop] at h
    obtain ⟨_, -, h⟩ := bind_eq_ok.1 h
    obtain ⟨more, hmore, h⟩ := bind_eq_ok.1 h
    cases h
    rcases List.mem_append.1 hu with hu | hu
    · exact mem_txTxos hu
    · exact ih hmore hu

/-- Every UTXO `utxos` lists carries the store's record of its outpoint. -/
theorem mem_utxos {C : Crate} {codec : TxCodec} {w : WalletCtx} {st : StoreCache}
    {us : List UnblindedTXO} (h : utxos C codec w st = .ok us) {u : UnblindedTXO} (hu : u ∈ us) :
    st.unblinded.get u.txo.outpoint = some u.unblinded := by
  obtain ⟨txos, htxos, h⟩ := bind_eq_ok.1 h
  cases h
  exact mem_utxosLoop htxos ((List.perm_insertionSort _ _).mem_iff.1 hu)

theorem returns_utxosLoop {C : Crate} {codec : TxCodec} {w : WalletCtx} {st : StoreCache}
    (l : HashMap Bytes (Option UInt32)) : Returns (utxosLoop C codec w st l) := by
  induction l with
  | nil => trivial
  | cons e rest ih =>
    obtain ⟨txId, height⟩ := e
    exact Returns.bind (returns_okOr _ _) fun _ _ => Returns.bind ih fun _ _ => trivial

/-- `utxos` returns: its only error is a transaction of `heights` missing from `all_txs`. -/
theorem returns_utxos {C : Crate} {codec : TxCodec} {w : WalletCtx} {st : StoreCache} :
    Returns (utxos C codec w st) :=
  Returns.bind (returns_utxosLoop _) fun _ _ => trivial

/-- On a supported network, deriving an address returns. -/
theorem returns_deriveAddress {S : Secp} {K : Keys} {w : WalletCtx} {xpub : ExtendedKey}
    {chain index : UInt32} (hnet : ∃ net, w.config.network = .ok net) :
    Returns (deriveAddress S K w xpub chain index) := by
  obtain ⟨net, hnet⟩ := hnet
  exact Returns.bind (returns_liftErr _) fun _ _ => Returns.bind (by rw [hnet]; trivial)
    fun _ _ => trivial

/-- A derived address is a P2SH-P2WPKH one, with a blinding key. -/
theorem deriveAddress_ok {S : Secp} {K : Keys} {w : WalletCtx} {xpub : ExtendedKey}
    {chain index : UInt32} {addr : Address} (h : deriveAddress S K w xpub chain index = .ok addr) :
    (∃ pk, addr.scriptPubkey = p2shwpkhScript S pk) ∧ ∃ bpk, addr.blindingPubkey = some bpk := by
  simp only [deriveAddress] at h
  obtain ⟨pk, -, h⟩ := bind_eq_ok.1 h
  obtain ⟨net, -, h⟩ := bind_eq_ok.1 h
  cases h
  exact ⟨⟨pk, rfl⟩, _, rfl⟩

/-- **`get_address` writes only the external index**, and a returned address is a
derived one. -/
theorem getAddress_spec {S : Secp} {K : Keys} {w : WalletCtx} {st st' : StoreCache}
    {r : Except Fault Address} (h : getAddress S K w st = (r, st')) :
    (∃ ext, st' = { st with indexes := { st.indexes with external := ext } }) ∧
    ∀ addr, r = .ok addr → ∃ ext, deriveAddress S K w w.xpub 0 ext = .ok addr := by
  unfold getAddress at h
  split at h
  · cases h; exact ⟨⟨st.indexes.external, rfl⟩, fun _ h => by cases h⟩
  · rename_i pointer _
    cases h
    exact ⟨⟨pointer, rfl⟩, fun addr h => ⟨pointer, h⟩⟩

end BEWallet
