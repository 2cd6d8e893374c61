import BEWallet.Wallet
import BEWallet.Liquidex.Proposal

/-!
# The maker: `liquidex_make`

The maker spends one of its UTXOs in a one-input, one-output transaction paying
itself `rate` times the UTXO's amount in the asset it asks for, blinds the output
with `liquidex_blind`, signs input 0 with `SIGHASH_SINGLE|ANYONECANPAY`, and hands
out the transaction with the secrets of both sides.

    liquidexMake … = (.ok p, st') → the taker's checks accept p, with the secrets
                                   liquidex_blind returned    (liquidexMake_proposal_accepted)
    LiquidexMakeOpt.new txid vout asset rate = .ok opt ↔ the texts, lowercased, are how
      opt's txid and asset id print                         (LiquidexMakeOpt.new_eq_ok_iff)
-/

namespace BEWallet

/-- `LiquidexMakeOpt` -/
structure LiquidexMakeOpt where
  utxo : OutPoint
  assetId : AssetId
  rate : Float

/-- `LiquidexMakeOpt::new` -/
def LiquidexMakeOpt.new (txid : String) (vout : UInt32) (assetId : String) (rate : Float) :
    Except Fault LiquidexMakeOpt := do
  -- `Txid::from_str`
  let txid ← hashFromHex txid
  let utxo : OutPoint := ⟨txid, vout⟩
  let assetId ← AssetId.fromStr assetId
  pure ⟨utxo, assetId, rate⟩

/-- `(rate * value as f64) as u64`; the cast saturates, as `Float.toUInt64` does. -/
def receiveValue (rate : Float) (value : UInt64) : UInt64 := (rate * value.toFloat).toUInt64

section

variable (S : Secp) (K : Keys) (C : Crate) (codec : TxCodec) (w : WalletCtx)

/-- `liquidex_make`, with the store it leaves; `rng` is what `liquidex_blind` draws. -/
def liquidexMake (st : StoreCache) (opt : LiquidexMakeOpt) (mnemonic : String)
    (rng : List UInt64) : Except Fault LiquidexProposal × StoreCache :=
  let (address, st) := getAddress S K w st
  (do
    let address ← address
    let unblindedInput ← okOr (st.unblinded.get opt.utxo) (.generic "cannot find unblinded values")
    let tx := addInput Transaction.empty opt.utxo
    let tx ← addOutput tx address (receiveValue opt.rate unblindedInput.value) opt.assetId.toHex
    let (tx, unblindedOutput) ← liquidexBlind S C w.masterBlinding tx rng
    let prevTx ← okOr (st.allTxs.get opt.utxo.txid) (.generic "expected tx")
    let out ← index prevTx.output opt.utxo.vout.toNat
    let derivationPath ←
      okOr (st.paths.get out.scriptPubkey) (.generic "can't find derivation path")
    let xprv ← mnemonic2xprv K mnemonic w.config
    let (scriptSig, witness) ← internalSignElements S K tx 0 derivationPath out.value xprv
      (some .singlePlusAnyoneCanPay)
    let input ← index tx.input 0
    let tx := { tx with
      input := tx.input.set 0 { input with scriptSig := scriptSig, witness := witness } }
    pure (LiquidexProposal.new codec tx unblindedInput unblindedOutput), st)

end

/-! ## Lemmas -/

/-- **`LiquidexMakeOpt::new` reads exactly the printed forms.**  It returns `opt` just when
the txid text, lowercased, is how `opt`'s 32-byte txid prints (its bytes reversed, in
hex), the asset text, lowercased, is how `opt`'s asset id prints, and `vout` and `rate`
are `opt`'s. -/
theorem LiquidexMakeOpt.new_eq_ok_iff {txid assetId : String} {vout : UInt32} {rate : Float}
    {opt : LiquidexMakeOpt} :
    LiquidexMakeOpt.new txid vout assetId rate = .ok opt ↔
      opt.utxo.txid.length = 32 ∧ txid.toLower = hexEncode opt.utxo.txid.reverse ∧
      opt.utxo.vout = vout ∧ assetId.toLower = opt.assetId.toHex ∧ opt.rate = rate := by
  constructor
  · intro h
    obtain ⟨t, ht, h⟩ := bind_eq_ok.1 h
    obtain ⟨a, ha, h⟩ := bind_eq_ok.1 h
    cases h
    exact ⟨(hashFromHex_eq_ok_iff.1 ht).1, (hashFromHex_eq_ok_iff.1 ht).2, rfl,
      AssetId.fromStr_eq_ok_iff.1 ha, rfl⟩
  · obtain ⟨⟨t, v⟩, a, r⟩ := opt
    rintro ⟨hl, ht, rfl, ha, rfl⟩
    simp only [LiquidexMakeOpt.new, hashFromHex_eq_ok_iff.2 ⟨hl, ht⟩,
      AssetId.fromStr_eq_ok_iff.2 ha]
    rfl

section

/-- Input `i₀` carries the maker's signature of input 0 of `mtx`: the script_sig and
witness `internal_sign_elements` makes with `SIGHASH_SINGLE|ANYONECANPAY` and the key of
`mnemonic`, at the derivation path the store holds for the output `i₀` spends. -/
def MakerSigned (S : Secp) (K : Keys) (w : WalletCtx) (st : StoreCache) (mnemonic : String)
    (mtx : Transaction) (i₀ : TxIn) : Prop :=
  ∃ prevTx out path xprv, st.allTxs.get i₀.previousOutput.txid = some prevTx ∧
    prevTx.output[i₀.previousOutput.vout.toNat]? = some out ∧
    st.paths.get out.scriptPubkey = some path ∧ mnemonic2xprv K mnemonic w.config = .ok xprv ∧
    internalSignElements S K mtx 0 path out.value xprv (some .singlePlusAnyoneCanPay) =
      .ok (i₀.scriptSig, i₀.witness)

variable {S : Secp} {K : Keys} {C : Crate} {codec : TxCodec} {w : WalletCtx}

/-- **The maker's run**, with what it signed: the address `get_address` gave, the store's
record of the spent outpoint, the transaction paying that address, the transaction
`liquidex_blind` made of it with the secrets it returned, the output the maker spends and
its derivation path, the key of the mnemonic, the script_sig and witness
`internal_sign_elements` made for input 0 with `SIGHASH_SINGLE|ANYONECANPAY`, and the
proposal of the blinded transaction with input 0 signed. -/
theorem liquidexMake_signs {st : StoreCache} {opt : LiquidexMakeOpt} {mnemonic : String}
    {rng : List UInt64} {p : LiquidexProposal}
    (h : (liquidexMake S K C codec w st opt mnemonic rng).1 = .ok p) :
    ∃ addr u tx₀ tx' s prevTx out path xprv scriptSig witness input,
      (getAddress S K w st).1 = .ok addr ∧ st.unblinded.get opt.utxo = some u ∧
      addOutput (addInput Transaction.empty opt.utxo) addr (receiveValue opt.rate u.value)
        opt.assetId.toHex = .ok tx₀ ∧
      liquidexBlind S C w.masterBlinding tx₀ rng = .ok (tx', s) ∧
      st.allTxs.get opt.utxo.txid = some prevTx ∧
      prevTx.output[opt.utxo.vout.toNat]? = some out ∧
      st.paths.get out.scriptPubkey = some path ∧ mnemonic2xprv K mnemonic w.config = .ok xprv ∧
      internalSignElements S K tx' 0 path out.value xprv (some .singlePlusAnyoneCanPay) =
        .ok (scriptSig, witness) ∧
      tx'.input[0]? = some input ∧
      p = LiquidexProposal.new codec
        { tx' with input := tx'.input.set 0 { input with scriptSig, witness } } u s := by
  unfold liquidexMake at h
  cases hg : getAddress S K w st with
  | mk r st' =>
  simp only [hg] at h
  obtain ⟨addr, hr, h₀⟩ := bind_eq_ok.1 h
  subst hr
  obtain ⟨⟨ext, rfl⟩, -⟩ := getAddress_spec hg
  obtain ⟨u, hu, h⟩ := bind_eq_ok.1 h₀
  obtain ⟨tx₀, h₁, h⟩ := bind_eq_ok.1 h
  obtain ⟨⟨tx', s⟩, hb, h⟩ := bind_eq_ok.1 h
  obtain ⟨prevTx, hprev, h⟩ := bind_eq_ok.1 h
  obtain ⟨out, hout, h⟩ := bind_eq_ok.1 h
  obtain ⟨path, hpath, h⟩ := bind_eq_ok.1 h
  obtain ⟨xprv, hxprv, h⟩ := bind_eq_ok.1 h
  obtain ⟨⟨scriptSig, witness⟩, hsig, h⟩ := bind_eq_ok.1 h
  obtain ⟨input, hin, h⟩ := bind_eq_ok.1 h
  cases h
  rw [okOr_eq_ok] at hu hprev hpath
  exact ⟨addr, u, tx₀, tx', s, prevTx, out, path, xprv, scriptSig, witness, input, rfl, hu, h₁,
    hb, hprev, index_eq_ok.1 hout, hpath, hxprv, hsig, index_eq_ok.1 hin, rfl⟩

/-- **The maker's proposal passes the taker's checks.**  If `liquidex_make` returns a
proposal, its transaction decodes to the one `liquidex_blind` made of the transaction
paying the maker, with input 0, spending the maker's UTXO, signed by the maker with
`SIGHASH_SINGLE|ANYONECANPAY`; `verify_output_commitment` accepts it with the secrets
`liquidex_blind` returned, and `get_input` gives the store's record of the UTXO. -/
theorem liquidexMake_proposal_accepted {st : StoreCache} {opt : LiquidexMakeOpt}
    {mnemonic : String} {rng : List UInt64} {p : LiquidexProposal}
    (h : (liquidexMake S K C codec w st opt mnemonic rng).1 = .ok p) :
    ∃ addr u tx₀ tx' s input',
      (getAddress S K w st).1 = .ok addr ∧ st.unblinded.get opt.utxo = some u ∧
      addOutput (addInput Transaction.empty opt.utxo) addr (receiveValue opt.rate u.value)
        opt.assetId.toHex = .ok tx₀ ∧
      liquidexBlind S C w.masterBlinding tx₀ rng = .ok (tx', s) ∧
      input'.previousOutput = opt.utxo ∧ MakerSigned S K w st mnemonic tx' input' ∧
      p.transaction codec = .ok { tx' with input := [input'] } ∧
      p.verifyOutputCommitment S codec = .ok s ∧ p.getInput = .ok u := by
  obtain ⟨addr, u, tx₀, tx', s, prevTx, out, path, xprv, scriptSig, witness, input, hg, hu, h₁,
    hb, hprev, hout, hpath, hxprv, hsig, hin, rfl⟩ := liquidexMake_signs h
  obtain ⟨pk, -, rfl⟩ := addOutput_ok h₁
  obtain ⟨_, pk', -, -, -, -, hs, rfl⟩ := liquidexBlind_ok S C
    (show liquidexBlind S C w.masterBlinding (makerTx 2 0 ⟨opt.utxo, [], []⟩
      { nonce := .confidential pk, scriptPubkey := addr.scriptPubkey } opt.assetId
      (receiveValue opt.rate u.value)) rng = .ok (tx', s) from hb)
  obtain rfl := Option.some.inj hin
  exact ⟨addr, u, _, _, s, _, hg, hu, h₁, hb, rfl,
    ⟨prevTx, out, path, xprv, hprev, hout, hpath, hxprv, hsig⟩,
    LiquidexProposal.transaction_new codec _ u s,
    LiquidexProposal.verifyOutputCommitment_new S codec rfl rfl (by rw [hs]) (by rw [hs]),
    LiquidexProposal.getInput_new codec _ u s⟩

end

/-- The maker's sample: a wallet whose one UTXO holds 1000 of `assetA`, offered at half
its amount in `assetB`. -/
def Sample.makerFundingTx : Transaction :=
  ⟨2, 3, [⟨⟨List.replicate 32 0x66, 0⟩, [], []⟩],
    [{ asset := .explicit Sample.assetA, value := .explicit 1000, scriptPubkey := [0xa9, 0x04] }]⟩

def Sample.makerStore : StoreCache :=
  let txid := TxCodec.ref.txid Sample.makerFundingTx
  { allTxs := [(txid, Sample.makerFundingTx)],
    unblinded := [(⟨txid, 0⟩, ⟨Sample.assetA, 1, 1000, 2⟩)],
    heights := [(txid, some 1)],
    paths := [([0xa9, 0x04], [0, 4])],
    indexes := ⟨0, 0⟩,
    spent := [] }

def Sample.makeOpt : LiquidexMakeOpt :=
  ⟨⟨TxCodec.ref.txid Sample.makerFundingTx, 0⟩, Sample.assetB, 0.5⟩

open Sample in
theorem liquidexMake_proposal_accepted_sample :
    ∃ p, (liquidexMake Secp.ref Keys.ref Crate.ref TxCodec.ref wallet makerStore makeOpt ""
        [7]).1 = .ok p ∧
      ∃ addr u tx₀ tx' s input',
        (getAddress Secp.ref Keys.ref wallet makerStore).1 = .ok addr ∧
        makerStore.unblinded.get makeOpt.utxo = some u ∧
        addOutput (addInput Transaction.empty makeOpt.utxo) addr
          (receiveValue makeOpt.rate u.value) makeOpt.assetId.toHex = .ok tx₀ ∧
        liquidexBlind Secp.ref Crate.ref wallet.masterBlinding tx₀ [7] = .ok (tx', s) ∧
        input'.previousOutput = makeOpt.utxo ∧
        MakerSigned Secp.ref Keys.ref wallet makerStore "" tx' input' ∧
        p.transaction TxCodec.ref = .ok { tx' with input := [input'] } ∧
        p.verifyOutputCommitment Secp.ref TxCodec.ref = .ok s ∧ p.getInput = .ok u :=
  let ⟨p, h⟩ := exists_eq_ok_of_isOk (x := (liquidexMake Secp.ref Keys.ref Crate.ref TxCodec.ref
    wallet makerStore makeOpt "" [7]).1) (by decide)
  ⟨p, h, liquidexMake_proposal_accepted h⟩

end BEWallet
