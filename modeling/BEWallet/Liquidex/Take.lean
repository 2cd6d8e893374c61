import BEWallet.Selection
import BEWallet.Liquidex.Settle
import BEWallet.Liquidex.TakeBlind

/-!
# The taker: `liquidex_take`

The taker decodes and checks the proposal, adds an output paying itself the
maker's input, selects inputs until `liquidex_needs` is empty, adds its changes
and the fee output, blinds, and signs inputs `1..`.  Each stage is a function of
its own with a spec lemma; `liquidexTake` chains them.

    takeProposal … p = .ok (ptx, mo, mi) ↔ p decodes to ptx, one input and one
      confidential output committing to the declared mo, one declared input mi
                                                           (takeProposal_iff)
    liquidexTake … = (.ok tx, st') → TakeRun …            (liquidexTake_ok)
    takeSignLoop … tx is = .ok tx' → each input of `is` signed with the key at its
      path, the others untouched                           (takeSignLoop_signs)

`HashMap` iteration orders meet along the way (the `outputs` map of each
`liquidex_needs` call, the `changes` map) are the `TakeOrders`, and the random
draws of the blinding the `BlindRng`; the results hold for all of them.
-/

namespace BEWallet

open HashMap

/-- `fee_rate` of `liquidex_take`, in satoshi per byte. -/
def takeFeeRate : Float := 0.1

/-- The iteration orders of the maps `liquidex_take` builds and walks: the `outputs` map in
each call of `liquidex_needs`, by round, and the map `liquidex_changes` returns. -/
structure TakeOrders where
  needs : Nat → HashIter (AssetId × UInt64)
  changes : HashIter (AssetId × UInt64)

/-- The fee output `liquidex_take` pushes: explicit, with an empty script. -/
def feeOutput (policyAsset : AssetId) (fee : UInt64) : TxOut :=
  { asset := .explicit policyAsset, value := .explicit fee }

section

variable (S : Secp) (K : Keys) (C : Crate) (codec : TxCodec) (w : WalletCtx)

/-- The proposal as `liquidex_take` reads it: its transaction, the maker's output secrets
that `verify_output_commitment` accepted, and the maker's input secrets. -/
def takeProposal (p : LiquidexProposal) :
    Except Fault (Transaction × TxOutSecrets × TxOutSecrets) := do
  let tx ← p.transaction codec
  let makerOutput ← p.verifyOutputCommitment S codec
  let makerInput ← p.getInput
  pure (tx, makerOutput, makerInput)

/-- What `liquidex_needs` returns at the `round`-th turn of the selection loop. -/
def takeNeeds (ord : TakeOrders) (mi mo : TxOutSecrets) (st : StoreCache) (round : Nat)
    (tx : Transaction) : Except Fault (List (AssetId × UInt64)) :=
  liquidexNeeds C (ord.needs round) mi mo tx takeFeeRate w.config.policyAsset st.unblinded

/-- The loop adding the change outputs, at internal addresses `internal + i + 1`. -/
def addChanges (st : StoreCache) : Nat → Transaction → List (AssetId × UInt64) →
    Except Fault Transaction
  | _, tx, [] => pure tx
  | i, tx, (asset, satoshi) :: rest => do
    let index ← addU32 st.indexes.internal (UInt32.ofNat i)
    let changeIndex ← addU32 index 1
    let changeAddress ← deriveAddress S K w w.xpub 1 changeIndex
    let tx ← addOutput tx changeAddress satoshi asset.toHex
    addChanges st (i + 1) tx rest

/-- After the selection: the estimated fee, the change outputs, and the fee. -/
def takeSettle (ord : TakeOrders) (mi mo : TxOutSecrets) (st : StoreCache) (sel : Transaction) :
    Except Fault (Transaction × UInt64) := do
  let n ← liquidexEstimatedChanges mi sel st.unblinded
  let estimatedFee := C.estimatedFee sel takeFeeRate n
  let changes ← liquidexChanges C mi mo sel estimatedFee w.config.policyAsset st.unblinded
  let tx ← addChanges S K w st 0 sel (ord.changes.order changes)
  let fee ← liquidexFee mi mo tx w.config.policyAsset st.unblinded
  pure (tx, fee)

/-- One turn of the loop of `liquidex_take_sign`: sign input `i` with the key of the
script it spends. -/
def takeSignInput (st : StoreCache) (xprv : ExtendedKey) (tx : Transaction) (i : Nat) :
    Except Fault Transaction := do
  let input ← index tx.input i
  let prevOutput := input.previousOutput
  let prevTx ← okOr (st.allTxs.get prevOutput.txid) (.generic "expected tx")
  let out ← index prevTx.output prevOutput.vout.toNat
  let derivationPath ← okOr (st.paths.get out.scriptPubkey) (.generic "can't find derivation path")
  let (scriptSig, witness) ← internalSignElements S K tx i derivationPath out.value xprv none
  pure { tx with input := tx.input.set i { input with scriptSig := scriptSig, witness := witness } }

/-- The loop of `liquidex_take_sign` over the given input indices. -/
def takeSignLoop (st : StoreCache) (xprv : ExtendedKey) : Transaction → List Nat →
    Except Fault Transaction
  | tx, [] => pure tx
  | tx, i :: is => do
    let tx ← takeSignInput S K st xprv tx i
    takeSignLoop st xprv tx is

/-- `liquidex_take_sign`: inputs `1..tx.input.len()`. -/
def liquidexTakeSign (st : StoreCache) (tx : Transaction) (mnemonic : String) :
    Except Fault Transaction := do
  let xprv ← mnemonic2xprv K mnemonic w.config
  takeSignLoop S K st xprv tx (List.range' 1 (tx.input.length - 1))

/-- `liquidex_take`, with the store it leaves: `get_address` has bumped the external
index by then, whatever the outcome. -/
def liquidexTake (st : StoreCache) (p : LiquidexProposal) (mnemonic : String)
    (ord : TakeOrders) (rng : BlindRng) : Except Fault Transaction × StoreCache :=
  match takeProposal S codec p with
  | .error e => (.error e, st)
  | .ok (tx, makerOutput, makerInput) =>
    let (address, st) := getAddress S K w st
    (do
      let address ← address
      let tx ← addOutput tx address makerInput.value makerInput.asset.toHex
      let utxos ← utxos C codec w st
      let tx ← liquidexTakeSelect (takeNeeds C w ord makerInput makerOutput st) utxos tx
      let (tx, fee) ← takeSettle S K C w ord makerInput makerOutput st tx
      let tx := { tx with output := tx.output ++ [feeOutput w.config.policyAsset fee] }
      let tx ← liquidexTakeBlind S C w.masterBlinding st.unblinded makerInput makerOutput tx rng
      liquidexTakeSign S K w st tx mnemonic, st)

end

/-! ## Lemmas -/

section

variable {S : Secp} {K : Keys} {C : Crate} {codec : TxCodec} {w : WalletCtx}

/-- What the taker learns from a proposal it accepts: one input and one output, committing
to the maker's output secrets. -/
theorem takeProposal_ok {p : LiquidexProposal} {ptx : Transaction} {mo mi : TxOutSecrets}
    (h : takeProposal S codec p = .ok (ptx, mo, mi)) :
    p.transaction codec = .ok ptx ∧ p.verifyOutputCommitment S codec = .ok mo ∧
      p.getInput = .ok mi ∧ ∃ i₀ o₀, ptx.input = [i₀] ∧ ptx.output = [o₀] ∧
        o₀.asset = .confidential (S.newBlinded mo.asset mo.assetBf) ∧
        o₀.value = .confidential (mo.commitment S) := by
  simp only [takeProposal] at h
  obtain ⟨t, ht, h⟩ := bind_eq_ok.1 h
  obtain ⟨mo', hmo, h⟩ := bind_eq_ok.1 h
  obtain ⟨mi', hmi, h⟩ := bind_eq_ok.1 h
  cases h
  obtain ⟨t', i, o, ht', hi, ho, ha, hv, -⟩ :=
    LiquidexProposal.verifyOutputCommitment_ok S codec hmo
  rw [ht] at ht'; cases ht'
  exact ⟨ht, hmo, hmi, i, o, hi, ho, ha, hv⟩

/-- **What the taker's checks accept.**  `transaction()`, `verify_output_commitment()` and
`get_input()`, as `liquidex_take` runs them, accept a proposal exactly when its text
decodes to a transaction of one input and one confidential output whose commitments the
one declared output's secrets regenerate, and it declares one input; they return that
transaction with the two declared secrets. -/
theorem takeProposal_iff {p : LiquidexProposal} {ptx : Transaction} {mo mi : TxOutSecrets} :
    takeProposal S codec p = .ok (ptx, mo, mi) ↔
      p.transaction codec = .ok ptx ∧ (∃ i₀ o₀, ptx.input = [i₀] ∧ ptx.output = [o₀] ∧
        o₀.asset = .confidential (S.newBlinded mo.asset mo.assetBf) ∧
        o₀.value = .confidential (mo.commitment S)) ∧
      (∃ mInput, p.inputs = [mInput] ∧ mInput.toTxoutsecrets = mi) ∧ p.outputs = [.from mo] := by
  constructor
  · intro h
    obtain ⟨hptx, hmo, hmi, hshape⟩ := takeProposal_ok h
    obtain ⟨-, -, -, -, -, -, -, -, mInput, hpi, hout⟩ :=
      LiquidexProposal.verifyOutputCommitment_ok S codec hmo
    refine ⟨hptx, hshape, ⟨mInput, hpi, ?_⟩, hout⟩
    simpa [LiquidexProposal.getInput, hpi, index, bind, Except.bind, pure, Except.pure] using hmi
  · rintro ⟨hptx, ⟨i₀, o₀, hi, ho, ha, hv⟩, ⟨mInput, hpi, rfl⟩, hout⟩
    have hmo : p.verifyOutputCommitment S codec = .ok mo := by
      simp [LiquidexProposal.verifyOutputCommitment, hptx, hi, ho, hpi, hout, ha, hv, index,
        TxOutSecrets.commitment, bind, Except.bind, pure, Except.pure]
    have hmi : p.getInput = .ok mInput.toTxoutsecrets := by
      simp [LiquidexProposal.getInput, hpi, index, bind, Except.bind, pure, Except.pure]
    simp only [takeProposal, hptx, hmo, hmi, bind, Except.bind, pure, Except.pure]

/-- An output `add_output` appended for `(asset, amount)` to an address of the wallet:
explicit, and not a fee output, its script being the address's. -/
def IsWalletOutput (kv : AssetId × UInt64) (o : TxOut) : Prop :=
  o.asset = .explicit kv.1 ∧ o.value = .explicit kv.2 ∧ o.isFee = false

theorem addOutput_derived {tx tx' : Transaction} {addr : Address} {a : AssetId} {v : UInt64}
    (haddr : ∃ pk, addr.scriptPubkey = p2shwpkhScript S pk)
    (h : addOutput tx addr v a.toHex = .ok tx') :
    ∃ o, tx' = { tx with output := tx.output ++ [o] } ∧ IsWalletOutput (a, v) o := by
  obtain ⟨pk, -, rfl⟩ := addOutput_ok h
  obtain ⟨spk, hs⟩ := haddr
  refine ⟨_, rfl, rfl, rfl, ?_⟩
  simp [TxOut.isFee, hs, p2shwpkhScript_ne_nil]

/-- The change loop from index `i`: the `k`-th change output pays the internal address
at `internal + (i + k) + 1`, computed in `u32` without overflow. -/
theorem addChanges_index {st : StoreCache} {i : Nat} {tx tx' : Transaction}
    {changes : List (AssetId × UInt64)} (h : addChanges S K w st i tx changes = .ok tx') :
    ∃ outs, tx' = { tx with output := tx.output ++ outs } ∧
      List.Forall₂ IsWalletOutput changes outs ∧
      ∀ k o, outs[k]? = some o → ∃ pk,
        K.derivePub w.xpub [1, st.indexes.internal + UInt32.ofNat (i + k) + 1] = .ok pk ∧
        o.scriptPubkey = p2shwpkhScript S pk := by
  induction changes generalizing i tx with
  | nil => cases h; exact ⟨[], by simp, .nil, by simp⟩
  | cons kv rest ih =>
    obtain ⟨asset, satoshi⟩ := kv
    simp only [addChanges] at h
    obtain ⟨index, hi, h⟩ := bind_eq_ok.1 h
    obtain ⟨changeIndex, hc, h⟩ := bind_eq_ok.1 h
    obtain ⟨addr, haddr, h⟩ := bind_eq_ok.1 h
    obtain ⟨tx₁, h₁, h⟩ := bind_eq_ok.1 h
    obtain ⟨-, rfl⟩ := addU32_ok hi
    obtain ⟨-, rfl⟩ := addU32_ok hc
    simp only [deriveAddress] at haddr
    obtain ⟨pk', hpk', haddr⟩ := bind_eq_ok.1 haddr
    obtain ⟨net, -, haddr⟩ := bind_eq_ok.1 haddr
    cases haddr
    obtain ⟨pk, -, rfl⟩ := addOutput_ok h₁
    obtain ⟨outs, rfl, hF, hidx⟩ := ih h
    refine ⟨{ asset := .explicit asset, value := .explicit satoshi, nonce := .confidential pk,
              scriptPubkey := p2shwpkhScript S pk' } :: outs, by simp,
      .cons ⟨rfl, rfl, by simp [TxOut.isFee, p2shwpkhScript_ne_nil]⟩ hF, fun k o ho => ?_⟩
    cases k with
    | zero =>
      obtain rfl : _ = o := Option.some.inj (by simpa using ho)
      exact ⟨pk', liftErr_eq_ok.1 hpk', rfl⟩
    | succ k =>
      rw [show i + (k + 1) = i + 1 + k by omega]
      exact hidx k o (by simpa using ho)

/-- On a supported network the change loop returns, as long as the internal indexes it
computes fit in a `u32`. -/
theorem returns_addChanges {st : StoreCache} {i : Nat} {tx : Transaction}
    {changes : List (AssetId × UInt64)} (hnet : ∃ net, w.config.network = .ok net)
    (hidx : st.indexes.internal.toNat + i + changes.length < 2 ^ 32) :
    Returns (addChanges S K w st i tx changes) := by
  induction changes generalizing i tx with
  | nil => trivial
  | cons kv rest ih =>
    obtain ⟨asset, satoshi⟩ := kv
    rw [List.length_cons] at hidx
    have hi : (UInt32.ofNat i).toNat = i := UInt32.toNat_ofNat_of_lt (by unfold UInt32.size; omega)
    have h₁ := addU32_eq_ok (a := st.indexes.internal) (b := UInt32.ofNat i) (by omega)
    have h₂ := addU32_eq_ok (a := st.indexes.internal + UInt32.ofNat i) (b := 1)
      (by rw [u32_toNat_add_of_lt (by omega), hi]; exact Nat.lt_of_le_of_lt (by simp) hidx)
    simp only [addChanges, h₁, h₂, bind, Except.bind]
    exact Returns.bind (returns_deriveAddress hnet) fun _ _ =>
      Returns.bind (returns_addOutput _ _ _ _) fun _ _ => ih (by omega)

/-- Appending wallet outputs past index 0 adds their amounts to the outputs' sums. -/
theorem outSum_append_wallet {mo : TxOutSecrets} {tx : Transaction} (hne : tx.output ≠ [])
    {kvs : List (AssetId × UInt64)} {outs : List TxOut} (hF : List.Forall₂ IsWalletOutput kvs outs)
    (a : AssetId) :
    outSum mo { tx with output := tx.output ++ outs } a = outSum mo tx a + sumOf kvs a := by
  induction hF generalizing tx with
  | nil => simp
  | @cons kv o kvs outs ho _ ih =>
    have h₁ := @ih { tx with output := tx.output ++ [o] } (by simp)
    simp only [List.append_assoc, List.singleton_append] at h₁
    rw [h₁, outSum_append_explicit hne ho.1 ho.2.1, sumOf_cons]
    omega

theorem liquidexEstimatedChanges_eq {mi : TxOutSecrets} {tx : Transaction} {U : Unblinded}
    {n : UInt8} (h : liquidexEstimatedChanges mi tx U = .ok n) :
    n = estimatedChangeSlots mi U tx := by
  simp only [liquidexEstimatedChanges] at h
  obtain ⟨m, hm, h⟩ := bind_eq_ok.1 h
  cases h
  rw [estimatedChangeSlots, length_of_inputs_ok hm]

/-- After the selection: the changes `liquidex_changes` computed with the fee estimated on
the selected transaction, one wallet output each, and the fee of the result. -/
theorem takeSettle_ok {ord : TakeOrders} {mi mo : TxOutSecrets} {st : StoreCache}
    {sel core : Transaction} {fee : UInt64}
    (h : takeSettle S K C w ord mi mo st sel = .ok (core, fee)) :
    ∃ res outs, liquidexChanges C mi mo sel (liquidexFeeEstimate C mi st.unblinded sel takeFeeRate)
        w.config.policyAsset st.unblinded = .ok res ∧
      core = { sel with output := sel.output ++ outs } ∧
      List.Forall₂ IsWalletOutput (ord.changes.order res) outs ∧
      (∀ k o, outs[k]? = some o → ∃ pk,
        K.derivePub w.xpub [1, st.indexes.internal + UInt32.ofNat k + 1] = .ok pk ∧
        o.scriptPubkey = p2shwpkhScript S pk) ∧
      liquidexFee mi mo core w.config.policyAsset st.unblinded = .ok fee := by
  simp only [takeSettle] at h
  obtain ⟨n, hn, h⟩ := bind_eq_ok.1 h
  obtain ⟨res, hres, h⟩ := bind_eq_ok.1 h
  obtain ⟨tx, htx, h⟩ := bind_eq_ok.1 h
  obtain ⟨f, hf, h⟩ := bind_eq_ok.1 h
  cases h
  obtain ⟨outs, rfl, hF, hidx⟩ := addChanges_index htx
  rw [liquidexEstimatedChanges_eq hn] at hres
  exact ⟨res, outs, hres, rfl, hF, fun k o hk => by simpa only [Nat.zero_add] using hidx k o hk,
    hf⟩

/-- `tx'` is `tx` with new signatures on inputs past 0 only. -/
structure SignedFrom (tx tx' : Transaction) : Prop where
  version : tx'.version = tx.version
  lockTime : tx'.lockTime = tx.lockTime
  output : tx'.output = tx.output
  outpoints : tx'.input.map (·.previousOutput) = tx.input.map (·.previousOutput)
  head : tx'.input.head? = tx.input.head?

theorem SignedFrom.refl (tx : Transaction) : SignedFrom tx tx := ⟨rfl, rfl, rfl, rfl, rfl⟩

theorem SignedFrom.trans {tx₁ tx₂ tx₃ : Transaction} (h₁ : SignedFrom tx₁ tx₂)
    (h₂ : SignedFrom tx₂ tx₃) : SignedFrom tx₁ tx₃ :=
  ⟨h₂.version.trans h₁.version, h₂.lockTime.trans h₁.lockTime, h₂.output.trans h₁.output,
    h₂.outpoints.trans h₁.outpoints, h₂.head.trans h₁.head⟩

theorem set_eq_self_of_getElem? {α : Type} {l : List α} {i : Nat} {a : α} (h : l[i]? = some a) :
    l.set i a = l := by
  induction l generalizing i with
  | nil => simp at h
  | cons x xs ih =>
    cases i with
    | zero => simp_all
    | succ i => simp only [List.getElem?_cons_succ] at h; simp [ih h]

/-- `tx'` is `tx` but for the inputs' scripts and witnesses. -/
structure SameUnsigned (tx tx' : Transaction) : Prop where
  version : tx'.version = tx.version
  lockTime : tx'.lockTime = tx.lockTime
  output : tx'.output = tx.output
  outpoints : tx'.input.map (·.previousOutput) = tx.input.map (·.previousOutput)

theorem SameUnsigned.refl (tx : Transaction) : SameUnsigned tx tx := ⟨rfl, rfl, rfl, rfl⟩

theorem SameUnsigned.symm {tx tx' : Transaction} (h : SameUnsigned tx tx') : SameUnsigned tx' tx :=
  ⟨h.version.symm, h.lockTime.symm, h.output.symm, h.outpoints.symm⟩

theorem SameUnsigned.trans {tx₁ tx₂ tx₃ : Transaction} (h₁ : SameUnsigned tx₁ tx₂)
    (h₂ : SameUnsigned tx₂ tx₃) : SameUnsigned tx₁ tx₃ :=
  ⟨h₂.version.trans h₁.version, h₂.lockTime.trans h₁.lockTime, h₂.output.trans h₁.output,
    h₂.outpoints.trans h₁.outpoints⟩

/-- Input `i` of `tx` holds what the signing loop writes there: the `script_sig` and
witness `internal_sign_elements` makes with `xprv` at the store's path for the script of
the output the input spends, over a transaction `txs` that is `tx` but for the inputs'
scripts and witnesses. -/
def SignedInput (S : Secp) (K : Keys) (st : StoreCache) (xprv : ExtendedKey) (tx : Transaction)
    (i : Nat) : Prop :=
  ∃ input prevTx out path txs, tx.input[i]? = some input ∧
    st.allTxs.get input.previousOutput.txid = some prevTx ∧
    prevTx.output[input.previousOutput.vout.toNat]? = some out ∧
    st.paths.get out.scriptPubkey = some path ∧ SameUnsigned tx txs ∧
    internalSignElements S K txs i path out.value xprv none = .ok (input.scriptSig, input.witness)

theorem SignedInput.congr {st : StoreCache} {xprv : ExtendedKey} {tx tx' : Transaction} {i : Nat}
    (hs : SameUnsigned tx tx')
    (heq : tx'.input[i]? = tx.input[i]?) (h : SignedInput S K st xprv tx i) :
    SignedInput S K st xprv tx' i := by
  obtain ⟨input, prevTx, out, path, txs, hin, hp, ho, hpath, hsame, hsig⟩ := h
  exact ⟨input, prevTx, out, path, txs, heq.trans hin, hp, ho, hpath, hs.symm.trans hsame, hsig⟩

/-- Signing input `i` keeps the transaction but for that input's script and witness, and
signs it. -/
theorem takeSignInput_signs {st : StoreCache} {xprv : ExtendedKey} {tx tx' : Transaction}
    {i : Nat}
    (h : takeSignInput S K st xprv tx i = .ok tx') :
    SameUnsigned tx tx' ∧ (∀ j, j ≠ i → tx'.input[j]? = tx.input[j]?) ∧
      SignedInput S K st xprv tx' i := by
  simp only [takeSignInput] at h
  obtain ⟨input, hin, h⟩ := bind_eq_ok.1 h
  obtain ⟨prevTx, hp, h⟩ := bind_eq_ok.1 h
  obtain ⟨out, ho, h⟩ := bind_eq_ok.1 h
  obtain ⟨path, hpath, h⟩ := bind_eq_ok.1 h
  obtain ⟨⟨scriptSig, witness⟩, hsig, h⟩ := bind_eq_ok.1 h
  cases h
  rw [index_eq_ok] at hin
  have hs : SameUnsigned tx
      { tx with input := tx.input.set i { input with scriptSig, witness } } :=
    ⟨rfl, rfl, rfl, by rw [List.map_set]; exact set_eq_self_of_getElem? (by simp [hin])⟩
  have hi : i < tx.input.length := (List.getElem?_eq_some_iff.1 hin).1
  refine ⟨hs, fun j hj => List.getElem?_set_ne (Ne.symm hj), { input with scriptSig, witness },
    prevTx, out, path, tx, by simp [hi], okOr_eq_ok.1 hp, index_eq_ok.1 ho, okOr_eq_ok.1 hpath,
    hs.symm, hsig⟩

/-- The signing loop over distinct indices signs each of them and leaves the other inputs
alone. -/
theorem takeSignLoop_signs {st : StoreCache} {xprv : ExtendedKey} {tx tx' : Transaction}
    {is : List Nat} (hnd : is.Nodup)
    (h : takeSignLoop S K st xprv tx is = .ok tx') :
    SameUnsigned tx tx' ∧ (∀ j, j ∉ is → tx'.input[j]? = tx.input[j]?) ∧
      ∀ i ∈ is, SignedInput S K st xprv tx' i := by
  induction is generalizing tx with
  | nil => cases h; exact ⟨.refl _, fun _ _ => rfl, by simp⟩
  | cons i is ih =>
    simp only [takeSignLoop] at h
    obtain ⟨tx₁, h₁, h⟩ := bind_eq_ok.1 h
    obtain ⟨hs₁, hkeep₁, hsigned₁⟩ := takeSignInput_signs h₁
    rw [List.nodup_cons] at hnd
    obtain ⟨hs, hkeep, hsigned⟩ := ih hnd.2 h
    refine ⟨hs₁.trans hs, fun j hj => ?_, ?_⟩
    · simp only [List.mem_cons, not_or] at hj
      rw [hkeep j hj.2, hkeep₁ j hj.1]
    · simp only [List.mem_cons]
      rintro k (rfl | hk)
      · exact hsigned₁.congr hs (hkeep k hnd.1)
      · exact hsigned k hk

/-- The signing loop over `lo, lo + 1, …` up to the last input signs every input from
`lo` on. -/
theorem takeSignLoop_signs_from {st : StoreCache} {xprv : ExtendedKey} {tx tx' : Transaction}
    {lo n : Nat} (hn : tx.input.length ≤ lo + n)
    (h : takeSignLoop S K st xprv tx (List.range' lo n) = .ok tx') :
    SameUnsigned tx tx' ∧ ∀ i, lo ≤ i → i < tx'.input.length → SignedInput S K st xprv tx' i := by
  obtain ⟨hs, -, hsigned⟩ := takeSignLoop_signs (List.nodup_range' _ _) h
  have hlen : tx'.input.length = tx.input.length := by
    simpa using congrArg List.length hs.outpoints
  exact ⟨hs, fun i h₀ hi => hsigned i (List.mem_range'_1.2 ⟨h₀, by omega⟩)⟩

/-- Signing input `i ≥ 1` changes its script and witness only. -/
theorem takeSignInput_ok {st : StoreCache} {xprv : ExtendedKey} {tx tx' : Transaction} {i : Nat}
    (hi : 0 < i) (h : takeSignInput S K st xprv tx i = .ok tx') : SignedFrom tx tx' := by
  obtain ⟨hs, hkeep, -⟩ := takeSignInput_signs h
  refine ⟨hs.version, hs.lockTime, hs.output, hs.outpoints, ?_⟩
  rw [List.head?_eq_getElem?, List.head?_eq_getElem?]
  exact hkeep 0 (Nat.ne_of_lt hi)

theorem takeSignLoop_ok {st : StoreCache} {xprv : ExtendedKey} {tx tx' : Transaction}
    {is : List Nat} (his : ∀ i ∈ is, 0 < i) (h : takeSignLoop S K st xprv tx is = .ok tx') :
    SignedFrom tx tx' := by
  induction is generalizing tx with
  | nil => cases h; exact .refl _
  | cons i is ih =>
    simp only [takeSignLoop] at h
    obtain ⟨tx₁, h₁, h⟩ := bind_eq_ok.1 h
    exact (takeSignInput_ok (his i (List.mem_cons_self _ _)) h₁).trans
      (ih (fun j hj => his j (List.mem_cons_of_mem _ hj)) h)

/-- **`liquidex_take_sign` signs inputs `1..` only.** -/
theorem liquidexTakeSign_ok {st : StoreCache} {tx tx' : Transaction} {mnemonic : String}
    (h : liquidexTakeSign S K w st tx mnemonic = .ok tx') : SignedFrom tx tx' := by
  simp only [liquidexTakeSign] at h
  obtain ⟨xprv, -, h⟩ := bind_eq_ok.1 h
  exact takeSignLoop_ok (fun i hi => by simp at hi; omega) h

/-- `liquidex_take_sign` signs every input but the first with the key of `mnemonic`. -/
theorem liquidexTakeSign_signs {st : StoreCache} {tx tx' : Transaction} {mnemonic : String}
    (h : liquidexTakeSign S K w st tx mnemonic = .ok tx') :
    ∃ xprv, mnemonic2xprv K mnemonic w.config = .ok xprv ∧
      ∀ i, 0 < i → i < tx'.input.length → SignedInput S K st xprv tx' i := by
  simp only [liquidexTakeSign] at h
  obtain ⟨xprv, hx, h⟩ := bind_eq_ok.1 h
  exact ⟨xprv, hx, (takeSignLoop_signs_from (by omega) h).2⟩

/-- **The taker's transaction blinded**: the inputs' secrets were found, output 0 only
gains proofs, the outputs between are blinded, the fee output is untouched, and the
blinds balance. -/
theorem liquidexTakeBlind_ok {mbk : MasterBlindingKey} {U : Unblinded} {mi mo : TxOutSecrets}
    {tx tx' : Transaction} {rng : BlindRng} {o₀ f : TxOut} {es : List TxOut}
    (hout : tx.output = o₀ :: (es ++ [f])) (hv₀ : ∃ c, o₀.value = .confidential c)
    (hes : ∀ o ∈ es, o.isFee = false) (hne : es ≠ []) (hf : f.isFee = true)
    (h : liquidexTakeBlind S C mbk U mi mo tx rng = .ok tx') :
    ∃ us, takeInputSecrets mi U 0 tx.input = .ok us ∧ ∃ o₀' bs,
      tx' = { tx with output := o₀' :: (bs.map Prod.fst ++ [f]) } ∧
      (∃ sp rp, o₀' = { o₀ with witness :=
        { o₀.witness with surjectionProof := some sp, rangeproof := some rp } }) ∧
      OutputProofs S (inputDomain S us) o₀' mo ∧ (∃ pk, o₀.nonce = .confidential pk) ∧
      List.Forall₂ (fun o b => BlindedOutput S (inputDomain S us) o b.1 b.2) es bs ∧
      blindSum (mo.commitmentSecrets :: bs.map (·.2.commitmentSecrets)) =
        blindSum (us.map TxOutSecrets.commitmentSecrets) := by
  simp only [liquidexTakeBlind] at h
  obtain ⟨us, hus, h⟩ := bind_eq_ok.1 h
  obtain ⟨⟨ys, fin⟩, hys, h⟩ := bind_eq_ok.1 h
  cases h
  rw [hout] at hys
  obtain ⟨o₀', bs, rfl, hw, hP, hn, hF, hbal⟩ :=
    takeBlindOutputs_take hv₀ hes hne hf (by simp [hout]) hys
  exact ⟨us, hus, o₀', bs, rfl, hw, hP, hn, hF, hbal⟩

end

/-- The stages of a run of `liquidex_take` that returned `tx`: the proposal's transaction
`ptx` and the maker's secrets `mo`, `mi`; the store `st'` after `get_address`; `sel` after the
selection; `core` after the changes, with the fee `fee`; `blinded` before signing. -/
structure TakeRun (S : Secp) (K : Keys) (C : Crate) (codec : TxCodec) (w : WalletCtx)
    (st : StoreCache) (p : LiquidexProposal) (mnemonic : String) (ord : TakeOrders)
    (rng : BlindRng) (ptx : Transaction) (mo mi : TxOutSecrets) (st' : StoreCache)
    (sel core : Transaction) (fee : UInt64) (blinded tx : Transaction) : Prop where
  proposal : takeProposal S codec p = .ok (ptx, mo, mi)
  select : ∃ addr tx₁ utxs, getAddress S K w st = (.ok addr, st') ∧
    addOutput ptx addr mi.value mi.asset.toHex = .ok tx₁ ∧ utxos C codec w st' = .ok utxs ∧
    liquidexTakeSelect (takeNeeds C w ord mi mo st') utxs tx₁ = .ok sel
  settle : takeSettle S K C w ord mi mo st' sel = .ok (core, fee)
  blind : liquidexTakeBlind S C w.masterBlinding st'.unblinded mi mo
    { core with output := core.output ++ [feeOutput w.config.policyAsset fee] } rng = .ok blinded
  sign : liquidexTakeSign S K w st' blinded mnemonic = .ok tx

section

variable {S : Secp} {K : Keys} {C : Crate} {codec : TxCodec} {w : WalletCtx}

/-- A run of `liquidex_take` that returned `tx` went through every stage. -/
theorem liquidexTake_ok {st : StoreCache} {p : LiquidexProposal} {mnemonic : String}
    {ord : TakeOrders} {rng : BlindRng} {tx : Transaction}
    (h : (liquidexTake S K C codec w st p mnemonic ord rng).1 = .ok tx) :
    ∃ ptx mo mi st' sel core fee blinded,
      TakeRun S K C codec w st p mnemonic ord rng ptx mo mi st' sel core fee blinded tx := by
  unfold liquidexTake at h
  split at h
  · cases h
  · rename_i ptx mo mi hp
    cases hg : getAddress S K w st with
    | mk r st' =>
    simp only [hg] at h
    obtain ⟨addr, hr, h₀⟩ := bind_eq_ok.1 h
    subst hr
    obtain ⟨tx₁, h₁, h⟩ := bind_eq_ok.1 h₀
    obtain ⟨utxs, hu, h⟩ := bind_eq_ok.1 h
    obtain ⟨sel, hsel, h⟩ := bind_eq_ok.1 h
    obtain ⟨⟨core, fee⟩, hset, h⟩ := bind_eq_ok.1 h
    obtain ⟨blinded, hbl, h⟩ := bind_eq_ok.1 h
    exact ⟨ptx, mo, mi, st', sel, core, fee, blinded,
      ⟨hp, ⟨addr, tx₁, utxs, hg, h₁, hu, hsel⟩, hset, hbl, h⟩⟩

end

end BEWallet
