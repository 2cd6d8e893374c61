import BEWallet.Liquidex.Blind

/-!
# LiquiDEX proposals

A proposal is the maker's signed transaction, hex-encoded, with the secrets of
its one input and one output.  `verify_output_commitment` is the taker's check
that the declared output secrets regenerate the transaction's commitments.

    (LiquidexTxOutSecrets.from s).toTxoutsecrets = s            (toTxoutsecrets_from)
    verifyOutputCommitment p = .ok s → output 0 commits to s     (verifyOutputCommitment_ok)
-/

namespace BEWallet

/-- `LiquidexTxOutSecrets`: `TxOutSecrets` under the field names of the wire format. -/
structure LiquidexTxOutSecrets where
  asset : AssetId
  assetBlinder : Scalar
  amount : UInt64
  amountBlinder : Scalar
  deriving DecidableEq

def LiquidexTxOutSecrets.toTxoutsecrets (s : LiquidexTxOutSecrets) : TxOutSecrets :=
  ⟨s.asset, s.assetBlinder, s.amount, s.amountBlinder⟩

/-- `impl From<TxOutSecrets> for LiquidexTxOutSecrets` -/
def LiquidexTxOutSecrets.from (s : TxOutSecrets) : LiquidexTxOutSecrets :=
  ⟨s.asset, s.assetBf, s.value, s.valueBf⟩

@[simp] theorem LiquidexTxOutSecrets.toTxoutsecrets_from (s : TxOutSecrets) :
    (LiquidexTxOutSecrets.from s).toTxoutsecrets = s := rfl

/-- `LiquidexProposal` -/
structure LiquidexProposal where
  version : UInt32
  tx : String
  inputs : List LiquidexTxOutSecrets
  outputs : List LiquidexTxOutSecrets
  deriving DecidableEq

namespace LiquidexProposal

variable (S : Secp) (codec : TxCodec)

/-- `LiquidexProposal::new` -/
def new (tx : Transaction) (input output : TxOutSecrets) : LiquidexProposal :=
  ⟨0, hexEncode (codec.serialize tx), [.from input], [.from output]⟩

/-- `transaction()`: hex, then consensus decoding. -/
def transaction (p : LiquidexProposal) : Except Fault Transaction := do
  let bytes ← hexDecode p.tx
  liftErr (codec.deserialize bytes)

/-- `get_input()` -/
def getInput (p : LiquidexProposal) : Except Fault TxOutSecrets :=
  if p.inputs.length ≠ 1 then throwErr (.generic "LiquiDEX error unexpected inputs")
  else do
    let input ← index p.inputs 0
    pure input.toTxoutsecrets

/-- `verify_output_commitment()`: one input and one output everywhere, output 0
confidential, and its commitments regenerated from the declared secrets. -/
def verifyOutputCommitment (p : LiquidexProposal) : Except Fault TxOutSecrets := do
  let tx ← p.transaction codec
  if tx.input.length ≠ 1 ∨ tx.output.length ≠ 1 ∨ p.inputs.length ≠ 1 ∨
      p.outputs.length ≠ 1 then
    throwErr (.generic "LiquiDEX error")
  else do
    let output := (← index p.outputs 0).toTxoutsecrets
    let o ← index tx.output 0
    match o.asset, o.value with
    | .confidential txAssetGenerator, .confidential txValueCommitment =>
      let assetGenerator := S.newBlinded output.asset output.assetBf
      let valueCommitment := pedersen output.value output.valueBf assetGenerator
      if assetGenerator ≠ txAssetGenerator ∨ valueCommitment ≠ txValueCommitment then
        throwErr (.generic "LiquiDEX error unexpected commitments")
      else pure output
    | _, _ => throwErr (.generic "LiquiDEX error unexpected outputs")

/-! ## Lemmas -/

theorem transaction_new (tx : Transaction) (i o : TxOutSecrets) :
    (new codec tx i o).transaction codec = .ok tx := by
  simp [transaction, new, hexDecode_hexEncode, codec.deserialize_serialize, liftErr, bind,
    Except.bind, pure, Except.pure]

theorem getInput_new (tx : Transaction) (i o : TxOutSecrets) :
    (new codec tx i o).getInput = .ok i := rfl

/-- The taker's check accepts a proposal whose one output commits to the secrets it
declares. -/
theorem verifyOutputCommitment_new {tx : Transaction} {i : TxIn} {o : TxOut}
    {u s : TxOutSecrets} (hi : tx.input = [i]) (ho : tx.output = [o])
    (ha : o.asset = .confidential (S.newBlinded s.asset s.assetBf))
    (hv : o.value = .confidential (pedersen s.value s.valueBf (S.newBlinded s.asset s.assetBf))) :
    (new codec tx u s).verifyOutputCommitment S codec = .ok s := by
  rw [verifyOutputCommitment, transaction_new]
  simp [new, hi, ho, ha, hv, index, bind, Except.bind, pure, Except.pure]

/-- What an accepted proposal guarantees: its transaction has one input and one output,
which is confidential and commits to the declared output secrets. -/
theorem verifyOutputCommitment_ok {p : LiquidexProposal} {s : TxOutSecrets}
    (h : p.verifyOutputCommitment S codec = .ok s) :
    ∃ tx i o, p.transaction codec = .ok tx ∧ tx.input = [i] ∧ tx.output = [o] ∧
      o.asset = .confidential (S.newBlinded s.asset s.assetBf) ∧
      o.value = .confidential (pedersen s.value s.valueBf (S.newBlinded s.asset s.assetBf)) ∧
      ∃ pi, p.inputs = [pi] ∧ p.outputs = [.from s] := by
  obtain ⟨tx, htx, h⟩ := bind_eq_ok.1 h
  split at h; · cases h
  rename_i hlen
  simp only [not_or, not_not, List.length_eq_one] at hlen
  obtain ⟨⟨i, hi⟩, ⟨o, ho⟩, ⟨pi, hpi⟩, ⟨out, hout⟩⟩ := hlen
  simp only [hout, ho, index, List.getElem?_cons_zero, bind, Except.bind, pure,
    Except.pure] at h
  split at h <;> try cases h
  rename_i g c ha hv
  split at h; · cases h
  rename_i hc
  cases h
  push_neg at hc
  obtain ⟨hg, hcv⟩ := hc
  exact ⟨tx, i, o, htx, hi, ho, ha.trans (congrArg _ hg.symm), hv.trans (by rw [← hcv, hg]), pi,
    hpi, by rw [hout]; rfl⟩

theorem returns_transaction (p : LiquidexProposal) : Returns (p.transaction codec) :=
  Returns.bind (returns_hexDecodeChars _) fun _ _ => returns_liftErr _

theorem returns_getInput (p : LiquidexProposal) : Returns p.getInput := by
  unfold getInput
  split
  · exact returns_throwErr _
  · rename_i hlen
    rw [not_not] at hlen
    rw [index_of_lt (by omega)]
    trivial

theorem returns_verifyOutputCommitment (p : LiquidexProposal) :
    Returns (p.verifyOutputCommitment S codec) := by
  refine Returns.bind (returns_transaction codec p) fun tx _ => ?_
  split
  · exact returns_throwErr _
  rename_i hlen
  simp only [not_or, not_not] at hlen
  rw [index_of_lt (by omega)]
  refine Returns.bind trivial fun _ _ => ?_
  rw [index_of_lt (by omega)]
  refine Returns.bind trivial fun o _ => ?_
  split
  · dsimp only; split <;> trivial
  · exact returns_throwErr _

end LiquidexProposal

/-- **The taker's checks and unblinding never panic.**  On any proposal (any text, any
secrets, any version) `transaction`, `get_input` and `verify_output_commitment` return
`Ok` or `Err`; on any transaction, `vout` and asset set so does `liquidex_unblind`.  Every
index and `unwrap` comes after the check that makes it safe. -/
theorem liquidex_checks_never_panic (S : Secp) (C : Crate) (codec : TxCodec) :
    (∀ p : LiquidexProposal, Returns (p.transaction codec) ∧ Returns p.getInput ∧
      Returns (p.verifyOutputCommitment S codec)) ∧
    ∀ mbk tx vout assets, Returns (liquidexUnblind S C mbk tx vout assets) :=
  ⟨fun p => ⟨p.returns_transaction codec, p.returns_getInput,
      p.returns_verifyOutputCommitment S codec⟩,
    returns_liquidexUnblind⟩

end BEWallet
