import Mathlib.Data.List.Forall2
import BEWallet.Wallet

/-!
# Blinding the taker's transaction

`liquidex_take_blind` walks the outputs.  The fee output stays explicit; output 0,
the maker's, keeps its commitments and nonce and only gains proofs; every other
output becomes confidential, under an ephemeral sender key, with blinders from
`derive_blinder` except for the last non-fee output, whose value blinder is the
adaptive one that balances the blinds of inputs and outputs.

    takeBlindOutputs … (o₀ :: es ++ [fee]) = .ok (ys, _) →
      ys = o₀' :: es' ++ [fee],  es' commit to secrets bs,
      blindSum (inputs) = blindSum (maker's output :: bs)      (takeBlindOutputs_take)

`Asset::from_commitment` and `Value::from_commitment` of a serialized generator or
commitment give the point back (points are kept by their logarithm, so the model
stores them directly).
-/

namespace BEWallet

/-- The draws of `rand::thread_rng()` in `liquidex_take_blind`, by output index: the
sender's ephemeral key and the surjection proof's randomness. -/
structure BlindRng where
  senderSk : Nat → Scalar
  surjection : Nat → Nat

/-- What `liquidex_take_blind` computes before its loop: `input_commitment_secrets`,
`input_domain`, `out_num` and `hash_prevouts`. -/
structure BlindCtx where
  ins : List CommitmentSecrets
  domain : List (Point × AssetId × Scalar)
  outNum : Nat
  hashPrevouts : Bytes

section

variable (S : Secp) (C : Crate)

/-- `make_shared_secret(pk, sk)`: `SHA256d` of the compressed ECDH point, as a key.  `y`
is a `[u8; 32]`, so `last()` is never `None`. -/
def makeSharedSecret (pk : PublicKey) (sk : Scalar) : Except Fault Scalar :=
  let (x, y) := S.ecdh pk sk
  let dhSecret := (if (y.getLast?.getD 0) % 2 = 0 then 0x02 else 0x03) :: x
  match secretKeyFromSlice ((S.sha256d dhSecret).take 32) with
  | some k => pure k
  | none => throwPanic "always has exactly 32 bytes"

/-- `make_rangeproof_message(asset, bf)`: the asset id, then the blinder. -/
def makeRangeproofMessage (asset : AssetId) (bf : Scalar) : Bytes :=
  asset.bytes ++ scalarBytes bf

/-- `AssetId::from_slice`: exactly 32 bytes. -/
def assetIdFromSlice (b : Bytes) : Option AssetId :=
  if h : b.length = 32 then some ⟨b, h⟩ else none

/-- `Tweak::from_slice`: 32 big-endian bytes of a scalar below the order; zero is a tweak. -/
def tweakFromSlice (b : Bytes) : Option Scalar :=
  if b.length = 32 ∧ leValue b.reverse < secpOrder then some (leValue b.reverse : Scalar)
  else none

/-- `parse_rangeproof_message(message)`: the asset id and the blinder in the first 64
bytes. -/
def parseRangeproofMessage (message : Bytes) : Except Fault (AssetId × Scalar) :=
  if message.length < 64 then throwErr (.generic "Unexpected rangeproof message")
  else do
    let asset ← okOr (assetIdFromSlice (message.take 32)) (.library "bitcoin_hashes")
    let assetBlinder ←
      okOr (tweakFromSlice ((message.drop 32).take 32)) (.library "secp256k1_zkp")
    pure (asset, assetBlinder)

/-- `get_hash_prevout(tx)`: `SHA256d` of the spent outpoints. -/
def getHashPrevout (tx : Transaction) : Bytes :=
  S.sha256d (tx.input.flatMap (·.previousOutput.encode))

/-- The secrets of input `idx`: the maker's declared ones for input 0, the store's record
for the others. -/
def inputSecret (mi : TxOutSecrets) (unblinded : Unblinded) (idx : Nat) (input : TxIn) :
    Except Fault TxOutSecrets :=
  if idx = 0 then pure mi
  else okOr (unblinded.get input.previousOutput) (.generic "cannot find unblinded values")

/-- `input_domain`: the generator, asset and asset blinder of each input's secrets, the
domain of the surjection proofs. -/
def inputDomain (us : List TxOutSecrets) : List (Point × AssetId × Scalar) :=
  us.map fun u => (S.newBlinded u.asset u.assetBf, u.asset, u.assetBf)

/-- The loop of `liquidex_take_blind` over the inputs. -/
def takeInputSecrets (mi : TxOutSecrets) (unblinded : Unblinded) :
    Nat → List TxIn → Except Fault (List TxOutSecrets)
  | _, [] => pure []
  | idx, input :: rest => do
    let u ← inputSecret mi unblinded idx input
    let us ← takeInputSecrets mi unblinded (idx + 1) rest
    pure (u :: us)

/-- The range and surjection proofs of an output committing to `value` of `asset`. -/
def outputProofs (rng : BlindRng) (ctx : BlindCtx) (i : Nat) (script : Script)
    (sharedSecret : Scalar) (asset : AssetId) (abf : Scalar) (value : UInt64) (vbf : Scalar) :
    Except Fault (Bytes × Bytes) := do
  let gen := S.newBlinded asset abf
  let minValue : UInt64 := if S.unspendable script then 0 else 1
  let rangeproof ← liftErr (S.rangeProof minValue (pedersen value vbf gen) value vbf
    (makeRangeproofMessage asset abf) script sharedSecret 0 52 gen)
  let surjectionproof ← liftErr (S.surjectionProof (rng.surjection i) asset abf ctx.domain)
  pure (surjectionproof, rangeproof)

/-- The value blinder of the explicit output `i`, and `output_commitment_secrets` after
it: `derive_blinder`'s, pushed, before `out_num - 2`; the adaptive one from there on. -/
def valueBlinderOf (mbk : MasterBlindingKey) (ctx : BlindCtx) (i : Nat) (value : UInt64)
    (assetBlinder : Scalar) (outs : List CommitmentSecrets) :
    Except Fault (Scalar × List CommitmentSecrets) :=
  if ctx.outNum < 2 then throwPanic "attempt to subtract with overflow"
  else if i < ctx.outNum - 2 then do
    let vbf ← liftErr (C.deriveBlinder mbk ctx.hashPrevouts (UInt32.ofNat i) false)
    pure (vbf, outs ++ [⟨value, vbf, assetBlinder⟩])
  else pure (computeAdaptiveBlindingFactor value assetBlinder ctx.ins outs, outs)

/-- One pass of the loop of `liquidex_take_blind` over output `i`; `outs` is
`output_commitment_secrets`. -/
def takeBlindOutput (mbk : MasterBlindingKey) (mo : TxOutSecrets) (ctx : BlindCtx)
    (rng : BlindRng) (i : Nat) (output : TxOut) (outs : List CommitmentSecrets) :
    Except Fault (TxOut × List CommitmentSecrets) :=
  if output.isFee then pure (output, outs)
  else match output.value, output.asset, output.nonce with
  | .confidential _, .confidential _, .confidential receiverBlindingPk =>
    if i = 0 then do
      let sharedSecret ← makeSharedSecret S receiverBlindingPk (rng.senderSk i)
      let outs := outs ++ [mo.commitmentSecrets]
      let (sp, rp) ← outputProofs S rng ctx i output.scriptPubkey sharedSecret mo.asset
        mo.assetBf mo.value mo.valueBf
      pure ({ output with witness :=
        { output.witness with surjectionProof := some sp, rangeproof := some rp } }, outs)
    else throwPanic "create_tx created things not right"
  | .explicit value, .explicit asset, .confidential receiverBlindingPk => do
    let senderSk := rng.senderSk i
    let senderPk := S.pubOfSecret senderSk
    let sharedSecret ← makeSharedSecret S receiverBlindingPk senderSk
    let assetBlinder ← liftErr (C.deriveBlinder mbk ctx.hashPrevouts (UInt32.ofNat i) true)
    let (valueBlinder, outs) ← valueBlinderOf C mbk ctx i value assetBlinder outs
    let (sp, rp) ← outputProofs S rng ctx i output.scriptPubkey sharedSecret asset
      assetBlinder value valueBlinder
    let nonce ← S.nonceFromCommitment senderPk.bytes
    let gen := S.newBlinded asset assetBlinder
    pure ({ output with
        nonce := nonce, asset := .confidential gen,
        value := .confidential (pedersen value valueBlinder gen),
        witness := { output.witness with surjectionProof := some sp, rangeproof := some rp } },
      outs)
  | _, _, _ => throwPanic "create_tx created things not right"

/-- The loop of `liquidex_take_blind`, from output `i`. -/
def takeBlindOutputs (mbk : MasterBlindingKey) (mo : TxOutSecrets) (ctx : BlindCtx)
    (rng : BlindRng) : Nat → List TxOut → List CommitmentSecrets →
      Except Fault (List TxOut × List CommitmentSecrets)
  | _, [], outs => pure ([], outs)
  | i, output :: rest, outs => do
    let (output, outs) ← takeBlindOutput S C mbk mo ctx rng i output outs
    let (rest, outs) ← takeBlindOutputs mbk mo ctx rng (i + 1) rest outs
    pure (output :: rest, outs)

/-- `liquidex_take_blind` -/
def liquidexTakeBlind (mbk : MasterBlindingKey) (unblinded : Unblinded) (mi mo : TxOutSecrets)
    (tx : Transaction) (rng : BlindRng) : Except Fault Transaction := do
  let us ← takeInputSecrets mi unblinded 0 tx.input
  let ctx : BlindCtx := ⟨us.map TxOutSecrets.commitmentSecrets, inputDomain S us,
    tx.output.length, getHashPrevout S tx⟩
  let (outputs, _) ← takeBlindOutputs S C mbk mo ctx rng 0 tx.output []
  pure { tx with output := outputs }

end

/-! ## Lemmas -/

theorem length_scalarBytes (k : Scalar) : (scalarBytes k).length = 32 := by
  simp [scalarBytes]

theorem tweakFromSlice_scalarBytes (k : Scalar) : tweakFromSlice (scalarBytes k) = some k := by
  have : NeZero secpOrder := ⟨by decide⟩
  have hk : k.val < secpOrder := ZMod.val_lt k
  rw [tweakFromSlice, scalarBytes, List.reverse_reverse, leValue_leBytes_of_lt
    (lt_trans hk (by decide)), if_pos ⟨by simp, hk⟩, ZMod.natCast_zmod_val]

/-- A blinder `tweakFromSlice` accepts is written back as the same bytes. -/
theorem scalarBytes_of_tweakFromSlice {b : Bytes} {k : Scalar} (h : tweakFromSlice b = some k) :
    scalarBytes k = b := by
  unfold tweakFromSlice at h
  split_ifs at h with hb
  cases h
  have hw := leBytes_leValue b.reverse
  rw [List.length_reverse, hb.1] at hw
  rw [scalarBytes, ZMod.val_natCast_of_lt hb.2, hw, List.reverse_reverse]

theorem assetIdFromSlice_bytes (a : AssetId) : assetIdFromSlice a.bytes = some a := by
  rw [assetIdFromSlice, dif_pos a.size]

/-- **`parse_rangeproof_message` reads what `make_rangeproof_message` writes, and only
that**: it returns `(asset, bf)` exactly when the message starts with
`make_rangeproof_message(asset, bf)`, whatever follows. -/
theorem parseRangeproofMessage_eq_ok_iff (message : Bytes) (asset : AssetId) (bf : Scalar) :
    parseRangeproofMessage message = .ok (asset, bf) ↔
      ∃ rest, message = makeRangeproofMessage asset bf ++ rest := by
  constructor
  · intro h
    unfold parseRangeproofMessage at h
    split_ifs at h
    · cases h
    obtain ⟨a, ha, h⟩ := bind_eq_ok.1 h
    obtain ⟨t, ht, h⟩ := bind_eq_ok.1 h
    cases h
    rw [okOr_eq_ok] at ha ht
    have hA : asset.bytes = message.take 32 := by
      unfold assetIdFromSlice at ha; split_ifs at ha; cases ha; rfl
    refine ⟨message.drop 64, ?_⟩
    rw [makeRangeproofMessage, hA, scalarBytes_of_tweakFromSlice ht, ← List.take_add,
      List.take_append_drop]
  · rintro ⟨rest, rfl⟩
    have h32 : asset.bytes.length = 32 := asset.size
    have hs : (scalarBytes bf).length = 32 := length_scalarBytes bf
    rw [parseRangeproofMessage, if_neg (by simp [makeRangeproofMessage, h32, hs]; omega),
      makeRangeproofMessage, List.append_assoc, List.take_left' h32, List.drop_left' h32,
      List.take_left' hs, assetIdFromSlice_bytes, tweakFromSlice_scalarBytes]
    rfl

/-- The proofs in the witness of an output `o` committing to the secrets `u`: what
`RangeProof::new` returned for its value commitment under its generator, with the asset
and its blinder as message, the output's script and an ECDH secret `ss`; and what
`SurjectionProof::new` returned for its asset over the inputs' `domain`, on a draw `r`
of the random source. -/
structure OutputProofs (S : Secp) (domain : List (Point × AssetId × Scalar)) (o : TxOut)
    (u : TxOutSecrets) : Prop where
  rangeproof : ∃ ss rp, o.witness.rangeproof = some rp ∧
    S.rangeProof (if S.unspendable o.scriptPubkey then 0 else 1) (u.commitment S) u.value
      u.valueBf (makeRangeproofMessage u.asset u.assetBf) o.scriptPubkey ss 0 52
      (S.newBlinded u.asset u.assetBf) = .ok rp
  surjectionProof : ∃ r sp, o.witness.surjectionProof = some sp ∧
    S.surjectionProof r u.asset u.assetBf domain = .ok sp

/-- An explicit output `o` blinded into `o'`, which commits to the secrets `u`: same
asset and amount, same script, an ephemeral sender key as nonce, and both proofs, the
surjection proof over `domain`. -/
structure BlindedOutput (S : Secp) (domain : List (Point × AssetId × Scalar)) (o o' : TxOut)
    (u : TxOutSecrets) : Prop where
  asset : o.asset = .explicit u.asset
  value : o.value = .explicit u.value
  assetCommitment : o'.asset = .confidential (S.newBlinded u.asset u.assetBf)
  valueCommitment : o'.value = .confidential (u.commitment S)
  nonce : ∃ sk, o'.nonce = .confidential (S.pubOfSecret sk)
  script : o'.scriptPubkey = o.scriptPubkey
  proofs : OutputProofs S domain o' u

section

variable {S : Secp} {C : Crate} {mbk : MasterBlindingKey} {mo : TxOutSecrets} {ctx : BlindCtx}
  {rng : BlindRng}

/-- The proofs `outputProofs` returned, once in an output's witness, are that output's. -/
theorem OutputProofs.of_outputProofs {i : Nat} {ss : Scalar} {o : TxOut} {u : TxOutSecrets}
    {sp rp : Bytes}
    (h : outputProofs S rng ctx i o.scriptPubkey ss u.asset u.assetBf u.value u.valueBf =
      .ok (sp, rp))
    (hs : o.witness.surjectionProof = some sp) (hr : o.witness.rangeproof = some rp) :
    OutputProofs S ctx.domain o u := by
  simp only [outputProofs] at h
  obtain ⟨rp', hrp, h⟩ := bind_eq_ok.1 h
  obtain ⟨sp', hsp, h⟩ := bind_eq_ok.1 h
  cases h
  exact ⟨⟨ss, rp, hr, liftErr_eq_ok.1 hrp⟩, ⟨_, sp, hs, liftErr_eq_ok.1 hsp⟩⟩

/-- The value blinder of an explicit output: a derived one, whose secrets are pushed,
before `out_num - 2`; the adaptive one from there on. -/
theorem valueBlinderOf_ok {i : Nat} {value : UInt64} {abf vbf : Scalar}
    {outs outs' : List CommitmentSecrets}
    (h : valueBlinderOf C mbk ctx i value abf outs = .ok (vbf, outs')) :
    (i < ctx.outNum - 2 ∧ outs' = outs ++ [⟨value, vbf, abf⟩]) ∨
    (ctx.outNum - 2 ≤ i ∧ vbf = computeAdaptiveBlindingFactor value abf ctx.ins outs ∧
      outs' = outs) := by
  unfold valueBlinderOf at h
  split at h
  · cases h
  split at h
  · obtain ⟨_, -, h⟩ := bind_eq_ok.1 h
    cases h
    exact .inl ⟨‹_›, rfl⟩
  · cases h
    exact .inr ⟨by omega, rfl, rfl⟩

/-- **One output**: the fee output passes unchanged; output 0 with confidential fields only
gains proofs and pushes the maker's secrets; an explicit output is blinded, pushing its
secrets unless it is at `out_num - 2` or later, where its value blinder is the adaptive
one. -/
theorem takeBlindOutput_ok {i : Nat} {o o' : TxOut} {outs outs' : List CommitmentSecrets}
    (h : takeBlindOutput S C mbk mo ctx rng i o outs = .ok (o', outs')) :
    (o.isFee = true ∧ o' = o ∧ outs' = outs) ∨
    (o.isFee = false ∧ i = 0 ∧ (∃ g c pk, o.value = .confidential c ∧
        o.asset = .confidential g ∧ o.nonce = .confidential pk) ∧
      (∃ sp rp, o' = { o with witness :=
        { o.witness with surjectionProof := some sp, rangeproof := some rp } }) ∧
      OutputProofs S ctx.domain o' mo ∧ outs' = outs ++ [mo.commitmentSecrets]) ∨
    (o.isFee = false ∧ ∃ u, BlindedOutput S ctx.domain o o' u ∧
      ((i < ctx.outNum - 2 ∧ outs' = outs ++ [u.commitmentSecrets]) ∨
       (ctx.outNum - 2 ≤ i ∧
         u.valueBf = computeAdaptiveBlindingFactor u.value u.assetBf ctx.ins outs ∧
         outs' = outs))) := by
  unfold takeBlindOutput at h
  by_cases hfee : o.isFee
  · rw [if_pos hfee] at h; cases h; exact .inl ⟨hfee, rfl, rfl⟩
  rw [if_neg hfee] at h
  simp only [Bool.not_eq_true] at hfee
  split at h
  · rename_i c g pk hv ha hn
    split at h
    · obtain ⟨ss, -, h⟩ := bind_eq_ok.1 h
      obtain ⟨⟨sp, rp⟩, hp, h⟩ := bind_eq_ok.1 h
      cases h
      exact .inr (.inl ⟨hfee, ‹_›, ⟨g, c, pk, hv, ha, hn⟩, ⟨sp, rp, rfl⟩,
        .of_outputProofs hp rfl rfl, rfl⟩)
    · cases h
  · rename_i value asset pk hv ha hn
    obtain ⟨ss, -, h⟩ := bind_eq_ok.1 h
    obtain ⟨abf, -, h⟩ := bind_eq_ok.1 h
    obtain ⟨⟨vbf, outs1⟩, hvb, h⟩ := bind_eq_ok.1 h
    obtain ⟨⟨sp, rp⟩, hp, h⟩ := bind_eq_ok.1 h
    obtain ⟨nonce, hnonce, h⟩ := bind_eq_ok.1 h
    cases h
    refine .inr (.inr ⟨hfee, ⟨asset, abf, value, vbf⟩,
      ⟨ha, hv, rfl, rfl, ⟨_, S.nonceFromCommitment_ok hnonce⟩, rfl,
        .of_outputProofs hp rfl rfl⟩, ?_⟩)
    exact valueBlinderOf_ok hvb
  · cases h

/-- One round of the loop, unfolded. -/
theorem takeBlindOutputs_cons {i : Nat} {x : TxOut} {xs ys : List TxOut}
    {outs fin : List CommitmentSecrets}
    (h : takeBlindOutputs S C mbk mo ctx rng i (x :: xs) outs = .ok (ys, fin)) :
    ∃ x' outs1 ys', takeBlindOutput S C mbk mo ctx rng i x outs = .ok (x', outs1) ∧
      takeBlindOutputs S C mbk mo ctx rng (i + 1) xs outs1 = .ok (ys', fin) ∧ ys = x' :: ys' := by
  simp only [takeBlindOutputs] at h
  obtain ⟨⟨x', outs1⟩, h1, h⟩ := bind_eq_ok.1 h
  obtain ⟨⟨ys', fin'⟩, h2, h⟩ := bind_eq_ok.1 h
  cases h
  exact ⟨x', outs1, ys', h1, h2, rfl⟩

/-- **The outputs before `out_num - 2`**: past index 0, each non-fee output is blinded with
derived blinders and its secrets are pushed. -/
theorem takeBlindOutputs_derived {i : Nat} {es rest ys : List TxOut}
    {outs fin : List CommitmentSecrets} (hes : ∀ o ∈ es, o.isFee = false) (hi : 0 < i)
    (hlt : i + es.length ≤ ctx.outNum - 2)
    (h : takeBlindOutputs S C mbk mo ctx rng i (es ++ rest) outs = .ok (ys, fin)) :
    ∃ bs : List (TxOut × TxOutSecrets), ∃ ys',
      List.Forall₂ (fun o b => BlindedOutput S ctx.domain o b.1 b.2) es bs ∧
      ys = bs.map Prod.fst ++ ys' ∧
      takeBlindOutputs S C mbk mo ctx rng (i + es.length) rest
        (outs ++ bs.map (·.2.commitmentSecrets)) = .ok (ys', fin) := by
  induction es generalizing i outs ys with
  | nil => exact ⟨[], ys, .nil, rfl, by simpa using h⟩
  | cons e es ih =>
    simp only [List.length_cons] at hlt
    obtain ⟨e', outs1, ys1, h1, h2, rfl⟩ := takeBlindOutputs_cons h
    have hfe := hes e (List.mem_cons_self _ _)
    rcases takeBlindOutput_ok h1 with ⟨hf, -, -⟩ | ⟨-, hi0, -⟩ | ⟨-, u, hb, ⟨-, rfl⟩ | ⟨hge, -⟩⟩
    · rw [hf] at hfe; cases hfe
    · omega
    · obtain ⟨bs, ys', hF, rfl, hrest⟩ :=
        ih (fun o ho => hes o (List.mem_cons_of_mem _ ho)) (by omega) (by omega) h2
      refine ⟨(e', u) :: bs, ys', .cons hb hF, rfl, ?_⟩
      rw [List.length_cons, show i + (es.length + 1) = i + 1 + es.length by omega]
      simpa using hrest
    · omega

/-- **The taker's outputs blinded**: output 0 only gains proofs, the other non-fee outputs
are blinded, the fee output is untouched, and the blinds balance those of the inputs. -/
theorem takeBlindOutputs_take {o₀ f : TxOut} {es ys : List TxOut} {fin : List CommitmentSecrets}
    (hv₀ : ∃ c, o₀.value = .confidential c) (hes : ∀ o ∈ es, o.isFee = false) (hne : es ≠ [])
    (hf : f.isFee = true) (hnum : ctx.outNum = es.length + 2)
    (h : takeBlindOutputs S C mbk mo ctx rng 0 (o₀ :: (es ++ [f])) [] = .ok (ys, fin)) :
    ∃ o₀' bs, ys = o₀' :: (bs.map Prod.fst ++ [f]) ∧
      (∃ sp rp, o₀' = { o₀ with witness :=
        { o₀.witness with surjectionProof := some sp, rangeproof := some rp } }) ∧
      OutputProofs S ctx.domain o₀' mo ∧ (∃ pk, o₀.nonce = .confidential pk) ∧
      List.Forall₂ (fun o b => BlindedOutput S ctx.domain o b.1 b.2) es bs ∧
      blindSum (mo.commitmentSecrets :: bs.map (·.2.commitmentSecrets)) = blindSum ctx.ins := by
  obtain ⟨o₀', outs₁, ys₁, h₀, h₁, rfl⟩ := takeBlindOutputs_cons h
  obtain ⟨c, hc⟩ := hv₀
  rcases takeBlindOutput_ok h₀ with ⟨hf₀, -, -⟩ | ⟨-, -, ⟨-, -, pk, -, -, hn⟩, hw, hP, rfl⟩ |
    ⟨-, u, hb, -⟩
  · simp [TxOut.isFee, hc, Value.isExplicit] at hf₀
  · obtain ⟨es₀, e, rfl⟩ : ∃ L b, es = L ++ [b] :=
      ⟨es.dropLast, es.getLast hne, (List.dropLast_append_getLast hne).symm⟩
    simp only [List.length_append, List.length_singleton] at hnum
    rw [List.append_assoc] at h₁
    obtain ⟨bs₀, ys₂, hF, rfl, h₂⟩ := takeBlindOutputs_derived (i := 1)
      (fun o ho => hes o (List.mem_append_left _ ho)) (by omega) (by omega) h₁
    obtain ⟨e', outs₂, ys₃, he, h₃, rfl⟩ := takeBlindOutputs_cons h₂
    rcases takeBlindOutput_ok he with
      ⟨hfe, -, -⟩ | ⟨-, hi₀, -⟩ | ⟨-, ue, hbe, ⟨hlt, -⟩ | ⟨-, hvbf, rfl⟩⟩
    · rw [hes e (by simp)] at hfe; cases hfe
    · omega
    · omega
    · obtain ⟨f', outs₃, ys₄, hff, h₄, rfl⟩ := takeBlindOutputs_cons h₃
      rcases takeBlindOutput_ok hff with ⟨-, rfl, rfl⟩ | ⟨hff', -⟩ | ⟨hff', -⟩
      · cases h₄
        refine ⟨o₀', bs₀ ++ [(e', ue)], by simp, hw, hP, ⟨pk, hn⟩,
          List.rel_append hF (.cons hbe .nil), ?_⟩
        have := blindSum_adaptive ue.value ue.assetBf ctx.ins
          ([] ++ [mo.commitmentSecrets] ++ bs₀.map (·.2.commitmentSecrets))
        rw [← hvbf] at this
        simpa [TxOutSecrets.commitmentSecrets] using this
      · rw [hf] at hff'; cases hff'
      · rw [hf] at hff'; cases hff'
  · exact absurd hb.value (by rw [hc]; exact fun h => by cases h)

/-- What `takeInputSecrets` reads: one secret per input, whose asset and amount are the
entries `inputs` sums. -/
theorem takeInputSecrets_ok {mi : TxOutSecrets} {U : Unblinded} {idx : Nat} {ins : List TxIn}
    {us : List TxOutSecrets} (h : takeInputSecrets mi U idx ins = .ok us) :
    us.map (fun u => (u.asset, u.value)) = loopEntries (inputEntry mi U) idx ins := by
  induction ins generalizing idx us with
  | nil => cases h; rfl
  | cons x xs ih =>
    simp only [takeInputSecrets] at h
    obtain ⟨u, hu, h⟩ := bind_eq_ok.1 h
    obtain ⟨us', hus, h⟩ := bind_eq_ok.1 h
    cases h
    have he : inputEntry mi U idx x = some (u.asset, u.value) := by
      unfold inputSecret at hu
      unfold inputEntry
      split at hu
      · cases hu; simp [*]
      · simp_all
    rw [List.map_cons, loopEntries_cons_some he, ih hus]

theorem takeInputSecrets_records_succ {mi : TxOutSecrets} {U : Unblinded} {idx : Nat}
    {ins : List TxIn} {us : List TxOutSecrets} (h : takeInputSecrets mi U (idx + 1) ins = .ok us) :
    ∀ i ∈ ins, (U.get i.previousOutput).isSome := by
  induction ins generalizing idx us with
  | nil => intro i hi; cases hi
  | cons y ys ih =>
    simp only [takeInputSecrets] at h
    obtain ⟨u, hu, h⟩ := bind_eq_ok.1 h
    obtain ⟨us', h, -⟩ := bind_eq_ok.1 h
    intro i hi
    rcases List.mem_cons.1 hi with rfl | hi
    · simp only [inputSecret, Nat.succ_ne_zero, if_false, okOr_eq_ok] at hu
      simp [hu]
    · exact ih h i hi

/-- Past index 0, every input `takeInputSecrets` read has a record. -/
theorem takeInputSecrets_records {mi : TxOutSecrets} {U : Unblinded} {ins : List TxIn}
    {us : List TxOutSecrets} (h : takeInputSecrets mi U 0 ins = .ok us) :
    ∀ i ∈ ins.tail, (U.get i.previousOutput).isSome := by
  cases ins with
  | nil => intro i hi; cases hi
  | cons x xs =>
    simp only [takeInputSecrets] at h
    obtain ⟨_, -, h⟩ := bind_eq_ok.1 h
    obtain ⟨_, h, -⟩ := bind_eq_ok.1 h
    exact takeInputSecrets_records_succ h

/-- `takeInputSecrets` reads the inputs' outpoints only. -/
theorem takeInputSecrets_congr {mi : TxOutSecrets} {U : Unblinded} {idx : Nat}
    {ins ins' : List TxIn}
    (h : ins.map (·.previousOutput) = ins'.map (·.previousOutput)) :
    takeInputSecrets mi U idx ins = takeInputSecrets mi U idx ins' := by
  induction ins generalizing idx ins' with
  | nil => cases ins' <;> simp_all
  | cons x xs ih =>
    cases ins' with
    | nil => simp at h
    | cons y ys =>
      simp only [List.map_cons, List.cons.injEq] at h
      simp only [takeInputSecrets, inputSecret, h.1, ih h.2]

end

end BEWallet
