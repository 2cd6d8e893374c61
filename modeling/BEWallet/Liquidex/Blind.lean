import BEWallet.Reference

/-!
# LiquiDEX blinding: the maker's output and its unblinding

The maker cannot see the final range proof, so `liquidex_blind` derives both
blinders from the master blinding key and the spent outpoint (with the
sentinel `vout = u32::MAX`), and hides the amount in the nonce: the AES-GCM-SIV
encryption of `value ‖ 8 random bytes`, behind a `0x02` prefix, retried until
that is a point.  `liquidex_unblind` recomputes the blinders, key and AES
nonce, decrypts, and checks both commitments.

    liquidexBlind m tx rs = .ok (tx', s) → SameMakerPair t tx' → s.asset ∈ A →
      liquidexUnblind m t 0 A = .ok s                  (liquidexUnblind_liquidexBlind)

The random source is the list of words `rng.fill` draws; running out of it is
`Fault.diverge`.
-/

namespace BEWallet

/-- The ASCII bytes of a tag such as `b"liquidex_aes_key"`. -/
def asciiBytes (s : String) : Bytes := s.data.map Char.toUInt8

section

variable (S : Secp) (C : Crate)

/-- `_liquidex_derive_blinder`: `derive_blinder` over the hash of the spent outpoint alone,
at the index `u32::MAX` no real output has. -/
def _liquidexDeriveBlinder (mbk : MasterBlindingKey) (o : OutPoint) (isAsset : Bool) :
    Except Error Scalar :=
  C.deriveBlinder mbk (S.sha256d o.encode) 0xFFFFFFFF isAsset

/-- `liquidex_derive_asset_blinder` -/
def liquidexDeriveAssetBlinder (mbk : MasterBlindingKey) (o : OutPoint) : Except Fault Scalar :=
  liftErr (_liquidexDeriveBlinder S C mbk o true)

/-- `liquidex_derive_value_blinder` -/
def liquidexDeriveValueBlinder (mbk : MasterBlindingKey) (o : OutPoint) : Except Fault Scalar :=
  liftErr (_liquidexDeriveBlinder S C mbk o false)

/-- `_liquidex_aes_key`: `SHA256("liquidex_aes_key" ‖ master key ‖ script)`. -/
def _liquidexAesKey (mbk : MasterBlindingKey) (script : Script) : Bytes :=
  S.sha256 (asciiBytes "liquidex_aes_key" ++ mbk.bytes ++ script)

/-- `_liquidex_aes_nonce`: the first 12 bytes of `SHA256("liquidex_aes_nonce" ‖ master key ‖
outpoint ‖ asset commitment ‖ value commitment ‖ script)`. -/
def _liquidexAesNonce (mbk : MasterBlindingKey) (o : OutPoint) (asset : Asset) (value : Value)
    (script : Script) : Except Fault Bytes :=
  match asset, value with
  | .confidential _, .confidential _ => do
    let g ← unwrap asset.commitment
    let c ← unwrap value.commitment
    pure ((S.sha256 (asciiBytes "liquidex_aes_nonce" ++ mbk.bytes ++ o.encode ++
      S.pointBytes g ++ S.pointBytes c ++ script)).take 12)
  | _, _ => throwErr (.generic "Asset and Value must be confidential")

/-- The loop of `liquidex_blind`: encrypt `value ‖ r` for the next random word `r`, and
stop at the first ciphertext that is a point behind `0x02`; its serialization. -/
def liquidexNonceLoop (key aesNonce : Bytes) (value : UInt64) : List UInt64 → Except Fault Bytes
  | [] => .error .diverge
  | r :: rs => do
    let text ← liftErr (S.aesEncrypt key aesNonce (u64ToLeBytes value ++ u64ToLeBytes r))
    if text.length ≠ 32 then throwPanic "copy_from_slice: source slice length does not match"
    else
      match S.publicKeyFromSlice (0x02 :: text) with
      | some pk => pure pk.bytes
      | none => liquidexNonceLoop key aesNonce value rs

/-- `liquidex_blind`: returns the blinded transaction and the output's secrets. -/
def liquidexBlind (mbk : MasterBlindingKey) (tx : Transaction) (rng : List UInt64) :
    Except Fault (Transaction × TxOutSecrets) :=
  match tx.input, tx.output with
  | [inp], [out] =>
    match out.asset, out.value with
    | .explicit asset, .explicit value => do
      let abf ← liquidexDeriveAssetBlinder S C mbk inp.previousOutput
      let vbf ← liquidexDeriveValueBlinder S C mbk inp.previousOutput
      let gen := S.newBlinded asset abf
      let out := { out with
        asset := .confidential gen, value := .confidential (pedersen value vbf gen) }
      let key := _liquidexAesKey S mbk out.scriptPubkey
      let aesNonce ← _liquidexAesNonce S mbk inp.previousOutput out.asset out.value out.scriptPubkey
      let nonceCommitment ← liquidexNonceLoop S key aesNonce value rng
      let nonce ← S.nonceFromCommitment nonceCommitment
      pure ({ tx with output := [{ out with nonce := nonce }] }, ⟨asset, abf, value, vbf⟩)
    | _, _ => throwErr (.generic "Unexpected LiquiDEX maker transaction")
  | _, _ => throwErr (.generic "Unexpected LiquiDEX maker transaction num in/out")

/-- `liquidex_unblind`: the candidate assets are tried in the set's iteration order. -/
def liquidexUnblind (mbk : MasterBlindingKey) (tx : Transaction) (vout : UInt32)
    (assets : List AssetId) : Except Fault TxOutSecrets :=
  let vout := vout.toNat
  if vout + 1 > tx.output.length ∨ vout + 1 > tx.input.length then
    throwErr (.generic "LiquiDEX error 1")
  else do
    let out ← index tx.output vout
    match out.asset, out.value, out.nonce with
    | .confidential _, .confidential _, .confidential _ => do
      let inp ← index tx.input vout
      let abf ← liquidexDeriveAssetBlinder S C mbk inp.previousOutput
      let vbf ← liquidexDeriveValueBlinder S C mbk inp.previousOutput
      let key := _liquidexAesKey S mbk out.scriptPubkey
      let aesNonce ←
        _liquidexAesNonce S mbk inp.previousOutput out.asset out.value out.scriptPubkey
      let nonceCommitment ← unwrap out.nonce.commitment
      let text ← liftErr (S.aesDecrypt key aesNonce (nonceCommitment.bytes.drop 1))
      if text.length < 8 then throwPanic "range end index 8 out of range"
      else
        let value := u64FromLeBytes text
        let txAssetGenerator ← unwrap out.asset.commitment
        let txValueCommitment ← unwrap out.value.commitment
        if pedersen value vbf txAssetGenerator ≠ txValueCommitment then
          throwErr (.generic "LiquiDEX error value commitment")
        else
          let asset := assets.find? fun a => S.newBlinded a abf = txAssetGenerator
          if asset.isNone then throwErr (.generic "LiquiDEX error asset not found")
          else do
            let asset ← unwrap asset
            pure ⟨asset, abf, value, vbf⟩
    | _, _, _ => throwErr (.generic "LiquiDEX error 2")

/-! ## Lemmas -/

/-- The AES nonce of an output whose asset and value are confidential: both `unwrap`s
follow the check. -/
theorem liquidexAesNonce_confidential (mbk : MasterBlindingKey) (o : OutPoint) (g c : Point)
    (script : Script) :
    _liquidexAesNonce S mbk o (.confidential g) (.confidential c) script =
      .ok ((S.sha256 (asciiBytes "liquidex_aes_nonce" ++ mbk.bytes ++ o.encode ++
        S.pointBytes g ++ S.pointBytes c ++ script)).take 12) := rfl

/-- What a successful rejection loop produced: a point behind `0x02` that
encrypts `value ‖ r` for some random word `r`. -/
theorem liquidexNonceLoop_ok {key aesNonce : Bytes} {value : UInt64} {rng : List UInt64}
    {nc : Bytes} (h : liquidexNonceLoop S key aesNonce value rng = .ok nc) :
    ∃ r text pk, S.aesEncrypt key aesNonce (u64ToLeBytes value ++ u64ToLeBytes r) = .ok text ∧
      S.publicKeyFromSlice (0x02 :: text) = some pk ∧ nc = pk.bytes := by
  induction rng with
  | nil => cases h
  | cons r rs ih =>
    simp only [liquidexNonceLoop, bind, Except.bind] at h
    cases hc : S.aesEncrypt key aesNonce (u64ToLeBytes value ++ u64ToLeBytes r) with
    | error e => simp [hc, liftErr, throwErr] at h
    | ok text =>
      simp only [hc, liftErr, pure, Except.pure] at h
      split at h
      · cases h
      · split at h
        · cases h; exact ⟨r, text, _, hc, ‹_›, rfl⟩
        · exact ih h

/-- `t` carries the maker pair of `tx` at index 0: the outpoint input 0 spends, and the
fields of output 0 that unblinding reads. -/
def SameMakerPair (t tx : Transaction) : Prop :=
  t.input.head?.map TxIn.previousOutput = tx.input.head?.map TxIn.previousOutput ∧
  t.output.head?.map (fun o => (o.asset, o.value, o.nonce, o.scriptPubkey)) =
    tx.output.head?.map (fun o => (o.asset, o.value, o.nonce, o.scriptPubkey))

/-- The maker transaction `liquidex_make` hands to `liquidexBlind`: one input, and one
output whose asset and value are explicit. -/
def makerTx (ver lt : UInt32) (inp : TxIn) (out : TxOut) (a : AssetId) (v : UInt64) :
    Transaction :=
  ⟨ver, lt, [inp], [{ out with asset := .explicit a, value := .explicit v }]⟩

/-- What `liquidexBlind` did, when it returned. -/
theorem liquidexBlind_ok {mbk : MasterBlindingKey} {inp : TxIn} {out : TxOut} {ver lt : UInt32}
    {rng : List UInt64} {tx' : Transaction} {s : TxOutSecrets} {a : AssetId} {v : UInt64}
    (h : liquidexBlind S C mbk (makerTx ver lt inp out a v) rng = .ok (tx', s)) :
    ∃ nc pk, liquidexDeriveAssetBlinder S C mbk inp.previousOutput = .ok s.assetBf ∧
      liquidexDeriveValueBlinder S C mbk inp.previousOutput = .ok s.valueBf ∧
      liquidexNonceLoop S (_liquidexAesKey S mbk out.scriptPubkey)
        ((S.sha256 (asciiBytes "liquidex_aes_nonce" ++ mbk.bytes ++ inp.previousOutput.encode ++
          S.pointBytes (S.newBlinded a s.assetBf) ++
          S.pointBytes (pedersen v s.valueBf (S.newBlinded a s.assetBf)) ++
          out.scriptPubkey)).take 12) v rng = .ok nc ∧
      S.nonceFromCommitment nc = .ok (.confidential pk) ∧
      s = ⟨a, s.assetBf, v, s.valueBf⟩ ∧
      tx' = ⟨ver, lt, [inp], [{ out with
        asset := .confidential (S.newBlinded a s.assetBf)
        value := .confidential (pedersen v s.valueBf (S.newBlinded a s.assetBf))
        nonce := .confidential pk }]⟩ := by
  simp only [liquidexBlind, makerTx] at h
  obtain ⟨abf, habf, h⟩ := bind_eq_ok.1 h
  obtain ⟨vbf, hvbf, h⟩ := bind_eq_ok.1 h
  obtain ⟨aesNonce, hn, h⟩ := bind_eq_ok.1 h
  rw [liquidexAesNonce_confidential] at hn
  cases hn
  obtain ⟨nc, hnc, h⟩ := bind_eq_ok.1 h
  obtain ⟨nonce, hnonce, h⟩ := bind_eq_ok.1 h
  cases h
  obtain ⟨r, text, pk, -, hpk, rfl⟩ := liquidexNonceLoop_ok S hnc
  have := S.nonceFromCommitment_bytes hpk
  rw [this] at hnonce; cases hnonce
  exact ⟨_, pk, habf, hvbf, hnc, this, rfl, rfl⟩

theorem find?_eq_of_unique {α : Type} {p : α → Bool} {l : List α} {a : α} (ha : a ∈ l)
    (hp : p a) (hu : ∀ b ∈ l, p b → b = a) : l.find? p = some a := by
  cases hf : l.find? p with
  | none => exact absurd hp (by simpa using List.find?_eq_none.1 hf a ha)
  | some b => rw [hu b (List.mem_of_find?_eq_some hf) (List.find?_some hf)]

/-- **LiquiDEX round trip.**  Whatever transaction carries the maker's blinded pair at
index 0 (the blinded transaction, the signed proposal, the taker's completion), unblinding
it at `vout = 0` against any asset set containing the maker's asset gives back the
secrets `liquidexBlind` returned: that asset, that amount, those blinders.  The one
assumption: within the set, another asset's generator differs under this blinder. -/
theorem liquidexUnblind_liquidexBlind (mbk : MasterBlindingKey) (ver lt : UInt32) (inp : TxIn)
    (out : TxOut) (a : AssetId) (v : UInt64) (rng : List UInt64) (tx' : Transaction)
    (s : TxOutSecrets) (h : liquidexBlind S C mbk (makerTx ver lt inp out a v) rng = .ok (tx', s))
    (t : Transaction) (ht : SameMakerPair t tx') (A : List AssetId) (hA : a ∈ A)
    (hinj : ∀ b ∈ A, S.newBlinded b s.assetBf = S.newBlinded a s.assetBf → b = a) :
    liquidexUnblind S C mbk t 0 A = .ok s ∧ s.asset = a ∧ s.value = v := by
  obtain ⟨nc, pk, habf, hvbf, hloop, hnonce, hs, rfl⟩ := liquidexBlind_ok S C h
  obtain ⟨r, text, pk', henc, hpk', rfl⟩ := liquidexNonceLoop_ok S hloop
  rw [S.nonceFromCommitment_bytes hpk'] at hnonce
  cases hnonce
  have hbytes : pk.bytes = 0x02 :: text := S.publicKeyFromSlice_bytes hpk'
  have hdec := S.aesDecrypt_aesEncrypt _ _ _ _ henc
  obtain ⟨hi, ho⟩ := ht
  cases hti : t.input with
  | nil => simp [hti] at hi
  | cons ti tis =>
  cases hto : t.output with
  | nil => simp [hto] at ho
  | cons o0 os =>
  simp only [hti, hto, List.head?_cons, Option.map_some', Option.some.injEq, Prod.mk.injEq] at hi ho
  obtain ⟨hga, hcv, hnn, hsc⟩ := ho
  refine ⟨?_, by rw [hs], by rw [hs]⟩
  have hfind : A.find? (fun b => S.newBlinded b s.assetBf = S.newBlinded a s.assetBf) = some a :=
    find?_eq_of_unique hA (by simp) (fun b hb hp => hinj b hb (by simpa using hp))
  have hlen : ¬(u64ToLeBytes v ++ u64ToLeBytes r).length < 8 := by simp
  have hl : ¬(0 + 1 > (o0 :: os).length ∨ 0 + 1 > (ti :: tis).length) := by simp
  simp only [liquidexUnblind, UInt32.toNat_zero, hti, hto, hl, if_false, index,
    List.getElem?_cons_zero, hga, hcv, hnn, Asset.commitment, Value.commitment,
    Nonce.commitment, unwrap, hi, hsc, habf, hvbf, liquidexAesNonce_confidential, hbytes,
    List.drop_succ_cons, List.drop_zero, hdec, liftErr, bind, Except.bind, pure, Except.pure,
    hlen, u64FromLeBytes_u64ToLeBytes, ne_eq, not_true_eq_false, hfind, Option.isNone_some,
    Bool.false_eq_true]
  rw [hs]

end

/-- The round trip on a sample maker transaction, unblinded against two assets. -/
theorem liquidexUnblind_liquidexBlind_sample :
    ∃ tx' s, liquidexBlind Secp.ref Crate.ref ⟨[]⟩
        (makerTx 2 0 ⟨⟨List.replicate 32 0x44, 0⟩, [], []⟩
          { nonce := .confidential ⟨0x02 :: List.replicate 32 7, by simp⟩,
            scriptPubkey := [0xa9, 0x03] } Sample.assetB 500) [7] = .ok (tx', s) ∧
      SameMakerPair tx' tx' ∧ Sample.assetB ∈ [Sample.assetA, Sample.assetB] ∧
      liquidexUnblind Secp.ref Crate.ref ⟨[]⟩ tx' 0 [Sample.assetA, Sample.assetB] = .ok s ∧
      s.asset = Sample.assetB ∧ s.value = 500 := by
  obtain ⟨⟨tx', s⟩, h⟩ := exists_eq_ok_of_isOk (x := liquidexBlind Secp.ref Crate.ref ⟨[]⟩
    (makerTx 2 0 ⟨⟨List.replicate 32 0x44, 0⟩, [], []⟩
      { nonce := .confidential ⟨0x02 :: List.replicate 32 7, by simp⟩,
        scriptPubkey := [0xa9, 0x03] } Sample.assetB 500) [7]) (by decide)
  have hA : Sample.assetB ∈ [Sample.assetA, Sample.assetB] := by decide
  refine ⟨tx', s, h, ⟨rfl, rfl⟩, hA, liquidexUnblind_liquidexBlind Secp.ref Crate.ref _ _ _ _ _ _ _
    _ tx' s h tx' ⟨rfl, rfl⟩ _ hA fun b hb heq => ?_⟩
  have htag := add_right_cancel heq
  rcases List.mem_cons.1 hb with rfl | hb
  · exact absurd htag (by decide)
  · exact List.mem_singleton.1 hb

/-! ## Unblinding any transaction -/

/-- A maker transaction: one input, and one output of 500 `assetB`. -/
def Sample.offerTx : Transaction :=
  makerTx 2 0 ⟨⟨List.replicate 32 0x44, 0⟩, [], []⟩
    { nonce := .confidential ⟨0x02 :: List.replicate 32 7, by simp⟩, scriptPubkey := [0xa9, 0x03] }
    Sample.assetB 500

section

variable {S : Secp} {C : Crate}

theorem returns_liquidexAesNonce (mbk : MasterBlindingKey) (o : OutPoint) (asset : Asset)
    (value : Value) (script : Script) : Returns (_liquidexAesNonce S mbk o asset value script) := by
  cases asset <;> cases value <;> trivial

/-- **`liquidex_unblind` does not panic**, on any transaction and `vout`: the indexes into
the outputs and inputs come after the bounds check, the `unwrap`s of commitments after the
check that output `vout` is confidential, and `text[..8]` after a decryption of the 32
bytes behind the nonce's prefix, which leaves 16. -/
theorem returns_liquidexUnblind (mbk : MasterBlindingKey) (tx : Transaction) (vout : UInt32)
    (assets : List AssetId) : Returns (liquidexUnblind S C mbk tx vout assets) := by
  simp only [liquidexUnblind]
  split
  · exact returns_throwErr _
  rename_i hlen
  refine Returns.bind (by rw [index_of_lt (by omega)]; trivial) fun out _ => ?_
  split
  · rename_i g c pk ha hv hn
    refine Returns.bind (by rw [index_of_lt (by omega)]; trivial) fun inp _ => ?_
    refine Returns.bind (returns_liftErr _) fun abf _ => ?_
    refine Returns.bind (returns_liftErr _) fun vbf _ => ?_
    refine Returns.bind (returns_liquidexAesNonce _ _ _ _ _) fun aesNonce _ => ?_
    refine Returns.bind (by rw [hn]; trivial) fun nc _ => ?_
    refine Returns.bind (returns_liftErr _) fun text htext => ?_
    have hlen16 := S.aesDecrypt_length _ _ _ _ (liftErr_eq_ok.1 htext)
    rw [List.length_drop, nc.size] at hlen16
    rw [if_neg (by omega), ha, hv]
    refine Returns.bind trivial fun g' _ => Returns.bind trivial fun c' _ => ?_
    split
    · exact returns_throwErr _
    split
    · exact returns_throwErr _
    rename_i hnone
    cases hfa : assets.find? fun a => S.newBlinded a abf = g' with
    | none => rw [hfa] at hnone; exact absurd rfl hnone
    | some a => trivial
  · exact returns_throwErr _

/-- **`liquidex_unblind` is sound.**  What it returns names an asset of the set, carries the
blinders derived from the outpoint input `vout` spends, and opens the commitments of output
`vout`: the asset's generator under the asset blinder, and the amount's commitment on that
generator under the value blinder. -/
theorem liquidexUnblind_sound {mbk : MasterBlindingKey} {tx : Transaction} {vout : UInt32}
    {assets : List AssetId} {s : TxOutSecrets} (h : liquidexUnblind S C mbk tx vout assets = .ok s) :
    s.asset ∈ assets ∧ ∃ inp o, tx.input[vout.toNat]? = some inp ∧
      tx.output[vout.toNat]? = some o ∧
      liquidexDeriveAssetBlinder S C mbk inp.previousOutput = .ok s.assetBf ∧
      liquidexDeriveValueBlinder S C mbk inp.previousOutput = .ok s.valueBf ∧
      o.asset = .confidential (S.newBlinded s.asset s.assetBf) ∧
      o.value = .confidential (pedersen s.value s.valueBf (S.newBlinded s.asset s.assetBf)) := by
  simp only [liquidexUnblind] at h
  split at h; · cases h
  obtain ⟨o, ho, h⟩ := bind_eq_ok.1 h
  split at h
  · rename_i g c pk ha hv hn
    obtain ⟨inp, hi, h⟩ := bind_eq_ok.1 h
    obtain ⟨abf, habf, h⟩ := bind_eq_ok.1 h
    obtain ⟨vbf, hvbf, h⟩ := bind_eq_ok.1 h
    obtain ⟨_, -, h⟩ := bind_eq_ok.1 h
    obtain ⟨_, -, h⟩ := bind_eq_ok.1 h
    obtain ⟨text, -, h⟩ := bind_eq_ok.1 h
    split at h; · cases h
    obtain ⟨g', hg, h⟩ := bind_eq_ok.1 h
    obtain ⟨c', hc, h⟩ := bind_eq_ok.1 h
    simp only [ha, hv, Asset.commitment, Value.commitment, unwrap_eq_ok,
      Option.some.injEq] at hg hc
    subst hg hc
    split at h; · cases h
    rename_i hpc
    split at h; · cases h
    obtain ⟨a, hfa, h⟩ := bind_eq_ok.1 h
    cases h
    rw [unwrap_eq_ok] at hfa
    have hgen : S.newBlinded a abf = g := by simpa using List.find?_some hfa
    rw [not_not] at hpc
    refine ⟨List.mem_of_find?_eq_some hfa, inp, o, index_eq_ok.1 hi, index_eq_ok.1 ho, habf,
      hvbf, by rw [ha, hgen], by rw [hv, hgen, hpc]⟩
  · cases h

/-- The sample maker transaction `liquidex_blind` made, unblinded against two assets. -/
theorem liquidexUnblind_sound_sample :
    ∃ tx₀ s₀ s, liquidexBlind Secp.ref Crate.ref ⟨[]⟩ Sample.offerTx [7] = .ok (tx₀, s₀) ∧
      liquidexUnblind Secp.ref Crate.ref ⟨[]⟩ tx₀ 0 [Sample.assetA, Sample.assetB] = .ok s ∧
      s.asset ∈ [Sample.assetA, Sample.assetB] ∧ ∃ inp o,
        tx₀.input[(0 : UInt32).toNat]? = some inp ∧ tx₀.output[(0 : UInt32).toNat]? = some o ∧
        liquidexDeriveAssetBlinder Secp.ref Crate.ref ⟨[]⟩ inp.previousOutput = .ok s.assetBf ∧
        liquidexDeriveValueBlinder Secp.ref Crate.ref ⟨[]⟩ inp.previousOutput = .ok s.valueBf ∧
        o.asset = .confidential (Secp.ref.newBlinded s.asset s.assetBf) ∧
        o.value = .confidential
          (pedersen s.value s.valueBf (Secp.ref.newBlinded s.asset s.assetBf)) := by
  obtain ⟨s, h⟩ := exists_eq_ok_of_isOk (x := liquidexBlind Secp.ref Crate.ref ⟨[]⟩
    Sample.offerTx [7] >>= fun r =>
      liquidexUnblind Secp.ref Crate.ref ⟨[]⟩ r.1 0 [Sample.assetA, Sample.assetB]) (by decide)
  obtain ⟨⟨tx₀, s₀⟩, hb, hu⟩ := bind_eq_ok.1 h
  exact ⟨tx₀, s₀, s, hb, hu, liquidexUnblind_sound hu⟩

end

end BEWallet
