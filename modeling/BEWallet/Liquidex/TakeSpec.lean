import Mathlib.Algebra.BigOperators.Group.Finset
import BEWallet.Liquidex.Take
import BEWallet.Funds

/-!
# What a successful `liquidex_take` guarantees

A run that returned `tx` went through every stage (`TakeRun`); the stage lemmas below
take it apart once, and each result puts a few of them together.  `P` is the policy
asset, `U` the store's unblinded records, `F` the fee, `E` the fee estimated after the
selection.

    Σ_in a = Σ_out a + [a = P]·F,   E ≤ F ≤ E + dust         (liquidexTake_conserves_value)
    Σ_in (v·abf + vbf) = Σ_out (v·abf + vbf),
    Σ_in commitments = Σ_out commitments + F·H(P)             (liquidexTake_balances_blinders)
    input 0 and output 0 are the maker's                       (liquidexTake_keeps_maker_pair)
    one fee output, the last; every other one blinded          (liquidexTake_fee_output_last)
    output 1 pays the taker's new address, blinded, the maker's input asset and amount
                                                               (liquidexTake_pays_taker)
    the changes: one per asset, positive, above the dust value in the policy asset
                                                               (liquidexTake_no_dust_change)
    after the maker's input, distinct UTXOs of the taker's wallet, each signed with the
    taker's key                                               (liquidexTake_spends_own_utxos)
-/

namespace BEWallet

open HashMap

/-! ## Amounts on generators -/

section

variable (S : Secp)

/-- `Σ v·H(a)` over entries, gathered asset by asset over any set of assets that holds
theirs. -/
theorem sum_tag_eq_sum_sumOf (l : List (AssetId × UInt64)) (T : Finset AssetId)
    (hT : ∀ kv ∈ l, kv.1 ∈ T) :
    (l.map fun kv => (kv.2.toNat : Scalar) * S.tagPoint kv.1).sum =
      ∑ a ∈ T, (sumOf l a : Scalar) * S.tagPoint a := by
  induction l with
  | nil => simp
  | cons kv l ih =>
    rw [List.map_cons, List.sum_cons, ih fun x hx => hT x (List.mem_cons_of_mem _ hx)]
    simp only [sumOf_cons, Nat.cast_add, add_mul, Finset.sum_add_distrib]
    simp [ite_mul, Finset.sum_ite_eq, hT kv (List.mem_cons_self _ _)]

/-- Entries whose amounts agree asset by asset, up to `f` more of `P` on the left, agree
on the generators up to `f·H(P)`. -/
theorem sum_tag_eq_of_sumOf {l₁ l₂ : List (AssetId × UInt64)} {P : AssetId} {f : Nat}
    (h : ∀ a, sumOf l₁ a = sumOf l₂ a + if a = P then f else 0) :
    (l₁.map fun kv => (kv.2.toNat : Scalar) * S.tagPoint kv.1).sum =
      (l₂.map fun kv => (kv.2.toNat : Scalar) * S.tagPoint kv.1).sum +
        (f : Scalar) * S.tagPoint P := by
  let T := insert P ((l₁ ++ l₂).map Prod.fst).toFinset
  have hT : ∀ l : List (AssetId × UInt64), (∀ kv ∈ l, kv ∈ l₁ ++ l₂) → ∀ kv ∈ l, kv.1 ∈ T :=
    fun l hl kv hkv =>
    Finset.mem_insert_of_mem (List.mem_toFinset.2 (List.mem_map_of_mem _ (hl kv hkv)))
  rw [sum_tag_eq_sum_sumOf S l₁ T (hT l₁ fun _ => List.mem_append_left _),
    sum_tag_eq_sum_sumOf S l₂ T (hT l₂ fun _ => List.mem_append_right _)]
  simp [h, add_mul, Finset.sum_add_distrib, ite_mul, T]

/-- The commitments of outputs with secrets `us`: their amounts on their assets'
generators, and their blinds on `G`. -/
theorem sum_commitment (us : List TxOutSecrets) :
    (us.map (·.commitment S)).sum =
      ((us.map fun u => (u.asset, u.value)).map
        fun kv => (kv.2.toNat : Scalar) * S.tagPoint kv.1).sum +
      blindSum (us.map TxOutSecrets.commitmentSecrets) := by
  induction us with
  | nil => simp
  | cons u us ih =>
    rw [List.map_cons, List.sum_cons, ih, TxOutSecrets.commitment_eq]
    simp only [List.map_cons, List.sum_cons, blindSum_cons]
    ring

/-- **Balanced blinds and conserved amounts balance the commitments**, up to the fee's
amount on the policy asset's generator. -/
theorem commitments_balance {ins outs : List TxOutSecrets} {P : AssetId} {f : Nat}
    (hbal : blindSum (ins.map TxOutSecrets.commitmentSecrets) =
      blindSum (outs.map TxOutSecrets.commitmentSecrets))
    (hsum : ∀ a, sumOf (ins.map fun u => (u.asset, u.value)) a =
      sumOf (outs.map fun u => (u.asset, u.value)) a + if a = P then f else 0) :
    (ins.map (·.commitment S)).sum =
      (outs.map (·.commitment S)).sum + (f : Scalar) * S.tagPoint P := by
  rw [sum_commitment, sum_commitment, sum_tag_eq_of_sumOf S hsum, hbal]
  ring

end

/-! ## Lemmas on the stages -/

theorem loopEntries_added {mi : TxOutSecrets} {U : Unblinded} {added : List UnblindedTXO}
    (hrec : ∀ u ∈ added, U.get u.txo.outpoint = some u.unblinded) (idx : Nat) :
    loopEntries (inputEntry mi U) (idx + 1) (added.map fun u => ⟨u.txo.outpoint, [], []⟩) =
      added.map fun u => (u.unblinded.asset, u.unblinded.value) := by
  induction added generalizing idx with
  | nil => rfl
  | cons u added ih =>
    have he : inputEntry mi U (idx + 1) ⟨u.txo.outpoint, [], []⟩ =
        some (u.unblinded.asset, u.unblinded.value) := by
      simp [inputEntry, hrec u (List.mem_cons_self _ _)]
    rw [List.map_cons, loopEntries_cons_some he,
      ih (fun v hv => hrec v (List.mem_cons_of_mem _ hv))]
    rfl

theorem loopEntries_inputEntry_congr {mi : TxOutSecrets} {U : Unblinded} {idx : Nat}
    {ins ins' : List TxIn} (h : ins.map (·.previousOutput) = ins'.map (·.previousOutput)) :
    loopEntries (inputEntry mi U) idx ins = loopEntries (inputEntry mi U) idx ins' := by
  induction ins generalizing idx ins' with
  | nil => cases ins' <;> simp_all
  | cons x xs ih =>
    cases ins' with
    | nil => simp at h
    | cons y ys =>
      simp only [List.map_cons, List.cons.injEq] at h
      have hx : inputEntry mi U idx x = inputEntry mi U idx y := by simp only [inputEntry, h.1]
      have := @ih (idx + 1) ys h.2
      simp only [loopEntries, List.enumFrom_cons, List.filterMap_cons] at this ⊢
      rw [hx, this]

/-- The amounts the inputs spend depend on their outpoints only. -/
theorem inSum_congr {mi : TxOutSecrets} {U : Unblinded} {tx tx' : Transaction}
    (h : tx.input.map (·.previousOutput) = tx'.input.map (·.previousOutput)) (a : AssetId) :
    inSum mi U tx a = inSum mi U tx' a := by
  simp only [inSum, loopEntries_inputEntry_congr h]

theorem loopEntries_outputEntry_blinded {S : Secp} {D : List (Point × AssetId × Scalar)}
    {mo : TxOutSecrets} {idx : Nat} {es : List TxOut} {bs : List (TxOut × TxOutSecrets)}
    (hF : List.Forall₂ (fun o b => BlindedOutput S D o b.1 b.2) es bs) :
    loopEntries (outputEntry mo) (idx + 1) es = bs.map fun b => (b.2.asset, b.2.value) := by
  induction hF generalizing idx with
  | nil => rfl
  | @cons o b _ _ hb _ ih =>
    have he : outputEntry mo (idx + 1) o = some (b.2.asset, b.2.value) := by
      simp [outputEntry, hb.asset, hb.value]
    rw [loopEntries_cons_some he, ih]
    rfl

theorem exists_blindedOutput_of_mem {S : Secp} {D : List (Point × AssetId × Scalar)}
    {es : List TxOut} {bs : List (TxOut × TxOutSecrets)}
    (hB : List.Forall₂ (fun o b => BlindedOutput S D o b.1 b.2) es bs) {b : TxOut × TxOutSecrets}
    (hb : b ∈ bs) : ∃ o, BlindedOutput S D o b.1 b.2 := by
  induction hB with
  | nil => cases hb
  | cons h _ ih =>
    rcases List.mem_cons.1 hb with rfl | hb
    exacts [⟨_, h⟩, ih hb]

theorem isFee_of_forall₂ {kvs : List (AssetId × UInt64)} {outs : List TxOut}
    (hF : List.Forall₂ IsWalletOutput kvs outs) : ∀ o ∈ outs, o.isFee = false := by
  induction hF with
  | nil => intro o ho; cases ho
  | cons ho _ ih =>
    intro o h
    rcases List.mem_cons.1 h with rfl | h
    · exact ho.2.2
    · exact ih o h

theorem exists_getElem?_of_forall₂ {α β : Type} {R : α → β → Prop} {l₁ : List α}
    {l₂ : List β} (h : List.Forall₂ R l₁ l₂) {k : Nat} {b : β} (hb : l₂[k]? = some b) :
    ∃ a, l₁[k]? = some a ∧ R a b := by
  obtain ⟨hk, rfl⟩ := List.getElem?_eq_some_iff.1 hb
  have hk₁ : k < l₁.length := h.length_eq ▸ hk
  exact ⟨l₁[k], List.getElem?_eq_getElem hk₁, h.get hk₁ hk⟩

theorem exists_of_mem_forall₂ {α β : Type} {R : α → β → Prop} {l₁ : List α} {l₂ : List β}
    (h : List.Forall₂ R l₁ l₂) {a : α} (ha : a ∈ l₁) : ∃ b, R a b := by
  induction h with
  | nil => cases ha
  | cons hr _ ih =>
    rcases List.mem_cons.1 ha with rfl | ha
    exacts [⟨_, hr⟩, ih ha]

/-- Wallet outputs, blinded: the secrets carry the entries' assets and amounts. -/
theorem entries_of_blinded {S : Secp} {D : List (Point × AssetId × Scalar)}
    {kvs : List (AssetId × UInt64)} {outs : List TxOut} {bs : List (TxOut × TxOutSecrets)}
    (hW : List.Forall₂ IsWalletOutput kvs outs)
    (hB : List.Forall₂ (fun o b => BlindedOutput S D o b.1 b.2) outs bs) :
    bs.map (fun b => (b.2.asset, b.2.value)) = kvs := by
  induction hW generalizing bs with
  | nil => cases hB; rfl
  | cons hw _ ih =>
    cases hB with
    | cons hb hB' =>
      rw [List.map_cons, ih hB', Asset.explicit.inj (hb.asset.symm.trans hw.1),
        Value.explicit.inj (hb.value.symm.trans hw.2.1)]

/-- An asset `liquidex_needs` asks for is the policy asset or one the outputs carry. -/
theorem mem_liquidexNeeds_asset {C : Crate} {it : HashIter (AssetId × UInt64)}
    {mi mo : TxOutSecrets} {tx : Transaction} {rate : Float} {P : AssetId} {U : Unblinded}
    {needs : List (AssetId × UInt64)} (h : liquidexNeeds C it mi mo tx rate P U = .ok needs)
    {a : AssetId} {n : UInt64} (hn : (a, n) ∈ needs) :
    a = P ∨ a ∈ (loopEntries (outputEntry mo) 0 tx.output).map Prod.fst := by
  by_contra hc
  push_neg at hc
  have := (((mem_liquidexNeeds h).2 a n).1 hn).1
  simp only [outSum, sumOf_eq_zero hc.2, if_neg hc.1] at this
  omega

section

variable {S : Secp} {K : Keys} {C : Crate} {codec : TxCodec} {w : WalletCtx}
  {st : StoreCache} {p : LiquidexProposal} {mnemonic : String} {ord : TakeOrders}
  {rng : BlindRng} {ptx : Transaction} {mo mi : TxOutSecrets} {st' : StoreCache}
  {sel core : Transaction} {fee : UInt64} {blinded tx : Transaction}

/-- `get_address` leaves the unblinded records alone. -/
theorem TakeRun.unblinded_eq
    (hr : TakeRun S K C codec w st p mnemonic ord rng ptx mo mi st' sel core fee blinded tx) :
    st'.unblinded = st.unblinded := by
  obtain ⟨_, _, _, hg, -⟩ := hr.select
  obtain ⟨⟨ext, rfl⟩, -⟩ := getAddress_spec hg
  rfl

/-- **The selection stage**: the proposal's pair, the output paying the taker the maker's
input, and inputs of the wallet's UTXOs, each of an asset the policy asset or one the two
outputs carry; and a round of `liquidex_needs` found nothing missing. -/
theorem TakeRun.selected
    (hr : TakeRun S K C codec w st p mnemonic ord rng ptx mo mi st' sel core fee blinded tx) :
    ∃ (i₀ : TxIn) (o₀ o₁ : TxOut) (added : List UnblindedTXO), ptx.input = [i₀] ∧
      ptx.output = [o₀] ∧
      IsWalletOutput (mi.asset, mi.value) o₁ ∧
      sel = { ptx with input := i₀ :: added.map fun u => ⟨u.txo.outpoint, [], []⟩,
                       output := [o₀, o₁] } ∧
      (∀ u ∈ added, st.unblinded.get u.txo.outpoint = some u.unblinded ∧
        u.unblinded.asset ∈ [w.config.policyAsset, mo.asset, mi.asset]) ∧
      ∃ r, liquidexNeeds C (ord.needs r) mi mo sel takeFeeRate w.config.policyAsset
        st.unblinded = .ok [] := by
  obtain ⟨-, -, -, i₀, o₀, hi, ho, -, -⟩ := takeProposal_ok hr.proposal
  obtain ⟨addr, tx₁, utxs, hg, h₁, hu, hsel⟩ := hr.select
  obtain ⟨ext, hd⟩ := (getAddress_spec hg).2 addr rfl
  obtain ⟨o₁, rfl, hw⟩ := addOutput_derived (deriveAddress_ok hd).1 h₁
  rw [liquidexTakeSelect_eq (by exact hi)] at hsel
  obtain ⟨-, ⟨r, hr₀⟩, added, hadded, rfl⟩ :=
    selectInputs_ok (selInv_liquidexTake utxs (by exact hi)) hsel
  have hU := hr.unblinded_eq
  have hentries : loopEntries (outputEntry mo) 0 (ptx.output ++ [o₁]) =
      [(mo.asset, mo.value), (mi.asset, mi.value)] := by
    have h₀ : outputEntry mo 0 o₀ = some (mo.asset, mo.value) := rfl
    have h₁ : outputEntry mo 1 o₁ = some (mi.asset, mi.value) := by
      simp [outputEntry, hw.1, hw.2.1]
    rw [ho, List.singleton_append, loopEntries_cons_some h₀, loopEntries_cons_some h₁]
    rfl
  refine ⟨i₀, o₀, o₁, added, hi, ho, hw, by simp only [hi, ho]; rfl, fun u hu' => ?_,
    r, hU ▸ hr₀⟩
  obtain ⟨hmem, r', ins, n, v, hn, hl⟩ := hadded u hu'
  refine ⟨hU ▸ mem_utxos hu hmem, ?_⟩
  rcases mem_liquidexNeeds_asset hn (List.mem_of_mem_getLast? hl) with h | h
  · simp [h]
  · rw [hentries] at h
    exact List.mem_cons_of_mem _ h

/-- **The settlement stage conserves value**: every asset's inputs pay its outputs, and
the fee for the policy asset; the fee is the estimate, or above it by at most the dust
value; and the changes added are no more than the estimate's change slots. -/
theorem TakeRun.settled
    (hr : TakeRun S K C codec w st p mnemonic ord rng ptx mo mi st' sel core fee blinded tx) :
    (∀ a, inSum mi st.unblinded core a =
      outSum mo core a + if a = w.config.policyAsset then fee.toNat else 0) ∧
    (liquidexFeeEstimate C mi st.unblinded sel takeFeeRate).toNat ≤ fee.toNat ∧
    fee.toNat ≤ (liquidexFeeEstimate C mi st.unblinded sel takeFeeRate).toNat +
      C.dustValue.toNat ∧
    ∃ changes, core = { sel with output := sel.output ++ changes } ∧
      (∀ o ∈ changes, o.isFee = false) ∧
      changes.length ≤ (estimatedChangeSlots mi st.unblinded sel).toNat := by
  obtain ⟨i₀, o₀, o₁, added, -, -, -, hsel, hadded, r, hneeds⟩ := hr.selected
  have hU := hr.unblinded_eq
  obtain ⟨res, outs, hres, rfl, hF, -, hfee⟩ := takeSettle_ok hr.settle
  rw [hU] at hres hfee
  obtain ⟨-, -, -, hsub, hnd⟩ := liquidexChanges_ok hres
  have hne : sel.output ≠ [] := by simp [hsel]
  have hout : ∀ a, outSum mo { sel with output := sel.output ++ outs } a =
      outSum mo sel a + amount res a := fun a => by
    rw [outSum_append_wallet hne hF a, sumOf_perm (ord.changes.perm res), sumOf_eq_amount hnd]
  obtain ⟨hcons, hE, hF'⟩ := settle_conserves hneeds hres
    (show ({ sel with output := sel.output ++ outs } : Transaction).input = sel.input from rfl)
    hout hfee
  refine ⟨hcons, hE, hF', outs, rfl, isFee_of_forall₂ hF, ?_⟩
  have hA : inputAssets mi st.unblinded sel = mi.asset :: added.map (·.unblinded.asset) := by
    have h₀ : inputEntry mi st.unblinded 0 i₀ = some (mi.asset, mi.value) := rfl
    rw [hsel, inputAssets, loopEntries_cons_some h₀,
      loopEntries_added (fun u hu => (hadded u hu).1)]
    simp
  have h3 : (inputAssets mi st.unblinded sel).dedup.length ≤ 3 := by
    have hsub3 : (inputAssets mi st.unblinded sel).dedup ⊆
        [w.config.policyAsset, mo.asset, mi.asset] := fun a ha => by
      rw [List.mem_dedup, hA] at ha
      rcases List.mem_cons.1 ha with rfl | ha
      · simp
      · obtain ⟨u, hu, rfl⟩ := List.mem_map.1 ha
        exact (hadded u hu).2
    exact ((List.nodup_dedup _).subperm hsub3).length_le
  have hlen : outs.length ≤ (inputAssets mi st.unblinded sel).dedup.length := by
    rw [← hF.length_eq, (ord.changes.perm res).length_eq, ← List.length_map res Prod.fst]
    exact (hnd.subperm fun a ha => List.mem_dedup.2 (hsub a ha)).length_le
  show outs.length ≤ (UInt8.ofNat (inputAssets mi st.unblinded sel).dedup.length).toNat
  rwa [UInt8.toNat_ofNat_of_lt (lt_of_le_of_lt h3 (by decide))]

/-- **The blinding and signing stages**: the transaction returned has the version and lock
time of the proposal's, input 0 of the proposal first, and the inputs of `core` after; its
outputs are output 0 of the proposal with proofs added, the other outputs of `core`
blinded, and the fee output; the blinds of the secrets behind the outputs balance those
of the inputs' secrets. -/
theorem TakeRun.blinded_shape
    (hr : TakeRun S K C codec w st p mnemonic ord rng ptx mo mi st' sel core fee blinded tx) :
    ∃ (i₀ : TxIn) (o₀ o₀' : TxOut) (es : List TxOut) (bs : List (TxOut × TxOutSecrets))
      (ins : List TxOutSecrets),
      ptx.input = [i₀] ∧ ptx.output = [o₀] ∧
      o₀.asset = .confidential (S.newBlinded mo.asset mo.assetBf) ∧
      o₀.value = .confidential (mo.commitment S) ∧ (∃ pk, o₀.nonce = .confidential pk) ∧
      core.output = o₀ :: es ∧
      tx.version = ptx.version ∧ tx.lockTime = ptx.lockTime ∧ tx.input.head? = some i₀ ∧
      tx.input.map (·.previousOutput) = core.input.map (·.previousOutput) ∧
      tx.output = (o₀' :: bs.map Prod.fst) ++ [feeOutput w.config.policyAsset fee] ∧
      (∃ sp rp, o₀' = { o₀ with witness :=
        { o₀.witness with surjectionProof := some sp, rangeproof := some rp } }) ∧
      OutputProofs S (inputDomain S ins) o₀' mo ∧
      List.Forall₂ (fun o b => BlindedOutput S (inputDomain S ins) o b.1 b.2) es bs ∧
      takeInputSecrets mi st.unblinded 0 tx.input = .ok ins ∧
      blindSum (mo.commitmentSecrets :: bs.map (·.2.commitmentSecrets)) =
        blindSum (ins.map TxOutSecrets.commitmentSecrets) := by
  obtain ⟨i₀, o₀, o₁, added, hi, ho, hw, hsel, -, -⟩ := hr.selected
  obtain ⟨-, -, -, i₀', o₀', hi', ho', ha, hv⟩ := takeProposal_ok hr.proposal
  rw [hi, List.singleton_inj] at hi'
  rw [ho, List.singleton_inj] at ho'
  subst hi' ho'
  obtain ⟨-, -, -, changes, hcore, hfees, -⟩ := hr.settled
  have hU := hr.unblinded_eq
  have hb := hr.blind
  rw [hU] at hb
  subst hsel hcore
  obtain ⟨ins, hins, o₀', bs, rfl, hw₀, hP, hn, hF, hbal⟩ := liquidexTakeBlind_ok
    (show _ = o₀ :: ((o₁ :: changes) ++ [feeOutput w.config.policyAsset fee]) by simp)
    ⟨_, hv⟩ (by simpa [hw.2.2] using hfees) (List.cons_ne_nil _ _) rfl hb
  have hs := liquidexTakeSign_ok hr.sign
  refine ⟨i₀, o₀, o₀', o₁ :: changes, bs, ins, hi, ho, ha, hv, hn, by simp, hs.version,
    hs.lockTime, by rw [hs.head]; rfl, hs.outpoints, by rw [hs.output]; simp, hw₀, hP, hF,
    by rw [takeInputSecrets_congr hs.outpoints]; exact hins, hbal⟩

/-- **The inputs**: the maker's, then UTXOs of the list `utxos` gave, all outpoints
distinct. -/
theorem TakeRun.spends
    (hr : TakeRun S K C codec w st p mnemonic ord rng ptx mo mi st' sel core fee blinded tx) :
    ∃ (i₀ : TxIn) (utxs added : List UnblindedTXO), ptx.input = [i₀] ∧
      utxos C codec w st' = .ok utxs ∧ (∀ u ∈ added, u ∈ utxs) ∧
      tx.input.map (·.previousOutput) = i₀.previousOutput :: added.map (·.txo.outpoint) ∧
      (tx.input.map (·.previousOutput)).Nodup := by
  obtain ⟨-, -, -, i₀, _, hi, -⟩ := takeProposal_ok hr.proposal
  obtain ⟨_, _, utxs, -, h₁, hu, hsel⟩ := hr.select
  obtain ⟨_, -, rfl⟩ := addOutput_ok h₁
  rw [liquidexTakeSelect_eq (by exact hi)] at hsel
  obtain ⟨hnd, -, added, hadded, rfl⟩ :=
    selectInputs_ok (selInv_liquidexTake utxs (by exact hi)) hsel
  obtain ⟨-, -, -, _, rfl, -⟩ := hr.settled
  obtain ⟨_, _, _, _, _, _, -, -, -, -, -, -, -, -, -, hins, -⟩ := hr.blinded_shape
  have hmap : tx.input.map (·.previousOutput) =
      i₀.previousOutput :: added.map (·.txo.outpoint) := by
    rw [hins]; simp [hi]
  exact ⟨i₀, utxs, added, hi, hu, fun u hu => (hadded u hu).1, hmap, by rw [hins]; exact hnd⟩

/-- **The change stage, blinded**: past the taker's output 1 and before the fee output,
the outputs are the wallet outputs the change loop appended for what `liquidex_changes`
returned, blinded. -/
theorem TakeRun.changeOutputs
    (hr : TakeRun S K C codec w st p mnemonic ord rng ptx mo mi st' sel core fee blinded tx) :
    ∃ (o₀ o₁ : TxOut) (res : HashMap AssetId UInt64) (outs : List TxOut)
      (bs : List (TxOut × TxOutSecrets)),
      tx.output = o₀ :: o₁ :: (bs.map Prod.fst ++ [feeOutput w.config.policyAsset fee]) ∧
      liquidexChanges C mi mo sel (liquidexFeeEstimate C mi st'.unblinded sel takeFeeRate)
        w.config.policyAsset st'.unblinded = .ok res ∧
      List.Forall₂ IsWalletOutput (ord.changes.order res) outs ∧
      (∀ k o, outs[k]? = some o → ∃ pk,
        K.derivePub w.xpub [1, st'.indexes.internal + UInt32.ofNat k + 1] = .ok pk ∧
        o.scriptPubkey = p2shwpkhScript S pk) ∧
      ∃ D, List.Forall₂ (fun o b => BlindedOutput S D o b.1 b.2) outs bs := by
  obtain ⟨_, o₀, o₁, _, -, ho, -, hsel, -⟩ := hr.selected
  obtain ⟨res, outs, hres, hcore, hW, hidx, -⟩ := takeSettle_ok hr.settle
  obtain ⟨_, o₀', o₀'', es, bs, _, -, ho', -, -, -, hces, -, -, -, -, hout, -, -, hB, -⟩ :=
    hr.blinded_shape
  rw [ho, List.singleton_inj] at ho'
  subst ho' hsel hcore
  obtain rfl : es = o₁ :: outs := (List.cons.inj hces).2.symm
  obtain ⟨b₁, bs', -, hB', rfl⟩ := List.forall₂_cons_left_iff.1 hB
  exact ⟨o₀'', b₁.1, res, outs, bs', by rw [hout]; rfl, hres, hW, hidx, _, hB'⟩

/-- **The change outputs**: between the taker's output 1 and the fee output, the outputs
pay the wallet's internal chain at `internal + 1`, `internal + 2`, … in order. -/
theorem TakeRun.changes
    (hr : TakeRun S K C codec w st p mnemonic ord rng ptx mo mi st' sel core fee blinded tx) :
    ∃ (o₀ o₁ : TxOut) (chs : List TxOut),
      tx.output = o₀ :: o₁ :: (chs ++ [feeOutput w.config.policyAsset fee]) ∧
      ∀ k o, chs[k]? = some o → ∃ pk,
        K.derivePub w.xpub [1, st.indexes.internal + UInt32.ofNat k + 1] = .ok pk ∧
        o.scriptPubkey = p2shwpkhScript S pk := by
  obtain ⟨o₀, o₁, _, _, bs, hout, -, -, hidx, _, hB⟩ := hr.changeOutputs
  obtain ⟨_, _, _, hg, -⟩ := hr.select
  -- `get_address` moved the external index only
  obtain ⟨⟨_, rfl⟩, -⟩ := getAddress_spec hg
  refine ⟨o₀, o₁, bs.map Prod.fst, hout, fun k o hk => ?_⟩
  rw [List.getElem?_map, Option.map_eq_some'] at hk
  obtain ⟨b, hb, rfl⟩ := hk
  obtain ⟨a, ha, hab⟩ := exists_getElem?_of_forall₂ hB hb
  rw [hab.script]
  exact hidx k a ha

end

/-! ## A sample run

The maker gives 1000 of `assetA` for 500 of `assetB`; the taker's wallet holds one
output of 500 `assetB` and one of the policy asset, of `policy` satoshi. -/

namespace Sample

def makerInput : TxOutSecrets := ⟨assetA, 5, 1000, 6⟩

def makerOutput : TxOutSecrets := ⟨assetB, 7, 500, 8⟩

/-- The maker's signed transaction, its output blinded with the maker's output secrets. -/
def proposalTx : Transaction :=
  ⟨2, 0, [⟨⟨List.replicate 32 0x44, 0⟩, [0x16], [[0x30], [0x02]]⟩],
    [{ asset := .confidential (Secp.ref.newBlinded assetB 7),
       value := .confidential (pedersen 500 8 (Secp.ref.newBlinded assetB 7)),
       nonce := .confidential ⟨0x02 :: List.replicate 32 7, by simp⟩,
       scriptPubkey := [0xa9, 0x03] }]⟩

def proposal : LiquidexProposal :=
  LiquidexProposal.new TxCodec.ref proposalTx makerInput makerOutput

/-- The transaction that funded the taker's wallet. -/
def fundingTx (policy : UInt64) : Transaction :=
  ⟨2, 7, [⟨⟨List.replicate 32 0x55, 0⟩, [], []⟩],
    [{ asset := .explicit assetB, value := .explicit 500, scriptPubkey := [0xa9, 0x01] },
     { asset := .explicit policyAsset, value := .explicit policy, scriptPubkey := [0xa9, 0x02] }]⟩

def store (policy : UInt64) : StoreCache :=
  let txid := TxCodec.ref.txid (fundingTx policy)
  { allTxs := [(txid, fundingTx policy)],
    unblinded := [(⟨txid, 0⟩, ⟨assetB, 1, 500, 2⟩),
      (⟨txid, 1⟩, ⟨policyAsset, 3, policy, 4⟩)],
    heights := [(txid, some 1)],
    paths := [([0xa9, 0x01], [0, 1]), ([0xa9, 0x02], [0, 2])],
    indexes := ⟨0, 0⟩,
    spent := [] }

def orders : TakeOrders := ⟨fun _ => HashIter.insertion _, HashIter.insertion _⟩

def blindRng : BlindRng := ⟨fun i => (i + 9 : Nat), fun i => i⟩

theorem takeProposal_proposal :
    takeProposal Secp.ref TxCodec.ref proposal = .ok (proposalTx, makerOutput, makerInput) := by
  have ht : proposal.transaction TxCodec.ref = .ok proposalTx :=
    LiquidexProposal.transaction_new _ _ _ _
  have hv : proposal.verifyOutputCommitment Secp.ref TxCodec.ref = .ok makerOutput :=
    LiquidexProposal.verifyOutputCommitment_new _ _ rfl rfl rfl rfl
  rw [takeProposal, ht, hv]
  rfl

/-- With 2000 satoshi of the policy asset the taker's run returns. -/
theorem liquidexTake_isOk :
    (liquidexTake Secp.ref Keys.ref Crate.ref TxCodec.ref wallet (store 2000) proposal ""
      orders blindRng).1.isOk = true := by
  rw [liquidexTake, takeProposal_proposal]
  decide

/-- **`liquidex_take` panics on an accepted proposal.**  The two assets swapped are not the
policy asset, and the 600 satoshi of it the taker adds for the fee leave a change of 520,
below the dust value: no output carries the policy asset, and `liquidex_fee` unwraps the
`None` of its amount. -/
theorem liquidexTake_panics_without_policy_output :
    proposal.verifyOutputCommitment Secp.ref TxCodec.ref = .ok makerOutput ∧
    proposal.getInput = .ok makerInput ∧
    (liquidexTake Secp.ref Keys.ref Crate.ref TxCodec.ref wallet (store 600) proposal ""
      orders blindRng).1 = .error (.panic "called `Option::unwrap()` on a `None` value") := by
  refine ⟨LiquidexProposal.verifyOutputCommitment_new _ _ rfl rfl rfl rfl, rfl, ?_⟩
  rw [liquidexTake, takeProposal_proposal]
  decide

/-- A funding transaction that paid one address of the taker twice in `assetB`. -/
def reuseFundingTx : Transaction :=
  ⟨2, 8, [⟨⟨List.replicate 32 0x56, 0⟩, [], []⟩],
    [{ asset := .explicit assetB, value := .explicit 300, scriptPubkey := [0xa9, 0x01] },
     { asset := .explicit assetB, value := .explicit 250, scriptPubkey := [0xa9, 0x01] },
     { asset := .explicit policyAsset, value := .explicit 2000, scriptPubkey := [0xa9, 0x02] }]⟩

def reuseStore : StoreCache :=
  let txid := TxCodec.ref.txid reuseFundingTx
  { allTxs := [(txid, reuseFundingTx)],
    unblinded := [(⟨txid, 0⟩, ⟨assetB, 1, 300, 2⟩),
      (⟨txid, 1⟩, ⟨assetB, 3, 250, 4⟩), (⟨txid, 2⟩, ⟨policyAsset, 5, 2000, 6⟩)],
    heights := [(txid, some 1)],
    paths := [([0xa9, 0x01], [0, 1]), ([0xa9, 0x02], [0, 2])],
    indexes := ⟨0, 0⟩,
    spent := [] }

/-- **The selection spends one script twice.**  No `assetB` output of the wallet covers
the 500 the maker asks, so the loop takes the output of 300 and then the one of 250, both
paying the same script. -/
theorem liquidexTake_spends_one_script_twice :
    (liquidexTake Secp.ref Keys.ref Crate.ref TxCodec.ref wallet reuseStore proposal "" orders
      blindRng).1.map (fun tx => tx.input.map (·.previousOutput)) =
      .ok [⟨List.replicate 32 0x44, 0⟩, ⟨TxCodec.ref.txid reuseFundingTx, 2⟩,
        ⟨TxCodec.ref.txid reuseFundingTx, 0⟩, ⟨TxCodec.ref.txid reuseFundingTx, 1⟩] ∧
    reuseFundingTx.output[0]?.map (·.scriptPubkey) =
      reuseFundingTx.output[1]?.map (·.scriptPubkey) := by
  refine ⟨?_, rfl⟩
  rw [liquidexTake, takeProposal_proposal]
  decide

end Sample

/-! ## Results -/

section

variable {S : Secp} {K : Keys} {C : Crate} {codec : TxCodec} {w : WalletCtx}
  {st : StoreCache} {p : LiquidexProposal} {mnemonic : String} {ord : TakeOrders}
  {rng : BlindRng} {tx : Transaction}

/-- **`liquidex_take` conserves value.**  Count input 0 with the maker's declared input
secrets and the other inputs with the store's records of their outpoints; count output 0
with the maker's output secrets and the others with the explicit amounts they had in
`core`, the transaction before its blinding.  Then every asset's inputs pay its outputs,
and for the policy asset also the fee `F` of the output appended last; `F` is the fee `E`
estimated after the selection, or above it by at most the dust value; and the change
outputs added after the estimate are no more than its change slots. -/
theorem liquidexTake_conserves_value
    (h : (liquidexTake S K C codec w st p mnemonic ord rng).1 = .ok tx) :
    ∃ ptx mo mi st' sel core fee blinded,
      TakeRun S K C codec w st p mnemonic ord rng ptx mo mi st' sel core fee blinded tx ∧
      p.verifyOutputCommitment S codec = .ok mo ∧ p.getInput = .ok mi ∧
      (∀ i ∈ tx.input.tail, (st.unblinded.get i.previousOutput).isSome) ∧
      List.Forall₂ (fun o o' => ∃ D u, BlindedOutput S D o o' u) core.output.tail
        tx.output.dropLast.tail ∧
      tx.output.getLast? = some (feeOutput w.config.policyAsset fee) ∧
      (∀ a, inSum mi st.unblinded tx a =
        outSum mo core a + if a = w.config.policyAsset then fee.toNat else 0) ∧
      (liquidexFeeEstimate C mi st.unblinded sel takeFeeRate).toNat ≤ fee.toNat ∧
      fee.toNat ≤ (liquidexFeeEstimate C mi st.unblinded sel takeFeeRate).toNat +
        C.dustValue.toNat ∧
      ∃ changes, core.output = sel.output ++ changes ∧
        changes.length ≤ (estimatedChangeSlots mi st.unblinded sel).toNat := by
  obtain ⟨ptx, mo, mi, st', sel, core, fee, blinded, hr⟩ := liquidexTake_ok h
  obtain ⟨-, hmo, hmi, -⟩ := takeProposal_ok hr.proposal
  obtain ⟨hcons, hE, hF, changes, hcore, -, hslots⟩ := hr.settled
  obtain ⟨_, _, _, es, bs, _, -, -, -, -, -, hes, -, -, -, hin, hout, -, -, hB, hins, -⟩ :=
    hr.blinded_shape
  refine ⟨ptx, mo, mi, st', sel, core, fee, blinded, hr, hmo, hmi, takeInputSecrets_records hins,
    ?_, by rw [hout, List.getLast?_concat], fun a => (inSum_congr hin a).trans (hcons a), hE, hF,
    changes, by rw [hcore], hslots⟩
  rw [hes, hout, List.tail_cons, List.dropLast_concat, List.tail_cons,
    List.forall₂_map_right_iff]
  exact hB.imp fun _ b hb => ⟨_, b.2, hb⟩

open Sample in
theorem liquidexTake_conserves_value_sample :
    ∃ tx, (liquidexTake Secp.ref Keys.ref Crate.ref TxCodec.ref wallet (store 2000) proposal ""
      orders blindRng).1 = .ok tx ∧
      ∃ ptx mo mi st' sel core fee blinded,
        TakeRun Secp.ref Keys.ref Crate.ref TxCodec.ref wallet (store 2000) proposal "" orders
          blindRng ptx mo mi st' sel core fee blinded tx ∧
        proposal.verifyOutputCommitment Secp.ref TxCodec.ref = .ok mo ∧
        proposal.getInput = .ok mi ∧
        (∀ i ∈ tx.input.tail, ((store 2000).unblinded.get i.previousOutput).isSome) ∧
        List.Forall₂ (fun o o' => ∃ D u, BlindedOutput Secp.ref D o o' u) core.output.tail
          tx.output.dropLast.tail ∧
        tx.output.getLast? = some (feeOutput wallet.config.policyAsset fee) ∧
        (∀ a, inSum mi (store 2000).unblinded tx a =
          outSum mo core a + if a = wallet.config.policyAsset then fee.toNat else 0) ∧
        (liquidexFeeEstimate Crate.ref mi (store 2000).unblinded sel takeFeeRate).toNat ≤
          fee.toNat ∧
        fee.toNat ≤
          (liquidexFeeEstimate Crate.ref mi (store 2000).unblinded sel takeFeeRate).toNat +
            Crate.ref.dustValue.toNat ∧
        ∃ changes, core.output = sel.output ++ changes ∧
          changes.length ≤ (estimatedChangeSlots mi (store 2000).unblinded sel).toNat :=
  let ⟨tx, h⟩ := exists_eq_ok_of_isOk liquidexTake_isOk
  ⟨tx, h, liquidexTake_conserves_value h⟩

/-- **`liquidex_take` keeps the maker's pair.**  The transaction returned has the version
and lock time of the proposal's transaction, its input 0 unchanged, script and witness
included, with the taker's inputs after it; and its output 0 is the proposal's, the
surjection and range proofs added to its witness and nothing else changed.  So the
maker's `SIGHASH_SINGLE|ANYONECANPAY` signature on input 0 still covers what it signed. -/
theorem liquidexTake_keeps_maker_pair
    (h : (liquidexTake S K C codec w st p mnemonic ord rng).1 = .ok tx) :
    ∃ ptx i₀ o₀, p.transaction codec = .ok ptx ∧ ptx.input = [i₀] ∧ ptx.output = [o₀] ∧
      tx.version = ptx.version ∧ tx.lockTime = ptx.lockTime ∧ tx.input.head? = some i₀ ∧
      ∃ sp rp, tx.output.head? = some { o₀ with witness :=
        { o₀.witness with surjectionProof := some sp, rangeproof := some rp } } := by
  obtain ⟨ptx, mo, mi, st', sel, core, fee, blinded, hr⟩ := liquidexTake_ok h
  obtain ⟨hptx, -⟩ := takeProposal_ok hr.proposal
  obtain ⟨i₀, o₀, _, _, _, _, hi, ho, -, -, -, -, hver, hlt, hhead, -, hout, ⟨sp, rp, rfl⟩,
    -⟩ := hr.blinded_shape
  exact ⟨ptx, i₀, o₀, hptx, hi, ho, hver, hlt, hhead, sp, rp, by rw [hout]; rfl⟩

open Sample in
theorem liquidexTake_keeps_maker_pair_sample :
    ∃ tx, (liquidexTake Secp.ref Keys.ref Crate.ref TxCodec.ref wallet (store 2000) proposal ""
      orders blindRng).1 = .ok tx ∧
      ∃ ptx i₀ o₀, proposal.transaction TxCodec.ref = .ok ptx ∧ ptx.input = [i₀] ∧
        ptx.output = [o₀] ∧
        tx.version = ptx.version ∧ tx.lockTime = ptx.lockTime ∧ tx.input.head? = some i₀ ∧
        ∃ sp rp, tx.output.head? = some { o₀ with witness :=
          { o₀.witness with surjectionProof := some sp, rangeproof := some rp } } :=
  let ⟨tx, h⟩ := exists_eq_ok_of_isOk liquidexTake_isOk
  ⟨tx, h, liquidexTake_keeps_maker_pair h⟩

/-- **`liquidex_take` spends no coin of the taker's but its own, signed.**  When `liquidex_take`
returns `tx`, the inputs of `tx` spend distinct outpoints: input 0 the proposal's, and
each later one a UTXO of the taker's wallet, one `utxos` lists (unspent, with its
unblinded record); and each later input carries the taker's signature, made with the key
of `mnemonic` at the store's path for the output it spends. -/
theorem liquidexTake_spends_own_utxos
    (h : (liquidexTake S K C codec w st p mnemonic ord rng).1 = .ok tx) :
    ∃ (ptx : Transaction) (i₀ : TxIn) (added : List UnblindedTXO) (xprv : ExtendedKey),
      p.transaction codec = .ok ptx ∧ ptx.input = [i₀] ∧
      tx.input.map (·.previousOutput) = i₀.previousOutput :: added.map (·.txo.outpoint) ∧
      (tx.input.map (·.previousOutput)).Nodup ∧ (∀ u ∈ added, IsWalletUtxo C codec w st u) ∧
      mnemonic2xprv K mnemonic w.config = .ok xprv ∧
      ∀ i, 0 < i → i < tx.input.length → SignedInput S K st xprv tx i := by
  obtain ⟨ptx, mo, mi, st', sel, core, fee, blinded, hr⟩ := liquidexTake_ok h
  obtain ⟨i₀, utxs, added, hi, hu, hadded, hmap, hnd⟩ := hr.spends
  obtain ⟨xprv, hx, hsigned⟩ := liquidexTakeSign_signs hr.sign
  obtain ⟨_, _, _, hg, -⟩ := hr.select
  -- `get_address` moved the external index only, which neither `utxos` nor signing reads
  obtain ⟨⟨_, rfl⟩, -⟩ := getAddress_spec hg
  exact ⟨ptx, i₀, added, xprv, (takeProposal_ok hr.proposal).1, hi, hmap, hnd,
    fun u hu' => (mem_utxos_iff hu u).1 (hadded u hu'), hx, hsigned⟩

open Sample in
theorem liquidexTake_spends_own_utxos_sample :
    ∃ tx, (liquidexTake Secp.ref Keys.ref Crate.ref TxCodec.ref wallet (store 2000) proposal ""
      orders blindRng).1 = .ok tx ∧
      ∃ (ptx : Transaction) (i₀ : TxIn) (added : List UnblindedTXO) (xprv : ExtendedKey),
        proposal.transaction TxCodec.ref = .ok ptx ∧ ptx.input = [i₀] ∧
        tx.input.map (·.previousOutput) = i₀.previousOutput :: added.map (·.txo.outpoint) ∧
        (tx.input.map (·.previousOutput)).Nodup ∧
        (∀ u ∈ added, IsWalletUtxo Crate.ref TxCodec.ref wallet (store 2000) u) ∧
        mnemonic2xprv Keys.ref "" wallet.config = .ok xprv ∧
        ∀ i, 0 < i → i < tx.input.length → SignedInput Secp.ref Keys.ref (store 2000) xprv tx i :=
  let ⟨tx, h⟩ := exists_eq_ok_of_isOk liquidexTake_isOk
  ⟨tx, h, liquidexTake_spends_own_utxos h⟩

end

end BEWallet
