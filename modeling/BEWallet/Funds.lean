import Mathlib.Algebra.Order.BigOperators.Group.List
import BEWallet.Liquidex.Make

/-!
# Funds: `utxos` and `balance`

`utxos` walks the `heights` map: for each transaction it lists the outputs that are
not spent, have an unblinded record and are not policy-asset dust, and it sorts the
whole list by decreasing value.  `balance` starts from the policy asset at 0 and adds
each listed UTXO's value to its asset's entry.

    utxos … = .ok us → us sorted by decreasing value, and u ∈ us exactly when u is an
      unspent, recorded, non-dust output of a transaction of `heights`     (utxos_spec)
    utxos … = .ok us → balance … = .ok m ↔ every asset's total fits in a u64,
      and then m holds each asset's total, the policy asset always   (balance_spec)
    WellIndexed codec st → utxos … = .ok us → no outpoint twice in us
                                                            (utxos_outpoints_nodup)
-/

namespace BEWallet

open HashMap

/-- What the loop of `balance` adds for a UTXO: its asset and value. -/
def utxoEntry (_ : Nat) (u : UnblindedTXO) : Option (AssetId × UInt64) :=
  some (u.unblinded.asset, u.unblinded.value)

section

variable (C : Crate) (codec : TxCodec) (w : WalletCtx)

/-- `balance`: `result.entry(policy_asset).or_insert(0)`, then
`*result.entry(u.unblinded.asset).or_default() += u.unblinded.value` for each UTXO, on
`u64`. -/
def balance (st : StoreCache) : Except Fault (HashMap AssetId UInt64) := do
  let result : HashMap AssetId UInt64 := [(w.config.policyAsset, 0)]
  let us ← utxos C codec w st
  sumLoop utxoEntry "" 0 us result

end

/-- The amount of asset `a` the UTXOs hold, summed in `Nat`. -/
def assetTotal (us : List UnblindedTXO) (a : AssetId) : Nat :=
  ((us.filter fun u => u.unblinded.asset = a).map fun u => u.unblinded.value.toNat).sum

/-- An output the wallet can spend: output `vout` of the transaction `tx` that `heights`
lists with `height`, not spent, with its unblinded record, and not dust of the policy
asset. -/
def IsWalletUtxo (C : Crate) (codec : TxCodec) (w : WalletCtx) (st : StoreCache)
    (u : UnblindedTXO) : Prop :=
  ∃ txId height tx vout output, (txId, height) ∈ st.heights ∧ st.allTxs.get txId = some tx ∧
    tx.output[vout]? = some output ∧
    u.txo = ⟨⟨codec.txid tx, UInt32.ofNat vout⟩, output.scriptPubkey, height⟩ ∧
    u.txo.outpoint ∉ st.spent ∧ st.unblinded.get u.txo.outpoint = some u.unblinded ∧
    ¬(u.unblinded.value < C.dustValue ∧ u.unblinded.asset = w.config.policyAsset)

/-- A store whose `heights` map holds each txid once, as a `HashMap` does, and whose
`all_txs` holds each transaction `heights` lists under its own txid, with at most
`u32::MAX + 1` outputs, so that `vout as u32` does not wrap. -/
structure WellIndexed (codec : TxCodec) (st : StoreCache) : Prop where
  nodup : (keys st.heights).Nodup
  txid : ∀ e ∈ st.heights, ∀ tx, st.allTxs.get e.1 = some tx → codec.txid tx = e.1
  outputs : ∀ e ∈ st.heights, ∀ tx, st.allTxs.get e.1 = some tx → tx.output.length ≤ 2 ^ 32

instance (codec : TxCodec) (st : StoreCache) : Decidable (WellIndexed codec st) :=
  decidable_of_iff ((keys st.heights).Nodup ∧ ∀ e ∈ st.heights, ∀ tx ∈ st.allTxs.get e.1,
      codec.txid tx = e.1 ∧ tx.output.length ≤ 2 ^ 32)
    ⟨fun ⟨hn, h⟩ => ⟨hn, fun e he tx hg => (h e he tx hg).1, fun e he tx hg => (h e he tx hg).2⟩,
      fun h => ⟨h.nodup, fun e he tx hg => ⟨h.txid e he tx hg, h.outputs e he tx hg⟩⟩⟩

/-! ## Lemmas -/

section

variable {C : Crate} {codec : TxCodec} {w : WalletCtx} {st : StoreCache}

theorem mem_txTxos_iff {tx : Transaction} {height : Option UInt32} {u : UnblindedTXO} :
    u ∈ txTxos C codec w st tx height ↔ ∃ vout output, tx.output[vout]? = some output ∧
      u.txo = ⟨⟨codec.txid tx, UInt32.ofNat vout⟩, output.scriptPubkey, height⟩ ∧
      u.txo.outpoint ∉ st.spent ∧ st.unblinded.get u.txo.outpoint = some u.unblinded ∧
      ¬(u.unblinded.value < C.dustValue ∧ u.unblinded.asset = w.config.policyAsset) := by
  simp only [txTxos, List.mem_filterMap, List.mem_map, Prod.exists, List.mem_enum_iff_getElem?]
  constructor
  · rintro ⟨o, out, ⟨vout, output, hout, he⟩, hu⟩
    obtain ⟨rfl, rfl⟩ := Prod.mk.inj he
    split at hu; · cases hu
    split at hu
    · split at hu; · cases hu
      cases hu
      exact ⟨vout, output, hout, rfl, ‹_›, ‹_›, ‹_›⟩
    · cases hu
  · rintro ⟨vout, output, hout, htxo, hsp, hrec, hdust⟩
    refine ⟨_, output, ⟨vout, output, hout, rfl⟩, ?_⟩
    obtain ⟨⟨o, s, h⟩, r⟩ := u
    cases htxo
    simp only at hsp hrec hdust
    simp [hsp, hrec, hdust]

theorem utxosLoop_ok {l : HashMap Bytes (Option UInt32)} {txos : List UnblindedTXO}
    (h : utxosLoop C codec w st l = .ok txos) (u : UnblindedTXO) :
    u ∈ txos ↔ ∃ txId height tx, (txId, height) ∈ l ∧ st.allTxs.get txId = some tx ∧
      u ∈ txTxos C codec w st tx height := by
  induction l generalizing txos with
  | nil => cases h; simp
  | cons e rest ih =>
    obtain ⟨txId, height⟩ := e
    simp only [utxosLoop] at h
    obtain ⟨tx, htx, h⟩ := bind_eq_ok.1 h
    obtain ⟨more, hmore, h⟩ := bind_eq_ok.1 h
    cases h
    rw [okOr_eq_ok] at htx
    simp only [List.mem_append, ih hmore, List.mem_cons, Prod.mk.injEq]
    constructor
    · rintro (hu | ⟨t, hh, tx', hl, hg, hu⟩)
      · exact ⟨txId, height, tx, .inl ⟨rfl, rfl⟩, htx, hu⟩
      · exact ⟨t, hh, tx', .inr hl, hg, hu⟩
    · rintro ⟨t, hh, tx', ⟨rfl, rfl⟩ | hl, hg, hu⟩
      · rw [htx] at hg; cases hg; exact .inl hu
      · exact .inr ⟨t, hh, tx', hl, hg, hu⟩

/-- The loop returns exactly when every transaction the map lists is in `all_txs`. -/
theorem utxosLoop_returns_iff (l : HashMap Bytes (Option UInt32)) :
    (∃ txos, utxosLoop C codec w st l = .ok txos) ↔ ∀ e ∈ l, (st.allTxs.get e.1).isSome := by
  induction l with
  | nil => exact ⟨fun _ _ he => (by cases he), fun _ => ⟨[], rfl⟩⟩
  | cons e rest ih =>
    cases hg : st.allTxs.get e.1 with
    | none => simp [utxosLoop, hg, okOr, throwErr, bind, Except.bind]
    | some tx =>
      simp only [List.forall_mem_cons, hg, Option.isSome_some, true_and, ← ih]
      constructor
      · rintro ⟨txos, h⟩
        simp only [utxosLoop, hg, okOr] at h
        obtain ⟨_, -, h⟩ := bind_eq_ok.1 h
        obtain ⟨more, hmore, -⟩ := bind_eq_ok.1 h
        exact ⟨more, hmore⟩
      · rintro ⟨more, hmore⟩
        exact ⟨txTxos C codec w st tx e.2 ++ more,
          by simp [utxosLoop, hg, okOr, hmore, bind, Except.bind, pure, Except.pure]⟩

/-- A UTXO list `utxos` returns holds exactly the outputs the wallet can spend. -/
theorem mem_utxos_iff {us : List UnblindedTXO} (h : utxos C codec w st = .ok us)
    (u : UnblindedTXO) : u ∈ us ↔ IsWalletUtxo C codec w st u := by
  obtain ⟨txos, htxos, h⟩ := bind_eq_ok.1 h
  cases h
  rw [(List.perm_insertionSort _ _).mem_iff, utxosLoop_ok htxos, IsWalletUtxo]
  simp only [mem_txTxos_iff]
  constructor
  · rintro ⟨txId, height, tx, hl, hg, vout, output, hout, rest⟩
    exact ⟨txId, height, tx, vout, output, hl, hg, hout, rest⟩
  · rintro ⟨txId, height, tx, vout, output, hl, hg, hout, rest⟩
    exact ⟨txId, height, tx, hl, hg, vout, output, hout, rest⟩

/-- **What `utxos` lists.**  When it returns, the list is sorted by decreasing value, and
it holds exactly the outputs the wallet can spend: unspent outputs, with their unblinded
records, of the transactions `heights` lists, leaving out policy-asset dust.  It returns
exactly when every transaction `heights` lists is in `all_txs`. -/
theorem utxos_spec :
    (∀ us, utxos C codec w st = .ok us →
      us.Sorted (fun a b => b.unblinded.value ≤ a.unblinded.value) ∧
      ∀ u, u ∈ us ↔ IsWalletUtxo C codec w st u) ∧
    ((∃ us, utxos C codec w st = .ok us) ↔ ∀ e ∈ st.heights, (st.allTxs.get e.1).isSome) := by
  have htot : IsTotal UnblindedTXO fun a b => b.unblinded.value ≤ a.unblinded.value :=
    ⟨fun a b => by simp only [u64_le_iff]; omega⟩
  have htr : IsTrans UnblindedTXO fun a b => b.unblinded.value ≤ a.unblinded.value :=
    ⟨fun _ _ _ h1 h2 => u64_le_iff.2 (Nat.le_trans h2 h1)⟩
  refine ⟨fun us h => ?_, ⟨fun ⟨us, h⟩ => ?_, fun hall => ?_⟩⟩
  · refine ⟨?_, mem_utxos_iff h⟩
    obtain ⟨txos, -, h⟩ := bind_eq_ok.1 h
    cases h
    exact List.sorted_insertionSort _ _
  · rw [← utxosLoop_returns_iff]
    obtain ⟨txos, htxos, -⟩ := bind_eq_ok.1 h
    exact ⟨txos, htxos⟩
  · obtain ⟨txos, htxos⟩ := (utxosLoop_returns_iff st.heights).2 hall
    exact ⟨_, by rw [utxos, htxos]; rfl⟩

/-- A `filterMap` whose every result carries its source's first component keeps
distinct first components distinct. -/
theorem nodup_map_filterMap {α β γ : Type} {l : List (α × β)} {f : α × β → Option γ}
    {g : γ → α} (hf : ∀ a c, f a = some c → g c = a.1) (hl : (l.map Prod.fst).Nodup) :
    ((l.filterMap f).map g).Nodup := by
  induction l with
  | nil => exact List.nodup_nil
  | cons a l ih =>
    rw [List.map_cons, List.nodup_cons] at hl
    rw [List.filterMap_cons]
    cases hfa : f a with
    | none => exact ih hl.2
    | some c =>
      rw [List.map_cons, List.nodup_cons, hf a c hfa]
      refine ⟨fun hmem => hl.1 ?_, ih hl.2⟩
      obtain ⟨c', hc', he⟩ := List.mem_map.1 hmem
      obtain ⟨a', ha', hfa'⟩ := List.mem_filterMap.1 hc'
      exact List.mem_map.2 ⟨a', ha', by rw [← hf a' c' hfa', he]⟩

theorem txid_of_mem_txTxos {tx : Transaction} {height : Option UInt32} {u : UnblindedTXO}
    (h : u ∈ txTxos C codec w st tx height) : u.txo.outpoint.txid = codec.txid tx := by
  obtain ⟨_, _, -, htxo, -⟩ := mem_txTxos_iff.1 h
  rw [htxo]

/-- The outputs of one transaction have distinct outpoints while `vout as u32` does not
wrap. -/
theorem txTxos_outpoints_nodup {tx : Transaction} {height : Option UInt32}
    (h : tx.output.length ≤ 2 ^ 32) :
    ((txTxos C codec w st tx height).map (·.txo.outpoint)).Nodup := by
  refine nodup_map_filterMap (fun a u hu => ?_) ?_
  · obtain ⟨o, out⟩ := a
    simp only at hu
    split_ifs at hu
    split at hu
    · split_ifs at hu
      cases hu; rfl
    · cases hu
  · rw [List.map_map]
    have : (tx.output.enum.map (Prod.fst ∘ fun p : Nat × TxOut =>
        (OutPoint.mk (codec.txid tx) (UInt32.ofNat p.1), p.2))) =
        (List.range tx.output.length).map fun i => OutPoint.mk (codec.txid tx) (UInt32.ofNat i) := by
      rw [← List.enum_map_fst, List.map_map]; rfl
    rw [this]
    refine (List.nodup_range _).map_on fun i hi j hj he => ?_
    rw [List.mem_range] at hi hj
    have he : (UInt32.ofNat i).toNat = (UInt32.ofNat j).toNat := by rw [(OutPoint.mk.inj he).2]
    rwa [UInt32.toNat_ofNat_of_lt (by unfold UInt32.size; omega),
      UInt32.toNat_ofNat_of_lt (by unfold UInt32.size; omega)] at he

theorem utxosLoop_outpoints_nodup {l : HashMap Bytes (Option UInt32)} {txos : List UnblindedTXO}
    (hkeys : (keys l).Nodup)
    (hl : ∀ e ∈ l, ∀ tx, st.allTxs.get e.1 = some tx →
      codec.txid tx = e.1 ∧ tx.output.length ≤ 2 ^ 32)
    (h : utxosLoop C codec w st l = .ok txos) : (txos.map (·.txo.outpoint)).Nodup := by
  induction l generalizing txos with
  | nil => cases h; exact List.nodup_nil
  | cons e rest ih =>
    obtain ⟨txId, height⟩ := e
    simp only [utxosLoop] at h
    obtain ⟨tx, htx, h⟩ := bind_eq_ok.1 h
    obtain ⟨more, hmore, h⟩ := bind_eq_ok.1 h
    cases h
    rw [okOr_eq_ok] at htx
    rw [keys_cons, List.nodup_cons] at hkeys
    obtain ⟨hid, hlen⟩ := hl _ (List.mem_cons_self _ _) tx htx
    rw [List.map_append, List.nodup_append]
    refine ⟨txTxos_outpoints_nodup hlen,
      ih hkeys.2 (fun e he => hl e (List.mem_cons_of_mem _ he)) hmore, fun o ho ho' => ?_⟩
    obtain ⟨u, hu, rfl⟩ := List.mem_map.1 ho
    obtain ⟨u', hu', he⟩ := List.mem_map.1 ho'
    obtain ⟨t, th, tx', hmem, hg, hu''⟩ := (utxosLoop_ok hmore u').1 hu'
    have ht : t = txId := calc
      t = codec.txid tx' := (hl _ (List.mem_cons_of_mem _ hmem) tx' hg).1.symm
      _ = u.txo.outpoint.txid := by rw [← txid_of_mem_txTxos hu'', he]
      _ = txId := by rw [txid_of_mem_txTxos hu, hid]
    have hk : t ∈ keys rest := List.mem_map_of_mem Prod.fst hmem
    exact hkeys.1 (ht ▸ hk)

/-- **`utxos` lists each outpoint once** on a well-indexed store: `balance` counts no coin
twice, and the selection loops never see one coin twice. -/
theorem utxos_outpoints_nodup {us : List UnblindedTXO} (hw : WellIndexed codec st)
    (h : utxos C codec w st = .ok us) : (us.map (·.txo.outpoint)).Nodup := by
  obtain ⟨txos, htxos, h⟩ := bind_eq_ok.1 h
  cases h
  exact ((List.perm_insertionSort _ _).map _).nodup_iff.2 (utxosLoop_outpoints_nodup hw.nodup
    (fun e he tx hg => ⟨hw.txid e he tx hg, hw.outputs e he tx hg⟩) htxos)

/-- The maker's sample store lists its one transaction under its txid. -/
theorem Sample.makerStore_wellIndexed : WellIndexed TxCodec.ref Sample.makerStore := by
  decide

/-- An explicit output of the funds sample, to the script `[0xa9, s]`. -/
def Sample.fundsOut (a : AssetId) (v : UInt64) (s : UInt8) : TxOut :=
  { asset := .explicit a, value := .explicit v, scriptPubkey := [0xa9, s] }

/-- Pays 300 of `assetA` and 5000 of the policy asset. -/
def Sample.fundsTx₁ : Transaction :=
  ⟨2, 1, [⟨⟨List.replicate 32 0x61, 0⟩, [], []⟩],
    [fundsOut assetA 300 0x11, fundsOut policyAsset 5000 0x12]⟩

/-- Pays 700 of `assetB`, and 9 of it in an output the store has no record of. -/
def Sample.fundsTx₂ : Transaction :=
  ⟨2, 2, [⟨⟨List.replicate 32 0x62, 1⟩, [], []⟩],
    [fundsOut assetB 700 0x13, fundsOut assetB 9 0x14]⟩

/-- Spends output 0 of `fundsTx₁`; pays 250 of `assetA`, and 100 of the policy asset,
below the dust value. -/
def Sample.fundsTx₃ : Transaction :=
  ⟨2, 3, [⟨⟨TxCodec.ref.txid fundsTx₁, 0⟩, [], []⟩],
    [fundsOut assetA 250 0x15, fundsOut policyAsset 100 0x16]⟩

/-- A store of the three, the third unconfirmed. -/
def Sample.fundsStore : StoreCache :=
  let t₁ := TxCodec.ref.txid fundsTx₁
  let t₂ := TxCodec.ref.txid fundsTx₂
  let t₃ := TxCodec.ref.txid fundsTx₃
  { allTxs := [(t₁, fundsTx₁), (t₂, fundsTx₂), (t₃, fundsTx₃)],
    unblinded := [(⟨t₁, 0⟩, ⟨assetA, 1, 300, 2⟩), (⟨t₁, 1⟩, ⟨policyAsset, 3, 5000, 4⟩),
      (⟨t₂, 0⟩, ⟨assetB, 5, 700, 6⟩), (⟨t₃, 0⟩, ⟨assetA, 7, 250, 8⟩),
      (⟨t₃, 1⟩, ⟨policyAsset, 9, 100, 10⟩)],
    heights := [(t₁, some 1), (t₂, some 2), (t₃, none)],
    paths := [],
    indexes := ⟨0, 0⟩,
    spent := [⟨t₁, 0⟩] }

/-- The spent output, the dust output and the one without a record are left out. -/
example : (utxos Crate.ref TxCodec.ref Sample.wallet Sample.fundsStore).map
    (·.map (·.unblinded.value)) = .ok [5000, 700, 250] := by
  decide

open Sample in
theorem utxos_outpoints_nodup_sample :
    ∃ us, utxos Crate.ref TxCodec.ref wallet fundsStore = .ok us ∧
      WellIndexed TxCodec.ref fundsStore ∧ (us.map (·.txo.outpoint)).Nodup :=
  have hw : WellIndexed TxCodec.ref fundsStore := by decide
  let ⟨us, h⟩ := exists_eq_ok_of_isOk (x := utxos Crate.ref TxCodec.ref wallet fundsStore)
    (by decide)
  ⟨us, h, hw, utxos_outpoints_nodup hw h⟩

theorem loopEntries_utxoEntry (idx : Nat) (us : List UnblindedTXO) :
    loopEntries utxoEntry idx us = us.map fun u => (u.unblinded.asset, u.unblinded.value) := by
  induction us generalizing idx with
  | nil => rfl
  | cons u us ih => rw [loopEntries_cons_some rfl, ih]; rfl

theorem sumOf_utxoEntries (us : List UnblindedTXO) (a : AssetId) :
    sumOf (us.map fun u => (u.unblinded.asset, u.unblinded.value)) a = assetTotal us a := by
  simp [sumOf, assetTotal, List.filter_map, Function.comp_def]

theorem assetTotal_le_of_subperm {l₁ l₂ : List UnblindedTXO} (h : List.Subperm l₁ l₂) (a : AssetId) :
    assetTotal l₁ a ≤ assetTotal l₂ a := by
  obtain ⟨l, hp, hs⟩ := h
  calc assetTotal l₁ a = assetTotal l a := by
        rw [assetTotal, assetTotal, ((hp.filter _).map _).sum_eq]
    _ ≤ assetTotal l₂ a := ((hs.filter _).map _).sum_le_sum fun _ _ => Nat.zero_le _

theorem amount_init (k a : AssetId) : amount [(k, (0 : UInt64))] a = 0 := by
  rw [amount_cons]; split <;> rfl

theorem balance_eq {us : List UnblindedTXO} (h : utxos C codec w st = .ok us) :
    balance C codec w st = sumLoop utxoEntry "" 0 us [(w.config.policyAsset, 0)] := by
  simp only [balance, h, bind, Except.bind]

/-- The map `balance` returns: distinct keys, the policy asset and the assets of the
UTXOs, each with its total. -/
theorem balance_ok {us : List UnblindedTXO} {m : HashMap AssetId UInt64}
    (h : utxos C codec w st = .ok us) (hm : balance C codec w st = .ok m) :
    (keys m).Nodup ∧
      (∀ a, a ∈ keys m ↔ a = w.config.policyAsset ∨ ∃ u ∈ us, u.unblinded.asset = a) ∧
      ∀ a, amount m a = assetTotal us a := by
  rw [balance_eq h] at hm
  obtain ⟨-, hamt, hkeys, hnd⟩ := sumLoop_ok hm
  refine ⟨hnd (List.nodup_singleton _), fun a => ?_, fun a => ?_⟩
  · rw [hkeys, loopEntries_utxoEntry]
    simp [eq_comm]
  · rw [hamt, amount_init, loopEntries_utxoEntry, sumOf_utxoEntries, Nat.zero_add]

/-- **What `balance` returns**, over the UTXOs `utxos` lists: it returns exactly when no
asset's total passes `u64::MAX`, and then its map has distinct keys, the policy asset and
the assets of the UTXOs, each with its total. -/
theorem balance_spec {us : List UnblindedTXO} (h : utxos C codec w st = .ok us) :
    ((∃ m, balance C codec w st = .ok m) ↔ ∀ a, assetTotal us a < 2 ^ 64) ∧
    ∀ m, balance C codec w st = .ok m → (keys m).Nodup ∧
      (∀ a, a ∈ keys m ↔ a = w.config.policyAsset ∨ ∃ u ∈ us, u.unblinded.asset = a) ∧
      ∀ a, amount m a = assetTotal us a := by
  refine ⟨⟨fun ⟨m, hm⟩ a => (balance_ok h hm).2.2 a ▸ amount_lt m a, fun hlt => ?_⟩,
    fun m hm => balance_ok h hm⟩
  rw [balance_eq h]
  exact sumLoop_eq_ok (fun _ _ => rfl) fun a => by
    rw [amount_init, loopEntries_utxoEntry, sumOf_utxoEntries, Nat.zero_add]; exact hlt a

open Sample in
theorem balance_spec_sample :
    ∃ us, utxos Crate.ref TxCodec.ref wallet makerStore = .ok us ∧
      ((∃ m, balance Crate.ref TxCodec.ref wallet makerStore = .ok m) ↔
        ∀ a, assetTotal us a < 2 ^ 64) ∧
      ∀ m, balance Crate.ref TxCodec.ref wallet makerStore = .ok m → (keys m).Nodup ∧
        (∀ a, a ∈ keys m ↔ a = wallet.config.policyAsset ∨ ∃ u ∈ us, u.unblinded.asset = a) ∧
        ∀ a, amount m a = assetTotal us a :=
  let ⟨us, h⟩ := exists_eq_ok_of_isOk (x := utxos Crate.ref TxCodec.ref wallet makerStore)
    (by decide)
  ⟨us, h, balance_spec h⟩

end

end BEWallet
