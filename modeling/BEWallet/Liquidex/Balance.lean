import Mathlib.Algebra.BigOperators.Group.List
import Mathlib.Data.List.Dedup
import BEWallet.Liquidex.Proposal

/-!
# LiquiDEX balance: needs, changes and fee of the taker

`outputs` and `inputs` sum a transaction per asset, counting index 0 with the
maker's declared secrets (the maker's pair is already committed) and the
other entries with their explicit amounts, resp. the store's unblinded
records.  `liquidex_needs` lists what the taker still has to add,
`liquidex_changes` what comes back, `liquidex_fee` what is left for the fee.

    liquidexNeeds … = .ok needs →
      ((a, n) ∈ needs ↔ n = O a + [a = P] E - I a ∧ O a + [a = P] E > I a)
                                                         (mem_liquidexNeeds)

Sums are `u64`: each `+=` and `-` panics on overflow, as in a debug build.
-/

namespace BEWallet

open HashMap

abbrev Unblinded := HashMap OutPoint TxOutSecrets

/-- The loop shared by `outputs` and `inputs`: add the `(asset, amount)` that `entry`
gives each element, with its index, and panic with `msg` where it gives none. -/
def sumLoop {α : Type} (entry : Nat → α → Option (AssetId × UInt64)) (msg : String) :
    Nat → List α → HashMap AssetId UInt64 → Except Fault (HashMap AssetId UInt64)
  | _, [], m => pure m
  | idx, x :: xs, m =>
    match entry idx x with
    | some (asset, value) => do
      let m ← m.entryAdd asset value
      sumLoop entry msg (idx + 1) xs m
    | none => throwPanic msg

/-- What `outputs` adds for the output at `idx`. -/
def outputEntry (mo : TxOutSecrets) (idx : Nat) (output : TxOut) : Option (AssetId × UInt64) :=
  if idx = 0 then some (mo.asset, mo.value)
  else match output.asset, output.value with
    | .explicit asset, .explicit value => some (asset, value)
    | _, _ => none

/-- What `inputs` adds for the input at `idx`. -/
def inputEntry (mi : TxOutSecrets) (unblinded : Unblinded) (idx : Nat) (input : TxIn) :
    Option (AssetId × UInt64) :=
  if idx = 0 then some (mi.asset, mi.value)
  else (unblinded.get input.previousOutput).map fun u => (u.asset, u.value)

/-- `outputs(maker_output, tx)` -/
def outputs (mo : TxOutSecrets) (tx : Transaction) : Except Fault (HashMap AssetId UInt64) :=
  sumLoop (outputEntry mo) "asset and value should be explicit here" 0 tx.output []

/-- `inputs(maker_input, tx, unblinded)`: the record of an input past index 0 is unwrapped. -/
def inputs (mi : TxOutSecrets) (tx : Transaction) (unblinded : Unblinded) :
    Except Fault (HashMap AssetId UInt64) :=
  sumLoop (inputEntry mi unblinded) "called `Option::unwrap()` on a `None` value" 0 tx.input []

/-- `liquidex_estimated_changes`: one change slot per input asset, `len() as u8`. -/
def liquidexEstimatedChanges (mi : TxOutSecrets) (tx : Transaction) (unblinded : Unblinded) :
    Except Fault UInt8 := do
  let m ← inputs mi tx unblinded
  pure (UInt8.ofNat m.length)

/-- The loop of `liquidex_needs` over the outputs' entries: what inputs do not cover. -/
def needsLoop : List (AssetId × UInt64) → HashMap AssetId UInt64 → List (AssetId × UInt64)
  | [], _ => []
  | (asset, value) :: rest, inputs =>
    let (got, inputs) := inputs.remove asset
    match checkedSub value (got.getD 0) with
    | some sum => if sum > 0 then (asset, sum) :: needsLoop rest inputs else needsLoop rest inputs
    | none => needsLoop rest inputs

/-- `liquidex_needs`: `it` is the iteration order of the `outputs` map. -/
def liquidexNeeds (C : Crate) (it : HashIter (AssetId × UInt64)) (mi mo : TxOutSecrets)
    (tx : Transaction) (feeRate : Float) (policyAsset : AssetId) (unblinded : Unblinded) :
    Except Fault (List (AssetId × UInt64)) := do
  let outputs ← outputs mo tx
  let inputs ← inputs mi tx unblinded
  let n ← liquidexEstimatedChanges mi tx unblinded
  let outputs ← outputs.entryAdd policyAsset (C.estimatedFee tx feeRate n)
  pure (needsLoop (it.order outputs) inputs)

/-- The loop of `liquidex_changes` over the inputs' entries.  The source visits them in
the map's order; the result is a map and every failure is the same panic, so the order
is immaterial and the model takes the insertion order. -/
def changesLoop (dust estimatedFee : UInt64) (policyAsset : AssetId) :
    List (AssetId × UInt64) → HashMap AssetId UInt64 → HashMap AssetId UInt64 →
      Except Fault (HashMap AssetId UInt64 × HashMap AssetId UInt64)
  | [], outputs, result => pure (result, outputs)
  | (asset, value) :: rest, outputs, result => do
    let (o, outputs) := outputs.remove asset
    let sum ← subU64 value (o.getD 0)
    if asset = policyAsset then
      let sum ← subU64 sum estimatedFee
      if sum > dust then
        changesLoop dust estimatedFee policyAsset rest outputs (result.insert asset sum)
      else changesLoop dust estimatedFee policyAsset rest outputs result
    else if sum > 0 then
      changesLoop dust estimatedFee policyAsset rest outputs (result.insert asset sum)
    else changesLoop dust estimatedFee policyAsset rest outputs result

/-- `liquidex_changes` -/
def liquidexChanges (C : Crate) (mi mo : TxOutSecrets) (tx : Transaction) (estimatedFee : UInt64)
    (policyAsset : AssetId) (unblinded : Unblinded) : Except Fault (HashMap AssetId UInt64) := do
  let outputsAssetAmounts ← outputs mo tx
  let inputsAssetAmounts ← inputs mi tx unblinded
  let (result, outputsAssetAmounts) ←
    changesLoop C.dustValue estimatedFee policyAsset inputsAssetAmounts outputsAssetAmounts []
  assert outputsAssetAmounts.isEmpty "outputs_asset_amounts.is_empty()"
  pure result

/-- `liquidex_fee` -/
def liquidexFee (mi mo : TxOutSecrets) (tx : Transaction) (policyAsset : AssetId)
    (unblinded : Unblinded) : Except Fault UInt64 := do
  assert (!tx.output.any TxOut.isFee) "!tx.output.iter().any(|o| o.is_fee())"
  let outputs ← outputs mo tx
  let inputs ← inputs mi tx unblinded
  let i ← unwrap (inputs.get policyAsset)
  let o ← unwrap (outputs.get policyAsset)
  subU64 i o

/-! ## Per-asset sums -/

/-- The entries `sumLoop` adds, from index `idx` on. -/
def loopEntries {α : Type} (entry : Nat → α → Option (AssetId × UInt64)) (idx : Nat)
    (xs : List α) : List (AssetId × UInt64) :=
  (xs.enumFrom idx).filterMap fun p => entry p.1 p.2

/-- The amount of asset `a` among entries. -/
def sumOf (kvs : List (AssetId × UInt64)) (a : AssetId) : Nat :=
  ((kvs.filter fun kv => kv.1 = a).map fun kv => kv.2.toNat).sum

/-- `O a`: the amount of `a` the transaction's outputs carry, output 0 counted with the
maker's output secrets. -/
def outSum (mo : TxOutSecrets) (tx : Transaction) (a : AssetId) : Nat :=
  sumOf (loopEntries (outputEntry mo) 0 tx.output) a

/-- `I a`: the amount of `a` the transaction's inputs spend, input 0 counted with the
maker's input secrets and the others with their unblinded records. -/
def inSum (mi : TxOutSecrets) (unblinded : Unblinded) (tx : Transaction) (a : AssetId) : Nat :=
  sumOf (loopEntries (inputEntry mi unblinded) 0 tx.input) a

@[simp] theorem sumOf_nil (a : AssetId) : sumOf [] a = 0 := rfl

theorem sumOf_cons (kv : AssetId × UInt64) (kvs : List (AssetId × UInt64)) (a : AssetId) :
    sumOf (kv :: kvs) a = (if kv.1 = a then kv.2.toNat else 0) + sumOf kvs a := by
  unfold sumOf; by_cases h : kv.1 = a <;> simp [List.filter_cons, h]

theorem sumOf_eq_zero {kvs : List (AssetId × UInt64)} {a : AssetId} (h : a ∉ kvs.map Prod.fst) :
    sumOf kvs a = 0 := by
  induction kvs with
  | nil => rfl
  | cons kv kvs ih =>
    simp only [List.map_cons, List.mem_cons, not_or] at h
    rw [sumOf_cons, if_neg (Ne.symm h.1), ih h.2]

theorem sumOf_le_total (kvs : List (AssetId × UInt64)) (a : AssetId) :
    sumOf kvs a ≤ (kvs.map (·.2.toNat)).sum := by
  induction kvs with
  | nil => exact Nat.le_refl 0
  | cons kv kvs ih =>
    rw [sumOf_cons, List.map_cons, List.sum_cons]
    split <;> omega

theorem loopEntries_cons_some {α : Type} {entry : Nat → α → Option (AssetId × UInt64)}
    {idx : Nat} {x : α} {xs : List α} {kv : AssetId × UInt64} (h : entry idx x = some kv) :
    loopEntries entry idx (x :: xs) = kv :: loopEntries entry (idx + 1) xs := by
  simp [loopEntries, List.enumFrom_cons, h]

section

variable {α : Type} {entry : Nat → α → Option (AssetId × UInt64)} {msg : String}

/-- **What `sumLoop` computes**: every entry was defined, each amount grew by its
entries' sum, the keys are those of the entries, and none is repeated. -/
theorem sumLoop_ok {idx : Nat} {xs : List α} {m m' : HashMap AssetId UInt64}
    (h : sumLoop entry msg idx xs m = .ok m') :
    (∀ p ∈ xs.enumFrom idx, (entry p.1 p.2).isSome) ∧
    (∀ a, amount m' a = amount m a + sumOf (loopEntries entry idx xs) a) ∧
    (∀ a, a ∈ keys m' ↔ a ∈ keys m ∨ a ∈ (loopEntries entry idx xs).map Prod.fst) ∧
    ((keys m).Nodup → (keys m').Nodup) := by
  induction xs generalizing idx m with
  | nil => cases h; simp [loopEntries]
  | cons x xs ih =>
    simp only [sumLoop] at h
    cases he : entry idx x with
    | none => rw [he] at h; cases h
    | some kv =>
      obtain ⟨k, v⟩ := kv
      rw [he] at h
      obtain ⟨m1, hm, h⟩ := bind_eq_ok.1 h
      obtain ⟨h1, h2, h3, h4⟩ := ih h
      rw [loopEntries_cons_some he]
      refine ⟨?_, fun a => ?_, fun a => ?_, fun hn => h4 (nodup_keys_entryAdd hm hn)⟩
      · simpa [List.enumFrom_cons, he] using h1
      · rw [h2, amount_entryAdd hm, sumOf_cons]
        by_cases hk : k = a
        · subst hk; simp; omega
        · simp [hk, Ne.symm hk]
      · rw [h3, mem_keys_entryAdd hm]
        simp only [List.map_cons, List.mem_cons, or_assoc]

/-- `sumLoop` returns when every entry is defined and no amount passes `u64::MAX`. -/
theorem sumLoop_eq_ok {idx : Nat} {xs : List α} {m : HashMap AssetId UInt64}
    (hall : ∀ p ∈ xs.enumFrom idx, (entry p.1 p.2).isSome)
    (hb : ∀ a, amount m a + sumOf (loopEntries entry idx xs) a < 2 ^ 64) :
    ∃ m', sumLoop entry msg idx xs m = .ok m' := by
  induction xs generalizing idx m with
  | nil => exact ⟨m, rfl⟩
  | cons x xs ih =>
    obtain ⟨⟨k, v⟩, he⟩ := Option.isSome_iff_exists.1 (hall (idx, x) (by simp [List.enumFrom_cons]))
    have hk := hb k
    rw [loopEntries_cons_some he, sumOf_cons, if_pos rfl] at hk
    dsimp only at hk
    obtain ⟨m1, hm⟩ := entryAdd_eq_ok_of_lt m k v (by omega)
    obtain ⟨m', h'⟩ := @ih (idx + 1) m1
      (fun p hp => hall p (by simp [List.enumFrom_cons, hp]))
      (fun a => by
        have := hb a
        rw [loopEntries_cons_some he, sumOf_cons] at this
        rw [amount_entryAdd hm]
        by_cases hka : k = a
        · subst hka; simp only [if_true] at this ⊢; omega
        · simp only [hka, Ne.symm hka, if_false] at this ⊢; omega)
    exact ⟨m', by simp only [sumLoop, he, hm, bind, Except.bind]; exact h'⟩

end

/-! ## `liquidex_needs` -/

theorem amount_eq_getD (m : HashMap AssetId UInt64) (a : AssetId) :
    ((get m a).getD 0).toNat = amount m a := by
  unfold amount; cases get m a <;> rfl

theorem exists_mem_cons_pair {β : Type} {P : β → Prop} {a k : AssetId} {v : β}
    {rest : List (AssetId × β)} :
    (∃ w, (a, w) ∈ (k, v) :: rest ∧ P w) ↔ (a = k ∧ P v) ∨ ∃ w, (a, w) ∈ rest ∧ P w := by
  simp only [List.mem_cons, Prod.mk.injEq]
  constructor
  · rintro ⟨w, ⟨rfl, rfl⟩ | h, hp⟩
    · exact .inl ⟨rfl, hp⟩
    · exact .inr ⟨w, h, hp⟩
  · rintro (⟨rfl, hp⟩ | ⟨w, h, hp⟩)
    · exact ⟨v, .inl ⟨rfl, rfl⟩, hp⟩
    · exact ⟨w, .inr h, hp⟩

/-- The loop of `liquidex_needs` keeps the outputs' entries that inputs do not cover,
with the shortfall. -/
theorem mem_needsLoop {L : List (AssetId × UInt64)} (hL : (L.map Prod.fst).Nodup)
    (ins : HashMap AssetId UInt64) (a : AssetId) (n : UInt64) :
    (a, n) ∈ needsLoop L ins ↔
      ∃ v, (a, v) ∈ L ∧ amount ins a < v.toNat ∧ n.toNat = v.toNat - amount ins a := by
  induction L generalizing ins with
  | nil => simp [needsLoop]
  | cons e rest ih =>
    obtain ⟨k, v⟩ := e
    simp only [List.map_cons, List.nodup_cons] at hL
    have ihr : (a, n) ∈ needsLoop rest (ins.remove k).2 ↔
        ∃ w, (a, w) ∈ rest ∧ amount ins a < w.toNat ∧ n.toNat = w.toNat - amount ins a := by
      rw [ih hL.2]
      refine exists_congr fun w => and_congr_right fun hw => ?_
      have hak : a ≠ k := fun hak => hL.1 (hak ▸ List.mem_map_of_mem Prod.fst hw)
      simp [amount, get_remove, hak]
    have hgot : ((ins.remove k).1.getD 0).toNat = amount ins k := amount_eq_getD ins k
    rw [exists_mem_cons_pair]
    simp only [needsLoop]
    split
    · rename_i sum hsum
      obtain ⟨hle, hs⟩ := checkedSub_eq_some.1 hsum
      rw [hgot] at hle hs
      split
      · rename_i hpos
        rw [List.mem_cons, ihr, Prod.mk.injEq]
        refine or_congr ⟨?_, ?_⟩ Iff.rfl
        · rintro ⟨rfl, rfl⟩
          have : 0 < n.toNat := hpos
          exact ⟨rfl, by omega, hs⟩
        · rintro ⟨rfl, -, h2⟩; exact ⟨rfl, UInt64.toNat.inj (by omega)⟩
      · rename_i hz
        have : ¬ 0 < sum.toNat := hz
        rw [ihr, or_iff_right]
        rintro ⟨rfl, h1, -⟩; omega
    · rename_i hsum
      have hlt := checkedSub_eq_none.1 hsum
      rw [hgot] at hlt
      rw [ihr, or_iff_right]
      rintro ⟨rfl, h1, -⟩; omega

theorem needsLoop_keys_sublist (L : List (AssetId × UInt64)) (ins : HashMap AssetId UInt64) :
    ((needsLoop L ins).map Prod.fst).Sublist (L.map Prod.fst) := by
  induction L generalizing ins with
  | nil => exact List.Sublist.slnil
  | cons e rest ih =>
    obtain ⟨k, v⟩ := e
    simp only [needsLoop]
    split
    · split
      · exact (ih _).cons₂ k
      · exact (ih _).cons k
    · exact (ih _).cons k

/-- `outputs` sums the outputs' entries, one key per asset. -/
theorem outputs_ok {mo : TxOutSecrets} {tx : Transaction} {m : HashMap AssetId UInt64}
    (h : outputs mo tx = .ok m) :
    (∀ a, amount m a = outSum mo tx a) ∧
    (∀ a, a ∈ keys m ↔ a ∈ (loopEntries (outputEntry mo) 0 tx.output).map Prod.fst) ∧
    (keys m).Nodup := by
  obtain ⟨-, h2, h3, h4⟩ := sumLoop_ok h
  exact ⟨fun a => by simpa using h2 a, fun a => by simpa using h3 a, h4 List.nodup_nil⟩

/-- `inputs` sums the inputs' entries, one key per asset. -/
theorem inputs_ok {mi : TxOutSecrets} {tx : Transaction} {U : Unblinded}
    {m : HashMap AssetId UInt64} (h : inputs mi tx U = .ok m) :
    (∀ a, amount m a = inSum mi U tx a) ∧
    (∀ a, a ∈ keys m ↔ a ∈ (loopEntries (inputEntry mi U) 0 tx.input).map Prod.fst) ∧
    (keys m).Nodup := by
  obtain ⟨-, h2, h3, h4⟩ := sumLoop_ok h
  exact ⟨fun a => by simpa using h2 a, fun a => by simpa using h3 a, h4 List.nodup_nil⟩

/-- The number of distinct assets the inputs spend: the change slots
`liquidex_estimated_changes` counts, as a `u8`. -/
def estimatedChangeSlots (mi : TxOutSecrets) (U : Unblinded) (tx : Transaction) : UInt8 :=
  UInt8.ofNat ((loopEntries (inputEntry mi U) 0 tx.input).map Prod.fst).dedup.length

/-- `E`: the fee estimated for the transaction with those change slots. -/
def liquidexFeeEstimate (C : Crate) (mi : TxOutSecrets) (U : Unblinded) (tx : Transaction)
    (feeRate : Float) : UInt64 :=
  C.estimatedFee tx feeRate (estimatedChangeSlots mi U tx)

theorem length_of_inputs_ok {mi : TxOutSecrets} {tx : Transaction} {U : Unblinded}
    {m : HashMap AssetId UInt64} (h : inputs mi tx U = .ok m) :
    m.length = ((loopEntries (inputEntry mi U) 0 tx.input).map Prod.fst).dedup.length := by
  obtain ⟨-, hk, hn⟩ := inputs_ok h
  have hp := (List.perm_ext_iff_of_nodup hn (List.nodup_dedup _)).2
    (fun a => by rw [hk, List.mem_dedup])
  simpa [keys] using hp.length_eq

theorem liquidexEstimatedChanges_of_inputs {mi : TxOutSecrets} {tx : Transaction}
    {U : Unblinded} {m : HashMap AssetId UInt64} (h : inputs mi tx U = .ok m) :
    liquidexEstimatedChanges mi tx U = .ok (estimatedChangeSlots mi U tx) := by
  simp [liquidexEstimatedChanges, h, bind, Except.bind, pure, Except.pure,
    estimatedChangeSlots, length_of_inputs_ok h]

/-- A successful `liquidex_needs`, step by step. -/
theorem liquidexNeeds_inv {C : Crate} {it : HashIter (AssetId × UInt64)} {mi mo : TxOutSecrets}
    {tx : Transaction} {rate : Float} {P : AssetId} {U : Unblinded}
    {needs : List (AssetId × UInt64)} (h : liquidexNeeds C it mi mo tx rate P U = .ok needs) :
    ∃ mo' mi' m2, outputs mo tx = .ok mo' ∧ inputs mi tx U = .ok mi' ∧
      mo'.entryAdd P (liquidexFeeEstimate C mi U tx rate) = .ok m2 ∧
      needs = needsLoop (it.order m2) mi' := by
  obtain ⟨mo', ho, h⟩ := bind_eq_ok.1 h
  obtain ⟨mi', hi, h⟩ := bind_eq_ok.1 h
  obtain ⟨n, hn, h⟩ := bind_eq_ok.1 h
  rw [liquidexEstimatedChanges_of_inputs hi] at hn
  cases hn
  obtain ⟨m2, hm, h⟩ := bind_eq_ok.1 h
  cases h
  exact ⟨mo', mi', m2, ho, hi, hm, rfl⟩

/-- The outputs plus the estimated fee stay within `u64` when `liquidex_needs` returns. -/
theorem liquidexNeeds_bound {C : Crate} {it : HashIter (AssetId × UInt64)} {mi mo : TxOutSecrets}
    {tx : Transaction} {rate : Float} {P : AssetId} {U : Unblinded}
    {needs : List (AssetId × UInt64)} (h : liquidexNeeds C it mi mo tx rate P U = .ok needs)
    (a : AssetId) :
    outSum mo tx a + (if a = P then (liquidexFeeEstimate C mi U tx rate).toNat else 0) <
      2 ^ 64 := by
  obtain ⟨mo', -, m2, ho, -, hm, -⟩ := liquidexNeeds_inv h
  have := amount_lt m2 a
  rw [amount_entryAdd hm, (outputs_ok ho).1] at this
  split <;> simp_all

/-- **What `liquidex_needs` returns**: one entry per asset, exactly for the assets whose
outputs (plus the estimated fee, for the policy asset) exceed the inputs, with the
shortfall. -/
theorem mem_liquidexNeeds {C : Crate} {it : HashIter (AssetId × UInt64)} {mi mo : TxOutSecrets}
    {tx : Transaction} {rate : Float} {P : AssetId} {U : Unblinded}
    {needs : List (AssetId × UInt64)} (h : liquidexNeeds C it mi mo tx rate P U = .ok needs) :
    (needs.map Prod.fst).Nodup ∧ ∀ a n, (a, n) ∈ needs ↔
      inSum mi U tx a < outSum mo tx a +
        (if a = P then (liquidexFeeEstimate C mi U tx rate).toNat else 0) ∧
      n.toNat = outSum mo tx a +
        (if a = P then (liquidexFeeEstimate C mi U tx rate).toNat else 0) - inSum mi U tx a := by
  obtain ⟨mo', mi', m2, ho, hi, hm, rfl⟩ := liquidexNeeds_inv h
  obtain ⟨hO, -, hOn⟩ := outputs_ok ho
  obtain ⟨hI, -, -⟩ := inputs_ok hi
  have hn2 := nodup_keys_entryAdd hm hOn
  have hperm := it.perm m2
  have hnodup : ((it.order m2).map Prod.fst).Nodup := (hperm.map Prod.fst).nodup_iff.2 hn2
  refine ⟨hnodup.sublist (needsLoop_keys_sublist _ _), fun a n => ?_⟩
  rw [mem_needsLoop hnodup, hI, ← hO, ← amount_entryAdd hm]
  simp only [hperm.mem_iff]
  constructor
  · rintro ⟨w, hw, h1, h2⟩
    have : amount m2 a = w.toNat := by simp [amount, get_of_mem hn2 hw]
    exact ⟨by omega, by omega⟩
  · rintro ⟨h1, h2⟩
    have hk : a ∈ keys m2 := by
      by_contra hk; rw [amount_eq_zero_of_not_mem hk] at h1; omega
    obtain ⟨w, hw⟩ := Option.isSome_iff_exists.1 (get_isSome_iff.2 hk)
    have : amount m2 a = w.toNat := by simp [amount, hw]
    exact ⟨w, mem_of_get hw, by omega, by omega⟩

/-- **The selection's exit condition**: `liquidex_needs` returns nothing exactly when the
inputs cover the outputs, and the estimated fee for the policy asset, asset by asset. -/
theorem liquidexNeeds_eq_nil {C : Crate} {it : HashIter (AssetId × UInt64)} {mi mo : TxOutSecrets}
    {tx : Transaction} {rate : Float} {P : AssetId} {U : Unblinded}
    (h : liquidexNeeds C it mi mo tx rate P U = .ok []) (a : AssetId) :
    outSum mo tx a + (if a = P then (liquidexFeeEstimate C mi U tx rate).toNat else 0) ≤
      inSum mi U tx a := by
  by_contra hlt
  have hb := liquidexNeeds_bound h a
  have := ((mem_liquidexNeeds h).2 a (UInt64.ofNat (outSum mo tx a +
      (if a = P then (liquidexFeeEstimate C mi U tx rate).toNat else 0) - inSum mi U tx a))).2
    ⟨by omega, UInt64.toNat_ofNat_of_lt (lt_of_le_of_lt (Nat.sub_le _ _) hb)⟩
  cases this

theorem mem_tail_of_mem_enumFrom_zero {α : Type} {l : List α} {i : Nat} {x : α}
    (h : (i, x) ∈ l.enumFrom 0) (hi : i ≠ 0) : x ∈ l.tail := by
  cases l with
  | nil => cases h
  | cons y ys =>
    rw [List.enumFrom_cons, List.mem_cons] at h
    rcases h with h | h
    · cases h; exact absurd rfl hi
    · exact List.snd_mem_of_mem_enumFrom h

/-- `liquidex_needs` returns when the outputs past index 0 are explicit, the inputs past
index 0 have unblinded records, and no sum passes `u64::MAX`. -/
theorem liquidexNeeds_eq_ok {C : Crate} {it : HashIter (AssetId × UInt64)}
    {mi mo : TxOutSecrets} {tx : Transaction} {rate : Float} {P : AssetId} {U : Unblinded}
    (hout : ∀ o ∈ tx.output.tail, o.asset.isExplicit ∧ o.value.isExplicit)
    (hin : ∀ i ∈ tx.input.tail, (U.get i.previousOutput).isSome)
    (hO : ∀ a, outSum mo tx a < 2 ^ 64) (hI : ∀ a, inSum mi U tx a < 2 ^ 64)
    (hE : outSum mo tx P + (liquidexFeeEstimate C mi U tx rate).toNat < 2 ^ 64) :
    ∃ needs, liquidexNeeds C it mi mo tx rate P U = .ok needs := by
  obtain ⟨mo', ho⟩ : ∃ m, outputs mo tx = .ok m := by
    refine sumLoop_eq_ok (fun ⟨i, o⟩ hp => ?_) (fun a => by simpa using hO a)
    by_cases hi0 : i = 0
    · simp [outputEntry, hi0]
    · obtain ⟨ha, hv⟩ := hout o (mem_tail_of_mem_enumFrom_zero hp hi0)
      cases hA : o.asset <;> simp [hA, Asset.isExplicit] at ha
      cases hV : o.value <;> simp [hV, Value.isExplicit] at hv
      simp [outputEntry, hi0, hA, hV]
  obtain ⟨mi', hi⟩ : ∃ m, inputs mi tx U = .ok m := by
    refine sumLoop_eq_ok (fun ⟨i, x⟩ hp => ?_) (fun a => by simpa using hI a)
    by_cases hi0 : i = 0
    · simp [inputEntry, hi0]
    · simpa [inputEntry, hi0] using hin x (mem_tail_of_mem_enumFrom_zero hp hi0)
  obtain ⟨m2, hm⟩ := entryAdd_eq_ok_of_lt mo' P (liquidexFeeEstimate C mi U tx rate)
    (by rw [(outputs_ok ho).1]; exact hE)
  refine ⟨needsLoop (it.order m2) mi', ?_⟩
  simp only [liquidexNeeds, ho, hi, liquidexEstimatedChanges_of_inputs hi, bind, Except.bind,
    pure, Except.pure]
  rw [show C.estimatedFee tx rate (estimatedChangeSlots mi U tx) =
    liquidexFeeEstimate C mi U tx rate from rfl, hm]

/-- The maker gives 1000 of `assetA` for 500 of `assetB`; the taker has added its output. -/
def Sample.needsInput : TxOutSecrets := ⟨Sample.assetA, 0, 1000, 0⟩

def Sample.needsOutput : TxOutSecrets := ⟨Sample.assetB, 0, 500, 0⟩

def Sample.needsTx : Transaction :=
  ⟨2, 0, [⟨⟨List.replicate 32 0x44, 0⟩, [], []⟩],
    [{}, { asset := .explicit Sample.assetA, value := .explicit 1000 }]⟩

/-- **`liquidex_needs` characterized**: for a transaction whose outputs past index 0 are
explicit and whose inputs past index 0 have unblinded records, and whose sums stay within
`u64`, it returns a list with one entry per asset, holding `(a, n)` exactly when
`n = O a + [a = P]·E - I a > 0`; so it is empty exactly when inputs cover outputs plus
the estimated fee, asset by asset. -/
theorem liquidexNeeds_characterization (C : Crate) (it : HashIter (AssetId × UInt64))
    (mi mo : TxOutSecrets) (tx : Transaction) (rate : Float) (P : AssetId) (U : Unblinded)
    (hout : ∀ o ∈ tx.output.tail, o.asset.isExplicit ∧ o.value.isExplicit)
    (hin : ∀ i ∈ tx.input.tail, (U.get i.previousOutput).isSome)
    (hO : ∀ a, outSum mo tx a < 2 ^ 64) (hI : ∀ a, inSum mi U tx a < 2 ^ 64)
    (hE : outSum mo tx P + (liquidexFeeEstimate C mi U tx rate).toNat < 2 ^ 64) :
    ∃ needs, liquidexNeeds C it mi mo tx rate P U = .ok needs ∧ (needs.map Prod.fst).Nodup ∧
      (∀ a n, (a, n) ∈ needs ↔
        inSum mi U tx a < outSum mo tx a +
          (if a = P then (liquidexFeeEstimate C mi U tx rate).toNat else 0) ∧
        n.toNat = outSum mo tx a +
          (if a = P then (liquidexFeeEstimate C mi U tx rate).toNat else 0) - inSum mi U tx a) ∧
      (needs = [] ↔ ∀ a, outSum mo tx a +
          (if a = P then (liquidexFeeEstimate C mi U tx rate).toNat else 0) ≤ inSum mi U tx a) := by
  obtain ⟨needs, h⟩ : ∃ needs, liquidexNeeds C it mi mo tx rate P U = .ok needs :=
    liquidexNeeds_eq_ok hout hin hO hI hE
  obtain ⟨hn, hmem⟩ := mem_liquidexNeeds h
  refine ⟨needs, h, hn, hmem, ⟨fun he => liquidexNeeds_eq_nil (he ▸ h), fun hall => ?_⟩⟩
  refine List.eq_nil_iff_forall_not_mem.2 fun ⟨a, n⟩ hm => ?_
  have := ((hmem a n).1 hm).1
  have := hall a
  omega

/-- Without the bounds `liquidex_needs` need not return: maker output secrets of `u64::MAX`
and one more unit of that asset in output 1 overflow the sum `outputs` builds, a panic. -/
theorem liquidexNeeds_overflow_panics :
    liquidexNeeds Crate.ref (HashIter.insertion _) Sample.needsInput
      ⟨Sample.assetB, 0, 0xFFFFFFFFFFFFFFFF, 0⟩
      ⟨2, 0, [⟨⟨List.replicate 32 0x44, 0⟩, [], []⟩],
        [{}, { asset := .explicit Sample.assetB, value := .explicit 1 }]⟩ 0.1
      Sample.policyAsset [] = .error (.panic "attempt to add with overflow") := by
  decide

open Sample in
theorem liquidexNeeds_characterization_sample :
    ∃ needs, liquidexNeeds Crate.ref (HashIter.insertion _) needsInput needsOutput needsTx 0.1
        policyAsset ([] : Unblinded) = .ok needs ∧ (needs.map Prod.fst).Nodup ∧
      (∀ a n, (a, n) ∈ needs ↔
        inSum needsInput ([] : Unblinded) needsTx a < outSum needsOutput needsTx a +
          (if a = policyAsset then
            (liquidexFeeEstimate Crate.ref needsInput ([] : Unblinded) needsTx 0.1).toNat
          else 0) ∧
        n.toNat = outSum needsOutput needsTx a +
          (if a = policyAsset then
            (liquidexFeeEstimate Crate.ref needsInput ([] : Unblinded) needsTx 0.1).toNat
          else 0) - inSum needsInput ([] : Unblinded) needsTx a) ∧
      (needs = [] ↔ ∀ a, outSum needsOutput needsTx a +
          (if a = policyAsset then
            (liquidexFeeEstimate Crate.ref needsInput ([] : Unblinded) needsTx 0.1).toNat
          else 0) ≤ inSum needsInput ([] : Unblinded) needsTx a) :=
  liquidexNeeds_characterization Crate.ref (HashIter.insertion _) Sample.needsInput
    Sample.needsOutput Sample.needsTx 0.1 Sample.policyAsset [] (by decide) (by decide)
    (fun a => lt_of_le_of_lt (sumOf_le_total _ a) (by decide))
    (fun a => lt_of_le_of_lt (sumOf_le_total _ a) (by decide)) (by decide)

end BEWallet
