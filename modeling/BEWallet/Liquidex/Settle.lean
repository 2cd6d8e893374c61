import BEWallet.Liquidex.Balance

/-!
# LiquiDEX settlement: changes and fee

Once the selection loop has covered every asset, `liquidex_changes` returns to
the taker what the inputs hold beyond the outputs (for the policy asset, beyond
the outputs and the estimated fee, and only above the dust value), and
`liquidex_fee` takes what is left of the policy asset as the fee.

    liquidexChanges … = .ok res → amount res a = changeOf (I a) (O a)
                                                    (liquidexChanges_ok)
    liquidexFee … = .ok F → F = I P - O P            (liquidexFee_ok)
    needs empty, changes added, fee taken →
      I a = O a + [a = P] F  ∧  E ≤ F ≤ E + dust      (settle_conserves)
-/

namespace BEWallet

open HashMap

/-- The change `liquidex_changes` returns for an asset whose inputs hold `i` and outputs
`o`: for the policy asset what the fee leaves if above the dust value, else all of it. -/
def changeOf (dust fee : Nat) (isPolicy : Bool) (i o : Nat) : Nat :=
  if isPolicy then (if i - o - fee > dust then i - o - fee else 0) else i - o

/-! ## Sums over lists of entries -/

theorem sumOf_append (l₁ l₂ : List (AssetId × UInt64)) (a : AssetId) :
    sumOf (l₁ ++ l₂) a = sumOf l₁ a + sumOf l₂ a := by
  simp [sumOf]

theorem sumOf_perm {l₁ l₂ : List (AssetId × UInt64)} (h : l₁.Perm l₂) (a : AssetId) :
    sumOf l₁ a = sumOf l₂ a :=
  ((h.filter _).map _).sum_eq

/-- Over a map, the entries of an asset sum to its amount. -/
theorem sumOf_eq_amount {m : HashMap AssetId UInt64} (hm : (keys m).Nodup) (a : AssetId) :
    sumOf m a = amount m a := by
  induction m with
  | nil => rfl
  | cons e t ih =>
    obtain ⟨k, v⟩ := e
    simp only [keys_cons, List.nodup_cons] at hm
    rw [sumOf_cons, ih hm.2]
    by_cases hk : k = a
    · subst hk; rw [amount_eq_zero_of_not_mem hm.1]; simp [amount, get_cons]
    · simp [hk, amount, get_cons]

theorem loopEntries_append_singleton {α : Type} (entry : Nat → α → Option (AssetId × UInt64))
    (idx : Nat) (xs : List α) (x : α) :
    loopEntries entry idx (xs ++ [x]) =
      loopEntries entry idx xs ++ (entry (idx + xs.length) x).toList := by
  simp only [loopEntries, List.enumFrom_append, List.filterMap_append, List.enumFrom_cons,
    List.enumFrom_nil, List.filterMap_cons, List.filterMap_nil]
  cases h : entry (idx + xs.length) x <;> simp [h]

/-- Appending an explicit output past index 0 adds its amount to its asset. -/
theorem outSum_append_explicit {mo : TxOutSecrets} {tx : Transaction} (hne : tx.output ≠ [])
    {o : TxOut} {b : AssetId} {v : UInt64} (ha : o.asset = .explicit b)
    (hv : o.value = .explicit v) (a : AssetId) :
    outSum mo { tx with output := tx.output ++ [o] } a =
      outSum mo tx a + if b = a then v.toNat else 0 := by
  have hlen : 0 + tx.output.length ≠ 0 := by simpa using hne
  simp only [outSum, loopEntries_append_singleton, sumOf_append]
  simp [outputEntry, hne, ha, hv, sumOf_cons]

/-! ## `liquidex_changes` -/

section

variable {dust E : UInt64} {P : AssetId}

/-- Recording the change `c` of an asset `k` the result does not hold yet: inserted as
`x`, or left out when it is zero. -/
theorem record_change {res res1 : HashMap AssetId UInt64} {k : AssetId} {c : Nat}
    (hk : k ∉ keys res)
    (h : (∃ x : UInt64, x.toNat = c ∧ res1 = res.insert k x) ∨ (c = 0 ∧ res1 = res)) :
    (∀ a, amount res1 a = amount res a + if a = k then c else 0) ∧
    (∀ a ∈ keys res1, a ∈ keys res ∨ a = k) ∧ ((keys res).Nodup → (keys res1).Nodup) := by
  rcases h with ⟨x, rfl, rfl⟩ | ⟨rfl, rfl⟩
  · refine ⟨fun a => ?_, fun a => mem_keys_insert.1, nodup_keys_insert k x⟩
    rw [amount_insert]
    by_cases ha : a = k
    · subst ha; simp [amount_eq_zero_of_not_mem hk]
    · simp [ha, Ne.symm ha]
  · exact ⟨fun a => by simp, fun a ha => .inl ha, id⟩

/-- One entry of the loop of `liquidex_changes`: the subtractions did not underflow, and
the change of the entry's asset went into the result. -/
theorem changesLoop_cons {k : AssetId} {v : UInt64} {rest O res res' O' : HashMap AssetId UInt64}
    (hk : k ∉ keys res) (h : changesLoop dust E P ((k, v) :: rest) O res = .ok (res', O')) :
    ∃ res1, changesLoop dust E P rest (O.remove k).2 res1 = .ok (res', O') ∧
      amount O k ≤ v.toNat ∧ (k = P → amount O k + E.toNat ≤ v.toNat) ∧
      (∀ a, amount res1 a = amount res a +
        if a = k then changeOf dust.toNat E.toNat (k = P) v.toNat (amount O k) else 0) ∧
      (∀ a ∈ keys res1, a ∈ keys res ∨ a = k) ∧ ((keys res).Nodup → (keys res1).Nodup) := by
  simp only [changesLoop] at h
  obtain ⟨s, hs, h⟩ := bind_eq_ok.1 h
  obtain ⟨hs, hle⟩ := subU64_ok hs
  have hOk : ((O.remove k).1.getD 0).toNat = amount O k := amount_eq_getD O k
  rw [hOk] at hle hs
  by_cases hP : k = P
  · subst hP
    rw [if_pos rfl] at h
    obtain ⟨s2, hs2, h⟩ := bind_eq_ok.1 h
    obtain ⟨hs2, hle2⟩ := subU64_ok hs2
    have hc : changeOf dust.toNat E.toNat (k = k) v.toNat (amount O k) =
        if dust.toNat < s2.toNat then s2.toNat else 0 := by
      simp only [changeOf, decide_True, if_true, gt_iff_lt, hs2, hs]
    split at h
    · rename_i hd
      have hd : dust.toNat < s2.toNat := hd
      exact ⟨_, h, hle, fun _ => by omega,
        record_change hk (.inl ⟨s2, by rw [hc, if_pos hd], rfl⟩)⟩
    · rename_i hd
      have hd : ¬ dust.toNat < s2.toNat := hd
      exact ⟨_, h, hle, fun _ => by omega, record_change hk (.inr ⟨by rw [hc, if_neg hd], rfl⟩)⟩
  · rw [if_neg hP] at h
    have hc : changeOf dust.toNat E.toNat (k = P) v.toNat (amount O k) = s.toNat := by
      simp [changeOf, hP, hs]
    split at h
    · exact ⟨_, h, hle, (absurd · hP), record_change hk (.inl ⟨s, hc.symm, rfl⟩)⟩
    · rename_i hd
      have hd : ¬ 0 < s.toNat := hd
      exact ⟨_, h, hle, (absurd · hP), record_change hk (.inr ⟨by omega, rfl⟩)⟩

/-- **The loop of `liquidex_changes`**: no subtraction underflowed, each input asset got
its change, only input assets got one, and the input assets left the outputs' map. -/
theorem changesLoop_ok {L O res res' O' : HashMap AssetId UInt64} (hL : (keys L).Nodup)
    (hres : ∀ a ∈ keys L, a ∉ keys res)
    (h : changesLoop dust E P L O res = .ok (res', O')) :
    (∀ a ∈ keys L, amount O a ≤ amount L a ∧ (a = P → amount O a + E.toNat ≤ amount L a)) ∧
    (∀ a, amount res' a = amount res a +
      if a ∈ keys L then changeOf dust.toNat E.toNat (a = P) (amount L a) (amount O a) else 0) ∧
    (∀ a ∈ keys res', a ∈ keys res ∨ a ∈ keys L) ∧
    ((keys res).Nodup → (keys res').Nodup) ∧
    (∀ a, a ∈ keys O' ↔ a ∈ keys O ∧ a ∉ keys L) := by
  induction L generalizing O res with
  | nil => cases h; simp
  | cons e rest ih =>
    obtain ⟨k, v⟩ := e
    simp only [keys_cons, List.nodup_cons] at hL
    obtain ⟨res1, h1, hle, hpol, hamt, hkeys, hnd⟩ :=
      changesLoop_cons (hres k (List.mem_cons_self _ _)) h
    have hne : ∀ a ∈ keys rest, a ≠ k := fun a ha he => hL.1 (he ▸ ha)
    have hr1 : ∀ a ∈ keys rest, a ∉ keys res1 := fun a ha hm => by
      rcases hkeys a hm with hm | hm
      · exact hres a (List.mem_cons_of_mem _ ha) hm
      · exact hne a ha hm
    obtain ⟨i1, i2, i3, i4, i5⟩ := ih hL.2 hr1 h1
    have hLa : ∀ a, a ≠ k → amount ((k, v) :: rest) a = amount rest a := fun a ha => by
      simp [amount, get_cons, Ne.symm ha]
    have hLk : amount ((k, v) :: rest) k = v.toNat := by simp [amount, get_cons]
    refine ⟨fun a ha => ?_, fun a => ?_, fun a ha => ?_, fun hn => i4 (hnd hn), fun a => ?_⟩
    · rcases List.mem_cons.1 ha with rfl | ha
      · rw [hLk]; exact ⟨hle, hpol⟩
      · have := i1 a ha
        rw [amount_remove, if_neg (hne a ha)] at this
        rw [hLa a (hne a ha)]; exact this
    · rw [i2, hamt]
      by_cases hak : a = k
      · subst hak; simp [hL.1, hLk]
      · simp [hak, hLa a hak, amount_remove]
    · rcases i3 a ha with h | h
      · rcases hkeys a h with h | rfl
        · exact .inl h
        · exact .inr (List.mem_cons_self _ _)
      · exact .inr (List.mem_cons_of_mem _ h)
    · simp only [i5, mem_keys_remove, keys_cons, List.mem_cons, not_or, ne_eq, and_assoc]

end

/-- The assets the inputs spend, input 0 counted with the maker's input secrets. -/
def inputAssets (mi : TxOutSecrets) (U : Unblinded) (tx : Transaction) : List AssetId :=
  (loopEntries (inputEntry mi U) 0 tx.input).map Prod.fst

/-- **What `liquidex_changes` returns**: the outputs did not exceed the inputs in any
asset, nor by the fee in the policy asset, and each asset the inputs spend gets its
change, no other. -/
theorem liquidexChanges_ok {C : Crate} {mi mo : TxOutSecrets} {tx : Transaction} {E : UInt64}
    {P : AssetId} {U : Unblinded} {res : HashMap AssetId UInt64}
    (h : liquidexChanges C mi mo tx E P U = .ok res) :
    (∀ a, outSum mo tx a ≤ inSum mi U tx a) ∧
    (P ∈ inputAssets mi U tx → outSum mo tx P + E.toNat ≤ inSum mi U tx P) ∧
    (∀ a, amount res a = if a ∈ inputAssets mi U tx then
      changeOf C.dustValue.toNat E.toNat (a = P) (inSum mi U tx a) (outSum mo tx a) else 0) ∧
    (∀ a ∈ keys res, a ∈ inputAssets mi U tx) ∧ (keys res).Nodup := by
  simp only [liquidexChanges] at h
  obtain ⟨O, ho, h⟩ := bind_eq_ok.1 h
  obtain ⟨I, hi, h⟩ := bind_eq_ok.1 h
  obtain ⟨⟨res', O'⟩, hl, h⟩ := bind_eq_ok.1 h
  obtain ⟨u, ha, h⟩ := bind_eq_ok.1 h
  cases h
  obtain ⟨hO, hOk, -⟩ := outputs_ok ho
  obtain ⟨hI, hIk, hIn⟩ := inputs_ok hi
  obtain ⟨c1, c2, c3, c4, c5⟩ := changesLoop_ok hIn (fun _ _ h => by cases h) hl
  have hmem : ∀ a, a ∈ keys I ↔ a ∈ inputAssets mi U tx := hIk
  have hempty : O' = [] := List.isEmpty_iff.1 (assert_eq_ok.1 ha)
  simp only [hO, hI, amount_nil, zero_add, hmem] at c1 c2
  refine ⟨fun a => ?_, fun hP => ((c1 P hP).2 rfl), c2, fun a ha => ?_, c4 List.nodup_nil⟩
  · by_cases ha : a ∈ inputAssets mi U tx
    · exact (c1 a ha).1
    · have hk : a ∉ keys O := fun hk => by
        have := (c5 a).2 ⟨hk, by rwa [hmem]⟩
        rw [hempty] at this; cases this
      rw [← hO, amount_eq_zero_of_not_mem hk]; exact Nat.zero_le _
  · rcases c3 a ha with h | h
    · cases h
    · exact (hmem a).1 h

/-- A change `liquidex_changes` records: positive, and above the dust value in the policy
asset. -/
def NoDust (dust : UInt64) (P : AssetId) (e : AssetId × UInt64) : Prop :=
  0 < e.2.toNat ∧ (e.1 = P → dust.toNat < e.2.toNat)

/-- The loop of `liquidex_changes` records only changes above the dust rules. -/
theorem changesLoop_noDust {dust E : UInt64} {P : AssetId} {L O res res' O' : HashMap AssetId UInt64}
    (hres : ∀ e ∈ res, NoDust dust P e) (h : changesLoop dust E P L O res = .ok (res', O')) :
    ∀ e ∈ res', NoDust dust P e := by
  induction L generalizing O res with
  | nil => cases h; exact hres
  | cons kv rest ih =>
    obtain ⟨k, v⟩ := kv
    have hins : ∀ s : UInt64, NoDust dust P (k, s) → ∀ e ∈ res.insert k s, NoDust dust P e :=
      fun s hs e he => (mem_insert he).elim (· ▸ hs) (hres e)
    simp only [changesLoop] at h
    obtain ⟨s, -, h⟩ := bind_eq_ok.1 h
    split at h
    · obtain ⟨s₂, -, h⟩ := bind_eq_ok.1 h
      split at h
      · rename_i hd
        have hd : dust.toNat < s₂.toNat := hd
        exact ih (hins s₂ ⟨Nat.lt_of_le_of_lt (Nat.zero_le _) hd, fun _ => hd⟩) h
      · exact ih hres h
    · rename_i hP
      split at h
      · rename_i hs
        exact ih (hins s ⟨hs, fun hk => absurd hk hP⟩) h
      · exact ih hres h

theorem liquidexChanges_noDust {C : Crate} {mi mo : TxOutSecrets} {tx : Transaction}
    {E : UInt64} {P : AssetId} {U : Unblinded} {res : HashMap AssetId UInt64}
    (h : liquidexChanges C mi mo tx E P U = .ok res) : ∀ e ∈ res, NoDust C.dustValue P e := by
  simp only [liquidexChanges] at h
  obtain ⟨O, -, h⟩ := bind_eq_ok.1 h
  obtain ⟨I, -, h⟩ := bind_eq_ok.1 h
  obtain ⟨⟨res', O'⟩, hl, h⟩ := bind_eq_ok.1 h
  obtain ⟨u, -, h⟩ := bind_eq_ok.1 h
  cases h
  exact changesLoop_noDust (fun _ h => by cases h) hl

/-- **What `liquidex_fee` returns**: no output was a fee output yet, the policy asset is
among the inputs, and the fee is what the inputs hold of it beyond the outputs. -/
theorem liquidexFee_ok {mi mo : TxOutSecrets} {tx : Transaction} {P : AssetId} {U : Unblinded}
    {F : UInt64} (h : liquidexFee mi mo tx P U = .ok F) :
    (∀ o ∈ tx.output, o.isFee = false) ∧ P ∈ inputAssets mi U tx ∧
      outSum mo tx P ≤ inSum mi U tx P ∧ F.toNat = inSum mi U tx P - outSum mo tx P := by
  simp only [liquidexFee] at h
  obtain ⟨u, ha, h⟩ := bind_eq_ok.1 h
  obtain ⟨O, ho, h⟩ := bind_eq_ok.1 h
  obtain ⟨I, hi, h⟩ := bind_eq_ok.1 h
  obtain ⟨i, hgi, h⟩ := bind_eq_ok.1 h
  obtain ⟨o, hgo, h⟩ := bind_eq_ok.1 h
  rw [unwrap_eq_ok] at hgi hgo
  obtain ⟨hle, hF⟩ := subU64_ok h
  obtain ⟨hI, hIk, -⟩ := inputs_ok hi
  obtain ⟨hO, -, -⟩ := outputs_ok ho
  have hia : i.toNat = inSum mi U tx P := by rw [← hI]; simp [amount, hgi]
  have hoa : o.toNat = outSum mo tx P := by rw [← hO]; simp [amount, hgo]
  refine ⟨fun x hx => ?_, (hIk P).1 (get_isSome_iff.1 (by simp [hgi])), by omega, by omega⟩
  have := assert_eq_ok.1 ha
  simp only [Bool.not_eq_true', List.any_eq_false] at this
  simpa using this x hx

/-- **The taker's settlement conserves value.**  After a selection that `liquidex_needs`
found complete, change outputs for what `liquidex_changes` returned, and the fee
`liquidex_fee` took, every asset's inputs equal its outputs, plus the fee for the policy
asset; and the fee is the estimate, or above it by at most the dust value. -/
theorem settle_conserves {C : Crate} {it : HashIter (AssetId × UInt64)} {mi mo : TxOutSecrets}
    {sel core : Transaction} {rate : Float} {P : AssetId} {U : Unblinded}
    {res : HashMap AssetId UInt64} {F : UInt64}
    (hneeds : liquidexNeeds C it mi mo sel rate P U = .ok [])
    (hres : liquidexChanges C mi mo sel (liquidexFeeEstimate C mi U sel rate) P U = .ok res)
    (hin : core.input = sel.input)
    (hout : ∀ a, outSum mo core a = outSum mo sel a + amount res a)
    (hfee : liquidexFee mi mo core P U = .ok F) :
    (∀ a, inSum mi U core a = outSum mo core a + if a = P then F.toNat else 0) ∧
    (liquidexFeeEstimate C mi U sel rate).toNat ≤ F.toNat ∧
    F.toNat ≤ (liquidexFeeEstimate C mi U sel rate).toNat + C.dustValue.toNat := by
  have hI : ∀ a, inSum mi U core a = inSum mi U sel a := fun a => by simp only [inSum, hin]
  have hA : inputAssets mi U core = inputAssets mi U sel := by simp only [inputAssets, hin]
  obtain ⟨-, r2, r3, -, -⟩ := liquidexChanges_ok hres
  obtain ⟨-, hP, -, hF⟩ := liquidexFee_ok hfee
  rw [hA] at hP
  have hcov := liquidexNeeds_eq_nil hneeds
  have hPcov := hcov P
  have hPres := r3 P
  rw [if_pos hP] at hPres
  simp only [if_true, changeOf, decide_True] at hPcov hPres
  rw [hI, hout] at hF
  refine ⟨fun a => ?_, ?_, ?_⟩
  · rw [hI, hout, r3 a]
    by_cases haP : a = P
    · subst haP; rw [if_pos hP, if_pos rfl]; simp only [changeOf, decide_True, if_true]
      split <;> split at hPres <;> omega
    · have := hcov a
      simp only [haP, if_false, add_zero, changeOf, decide_False, Bool.false_eq_true] at this ⊢
      split
      · omega
      · rename_i ha
        have : inSum mi U sel a = 0 := sumOf_eq_zero ha
        omega
  · split at hPres <;> omega
  · split at hPres <;> omega

end BEWallet
