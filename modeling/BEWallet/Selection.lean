import BEWallet.Wallet

/-!
# Coin selection

`create_tx` and `liquidex_take` share one loop: while `needs` is not empty, pop
its last entry and add as an input the biggest UTXO of that asset whose outpoint
is not in `used_utxo`, or fail with `InsufficientFunds` when there is none.

    SelInv utxos s → selectionStep … s = .ok (some s') →
      one new input, offered by the list, whose outpoint no input has yet
                                                      (selectionStep_inv)
    SelInv utxos s → fuel > #fresh outpoints → the loop does not run out of fuel
                                                      (selectionLoop_ne_diverge)
    SelInv → whatever selectInputs ends with, its rounds each picked the biggest
      unused UTXO of the asset needs asked for           (selectInputs_biggest_first)

The source's loop is unbounded; the model runs it for `utxos.length + 1`
rounds, which is enough by the second line.  The loop filters by outpoint only:
nothing stops it from taking two UTXOs that share a `script_pubkey`.
-/

namespace BEWallet

/-- The outpoints a UTXO list offers. -/
def outpoints (utxos : List UnblindedTXO) : List OutPoint := utxos.map (·.txo.outpoint)

/-- `asset_utxos` sorted by value, then `pop()`: the biggest UTXO of `asset` whose
outpoint is not in `used`, the last one of the list among equals (the sort is stable). -/
def selectUtxo (utxos : List UnblindedTXO) (used : List OutPoint) (asset : AssetId) :
    Option UnblindedTXO :=
  ((utxos.filter fun u => u.unblinded.asset = asset ∧ u.txo.outpoint ∉ used).insertionSort
    fun a b => a.unblinded.value ≤ b.unblinded.value).getLast?

/-- The loop's state: the transaction and `used_utxo`. -/
structure SelState where
  tx : Transaction
  used : List OutPoint

/-- One round after `needs` returned `n`: `none` when the loop exits. -/
def selectionStep (utxos : List UnblindedTXO) (n : List (AssetId × UInt64)) (s : SelState) :
    Except Fault (Option SelState) :=
  match n.getLast? with
  | none => pure none
  | some (asset, _) => do
    let utxo ← okOr (selectUtxo utxos s.used asset) .insufficientFunds
    pure (some ⟨addInput s.tx utxo.txo.outpoint, utxo.txo.outpoint :: s.used⟩)

/-- The loop; `needs round tx` is what `needs` returns at the `round`-th call. -/
def selectionLoop (needs : Nat → Transaction → Except Fault (List (AssetId × UInt64)))
    (utxos : List UnblindedTXO) : Nat → Nat → SelState → Except Fault SelState
  | 0, _, _ => .error .diverge
  | fuel + 1, round, s => do
    match ← selectionStep utxos (← needs round s.tx) s with
    | none => pure s
    | some s' => selectionLoop needs utxos fuel (round + 1) s'

/-- The loop as both callers run it: from `used_utxo = used`, for `utxos.length + 1`
rounds. -/
def selectInputs (needs : Nat → Transaction → Except Fault (List (AssetId × UInt64)))
    (utxos : List UnblindedTXO) (tx : Transaction) (used : List OutPoint) :
    Except Fault Transaction := do
  let s ← selectionLoop needs utxos (utxos.length + 1) 0 ⟨tx, used⟩
  pure s.tx

/-- STEP 2 of `create_tx`: `used_utxo` starts empty. -/
def createTxSelect (needs : Nat → Transaction → Except Fault (List (AssetId × UInt64)))
    (utxos : List UnblindedTXO) (tx : Transaction) : Except Fault Transaction :=
  selectInputs needs utxos tx []

/-- The selection of `liquidex_take`: `used_utxo` starts with the maker's outpoint
`tx.input[0].previous_output` when the wallet's UTXOs include it. -/
def liquidexTakeSelect (needs : Nat → Transaction → Except Fault (List (AssetId × UInt64)))
    (utxos : List UnblindedTXO) (tx : Transaction) : Except Fault Transaction :=
  match tx.input with
  | [] => throwPanic "index out of bounds: the len is 0 but the index is 0"
  | i0 :: _ =>
    let inputOutpoint := i0.previousOutput
    selectInputs needs utxos tx
      (if utxos.any (·.txo.outpoint = inputOutpoint) then [inputOutpoint] else [])

/-- What the selection loop does, round by round, from round `round` and state `s`:
`picked` lists the UTXOs it adds, in order, and `r` is what it ends with.  Each round calls
`needs`; the run fails with its error, ends with the transaction when it asks for
nothing, and otherwise adds, of the asset last in its answer, a UTXO no round has used
of the greatest value among those, or fails with `InsufficientFunds` when every UTXO of
that asset is used. -/
inductive SelRun (needs : Nat → Transaction → Except Fault (List (AssetId × UInt64)))
    (utxos : List UnblindedTXO) :
    Nat → SelState → List UnblindedTXO → Except Fault Transaction → Prop
  | needsError {round : Nat} {s : SelState} {e : Fault} :
      needs round s.tx = .error e → SelRun needs utxos round s [] (.error e)
  | done {round : Nat} {s : SelState} :
      needs round s.tx = .ok [] → SelRun needs utxos round s [] (.ok s.tx)
  | short {round : Nat} {s : SelState} {n : List (AssetId × UInt64)} {asset : AssetId}
      {v : UInt64} : needs round s.tx = .ok n → n.getLast? = some (asset, v) →
      (∀ u ∈ utxos, u.unblinded.asset = asset → u.txo.outpoint ∈ s.used) →
      SelRun needs utxos round s [] (.error (.error .insufficientFunds))
  | pick {round : Nat} {s : SelState} {n : List (AssetId × UInt64)} {v : UInt64}
      {u : UnblindedTXO} {picked : List UnblindedTXO} {r : Except Fault Transaction} :
      needs round s.tx = .ok n → n.getLast? = some (u.unblinded.asset, v) → u ∈ utxos →
      u.txo.outpoint ∉ s.used →
      (∀ u' ∈ utxos, u'.unblinded.asset = u.unblinded.asset → u'.txo.outpoint ∉ s.used →
        u'.unblinded.value ≤ u.unblinded.value) →
      SelRun needs utxos (round + 1) ⟨addInput s.tx u.txo.outpoint, u.txo.outpoint :: s.used⟩
        picked r →
      SelRun needs utxos round s (u :: picked) r

/-! ## One round -/

theorem selectUtxo_some {utxos : List UnblindedTXO} {used : List OutPoint} {asset : AssetId}
    {u : UnblindedTXO} (h : selectUtxo utxos used asset = some u) :
    u ∈ utxos ∧ u.unblinded.asset = asset ∧ u.txo.outpoint ∉ used := by
  have := (List.mem_insertionSort _).1 (List.mem_of_getLast?_eq_some h)
  simpa using this

theorem selectUtxo_eq_none {utxos : List UnblindedTXO} {used : List OutPoint} {asset : AssetId} :
    selectUtxo utxos used asset = none ↔
      ∀ u ∈ utxos, u.unblinded.asset = asset → u.txo.outpoint ∈ used := by
  rw [selectUtxo, List.getLast?_eq_none_iff, ← List.length_eq_zero,
    (List.perm_insertionSort _ _).length_eq, List.length_eq_zero, List.filter_eq_nil_iff]
  simp only [decide_eq_true_eq, not_and, not_not]

/-- **The pick is the biggest** UTXO of the asset not yet used. -/
theorem selectUtxo_max {utxos : List UnblindedTXO} {used : List OutPoint} {asset : AssetId}
    {u : UnblindedTXO} (h : selectUtxo utxos used asset = some u) {v : UnblindedTXO}
    (hv : v ∈ utxos) (ha : v.unblinded.asset = asset) (hn : v.txo.outpoint ∉ used) :
    v.unblinded.value ≤ u.unblinded.value := by
  have htot : IsTotal UnblindedTXO fun a b => a.unblinded.value ≤ b.unblinded.value :=
    ⟨fun a b => by simp only [u64_le_iff]; omega⟩
  have htr : IsTrans UnblindedTXO fun a b => a.unblinded.value ≤ b.unblinded.value :=
    ⟨fun _ _ _ h1 h2 => u64_le_iff.2 (Nat.le_trans h1 h2)⟩
  obtain ⟨ys, hys⟩ := List.getLast?_eq_some_iff.1 h
  have hs := List.sorted_insertionSort
    (fun a b : UnblindedTXO => a.unblinded.value ≤ b.unblinded.value)
    (utxos.filter fun u => u.unblinded.asset = asset ∧ u.txo.outpoint ∉ used)
  have hmem : v ∈ ys ++ [u] := by
    rw [← hys, List.mem_insertionSort]; simp [hv, ha, hn]
  rw [hys, List.Sorted, List.pairwise_append] at hs
  rcases List.mem_append.1 hmem with hy | hy
  · exact hs.2.2 v hy u (List.mem_singleton_self u)
  · rw [List.mem_singleton.1 hy]; exact u64_le_iff.2 le_rfl

theorem selectionStep_eq_none {utxos : List UnblindedTXO} {n : List (AssetId × UInt64)}
    {s : SelState} : selectionStep utxos n s = .ok none ↔ n = [] := by
  unfold selectionStep
  split
  · rename_i hl
    exact ⟨fun _ => List.getLast?_eq_none_iff.1 hl, fun _ => rfl⟩
  · rename_i asset v hl
    refine ⟨fun h => ?_, by rintro rfl; cases hl⟩
    cases hs : selectUtxo utxos s.used asset <;>
      simp [hs, okOr, throwErr, bind, Except.bind, pure, Except.pure] at h

/-- A round that adds an input adds the biggest unused UTXO of the popped asset. -/
theorem selectionStep_ok_biggest {utxos : List UnblindedTXO} {n : List (AssetId × UInt64)}
    {s s' : SelState} (h : selectionStep utxos n s = .ok (some s')) :
    ∃ u ∈ utxos, (∃ v, n.getLast? = some (u.unblinded.asset, v)) ∧ u.txo.outpoint ∉ s.used ∧
      (∀ u' ∈ utxos, u'.unblinded.asset = u.unblinded.asset → u'.txo.outpoint ∉ s.used →
        u'.unblinded.value ≤ u.unblinded.value) ∧
      s' = ⟨addInput s.tx u.txo.outpoint, u.txo.outpoint :: s.used⟩ := by
  unfold selectionStep at h
  split at h
  · cases h
  · rename_i asset v hl
    cases hs : selectUtxo utxos s.used asset with
    | none => simp [hs, okOr, throwErr, bind, Except.bind] at h
    | some u =>
      simp only [hs, okOr, bind, Except.bind, pure, Except.pure, Except.ok.injEq,
        Option.some.injEq] at h
      obtain ⟨hu, rfl, hn⟩ := selectUtxo_some hs
      exact ⟨u, hu, ⟨v, hl⟩, hn, fun u' hu' ha hn' => selectUtxo_max hs hu' ha hn', h.symm⟩

/-- A round that adds an input adds one UTXO of the popped asset, not yet used. -/
theorem selectionStep_ok_some {utxos : List UnblindedTXO} {n : List (AssetId × UInt64)}
    {s s' : SelState} (h : selectionStep utxos n s = .ok (some s')) :
    ∃ u ∈ utxos, (∃ v, n.getLast? = some (u.unblinded.asset, v)) ∧ u.txo.outpoint ∉ s.used ∧
      s' = ⟨addInput s.tx u.txo.outpoint, u.txo.outpoint :: s.used⟩ := by
  obtain ⟨u, hu, hl, hn, -, rfl⟩ := selectionStep_ok_biggest h
  exact ⟨u, hu, hl, hn, rfl⟩

/-- A round fails only with `InsufficientFunds`, when every UTXO of the popped asset is
used. -/
theorem selectionStep_error {utxos : List UnblindedTXO} {n : List (AssetId × UInt64)}
    {s : SelState} {f : Fault} (h : selectionStep utxos n s = .error f) :
    f = .error .insufficientFunds ∧ ∃ asset v, n.getLast? = some (asset, v) ∧
      ∀ u ∈ utxos, u.unblinded.asset = asset → u.txo.outpoint ∈ s.used := by
  unfold selectionStep at h
  split at h
  · cases h
  · rename_i asset v hl
    cases hs : selectUtxo utxos s.used asset with
    | none =>
      simp only [hs, okOr, throwErr, bind, Except.bind, Except.error.injEq] at h
      exact ⟨h.symm, asset, v, hl, selectUtxo_eq_none.1 hs⟩
    | some u => simp [hs, okOr, bind, Except.bind, pure, Except.pure] at h

/-- The selection loop's invariant: the inputs' outpoints are distinct, and each of them
that the UTXO list offers is in `used_utxo`. -/
structure SelInv (utxos : List UnblindedTXO) (s : SelState) : Prop where
  nodup : (s.tx.input.map (·.previousOutput)).Nodup
  covered : ∀ i ∈ s.tx.input, i.previousOutput ∈ outpoints utxos → i.previousOutput ∈ s.used

/-- The outpoints of the list that `used_utxo` does not hold yet. -/
def fresh (utxos : List UnblindedTXO) (used : List OutPoint) : Nat :=
  ((outpoints utxos).dedup.filter (· ∉ used)).length

theorem fresh_le (utxos : List UnblindedTXO) (used : List OutPoint) :
    fresh utxos used ≤ (outpoints utxos).dedup.length :=
  List.length_filter_le _ _

theorem fresh_cons_lt {utxos : List UnblindedTXO} {used : List OutPoint} {o : OutPoint}
    (ho : o ∈ outpoints utxos) (hn : o ∉ used) : fresh utxos (o :: used) < fresh utxos used := by
  have hsplit : (outpoints utxos).dedup.filter (· ∉ o :: used) =
      ((outpoints utxos).dedup.filter (· ∉ used)).filter (· ≠ o) := by
    rw [List.filter_filter]
    congr 1; funext x; simp [and_comm]
  rw [fresh, fresh, hsplit, List.length_filter_lt_length_iff_exists]
  exact ⟨o, List.mem_filter.2 ⟨List.mem_dedup.2 ho, by simpa using hn⟩, by simp⟩

/-- **One round keeps the invariant**: the UTXO it adds is offered by the list, its
outpoint is new among the inputs, and one fewer outpoint of the list is fresh. -/
theorem selectionStep_inv {utxos : List UnblindedTXO} {n : List (AssetId × UInt64)}
    {s s' : SelState} (hs : SelInv utxos s) (h : selectionStep utxos n s = .ok (some s')) :
    ∃ u ∈ utxos, u.txo.outpoint ∉ s.tx.input.map (·.previousOutput) ∧
      s'.tx = addInput s.tx u.txo.outpoint ∧ SelInv utxos s' ∧
      fresh utxos s'.used < fresh utxos s.used := by
  obtain ⟨u, hu, -, hn, rfl⟩ := selectionStep_ok_some h
  have hop : u.txo.outpoint ∈ outpoints utxos := List.mem_map_of_mem _ hu
  have hnew : u.txo.outpoint ∉ s.tx.input.map (·.previousOutput) := by
    simp only [List.mem_map, not_exists, not_and]
    intro i hi he
    exact hn (he ▸ hs.covered i hi (he ▸ hop))
  refine ⟨u, hu, hnew, rfl, ⟨?_, ?_⟩, fresh_cons_lt hop hn⟩
  · simpa [List.nodup_append, hs.nodup] using hnew
  · simp only [addInput_input, List.mem_append, List.mem_singleton]
    rintro i (hi | rfl) hio
    · exact List.mem_cons_of_mem _ (hs.covered i hi hio)
    · exact List.mem_cons_self _ _

/-! ## The loop -/

section

variable {needs : Nat → Transaction → Except Fault (List (AssetId × UInt64))}
  {utxos : List UnblindedTXO}

/-- A round whose `needs` fails fails so. -/
theorem selectionLoop_needs_error {fuel round : Nat} {s : SelState} {e : Fault}
    (hn : needs round s.tx = .error e) :
    selectionLoop needs utxos (fuel + 1) round s = .error e := by
  simp only [selectionLoop, hn, bind, Except.bind]

/-- A round whose step fails fails so. -/
theorem selectionLoop_step_error {fuel round : Nat} {s : SelState} {n : List (AssetId × UInt64)}
    {e : Fault} (hn : needs round s.tx = .ok n) (hst : selectionStep utxos n s = .error e) :
    selectionLoop needs utxos (fuel + 1) round s = .error e := by
  simp only [selectionLoop, hn, hst, bind, Except.bind]

/-- A round whose step returns: the loop exits, or goes on from the new state. -/
theorem selectionLoop_step_ok {fuel round : Nat} {s : SelState} {n : List (AssetId × UInt64)}
    {o : Option SelState} (hn : needs round s.tx = .ok n) (hst : selectionStep utxos n s = .ok o) :
    selectionLoop needs utxos (fuel + 1) round s = match o with
      | none => .ok s
      | some s' => selectionLoop needs utxos fuel (round + 1) s' := by
  simp only [selectionLoop, hn, hst, bind, Except.bind]
  cases o <;> rfl

/-- **The loop does not run out of fuel** when it has more rounds than fresh outpoints. -/
theorem selectionLoop_ne_diverge (hneeds : ∀ r tx, needs r tx ≠ .error .diverge)
    {fuel round : Nat} {s : SelState} (hs : SelInv utxos s) (hfuel : fresh utxos s.used < fuel) :
    selectionLoop needs utxos fuel round s ≠ .error .diverge := by
  induction fuel generalizing round s with
  | zero => omega
  | succ fuel ih =>
    cases hn : needs round s.tx with
    | error e =>
      rw [selectionLoop_needs_error hn]
      intro h; cases h; exact hneeds round s.tx hn
    | ok n =>
      cases hst : selectionStep utxos n s with
      | error e =>
        rw [selectionLoop_step_error hn hst, (selectionStep_error hst).1]
        exact fun h => by cases h
      | ok o =>
        rw [selectionLoop_step_ok hn hst]
        cases o with
        | none => exact fun h => by cases h
        | some s' =>
          obtain ⟨-, -, -, -, hs', hlt⟩ := selectionStep_inv hs hst
          exact ih hs' (by omega)

/-- The loop returns, `Ok` or `Err`, when every round of `needs` does and it has more
rounds than fresh outpoints. -/
theorem selectionLoop_returns (hneeds : ∀ r tx, Returns (needs r tx)) {fuel round : Nat}
    {s : SelState} (hs : SelInv utxos s) (hfuel : fresh utxos s.used < fuel) :
    Returns (selectionLoop needs utxos fuel round s) := by
  induction fuel generalizing round s with
  | zero => omega
  | succ fuel ih =>
    cases hn : needs round s.tx with
    | error e =>
      have h := hneeds round s.tx
      rw [hn] at h
      rw [selectionLoop_needs_error hn]
      cases e <;> exact h
    | ok n =>
      cases hst : selectionStep utxos n s with
      | error e => rw [selectionLoop_step_error hn hst, (selectionStep_error hst).1]; trivial
      | ok o =>
        rw [selectionLoop_step_ok hn hst]
        cases o with
        | none => trivial
        | some s' =>
          obtain ⟨-, -, -, -, hs', hlt⟩ := selectionStep_inv hs hst
          exact ih hs' (by omega)

/-- More fuel than a run needs changes nothing. -/
theorem selectionLoop_fuel_mono {fuel fuel' round : Nat} {s : SelState}
    (h : selectionLoop needs utxos fuel round s ≠ .error .diverge) (hle : fuel ≤ fuel') :
    selectionLoop needs utxos fuel' round s = selectionLoop needs utxos fuel round s := by
  induction fuel generalizing fuel' round s with
  | zero => exact absurd rfl h
  | succ fuel ih =>
    obtain ⟨fuel', rfl⟩ : ∃ k, fuel' = k + 1 := ⟨fuel' - 1, by omega⟩
    cases hn : needs round s.tx with
    | error e => rw [selectionLoop_needs_error hn, selectionLoop_needs_error hn]
    | ok n =>
      cases hst : selectionStep utxos n s with
      | error e => rw [selectionLoop_step_error hn hst, selectionLoop_step_error hn hst]
      | ok o =>
        rw [selectionLoop_step_ok hn hst] at h ⊢
        rw [selectionLoop_step_ok hn hst]
        cases o with
        | none => rfl
        | some s' => exact ih h (by omega)

/-- **What a finished loop guarantees**: the invariant, the exit condition (`needs`
returned nothing), and the inputs it added, each a UTXO of the list whose asset some
round of `needs` popped, on a transaction that differed only in its inputs. -/
theorem selectionLoop_ok {fuel round : Nat} {s s' : SelState} (hs : SelInv utxos s)
    (h : selectionLoop needs utxos fuel round s = .ok s') :
    SelInv utxos s' ∧ (∃ r, needs r s'.tx = .ok []) ∧
    ∃ added : List UnblindedTXO,
      (∀ u ∈ added, u ∈ utxos ∧ ∃ r ins n v, needs r { s.tx with input := ins } = .ok n ∧
        n.getLast? = some (u.unblinded.asset, v)) ∧
      s'.tx = { s.tx with input := s.tx.input ++ added.map fun u => ⟨u.txo.outpoint, [], []⟩ } := by
  induction fuel generalizing round s with
  | zero => cases h
  | succ fuel ih =>
    cases hn : needs round s.tx with
    | error e => rw [selectionLoop_needs_error hn] at h; cases h
    | ok n =>
      cases hst : selectionStep utxos n s with
      | error e => rw [selectionLoop_step_error hn hst] at h; cases h
      | ok o =>
        rw [selectionLoop_step_ok hn hst] at h
        cases o with
        | none =>
          cases h
          exact ⟨hs, ⟨round, selectionStep_eq_none.1 hst ▸ hn⟩, [], by simp, by simp⟩
        | some s1 =>
          obtain ⟨-, -, -, -, hs1, -⟩ := selectionStep_inv hs hst
          obtain ⟨u, hu, ⟨v, hl⟩, -, rfl⟩ := selectionStep_ok_some hst
          obtain ⟨hs', hexit, added, hadded, htx⟩ := ih hs1 h
          refine ⟨hs', hexit, u :: added, ?_, by rw [htx]; simp⟩
          rintro w (_ | ⟨_, hw⟩)
          · exact ⟨hu, round, s.tx.input, n, v, hn, hl⟩
          · exact hadded w hw

/-- **Every run that does not run out of rounds is a `SelRun`**: whatever the loop ends
with, its rounds picked, in order, the biggest unused UTXO of the asset `needs` asked for
last. -/
theorem selectionLoop_run {fuel round : Nat} {s : SelState}
    (h : selectionLoop needs utxos fuel round s ≠ .error .diverge) :
    ∃ picked, SelRun needs utxos round s picked
      (do let s' ← selectionLoop needs utxos fuel round s; pure s'.tx) := by
  induction fuel generalizing round s with
  | zero => exact absurd rfl h
  | succ fuel ih =>
    cases hn : needs round s.tx with
    | error e => rw [selectionLoop_needs_error hn]; exact ⟨[], .needsError hn⟩
    | ok n =>
      cases hst : selectionStep utxos n s with
      | error f =>
        obtain ⟨rfl, asset, v, hl, hused⟩ := selectionStep_error hst
        rw [selectionLoop_step_error hn hst]
        exact ⟨[], .short hn hl hused⟩
      | ok o =>
        rw [selectionLoop_step_ok hn hst] at h ⊢
        cases o with
        | none => exact ⟨[], .done (selectionStep_eq_none.1 hst ▸ hn)⟩
        | some s' =>
          obtain ⟨u, hu, ⟨v, hl⟩, hnew, hmax, rfl⟩ := selectionStep_ok_biggest hst
          obtain ⟨picked, hrun⟩ := ih h
          exact ⟨u :: picked, .pick hn hl hu hnew hmax hrun⟩

/-- A run that ends with a transaction appended the picked UTXOs' outpoints, in order. -/
theorem SelRun.ok_eq {round : Nat} {s : SelState} {picked : List UnblindedTXO}
    {tx' : Transaction} (h : SelRun needs utxos round s picked (.ok tx')) :
    tx' = { s.tx with input := s.tx.input ++ picked.map fun u => ⟨u.txo.outpoint, [], []⟩ } := by
  generalize hr : (Except.ok tx' : Except Fault Transaction) = r at h
  induction h with
  | needsError => cases hr
  | short => cases hr
  | done => cases hr; simp
  | pick _ _ _ _ _ _ ih => rw [ih hr]; simp [addInput]

end

/-! ## The two callers -/

theorem selInv_createTx (utxos : List UnblindedTXO) {tx : Transaction} (h : tx.input = []) :
    SelInv utxos ⟨tx, []⟩ :=
  ⟨by simp [h], by simp [h]⟩

theorem selInv_liquidexTake (utxos : List UnblindedTXO) {tx : Transaction} {i0 : TxIn}
    (h : tx.input = [i0]) :
    SelInv utxos ⟨tx, if utxos.any (·.txo.outpoint = i0.previousOutput) then
      [i0.previousOutput] else []⟩ := by
  refine ⟨by simp [h], ?_⟩
  simp only [h, List.mem_singleton]
  rintro i rfl hi
  obtain ⟨u, hu, he⟩ := List.mem_map.1 hi
  rw [if_pos (List.any_eq_true.2 ⟨u, hu, by simp [he]⟩)]
  exact List.mem_singleton_self _

theorem fresh_lt_length_succ (utxos : List UnblindedTXO) (used : List OutPoint) :
    fresh utxos used < utxos.length + 1 := by
  have := (List.dedup_sublist (outpoints utxos)).length_le
  have := fresh_le utxos used
  simp only [outpoints, List.length_map] at *
  omega

section

variable {needs : Nat → Transaction → Except Fault (List (AssetId × UInt64))}
  {utxos : List UnblindedTXO} {tx : Transaction} {used : List OutPoint}

theorem selectInputs_ne_diverge (hneeds : ∀ r tx, needs r tx ≠ .error .diverge)
    (hs : SelInv utxos ⟨tx, used⟩) : selectInputs needs utxos tx used ≠ .error .diverge := by
  have : selectionLoop needs utxos (utxos.length + 1) 0 ⟨tx, used⟩ ≠ .error .diverge :=
    selectionLoop_ne_diverge hneeds hs (fresh_lt_length_succ utxos used)
  unfold selectInputs
  cases h : selectionLoop needs utxos (utxos.length + 1) 0 ⟨tx, used⟩ with
  | error e => exact fun he => this (h.trans (by cases he; rfl))
  | ok s => exact fun he => by cases he

theorem selectInputs_returns (hneeds : ∀ r tx, Returns (needs r tx))
    (hs : SelInv utxos ⟨tx, used⟩) : Returns (selectInputs needs utxos tx used) :=
  Returns.bind (selectionLoop_returns hneeds hs (fresh_lt_length_succ utxos used))
    fun _ _ => trivial

/-- **What the selection returns**: distinct input outpoints, a last round of `needs`
that returned nothing, and the inputs added, each a UTXO of the list whose asset a round
of `needs` popped on the transaction with other inputs. -/
theorem selectInputs_ok {tx' : Transaction} (hs : SelInv utxos ⟨tx, used⟩)
    (h : selectInputs needs utxos tx used = .ok tx') :
    (tx'.input.map (·.previousOutput)).Nodup ∧ (∃ r, needs r tx' = .ok []) ∧
    ∃ added : List UnblindedTXO,
      (∀ u ∈ added, u ∈ utxos ∧ ∃ r ins n v, needs r { tx with input := ins } = .ok n ∧
        n.getLast? = some (u.unblinded.asset, v)) ∧
      tx' = { tx with input := tx.input ++ added.map fun u => ⟨u.txo.outpoint, [], []⟩ } := by
  obtain ⟨s', hl, h⟩ := bind_eq_ok.1 h
  cases h
  obtain ⟨hs', hexit, rest⟩ := selectionLoop_ok hs hl
  exact ⟨hs'.nodup, hexit, rest⟩

/-- **The selection is biggest-first**, in both callers.  Whatever `selectInputs` ends
with, it is the end of a run whose rounds each added, of the asset last in what `needs`
returned, an unused UTXO of the list of the greatest value; it fails with
`InsufficientFunds` only when `needs` asked for an asset whose UTXOs are all used, fails
otherwise only with an error of `needs`, and returns the transaction with the picked
outpoints appended, in order, when `needs` asks for nothing. -/
theorem selectInputs_biggest_first (hneeds : ∀ r tx, needs r tx ≠ .error .diverge)
    (hs : SelInv utxos ⟨tx, used⟩) :
    ∃ picked, SelRun needs utxos 0 ⟨tx, used⟩ picked (selectInputs needs utxos tx used) ∧
      ∀ tx', selectInputs needs utxos tx used = .ok tx' →
        tx' = { tx with input := tx.input ++ picked.map fun u => ⟨u.txo.outpoint, [], []⟩ } := by
  obtain ⟨picked, hrun⟩ := @selectionLoop_run needs utxos _ 0 _
    (selectionLoop_ne_diverge hneeds hs (fresh_lt_length_succ utxos used))
  have hrun : SelRun needs utxos 0 ⟨tx, used⟩ picked (selectInputs needs utxos tx used) := hrun
  exact ⟨picked, hrun, fun tx' h => SelRun.ok_eq (h ▸ hrun)⟩

end

/-- `needs` asking for 50 of `assetA` while the transaction has no input. -/
def Sample.firstInputNeeds (_ : Nat) (tx : Transaction) : Except Fault (List (AssetId × UInt64)) :=
  pure (if tx.input.isEmpty then [(Sample.assetA, 50)] else [])

/-- Two UTXOs of `assetA`, of 100 and 300. -/
def Sample.twoUtxos : List UnblindedTXO :=
  [⟨⟨⟨List.replicate 32 0x77, 0⟩, [0xa9, 0x01], none⟩, ⟨Sample.assetA, 1, 100, 2⟩⟩,
    ⟨⟨⟨List.replicate 32 0x78, 1⟩, [0xa9, 0x02], none⟩, ⟨Sample.assetA, 1, 300, 2⟩⟩]

open Sample in
theorem selectInputs_biggest_first_sample :
    (∀ r tx, firstInputNeeds r tx ≠ .error .diverge) ∧ SelInv twoUtxos ⟨Transaction.empty, []⟩ ∧
    ∃ picked, SelRun firstInputNeeds twoUtxos 0 ⟨Transaction.empty, []⟩ picked
        (selectInputs firstInputNeeds twoUtxos Transaction.empty []) ∧
      ∀ tx', selectInputs firstInputNeeds twoUtxos Transaction.empty [] = .ok tx' →
        tx' = { Transaction.empty with
          input := Transaction.empty.input ++ picked.map fun u => ⟨u.txo.outpoint, [], []⟩ } :=
  have hneeds : ∀ r tx, firstInputNeeds r tx ≠ .error .diverge := fun _ _ h => by cases h
  ⟨hneeds, selInv_createTx twoUtxos rfl,
    selectInputs_biggest_first hneeds (selInv_createTx twoUtxos rfl)⟩

theorem liquidexTakeSelect_eq {needs : Nat → Transaction → Except Fault (List (AssetId × UInt64))}
    {utxos : List UnblindedTXO} {tx : Transaction} {i0 : TxIn} (h : tx.input = [i0]) :
    liquidexTakeSelect needs utxos tx = selectInputs needs utxos tx
      (if utxos.any (·.txo.outpoint = i0.previousOutput) then [i0.previousOutput] else []) := by
  simp only [liquidexTakeSelect, h]

/-- **Both selection loops add distinct inputs and end.**  A round after `needs` asked for
something does not exit: it adds one UTXO of the list whose outpoint no input has yet, or
fails with `InsufficientFunds`; a run from a state of the invariant takes at most one
round more than the list has distinct outpoints; `create_tx` (no inputs yet) and
`liquidex_take` (the maker's one input) start in the invariant, so neither runs out of
rounds, and what they return has inputs with distinct outpoints and is a transaction for
which `needs` asked for nothing. -/
theorem selection_adds_distinct_inputs
    (needs : Nat → Transaction → Except Fault (List (AssetId × UInt64)))
    (hneeds : ∀ r tx, needs r tx ≠ .error .diverge) (utxos : List UnblindedTXO) :
    (∀ n s, n ≠ [] → selectionStep utxos n s ≠ .ok none) ∧
    (∀ n s s', SelInv utxos s → selectionStep utxos n s = .ok (some s') →
      ∃ u ∈ utxos, u.txo.outpoint ∉ s.tx.input.map (·.previousOutput) ∧
        s'.tx = addInput s.tx u.txo.outpoint ∧ SelInv utxos s') ∧
    (∀ n s f, selectionStep utxos n s = .error f → f = .error .insufficientFunds) ∧
    (∀ s, SelInv utxos s → ∀ fuel round, (outpoints utxos).dedup.length < fuel →
      selectionLoop needs utxos fuel round s =
        selectionLoop needs utxos ((outpoints utxos).dedup.length + 1) round s ∧
      selectionLoop needs utxos fuel round s ≠ .error .diverge) ∧
    (∀ tx, tx.input = [] → createTxSelect needs utxos tx ≠ .error .diverge ∧
      ∀ tx', createTxSelect needs utxos tx = .ok tx' →
        (tx'.input.map (·.previousOutput)).Nodup ∧ ∃ r, needs r tx' = .ok []) ∧
    (∀ tx i0, tx.input = [i0] → liquidexTakeSelect needs utxos tx ≠ .error .diverge ∧
      ∀ tx', liquidexTakeSelect needs utxos tx = .ok tx' →
        (tx'.input.map (·.previousOutput)).Nodup ∧ ∃ r, needs r tx' = .ok []) := by
  refine ⟨fun n s hn h => hn (selectionStep_eq_none.1 h), fun n s s' hs h => ?_,
    fun n s f h => (selectionStep_error h).1, fun s hs fuel round hfuel => ?_, fun tx h => ?_,
    fun tx i0 h => ?_⟩
  · obtain ⟨u, hu, hnew, htx, hs', -⟩ := selectionStep_inv hs h
    exact ⟨u, hu, hnew, htx, hs'⟩
  · have hD : selectionLoop needs utxos ((outpoints utxos).dedup.length + 1) round s ≠
        .error .diverge := selectionLoop_ne_diverge hneeds hs
      (Nat.lt_succ_of_le (fresh_le utxos s.used))
    exact ⟨selectionLoop_fuel_mono hD hfuel, by rw [selectionLoop_fuel_mono hD hfuel]; exact hD⟩
  · exact ⟨selectInputs_ne_diverge hneeds (selInv_createTx utxos h),
      fun tx' h' => (selectInputs_ok (selInv_createTx utxos h) h').imp_right And.left⟩
  · rw [liquidexTakeSelect_eq h]
    exact ⟨selectInputs_ne_diverge hneeds (selInv_liquidexTake utxos h),
      fun tx' h' => (selectInputs_ok (selInv_liquidexTake utxos h) h').imp_right And.left⟩

/-- A caller-supplied UTXO list that repeats an outpoint. -/
def Sample.repeatedUtxos : List UnblindedTXO :=
  let u : UnblindedTXO :=
    ⟨⟨⟨List.replicate 32 0x77, 0⟩, [0xa9, 0x01], none⟩, ⟨Sample.assetA, 1, 100, 2⟩⟩
  [u, u]

open Sample in
theorem selection_adds_distinct_inputs_sample :
    (∀ r tx, firstInputNeeds r tx ≠ .error .diverge) ∧
    (∀ n s, n ≠ [] → selectionStep repeatedUtxos n s ≠ .ok none) ∧
    (∀ n s s', SelInv repeatedUtxos s → selectionStep repeatedUtxos n s = .ok (some s') →
      ∃ u ∈ repeatedUtxos, u.txo.outpoint ∉ s.tx.input.map (·.previousOutput) ∧
        s'.tx = addInput s.tx u.txo.outpoint ∧ SelInv repeatedUtxos s') ∧
    (∀ n s f, selectionStep repeatedUtxos n s = .error f → f = .error .insufficientFunds) ∧
    (∀ s, SelInv repeatedUtxos s → ∀ fuel round,
      (outpoints repeatedUtxos).dedup.length < fuel →
      selectionLoop firstInputNeeds repeatedUtxos fuel round s =
        selectionLoop firstInputNeeds repeatedUtxos
          ((outpoints repeatedUtxos).dedup.length + 1) round s ∧
      selectionLoop firstInputNeeds repeatedUtxos fuel round s ≠ .error .diverge) ∧
    (∀ tx, tx.input = [] → createTxSelect firstInputNeeds repeatedUtxos tx ≠ .error .diverge ∧
      ∀ tx', createTxSelect firstInputNeeds repeatedUtxos tx = .ok tx' →
        (tx'.input.map (·.previousOutput)).Nodup ∧ ∃ r, firstInputNeeds r tx' = .ok []) ∧
    (∀ tx i0, tx.input = [i0] →
      liquidexTakeSelect firstInputNeeds repeatedUtxos tx ≠ .error .diverge ∧
      ∀ tx', liquidexTakeSelect firstInputNeeds repeatedUtxos tx = .ok tx' →
        (tx'.input.map (·.previousOutput)).Nodup ∧ ∃ r, firstInputNeeds r tx' = .ok []) :=
  have hneeds : ∀ r tx, firstInputNeeds r tx ≠ .error .diverge := fun _ _ h => by cases h
  ⟨hneeds, selection_adds_distinct_inputs firstInputNeeds hneeds repeatedUtxos⟩

end BEWallet
