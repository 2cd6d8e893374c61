import BEWallet.Send
import BEWallet.Funds
import BEWallet.Liquidex.TakeSpec

/-!
# A session: the wallet's calls on one store

The calls share one store behind an `RwLock`, and each access holds it throughout, so a
session of calls from any number of threads is a sequence of them.  Of the store's
cache only `get_address` writes: it bumps the external index and derives the address
there; `liquidex_make` and `liquidex_take` take their receiving address from it, and
the other calls only read.  (`liquidex_assets_insert` and `liquidex_assets_remove`
write the store's set of LiquiDEX assets, which none of these calls reads.)

`get_address` bumps the index while it holds the write lock, so at `u32::MAX` it panics
there and poisons the lock: every later call fails at its `read()?` or `write()?`.
`runCalls` follows the store, `runSession` the store and the lock; they leave the same
store (`runSession_store`).

    HandedOut st (runCalls … st cs).2 (runCalls … st cs).1: the store is the same
      but for the external index, and the indexes handed out increase strictly
                                                         (runCalls_never_reuses)
    the lock is poisoned after a session just when one of its calls ran get_address
      at u32::MAX; through the lock utxos, balance and list_tx then return the
      poisoned-lock error, and otherwise return, as create_tx and sign_with_mnemonic
      do, what they returned before the session       (runSession_reads_unchanged)
    after any session from st, liquidex_take pays its k-th change to the internal
      chain at st's internal index + k + 1             (runCalls_take_changes)
-/

namespace BEWallet

/-- The wallet's calls on its store, with what each is given: the arguments, the random
draws, and the iteration orders of the maps it walks. -/
inductive Call
  | getAddress
  | liquidexMake (opt : LiquidexMakeOpt) (mnemonic : String) (rng : List UInt64)
  | liquidexTake (p : LiquidexProposal) (mnemonic : String) (ord : TakeOrders) (rng : BlindRng)
  | createTx (opt : CreateTransactionOpt) (si : HashIter TxIn) (so : HashIter TxOut)
  | signWithMnemonic (tx : Transaction) (mnemonic : String)
  | utxos
  | balance
  | listTx (it : HashIter (Bytes × Option UInt32)) (opt : GetTransactionsOpt)

section

variable (S : Secp) (K : Keys) (C : Crate) (codec : TxCodec) (w : WalletCtx)

/-- The store a call leaves: what `get_address` wrote for the calls that take an address;
the others take the read lock only. -/
def Call.store : Call → StoreCache → StoreCache
  | .getAddress, st => (BEWallet.getAddress S K w st).2
  | .liquidexMake opt mnemonic rng, st =>
    (BEWallet.liquidexMake S K C codec w st opt mnemonic rng).2
  | .liquidexTake p mnemonic ord rng, st =>
    (BEWallet.liquidexTake S K C codec w st p mnemonic ord rng).2
  | _, st => st

/-- A session: the store it leaves, and the external indexes written, in order. -/
def runCalls : StoreCache → List Call → StoreCache × List UInt32
  | st, [] => (st, [])
  | st, c :: cs =>
    let st' := c.store S K C codec w st
    let r := runCalls st' cs
    (r.1, (if st'.indexes.external = st.indexes.external then [] else [st'.indexes.external]) ++
      r.2)

end

/-- The store behind its `RwLock`: the cache, and whether the lock is poisoned.  A thread
that panics while it holds the write lock poisons the lock, and from then on every
`read()?` and `write()?` returns `Err`; a panic under the read lock poisons nothing. -/
structure Session where
  store : StoreCache
  poisoned : Bool

/-- `PoisonError` as `?` turns it into the crate's `Error`: a `Generic` error of its
message (the conversion is in `error.rs`, which is not among the sources). -/
def poisonedLock : Error := .generic "poisoned lock: another task failed inside"

/-- The external index is `u32::MAX`, where `store.indexes.external += 1` overflows. -/
def StoreCache.atMaxExternal (st : StoreCache) : Bool :=
  decide (2 ^ 32 ≤ st.indexes.external.toNat + 1)

section

variable (S : Secp) (K : Keys) (C : Crate) (codec : TxCodec) (w : WalletCtx)

/-- Whether call `c` on `st` panics while it holds the write lock.  Only `get_address`
takes it, and panics under it exactly at `u32::MAX`; `liquidex_make` calls it first,
`liquidex_take` once the proposal passes its checks. -/
def Call.poisons : Call → StoreCache → Bool
  | .getAddress, st | .liquidexMake .., st => st.atMaxExternal
  | .liquidexTake p .., st => (takeProposal S codec p).isOk && st.atMaxExternal
  | _, _ => false

/-- A session on the lock.  On a poisoned lock a call fails at its first `read()?` or
`write()?` and changes nothing; otherwise it leaves the store `Call.store` says, and
poisons the lock if it panicked holding the write lock. -/
def runSession : Session → List Call → Session
  | s, [] => s
  | s, c :: cs => runSession
    (if s.poisoned then s else ⟨c.store S K C codec w s.store, c.poisons S codec s.store⟩) cs

end

/-- A call that starts with `let store_read = self.store.read()?` (`utxos`, `balance`
through it, `list_tx`), on the session: the poisoned-lock error, or the call on the
store. -/
def Session.read {α : Type} (s : Session) (f : StoreCache → Except Fault α) : Except Fault α :=
  if s.poisoned then throwErr poisonedLock else f s.store

/-- What a session from `st₀` that handed out the external indexes `handed` and left `st`
keeps: `st` is `st₀` but for the external index, which has not gone down, and the indexes
handed out increase strictly, past `st₀`'s and up to `st`'s. -/
structure HandedOut (st₀ : StoreCache) (handed : List UInt32) (st : StoreCache) : Prop where
  frame : st = { st₀ with indexes := { st₀.indexes with external := st.indexes.external } }
  monotone : st₀.indexes.external.toNat ≤ st.indexes.external.toNat
  increasing : handed.Sorted fun a b => a.toNat < b.toNat
  bounds : ∀ e ∈ handed,
    st₀.indexes.external.toNat < e.toNat ∧ e.toNat ≤ st.indexes.external.toNat

/-! ## Lemmas -/

section

variable {S : Secp} {K : Keys} {C : Crate} {codec : TxCodec} {w : WalletCtx}

/-- The store one index further. -/
def StoreCache.bumpExternal (st : StoreCache) : StoreCache :=
  { st with indexes := { st.indexes with external := st.indexes.external + 1 } }

/-- `get_address` leaves the store, when the index would overflow, or bumps it and
derives the address at the new index. -/
theorem getAddress_cases (st : StoreCache) :
    (getAddress S K w st).2 = st ∨ st.indexes.external.toNat + 1 < 2 ^ 32 ∧
      getAddress S K w st = (deriveAddress S K w w.xpub 0 (st.indexes.external + 1),
        st.bumpExternal) := by
  unfold getAddress
  split
  · exact .inl rfl
  · rename_i p hp
    obtain ⟨hlt, rfl⟩ := addU32_ok hp
    exact .inr ⟨by simpa using hlt, rfl⟩

theorem liquidexMake_store (st : StoreCache) (opt : LiquidexMakeOpt) (mnemonic : String)
    (rng : List UInt64) :
    (liquidexMake S K C codec w st opt mnemonic rng).2 = (getAddress S K w st).2 := by
  unfold liquidexMake
  cases getAddress S K w st
  rfl

theorem liquidexTake_store (st : StoreCache) (p : LiquidexProposal) (mnemonic : String)
    (ord : TakeOrders) (rng : BlindRng) :
    (liquidexTake S K C codec w st p mnemonic ord rng).2 = st ∨
      (liquidexTake S K C codec w st p mnemonic ord rng).2 = (getAddress S K w st).2 := by
  unfold liquidexTake
  split
  · exact .inl rfl
  · cases getAddress S K w st
    exact .inr rfl

/-- **One call**: it leaves the store, or it ran `get_address`, which bumped the external
index without overflow and derived the address there. -/
theorem Call.store_cases (c : Call) (st : StoreCache) :
    c.store S K C codec w st = st ∨ st.indexes.external.toNat + 1 < 2 ^ 32 ∧
      c.store S K C codec w st = st.bumpExternal ∧
      BEWallet.getAddress S K w st = (deriveAddress S K w w.xpub 0 (st.indexes.external + 1),
        st.bumpExternal) := by
  have hget : (BEWallet.getAddress S K w st).2 = st ∨ st.indexes.external.toNat + 1 < 2 ^ 32 ∧
      (BEWallet.getAddress S K w st).2 = st.bumpExternal ∧
      BEWallet.getAddress S K w st = (deriveAddress S K w w.xpub 0 (st.indexes.external + 1),
        st.bumpExternal) := by
    rcases getAddress_cases (S := S) (K := K) (w := w) st with h | ⟨hlt, h⟩
    · exact .inl h
    · exact .inr ⟨hlt, by rw [h], h⟩
  cases c with
  | getAddress => exact hget
  | liquidexMake opt mnemonic rng => rw [Call.store, liquidexMake_store]; exact hget
  | liquidexTake p mnemonic ord rng =>
    rcases @liquidexTake_store S K C codec w st p mnemonic ord rng with h | h
    · exact .inl h
    · rw [Call.store, h]; exact hget
  | _ => exact .inl rfl

/-- **One call keeps the invariant**: put before a session from the store it leaves,
a call that left the store or bumped its index without overflow keeps `HandedOut`. -/
theorem HandedOut.cons {st st' stEnd : StoreCache} {handed : List UInt32}
    (hc : st' = st ∨ st.indexes.external.toNat + 1 < 2 ^ 32 ∧ st' = st.bumpExternal)
    (hr : HandedOut st' handed stEnd) :
    HandedOut st ((if st'.indexes.external = st.indexes.external then []
      else [st'.indexes.external]) ++ handed) stEnd := by
  rcases hc with rfl | ⟨hlt, rfl⟩
  · simpa using hr
  have hbump : st.bumpExternal.indexes.external.toNat = st.indexes.external.toNat + 1 :=
    u32_toNat_add_of_lt hlt
  have hne : st.bumpExternal.indexes.external ≠ st.indexes.external := fun he => by
    rw [he] at hbump; omega
  obtain ⟨hframe, hmono, hinc, hbounds⟩ := hr
  rw [if_neg hne, List.singleton_append]
  refine ⟨by rw [hframe]; rfl, by omega,
    List.sorted_cons.2 ⟨fun b hb => by have := (hbounds b hb).1; omega, hinc⟩, ?_⟩
  rintro e (_ | ⟨_, he⟩)
  · omega
  · have := hbounds e he; omega

theorem runCalls_handedOut (st : StoreCache) (cs : List Call) :
    HandedOut st (runCalls S K C codec w st cs).2 (runCalls S K C codec w st cs).1 := by
  induction cs generalizing st with
  | nil => exact ⟨rfl, le_rfl, List.sorted_nil, by simp [runCalls]⟩
  | cons c cs ih =>
    refine HandedOut.cons ?_ (ih (c.store S K C codec w st))
    exact (@Call.store_cases S K C codec w c st).imp_right fun h => ⟨h.1, h.2.1⟩

/-- **A session never hands out an external index twice.**  Whatever calls it makes, in
whatever order, the store it leaves is the one it started from but for the external
index; each index it writes is the one `get_address` derived that call's address at; and
those indexes increase strictly, past the starting one. -/
theorem runCalls_never_reuses (st : StoreCache) (cs : List Call) :
    HandedOut st (runCalls S K C codec w st cs).2 (runCalls S K C codec w st cs).1 ∧
    ∀ (c : Call) (st' : StoreCache),
      (c.store S K C codec w st').indexes.external ≠ st'.indexes.external →
      getAddress S K w st' = (deriveAddress S K w w.xpub 0
        (c.store S K C codec w st').indexes.external, c.store S K C codec w st') := by
  refine ⟨runCalls_handedOut st cs, fun c st' hne => ?_⟩
  rcases @Call.store_cases S K C codec w c st' with h | ⟨-, h, hg⟩
  · exact absurd (congrArg (·.indexes.external) h) hne
  · rw [h, hg]; rfl

end

/-! ## The lock -/

section

variable {S : Secp} {K : Keys} {C : Crate} {codec : TxCodec} {w : WalletCtx}

theorem Call.atMaxExternal_of_poisons {c : Call} {st : StoreCache}
    (h : c.poisons S codec st = true) : st.atMaxExternal = true := by
  cases c <;> simp_all [Call.poisons]

/-- At `u32::MAX` no call changes the store: `get_address` panics before it writes. -/
theorem Call.store_of_atMaxExternal (c : Call) {st : StoreCache}
    (h : st.atMaxExternal = true) : c.store S K C codec w st = st := by
  rcases @Call.store_cases S K C codec w c st with h' | ⟨hlt, -⟩
  · exact h'
  · simp only [StoreCache.atMaxExternal, decide_eq_true_eq] at h
    omega

theorem runCalls_of_atMaxExternal {st : StoreCache} (h : st.atMaxExternal = true)
    (cs : List Call) : (runCalls S K C codec w st cs).1 = st := by
  induction cs with
  | nil => rfl
  | cons c cs ih =>
    show (runCalls S K C codec w (c.store S K C codec w st) cs).1 = st
    rw [Call.store_of_atMaxExternal c h, ih]

/-- On a poisoned lock a session changes nothing. -/
theorem runSession_of_poisoned {s : Session} (h : s.poisoned = true) (cs : List Call) :
    runSession S K C codec w s cs = s := by
  induction cs with
  | nil => rfl
  | cons c cs ih => rw [runSession, if_pos h, ih]

/-- **The lock does not change the store**: a session leaves the store `runCalls` leaves,
since once `get_address` has panicked at `u32::MAX` no call of `runCalls` writes either. -/
theorem runSession_store (st : StoreCache) (cs : List Call) :
    (runSession S K C codec w ⟨st, false⟩ cs).store = (runCalls S K C codec w st cs).1 := by
  induction cs generalizing st with
  | nil => rfl
  | cons c cs ih =>
    show (runSession S K C codec w ⟨c.store S K C codec w st, c.poisons S codec st⟩ cs).store =
      (runCalls S K C codec w (c.store S K C codec w st) cs).1
    cases hp : c.poisons S codec st
    · exact ih _
    · have hm := Call.atMaxExternal_of_poisons hp
      rw [runSession_of_poisoned rfl, Call.store_of_atMaxExternal c hm,
        runCalls_of_atMaxExternal hm]

/-- **The lock is poisoned just when a call panicked under it**: some call of the session
ran `get_address` at `u32::MAX`, on the store the calls before it left. -/
theorem runSession_poisoned_iff (st : StoreCache) (cs : List Call) :
    (runSession S K C codec w ⟨st, false⟩ cs).poisoned = true ↔
      ∃ cs₁ c cs₂, cs = cs₁ ++ c :: cs₂ ∧
        c.poisons S codec (runCalls S K C codec w st cs₁).1 = true := by
  induction cs generalizing st with
  | nil => simp [runSession]
  | cons c cs ih =>
    show (runSession S K C codec w ⟨c.store S K C codec w st, c.poisons S codec st⟩ cs).poisoned =
      true ↔ _
    cases hp : c.poisons S codec st
    · rw [ih]
      constructor
      · rintro ⟨cs₁, c', cs₂, rfl, h⟩
        exact ⟨c :: cs₁, c', cs₂, rfl, h⟩
      · rintro ⟨_ | ⟨c₀, cs₁⟩, c', cs₂, he, h⟩
        · obtain ⟨rfl, rfl⟩ := List.cons.inj he
          exact absurd (hp.symm.trans h) Bool.false_ne_true
        · obtain ⟨rfl, rfl⟩ := List.cons.inj he
          exact ⟨cs₁, c', cs₂, rfl, h⟩
    · rw [runSession_of_poisoned rfl]
      exact ⟨fun _ => ⟨[], c, cs, rfl, hp⟩, fun _ => rfl⟩

end

/-! ## What the calls read -/

section

variable {S : Secp} {K : Keys} {C : Crate} {codec : TxCodec} {R : TxReports} {B : TxBuilder}
  {P : PsetBlinder} {w : WalletCtx}

theorem utxos_setExternal (st : StoreCache) (e : UInt32) :
    utxos C codec w { st with indexes := { st.indexes with external := e } } =
      utxos C codec w st := by
  have hloop : ∀ l, utxosLoop C codec w
      { st with indexes := { st.indexes with external := e } } l = utxosLoop C codec w st l := by
    intro l
    induction l with
    | nil => rfl
    | cons p rest ih => simp only [utxosLoop, ih]; rfl
  simp only [utxos, hloop]

theorem addChanges_setExternal (st : StoreCache) (e : UInt32) (i : Nat) (tx : Transaction)
    (changes : List (AssetId × UInt64)) :
    addChanges S K w { st with indexes := { st.indexes with external := e } } i tx changes =
      addChanges S K w st i tx changes := by
  induction changes generalizing i tx with
  | nil => rfl
  | cons kv rest ih => simp only [addChanges, ih]

theorem blindTxInputs_setExternal (st : StoreCache) (e : UInt32) (ins : List TxIn) :
    blindTxInputs { st with indexes := { st.indexes with external := e } } ins =
      blindTxInputs st ins := by
  induction ins with
  | nil => rfl
  | cons i rest ih => simp only [blindTxInputs, ih]

theorem takeSignLoop_setExternal (st : StoreCache) (e : UInt32) (xprv : ExtendedKey)
    (tx : Transaction) (is : List Nat) :
    takeSignLoop S K { st with indexes := { st.indexes with external := e } } xprv tx is =
      takeSignLoop S K st xprv tx is := by
  induction is generalizing tx with
  | nil => rfl
  | cons i rest ih => simp only [takeSignLoop, ih]; rfl

/-- The reading calls read nothing of the external index. -/
theorem reads_setExternal (st : StoreCache) (e : UInt32) :
    let st' := { st with indexes := { st.indexes with external := e } }
    utxos C codec w st' = utxos C codec w st ∧ balance C codec w st' = balance C codec w st ∧
    (∀ it opt, listTx R w it st' opt = listTx R w it st opt) ∧
    (∀ opt si so, createTx S K C codec R B w st' opt si so =
      createTx S K C codec R B w st opt si so) ∧
    ∀ tx mnemonic, signWithMnemonic S K P w st' tx mnemonic =
      signWithMnemonic S K P w st tx mnemonic := by
  refine ⟨utxos_setExternal st _, by simp only [balance, utxos_setExternal], fun _ _ => rfl,
    fun opt si so => ?_, fun tx mnemonic => ?_⟩
  · simp only [createTx, createUtxos, utxos_setExternal, addChanges_setExternal]; rfl
  · simp only [signWithMnemonic, signWithXprv, blindTx, blindTxInputs_setExternal,
      takeSignLoop_setExternal]

/-- **A session changes nothing the reading calls read, unless it poisoned the lock.**
After any calls, in any order, the lock is poisoned just when one of them ran
`get_address` at `u32::MAX`.  Through the lock, `utxos`, `balance` and `list_tx` then
return the poisoned-lock error, and otherwise what they returned before the calls; on an
unpoisoned lock `create_tx` and `sign_with_mnemonic` return what they returned before
too.  The calls write only the external index, which none of these reads; in particular
`create_tx` derives its changes at the same internal indexes after any session, as
nothing advances the internal index (the increment after signing is commented out in
`sign_with_xprv`), so two transactions created between two syncs pay their changes to
the same addresses. -/
theorem runSession_reads_unchanged (st : StoreCache) (cs : List Call) :
    let s := runSession S K C codec w ⟨st, false⟩ cs
    (s.poisoned = true ↔ ∃ cs₁ c cs₂, cs = cs₁ ++ c :: cs₂ ∧
      c.poisons S codec (runCalls S K C codec w st cs₁).1 = true) ∧
    s.read (utxos C codec w) =
      (if s.poisoned then throwErr poisonedLock else utxos C codec w st) ∧
    s.read (balance C codec w) =
      (if s.poisoned then throwErr poisonedLock else balance C codec w st) ∧
    (∀ it opt, s.read (listTx R w it · opt) =
      if s.poisoned then throwErr poisonedLock else listTx R w it st opt) ∧
    (s.poisoned = false →
      (∀ opt si so, createTx S K C codec R B w s.store opt si so =
        createTx S K C codec R B w st opt si so) ∧
      ∀ tx mnemonic, signWithMnemonic S K P w s.store tx mnemonic =
        signWithMnemonic S K P w st tx mnemonic) := by
  intro s
  have hs : s.store =
      { st with indexes := { st.indexes with external := s.store.indexes.external } } := by
    rw [runSession_store]; exact (runCalls_handedOut st cs).frame
  obtain ⟨hu, hb, hl, hc, hm⟩ := @reads_setExternal S K C codec R B P w st s.store.indexes.external
  rw [← hs] at hu hb hl hc hm
  have hread : ∀ {α : Type} (f : StoreCache → Except Fault α), f s.store = f st →
      s.read f = if s.poisoned then throwErr poisonedLock else f st := fun f h => by
    rw [Session.read, h]
  exact ⟨runSession_poisoned_iff st cs, hread _ hu, hread _ hb, fun it opt => hread _ (hl it opt),
    fun _ => ⟨hc, hm⟩⟩

/-- **Every swap of a session pays its changes to the same addresses.**  No call writes
the internal index, so after any calls from `st`, a `liquidex_take` that returns pays the
outputs between its output 1 and the fee output to the internal chain at `internal + 1`,
`internal + 2`, … of `st`, whatever the calls were: two swaps between two syncs, like two
`create_tx`, pay their changes to the same scripts. -/
theorem runCalls_take_changes (st : StoreCache) (cs : List Call) {p : LiquidexProposal}
    {mnemonic : String} {ord : TakeOrders} {rng : BlindRng} {tx : Transaction}
    (h : (liquidexTake S K C codec w (runCalls S K C codec w st cs).1 p mnemonic ord rng).1 =
      .ok tx) :
    ∃ (o₀ o₁ : TxOut) (chs : List TxOut) (fee : UInt64),
      tx.output = o₀ :: o₁ :: (chs ++ [feeOutput w.config.policyAsset fee]) ∧
      ∀ k o, chs[k]? = some o → ∃ pk,
        K.derivePub w.xpub [1, st.indexes.internal + UInt32.ofNat k + 1] = .ok pk ∧
        o.scriptPubkey = p2shwpkhScript S pk := by
  obtain ⟨_, _, _, _, _, _, fee, _, hr⟩ := liquidexTake_ok h
  obtain ⟨o₀, o₁, chs, hout, hchs⟩ := hr.changes
  have hint : (runCalls S K C codec w st cs).1.indexes.internal = st.indexes.internal := by
    rw [(runCalls_handedOut st cs).frame]
  rw [hint] at hchs
  exact ⟨o₀, o₁, chs, fee, hout, hchs⟩

open Sample in
/-- The sample swap, taken after a `get_address`. -/
theorem liquidexTake_after_getAddress_isOk :
    (liquidexTake Secp.ref Keys.ref Crate.ref TxCodec.ref wallet
      (runCalls Secp.ref Keys.ref Crate.ref TxCodec.ref wallet (store 2000) [.getAddress]).1
      proposal "" orders blindRng).1.isOk = true := by
  rw [liquidexTake, takeProposal_proposal]
  decide

open Sample in
theorem runCalls_take_changes_sample :
    ∃ tx, (liquidexTake Secp.ref Keys.ref Crate.ref TxCodec.ref wallet
      (runCalls Secp.ref Keys.ref Crate.ref TxCodec.ref wallet (store 2000) [.getAddress]).1
      proposal "" orders blindRng).1 = .ok tx ∧
      ∃ (o₀ o₁ : TxOut) (chs : List TxOut) (fee : UInt64),
        tx.output = o₀ :: o₁ :: (chs ++ [feeOutput wallet.config.policyAsset fee]) ∧
        ∀ k o, chs[k]? = some o → ∃ pk,
          Keys.ref.derivePub wallet.xpub [1, (store 2000).indexes.internal + UInt32.ofNat k + 1] =
            .ok pk ∧ o.scriptPubkey = p2shwpkhScript Secp.ref pk :=
  let ⟨tx, h⟩ := exists_eq_ok_of_isOk liquidexTake_after_getAddress_isOk
  ⟨tx, h, runCalls_take_changes (store 2000) [.getAddress] h⟩

end

end BEWallet
