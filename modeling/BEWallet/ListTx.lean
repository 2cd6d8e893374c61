import Mathlib.Data.List.Lex
import BEWallet.Wallet

/-!
# Listing the wallet's transactions

`list_tx` sorts the `heights` map's `(txid, height)` entries with a comparator
that puts the greater height first, `None` read as `u32::MAX`, and breaks ties
by the greater txid; it returns the page `skip(first).take(count)` of that
order, one `TransactionDetails` per txid, and stops at the first txid whose
details fail.

The comparator is a strict total order on entries with distinct txids
(`ListedBefore`, the descending lexicographic order of the key), so the sort
has one result, whatever order the map iterates in:

    (keys st.heights).Nodup → myTxids it st = myTxids it' st      (myTxids_eq)
    listTx … ⟨0, k + m⟩ = do a ← listTx … ⟨0, k⟩; b ← listTx … ⟨k, m⟩; pure (a ++ b)
                                                                (listTx_append)
-/

namespace BEWallet

open HashMap

/-! ## Algorithm -/

/-- `Ord::cmp` on unsigned integers (`u8`, `u32`), by value. -/
def cmpNat (a b : Nat) : Ordering :=
  if a < b then .lt else if a = b then .eq else .gt

/-- `Ord::cmp` on byte strings, and so on `Txid`: lexicographic, a prefix first. -/
def cmpBytes : Bytes → Bytes → Ordering
  | [], [] => .eq
  | [], _ :: _ => .lt
  | _ :: _, [] => .gt
  | x :: xs, y :: ys =>
    match cmpNat x.toNat y.toNat with
    | .eq => cmpBytes xs ys
    | o => o

/-- The comparator of `list_tx`'s `sort_by`: the greater height first, `None` read
as `u32::MAX`, then the greater txid. -/
def listTxCmp (a b : Bytes × Option UInt32) : Ordering :=
  match cmpNat (b.2.getD 0xFFFFFFFF).toNat (a.2.getD 0xFFFFFFFF).toNat with
  | .eq => cmpBytes b.1 a.1
  | h => h

/-- The order `sort_by` leaves for this comparator: `a` may stand before `b` unless
the comparator says `Greater`. -/
def ListTxLe (a b : Bytes × Option UInt32) : Prop := listTxCmp a b ≠ .gt

instance : DecidableRel ListTxLe := fun a b => inferInstanceAs (Decidable (listTxCmp a b ≠ .gt))

/-- `GetTransactionsOpt`: the page of the listing to return. -/
structure GetTransactionsOpt where
  first : Nat
  count : Nat

/-- `TransactionDetails`, by what `TransactionDetails::new` is given. -/
structure TransactionDetails where
  transaction : Transaction
  balances : HashMap AssetId Int
  fee : UInt64
  height : Option UInt32
  spvVerified : SPVVerifyResult
  deriving DecidableEq

/-- What `list_tx` calls from `transaction.rs`, which is not among the sources. -/
structure TxReports where
  /-- `fee(tx, all_txs, unblinded, policy_asset)` -/
  fee : Transaction → HashMap Bytes Transaction → Unblinded → Option Asset → Except Error UInt64
  /-- `my_balance_changes(tx, unblinded)` -/
  myBalanceChanges : Transaction → Unblinded → HashMap AssetId Int

section

variable (R : TxReports) (w : WalletCtx)

/-- `my_txids`: the `heights` map's entries in the order the map iterates them,
sorted by `list_tx`'s comparator. -/
def myTxids (it : HashIter (Bytes × Option UInt32)) (st : StoreCache) :
    List (Bytes × Option UInt32) :=
  (it.order st.heights).insertionSort ListTxLe

/-- The body of `list_tx`'s loop, for one txid. -/
def listTxEntry (st : StoreCache) (txId : Bytes) (height : Option UInt32) :
    Except Fault TransactionDetails := do
  let tx ← okOr (st.allTxs.get txId) (.generic ("list_tx no tx " ++ hexEncode txId.reverse))
  let fee ← liftErr (R.fee tx st.allTxs st.unblinded (some (.explicit w.config.policyAsset)))
  let balances := R.myBalanceChanges tx st.unblinded
  let spvVerified :=
    if w.config.spvEnabled then (st.txsVerif.get txId).getD .inProgress else .disabled
  pure ⟨tx, balances, fee, height, spvVerified⟩

/-- `list_tx`: the details of the page `skip(first).take(count)` of the sorted txids. -/
def listTx (it : HashIter (Bytes × Option UInt32)) (st : StoreCache) (opt : GetTransactionsOpt) :
    Except Fault (List TransactionDetails) :=
  (((myTxids it st).drop opt.first).take opt.count).mapM fun e => listTxEntry R w st e.1 e.2

end

/-- The fee of the explicit fee outputs; no balance changes. -/
def TxReports.ref : TxReports where
  fee tx _ _ _ := .ok (UInt64.ofNat (tx.output.filterMap fun o =>
    match o.isFee, o.value with
    | true, .explicit v => some v.toNat
    | _, _ => none).sum)
  myBalanceChanges _ _ := []

/-- A store of three transactions: one unconfirmed, two at one height. -/
def Sample.listStore : StoreCache where
  allTxs := [1, 2, 3].map fun k : UInt8 =>
    (List.replicate 32 k, { Transaction.empty with lockTime := k.toUInt32 })
  unblinded := []
  heights := [(List.replicate 32 1, some 5), (List.replicate 32 2, none),
    (List.replicate 32 3, some 5)]
  paths := []
  indexes := ⟨0, 0⟩
  spent := []

/-! ## The order of the listing -/

/-- The height an entry is sorted by: `None` read as `u32::MAX`. -/
def sortHeight (e : Bytes × Option UInt32) : Nat := (e.2.getD 0xFFFFFFFF).toNat

/-- `a` is listed before `b`: its key (the height, `None` read as `u32::MAX`; then the
txid) is lexicographically the greater. -/
def ListedBefore (a b : Bytes × Option UInt32) : Prop :=
  sortHeight b < sortHeight a ∨
    sortHeight b = sortHeight a ∧ List.Lex (fun x y : UInt8 => x.toNat < y.toNat) b.1 a.1

/-! ## Lemmas -/

/-- A comparison by value that defers to `rest` on a tie. -/
theorem cmpNat_then (a b : Nat) (rest : Ordering) :
    (match cmpNat a b with
      | .eq => rest
      | o => o) = if a < b then .lt else if a = b then rest else .gt := by
  unfold cmpNat; split_ifs <;> rfl

theorem cmpBytes_cons (x y : UInt8) (xs ys : Bytes) :
    cmpBytes (x :: xs) (y :: ys) =
      if x.toNat < y.toNat then .lt else if x.toNat = y.toNat then cmpBytes xs ys else .gt :=
  cmpNat_then _ _ _

theorem listTxCmp_eq (a b : Bytes × Option UInt32) :
    listTxCmp a b =
      if sortHeight b < sortHeight a then .lt
      else if sortHeight b = sortHeight a then cmpBytes b.1 a.1 else .gt :=
  cmpNat_then _ _ _

theorem cmpBytes_swap : ∀ a b : Bytes, (cmpBytes a b).swap = cmpBytes b a
  | [], [] | [], _ :: _ | _ :: _, [] => rfl
  | x :: xs, y :: ys => by
    rw [cmpBytes_cons, cmpBytes_cons, ← cmpBytes_swap xs ys]
    split_ifs <;> first | rfl | omega

theorem cmpBytes_eq_eq : ∀ {a b : Bytes}, cmpBytes a b = .eq ↔ a = b
  | [], [] | [], _ :: _ | _ :: _, [] => by simp [cmpBytes]
  | x :: xs, y :: ys => by
    have hinj : x = y ↔ x.toNat = y.toNat := ⟨congrArg _, UInt8.toNat.inj⟩
    rw [cmpBytes_cons, List.cons.injEq, hinj, ← cmpBytes_eq_eq]
    split_ifs with h <;> simp [*, Nat.ne_of_lt]

theorem lex_cons_cons {r : UInt8 → UInt8 → Prop} {x y : UInt8} {xs ys : Bytes} :
    List.Lex r (x :: xs) (y :: ys) ↔ r x y ∨ x = y ∧ List.Lex r xs ys := by
  constructor
  · rintro (_ | h | h)
    · exact .inr ⟨rfl, h⟩
    · exact .inl h
  · rintro (h | ⟨rfl, h⟩)
    · exact .rel h
    · exact .cons h

/-- The byte-string comparator says `Less` exactly on the lexicographic order. -/
theorem cmpBytes_eq_lt : ∀ {a b : Bytes},
    cmpBytes a b = .lt ↔ List.Lex (fun x y : UInt8 => x.toNat < y.toNat) a b
  | [], [] | _ :: _, [] => by simp [cmpBytes]
  | [], _ :: _ => by simp [cmpBytes, List.Lex.nil]
  | x :: xs, y :: ys => by
    have hinj : x = y ↔ x.toNat = y.toNat := ⟨congrArg _, UInt8.toNat.inj⟩
    rw [cmpBytes_cons, lex_cons_cons, hinj, ← cmpBytes_eq_lt]
    split_ifs <;> simp_all

theorem cmpBytes_lt_trans : ∀ {a b c : Bytes},
    cmpBytes a b = .lt → cmpBytes b c = .lt → cmpBytes a c = .lt
  | [], _ :: _, _ :: _, _, _ => rfl
  | [], [], _, h, _ | _ :: _, [], _, h, _ | _, _ :: _, [], _, h => by simp [cmpBytes] at h
  | x :: xs, y :: ys, z :: zs, h1, h2 => by
    rw [cmpBytes_cons] at h1 h2 ⊢
    split_ifs at h1 h2 ⊢ <;> first | rfl | omega | exact cmpBytes_lt_trans h1 h2

theorem cmpBytes_ne_gt {a b : Bytes} : cmpBytes a b ≠ .gt ↔ cmpBytes a b = .lt ∨ a = b := by
  rw [← cmpBytes_eq_eq]; cases cmpBytes a b <;> simp

theorem cmpBytes_le_trans {a b c : Bytes} (h1 : cmpBytes a b ≠ .gt) (h2 : cmpBytes b c ≠ .gt) :
    cmpBytes a c ≠ .gt := by
  rw [cmpBytes_ne_gt] at *
  rcases h1 with h1 | rfl <;> rcases h2 with h2 | rfl
  exacts [.inl (cmpBytes_lt_trans h1 h2), .inl h1, .inl h2, .inr rfl]

theorem listTxCmp_swap (a b : Bytes × Option UInt32) : (listTxCmp a b).swap = listTxCmp b a := by
  rw [listTxCmp_eq, listTxCmp_eq, ← cmpBytes_swap b.1 a.1]
  split_ifs <;> first | rfl | omega

/-- The comparator says `Less` exactly on `ListedBefore`. -/
theorem listTxCmp_eq_lt {a b : Bytes × Option UInt32} : listTxCmp a b = .lt ↔ ListedBefore a b := by
  rw [listTxCmp_eq, ListedBefore, ← cmpBytes_eq_lt]
  split_ifs <;> simp [*]

theorem txid_eq_of_listTxCmp_eq {a b : Bytes × Option UInt32} (h : listTxCmp a b = .eq) :
    a.1 = b.1 := by
  rw [listTxCmp_eq] at h
  split_ifs at h
  exact (cmpBytes_eq_eq.1 h).symm

theorem listTxLe_total (a b : Bytes × Option UInt32) : ListTxLe a b ∨ ListTxLe b a := by
  unfold ListTxLe
  rw [← listTxCmp_swap a b]
  cases listTxCmp a b <;> decide

/-- Keys compared by height first, then by `r` on the txids, are transitive when `r` is. -/
theorem sortHeight_then_trans {r : Bytes → Bytes → Prop} (hr : ∀ {x y z}, r x y → r y z → r x z)
    {a b c : Bytes × Option UInt32}
    (hab : sortHeight b < sortHeight a ∨ sortHeight b = sortHeight a ∧ r b.1 a.1)
    (hbc : sortHeight c < sortHeight b ∨ sortHeight c = sortHeight b ∧ r c.1 b.1) :
    sortHeight c < sortHeight a ∨ sortHeight c = sortHeight a ∧ r c.1 a.1 := by
  rcases hab with h | ⟨h, hab⟩ <;> rcases hbc with h' | ⟨h', hbc⟩
  exacts [.inl (by omega), .inl (by omega), .inl (by omega), .inr ⟨by omega, hr hbc hab⟩]

theorem listTxLe_iff {a b : Bytes × Option UInt32} :
    ListTxLe a b ↔
      sortHeight b < sortHeight a ∨ sortHeight b = sortHeight a ∧ cmpBytes b.1 a.1 ≠ .gt := by
  rw [ListTxLe, listTxCmp_eq]
  split_ifs <;> simp [*]

theorem listTxLe_trans {a b c : Bytes × Option UInt32} (h1 : ListTxLe a b) (h2 : ListTxLe b c) :
    ListTxLe a c := by
  rw [listTxLe_iff] at *
  exact sortHeight_then_trans (r := fun x y => cmpBytes x y ≠ .gt) cmpBytes_le_trans h1 h2

instance : IsTotal _ ListTxLe := ⟨listTxLe_total⟩

instance : IsTrans _ ListTxLe := ⟨fun _ _ _ => listTxLe_trans⟩

theorem listedBefore_irrefl (a : Bytes × Option UInt32) : ¬ListedBefore a a := by
  rw [← listTxCmp_eq_lt, listTxCmp_eq, if_neg (lt_irrefl _), if_pos rfl, cmpBytes_eq_eq.2 rfl]
  exact nofun

theorem listedBefore_trans {a b c : Bytes × Option UInt32} (hab : ListedBefore a b)
    (hbc : ListedBefore b c) : ListedBefore a c := by
  unfold ListedBefore at *
  simp only [← cmpBytes_eq_lt] at *
  exact sortHeight_then_trans (r := fun x y => cmpBytes x y = .lt) cmpBytes_lt_trans hab hbc

/-- Two entries `sort_by` keeps in order, of distinct txids, are in the strict order. -/
theorem listedBefore_of_le {a b : Bytes × Option UInt32} (hle : ListTxLe a b) (hne : a.1 ≠ b.1) :
    ListedBefore a b := by
  rw [← listTxCmp_eq_lt]
  cases hc : listTxCmp a b
  · rfl
  · exact absurd (txid_eq_of_listTxCmp_eq hc) hne
  · exact absurd hc hle

theorem listedBefore_total {a b : Bytes × Option UInt32} (h : a.1 ≠ b.1) :
    ListedBefore a b ∨ ListedBefore b a :=
  (listTxLe_total a b).imp (listedBefore_of_le · h) (listedBefore_of_le · (Ne.symm h))

/-- Entries sorted by `ListedBefore` are determined by the entries. -/
theorem eq_of_perm_of_listedBefore {L L' : List (Bytes × Option UInt32)} (hp : L.Perm L')
    (hs : L.Sorted ListedBefore) (hs' : L'.Sorted ListedBefore) : L = L' :=
  haveI : IsAntisymm _ ListedBefore :=
    ⟨fun a _ hab hba => absurd (listedBefore_trans hab hba) (listedBefore_irrefl a)⟩
  List.eq_of_perm_of_sorted hp hs hs'

/-! ## The sorted txids -/

section

variable {it : HashIter (Bytes × Option UInt32)} {st : StoreCache}

theorem myTxids_perm : (myTxids it st).Perm st.heights :=
  (List.perm_insertionSort _ _).trans (it.perm _)

/-- On a map, whose txids are distinct, the sort gives the strict order. -/
theorem myTxids_sorted (hn : (keys st.heights).Nodup) : (myTxids it st).Sorted ListedBefore := by
  have hne : (myTxids it st).Pairwise fun a b => a.1 ≠ b.1 :=
    List.pairwise_map.1 ((myTxids_perm.map Prod.fst).nodup_iff.2 hn)
  exact ((List.sorted_insertionSort ListTxLe _).and hne).imp fun h => listedBefore_of_le h.1 h.2

/-- The sorted txids do not depend on the order in which the map iterates. -/
theorem myTxids_eq (hn : (keys st.heights).Nodup) (it' : HashIter (Bytes × Option UInt32)) :
    myTxids it st = myTxids it' st :=
  eq_of_perm_of_listedBefore (myTxids_perm.trans myTxids_perm.symm) (myTxids_sorted hn)
    (myTxids_sorted hn)

/-- The sample store lists its unconfirmed transaction first, then the two at height 5
by descending txid. -/
example : myTxids (.insertion _) Sample.listStore =
    [(List.replicate 32 2, none), (List.replicate 32 3, some 5), (List.replicate 32 1, some 5)] := by
  decide

/-- When every confirmed height is below `u32::MAX`, the unconfirmed entries come
first in any list sorted by `ListedBefore`. -/
theorem unconfirmed_first {L : List (Bytes × Option UInt32)} (hs : L.Sorted ListedBefore)
    (hmax : ∀ e ∈ L, ∀ h, e.2 = some h → h.toNat < 0xFFFFFFFF) :
    L.Pairwise fun a b => b.2 = none → a.2 = none := by
  refine hs.imp_of_mem fun {a b} ha _ hab hb => ?_
  cases hah : a.2 with
  | none => rfl
  | some h =>
    have := hmax a ha h hah
    simp only [ListedBefore, sortHeight, hb, hah, Option.getD_none, Option.getD_some] at hab
    have : (0xFFFFFFFF : UInt32).toNat = 0xFFFFFFFF := rfl
    omega

end

/-! ## The listing -/

section

variable {R : TxReports} {w : WalletCtx} {st : StoreCache}

theorem listTxEntry_ok {txId : Bytes} {height : Option UInt32} {d : TransactionDetails}
    (h : listTxEntry R w st txId height = .ok d) :
    ∃ fee, st.allTxs.get txId = some d.transaction ∧
      R.fee d.transaction st.allTxs st.unblinded (some (.explicit w.config.policyAsset)) = .ok fee ∧
      d = ⟨d.transaction, R.myBalanceChanges d.transaction st.unblinded, fee, height,
        if w.config.spvEnabled then (st.txsVerif.get txId).getD .inProgress else .disabled⟩ := by
  simp only [listTxEntry] at h
  obtain ⟨tx, htx, h⟩ := bind_eq_ok.1 h
  obtain ⟨fee, hfee, h⟩ := bind_eq_ok.1 h
  cases h
  exact ⟨fee, okOr_eq_ok.1 htx, liftErr_eq_ok.1 hfee, rfl⟩

/-- A listing that returns gives, in order, each txid's transaction at its height. -/
theorem mapM_listTxEntry_ok {l : List (Bytes × Option UInt32)} {txs : List TransactionDetails}
    (h : l.mapM (fun e => listTxEntry R w st e.1 e.2) = .ok txs) :
    List.Forall₂ (fun d e => st.allTxs.get e.1 = some d.transaction ∧ d.height = e.2) txs l := by
  induction l generalizing txs with
  | nil => cases h; exact .nil
  | cons e l ih =>
    rw [List.mapM_cons] at h
    obtain ⟨d, hd, h⟩ := bind_eq_ok.1 h
    obtain ⟨ds, hds, h⟩ := bind_eq_ok.1 h
    cases h
    obtain ⟨_, htx, -, hd⟩ := listTxEntry_ok hd
    exact .cons ⟨htx, by rw [hd]⟩ (ih hds)

theorem listTx_ok {it : HashIter (Bytes × Option UInt32)} {opt : GetTransactionsOpt}
    {txs : List TransactionDetails} (h : listTx R w it st opt = .ok txs) :
    List.Forall₂ (fun d e => st.allTxs.get e.1 = some d.transaction ∧ d.height = e.2) txs
      (((myTxids it st).drop opt.first).take opt.count) :=
  mapM_listTxEntry_ok h

/-- The page `[0, k + m)` is the page `[0, k)` followed by the page `[k, k + m)`. -/
theorem listTx_append (it : HashIter (Bytes × Option UInt32)) (k m : Nat) :
    listTx R w it st ⟨0, k + m⟩ =
      (do let a ← listTx R w it st ⟨0, k⟩; let b ← listTx R w it st ⟨k, m⟩; pure (a ++ b)) := by
  simp only [listTx, List.drop_zero, List.take_add, List.mapM_append]

end

/-- **`list_tx` lists the descending key order, page by page.**  The order is a
strict total order on distinct txids; the heights map has one list sorted by it; a
returned page holds, in order, the transactions at positions `first ..
first + count` of that list, with their heights; unconfirmed transactions come first
when every confirmed height is below `u32::MAX`; the result does not depend on the
map's iteration order; and consecutive pages concatenate.  A `HashMap` holds each key
once; its model, a list of entries, says so in `hn`. -/
theorem listTx_sorted_pages (R : TxReports) (w : WalletCtx) (st : StoreCache)
    (hn : (keys st.heights).Nodup) :
    ((∀ a, ¬ListedBefore a a) ∧
      (∀ a b c, ListedBefore a b → ListedBefore b c → ListedBefore a c) ∧
      ∀ a b : Bytes × Option UInt32, a.1 ≠ b.1 → ListedBefore a b ∨ ListedBefore b a) ∧
    (∃! L : List (Bytes × Option UInt32), L.Perm st.heights ∧ L.Sorted ListedBefore) ∧
    (∀ L : List (Bytes × Option UInt32), L.Perm st.heights → L.Sorted ListedBefore →
      (∀ it opt txs, listTx R w it st opt = .ok txs →
        List.Forall₂ (fun d e => st.allTxs.get e.1 = some d.transaction ∧ d.height = e.2) txs
          ((L.drop opt.first).take opt.count)) ∧
      ((∀ e ∈ st.heights, ∀ h, e.2 = some h → h.toNat < 0xFFFFFFFF) →
        L.Pairwise fun a b => b.2 = none → a.2 = none)) ∧
    (∀ it it' opt, listTx R w it st opt = listTx R w it' st opt) ∧
    ∀ it k m, listTx R w it st ⟨0, k + m⟩ =
      (do let a ← listTx R w it st ⟨0, k⟩; let b ← listTx R w it st ⟨k, m⟩; pure (a ++ b)) := by
  have hL : ∀ L : List (Bytes × Option UInt32), L.Perm st.heights → L.Sorted ListedBefore →
      ∀ it, myTxids it st = L := fun L hp hs it =>
    eq_of_perm_of_listedBefore (myTxids_perm.trans hp.symm) (myTxids_sorted hn) hs
  refine ⟨⟨listedBefore_irrefl, fun _ _ _ => listedBefore_trans, fun _ _ => listedBefore_total⟩,
    ⟨myTxids (.insertion _) st, ⟨myTxids_perm, myTxids_sorted hn⟩,
      fun L ⟨hp, hs⟩ => (hL L hp hs _).symm⟩,
    fun L hp hs => ⟨fun it opt txs h => hL L hp hs it ▸ listTx_ok h,
      fun hmax => unconfirmed_first hs fun e he => hmax e (hp.subset he)⟩,
    fun it it' opt => by rw [listTx, listTx, myTxids_eq hn it'], fun it k m => listTx_append it k m⟩

theorem listTx_sorted_pages_sample :
    (keys Sample.listStore.heights).Nodup ∧
    ((∀ a, ¬ListedBefore a a) ∧
      (∀ a b c, ListedBefore a b → ListedBefore b c → ListedBefore a c) ∧
      ∀ a b : Bytes × Option UInt32, a.1 ≠ b.1 → ListedBefore a b ∨ ListedBefore b a) ∧
    (∃! L : List (Bytes × Option UInt32),
      L.Perm Sample.listStore.heights ∧ L.Sorted ListedBefore) ∧
    (∀ L : List (Bytes × Option UInt32), L.Perm Sample.listStore.heights →
      L.Sorted ListedBefore →
      (∀ it opt txs, listTx TxReports.ref Sample.wallet it Sample.listStore opt = .ok txs →
        List.Forall₂ (fun d e => Sample.listStore.allTxs.get e.1 = some d.transaction ∧
          d.height = e.2) txs ((L.drop opt.first).take opt.count)) ∧
      ((∀ e ∈ Sample.listStore.heights, ∀ h, e.2 = some h → h.toNat < 0xFFFFFFFF) →
        L.Pairwise fun a b => b.2 = none → a.2 = none)) ∧
    (∀ it it' opt, listTx TxReports.ref Sample.wallet it Sample.listStore opt =
      listTx TxReports.ref Sample.wallet it' Sample.listStore opt) ∧
    ∀ it k m, listTx TxReports.ref Sample.wallet it Sample.listStore ⟨0, k + m⟩ =
      (do let a ← listTx TxReports.ref Sample.wallet it Sample.listStore ⟨0, k⟩
          let b ← listTx TxReports.ref Sample.wallet it Sample.listStore ⟨k, m⟩
          pure (a ++ b)) :=
  ⟨by decide, listTx_sorted_pages TxReports.ref Sample.wallet Sample.listStore (by decide)⟩

end BEWallet
