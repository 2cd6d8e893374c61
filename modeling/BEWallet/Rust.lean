import Mathlib.Algebra.Group.Nat.Basic
import Mathlib.Data.List.Perm.Basic
import Mathlib.Data.List.Nodup

/-!
# Rust semantics the wallet relies on

The source's functions return `Result<_, Error>` and may also panic.  Both end
in `Except Fault`: `Fault.error e` is an `Err(e)` a function returns,
`Fault.panic` a Rust panic (`unwrap` on `None`, a failed `assert!`, `u64`
overflow in a debug build, a `panic!` arm), and `Fault.diverge` a loop that
does not end on the inputs it was given.

`HashMap<K, V>` is its list of entries.  `std` leaves its iteration order
unspecified, so wherever the source iterates a map it builds, the model takes
the order as a `HashIter`: any permutation of the entries.

    addU64 a b = .ok c → c.toNat = a.toNat + b.toNat          (addU64_ok)
    entryAdd m k v = .ok m' → amount m' a = amount m a + [a = k] v   (amount_entryAdd)
-/

namespace BEWallet

/-- The error kinds of `crate::error::Error` that the modelled code returns. -/
inductive Error
  | generic (msg : String)
  | insufficientFunds
  | invalidAddress
  | emptyAddressees
  | invalidAmount
  /-- an error of the `hex`, `elements`, `secp256k1`, `aes-gcm-siv` or `bip32` crates -/
  | library (crate : String)
  deriving DecidableEq, Repr

/-- How a call ends when it does not return `Ok`. -/
inductive Fault
  | error (e : Error)
  | panic (msg : String)
  | diverge
  deriving DecidableEq, Repr

/-- Results can be compared, so that a run on a concrete input is decided. -/
instance instDecidableEqExcept {ε α : Type} [DecidableEq ε] [DecidableEq α] :
    DecidableEq (Except ε α)
  | .error a, .error b => decidable_of_iff (a = b) (by simp)
  | .ok a, .ok b => decidable_of_iff (a = b) (by simp)
  | .error _, .ok _ => isFalse (by simp)
  | .ok _, .error _ => isFalse (by simp)

def throwErr {α : Type} (e : Error) : Except Fault α := .error (.error e)

def throwPanic {α : Type} (msg : String) : Except Fault α := .error (.panic msg)

/-- `?` on a library call: its error becomes the caller's `Err`. -/
def liftErr {α : Type} : Except Error α → Except Fault α
  | .ok a => pure a
  | .error e => throwErr e

/-- `r.map_err(|_| e)?`: any `Err` becomes `e`; a panic stays a panic. -/
def mapErr {α : Type} (x : Except Fault α) (e : Error) : Except Fault α :=
  match x with
  | .error (.error _) => throwErr e
  | x => x

/-- `opt.ok_or(e)?` -/
def okOr {α : Type} (o : Option α) (e : Error) : Except Fault α :=
  match o with
  | some a => pure a
  | none => throwErr e

/-- `opt.unwrap()` -/
def unwrap {α : Type} (o : Option α) : Except Fault α :=
  match o with
  | some a => pure a
  | none => throwPanic "called `Option::unwrap()` on a `None` value"

/-- `v[i]` -/
def index {α : Type} (l : List α) (i : Nat) : Except Fault α :=
  match l[i]? with
  | some a => pure a
  | none => throwPanic "index out of bounds"

/-- `assert!(c)`, where `cond` is the text of `c` -/
def assert (c : Bool) (cond : String) : Except Fault Unit :=
  if c then pure () else throwPanic ("assertion failed: " ++ cond)

/-- A successful `do` step, unfolded once. -/
theorem bind_eq_ok {α β : Type} {x : Except Fault α} {f : α → Except Fault β} {b : β} :
    x >>= f = .ok b ↔ ∃ a, x = .ok a ∧ f a = .ok b := by
  cases x <;> simp [bind, Except.bind]

/-- A run decided to return `Ok` returned some value. -/
theorem exists_eq_ok_of_isOk {α : Type} {x : Except Fault α} (h : x.isOk = true) :
    ∃ a, x = .ok a := by
  cases x with
  | error e => cases h
  | ok a => exact ⟨a, rfl⟩

@[simp] theorem liftErr_eq_ok {α : Type} {x : Except Error α} {a : α} :
    liftErr x = .ok a ↔ x = .ok a := by
  cases x <;> simp [liftErr, throwErr, pure, Except.pure]

@[simp] theorem okOr_eq_ok {α : Type} {o : Option α} {e : Error} {a : α} :
    okOr o e = .ok a ↔ o = some a := by
  cases o <;> simp [okOr, throwErr, pure, Except.pure]

@[simp] theorem unwrap_eq_ok {α : Type} {o : Option α} {a : α} : unwrap o = .ok a ↔ o = some a := by
  cases o <;> simp [unwrap, throwPanic, pure, Except.pure]

@[simp] theorem index_eq_ok {α : Type} {l : List α} {i : Nat} {a : α} :
    index l i = .ok a ↔ l[i]? = some a := by
  unfold index; split <;> rename_i h <;> simp [h, throwPanic, pure, Except.pure]

@[simp] theorem mapErr_eq_ok {α : Type} {x : Except Fault α} {e : Error} {a : α} :
    mapErr x e = .ok a ↔ x = .ok a := by
  unfold mapErr; split <;> simp_all [throwErr]

@[simp] theorem assert_eq_ok {c : Bool} {cond : String} {u : Unit} :
    assert c cond = .ok u ↔ c = true := by
  cases c <;> simp [assert, throwPanic, pure, Except.pure]

/-! ## Calls that return -/

/-- The call returns, `Ok` or `Err`: it does not panic and does not loop. -/
def Returns {α : Type} : Except Fault α → Prop
  | .ok _ => True
  | .error (.error _) => True
  | .error _ => False

@[simp] theorem returns_ok {α : Type} (a : α) : Returns (.ok a : Except Fault α) := trivial

@[simp] theorem returns_pure {α : Type} (a : α) : Returns (pure a : Except Fault α) := trivial

@[simp] theorem returns_throwErr {α : Type} (e : Error) : Returns (throwErr e : Except Fault α) :=
  trivial

@[simp] theorem returns_liftErr {α : Type} (x : Except Error α) : Returns (liftErr x) := by
  cases x <;> trivial

@[simp] theorem returns_okOr {α : Type} (o : Option α) (e : Error) : Returns (okOr o e) := by
  cases o <;> trivial

/-- A `do` block returns when its first step does and, after each value it gives, the
rest does. -/
theorem Returns.bind {α β : Type} {x : Except Fault α} {f : α → Except Fault β}
    (hx : Returns x) (hf : ∀ a, x = .ok a → Returns (f a)) : Returns (x >>= f) := by
  cases x with
  | error e => cases e <;> exact hx
  | ok a => exact hf a rfl

/-- `map_err` keeps a call returning: it only renames the `Err`. -/
theorem returns_mapErr {α : Type} {x : Except Fault α} (h : Returns x) (e : Error) :
    Returns (mapErr x e) := by
  unfold mapErr; split
  · exact returns_throwErr e
  · exact h

/-- An index below the length is safe. -/
theorem index_of_lt {α : Type} {l : List α} {i : Nat} (h : i < l.length) :
    index l i = .ok l[i] := by
  simp [index, h, pure, Except.pure]

/-- An unwrap of a `Some` is safe. -/
theorem unwrap_some {α : Type} (a : α) : unwrap (some a) = .ok a := rfl

/-! ## `u64` arithmetic in a debug build -/

/-- `a + b` on `u64`: overflow panics. -/
def addU64 (a b : UInt64) : Except Fault UInt64 :=
  if a.toNat + b.toNat < 2 ^ 64 then pure (a + b)
  else throwPanic "attempt to add with overflow"

/-- `a - b` on `u64`: underflow panics. -/
def subU64 (a b : UInt64) : Except Fault UInt64 :=
  if b.toNat ≤ a.toNat then pure (a - b)
  else throwPanic "attempt to subtract with overflow"

/-- `a.checked_sub(b)` -/
def checkedSub (a b : UInt64) : Option UInt64 :=
  if b.toNat ≤ a.toNat then some (a - b) else none

theorem u64_lt_iff {a b : UInt64} : a < b ↔ a.toNat < b.toNat := Iff.rfl

theorem u64_le_iff {a b : UInt64} : a ≤ b ↔ a.toNat ≤ b.toNat := Iff.rfl

theorem toNat_add_of_lt {a b : UInt64} (h : a.toNat + b.toNat < 2 ^ 64) :
    (a + b).toNat = a.toNat + b.toNat := by
  show (a.toBitVec + b.toBitVec).toNat = _
  rw [BitVec.toNat_add]
  exact Nat.mod_eq_of_lt h

theorem toNat_sub_of_le {a b : UInt64} (h : b.toNat ≤ a.toNat) :
    (a - b).toNat = a.toNat - b.toNat :=
  UInt64.toNat_sub_of_le a b h

theorem addU64_ok {a b c : UInt64} (h : addU64 a b = .ok c) :
    c.toNat = a.toNat + b.toNat ∧ a.toNat + b.toNat < 2 ^ 64 := by
  unfold addU64 at h
  split at h
  · cases h; exact ⟨toNat_add_of_lt ‹_›, ‹_›⟩
  · cases h

theorem addU64_eq_ok {a b : UInt64} (h : a.toNat + b.toNat < 2 ^ 64) :
    addU64 a b = .ok (a + b) := if_pos h

theorem subU64_ok {a b c : UInt64} (h : subU64 a b = .ok c) :
    c.toNat = a.toNat - b.toNat ∧ b.toNat ≤ a.toNat := by
  unfold subU64 at h
  split at h
  · cases h; exact ⟨toNat_sub_of_le ‹_›, ‹_›⟩
  · cases h

theorem subU64_eq_ok {a b : UInt64} (h : b.toNat ≤ a.toNat) :
    subU64 a b = .ok (a - b) := if_pos h

theorem checkedSub_eq_some {a b c : UInt64} :
    checkedSub a b = some c ↔ b.toNat ≤ a.toNat ∧ c.toNat = a.toNat - b.toNat := by
  unfold checkedSub
  split
  · refine ⟨fun h => ?_, fun ⟨_, hc⟩ => ?_⟩
    · cases h; exact ⟨‹_›, toNat_sub_of_le ‹_›⟩
    · rw [← toNat_sub_of_le ‹_›] at hc
      exact congrArg some (UInt64.toNat.inj hc).symm
  · simp only [false_iff, not_and, reduceCtorEq]
    exact fun h => absurd h ‹_›

theorem checkedSub_eq_none {a b : UInt64} : checkedSub a b = none ↔ a.toNat < b.toNat := by
  unfold checkedSub; split <;> simp <;> omega

/-! ## `HashMap` -/

/-- A `HashMap<K, V>` by its entries. -/
abbrev HashMap (K V : Type) := List (K × V)

/-- An iteration order of a map the code builds: any permutation of its entries. -/
structure HashIter (α : Type) where
  order : List α → List α
  perm : ∀ l, (order l).Perm l

/-- The order in which the entries were inserted is one of them. -/
def HashIter.insertion (α : Type) : HashIter α := ⟨id, List.Perm.refl⟩

namespace HashMap

variable {K V : Type}

def keys (m : HashMap K V) : List K := m.map Prod.fst

@[simp] theorem keys_nil : keys ([] : HashMap K V) = [] := rfl

@[simp] theorem keys_cons (e : K × V) (t : HashMap K V) : keys (e :: t) = e.1 :: keys t := rfl

variable [DecidableEq K]

def get (m : HashMap K V) (k : K) : Option V :=
  match m with
  | [] => none
  | (k', v) :: t => if k' = k then some v else get t k

/-- `m.remove(k)`: the value under `k`, and the map without it. -/
def remove (m : HashMap K V) (k : K) : Option V × HashMap K V :=
  (get m k, m.filter (fun e => e.1 ≠ k))

/-- `m.insert(k, v)`: in place when `k` is present, appended otherwise. -/
def insert (m : HashMap K V) (k : K) (v : V) : HashMap K V :=
  match m with
  | [] => [(k, v)]
  | (k', v') :: t => if k' = k then (k, v) :: t else (k', v') :: insert t k v

/-- `*m.entry(k).or_insert(0) += v` on a `HashMap<K, u64>`. -/
def entryAdd (m : HashMap K UInt64) (k : K) (v : UInt64) : Except Fault (HashMap K UInt64) :=
  match m with
  | [] => do let s ← addU64 0 v; pure [(k, s)]
  | (k', v') :: t =>
    if k' = k then do let s ← addU64 v' v; pure ((k, s) :: t)
    else do let t' ← entryAdd t k v; pure ((k', v') :: t')

/-- The amount a `HashMap<K, u64>` holds under `k`, `0` when absent. -/
def amount (m : HashMap K UInt64) (k : K) : Nat := ((get m k).map UInt64.toNat).getD 0

@[simp] theorem get_nil (k : K) : get ([] : HashMap K V) k = none := rfl

theorem get_cons (k k' : K) (v : V) (t : HashMap K V) :
    get ((k', v) :: t) k = if k' = k then some v else get t k := rfl

@[simp] theorem amount_nil (k : K) : amount ([] : HashMap K UInt64) k = 0 := rfl

theorem amount_lt (m : HashMap K UInt64) (k : K) : amount m k < 2 ^ 64 := by
  unfold amount
  cases get m k with
  | none => simp
  | some v => exact v.toNat_lt_size

theorem get_eq_none_iff {m : HashMap K V} {k : K} : get m k = none ↔ k ∉ keys m := by
  induction m with
  | nil => simp
  | cons e t ih =>
    obtain ⟨k', v⟩ := e
    by_cases hk : k' = k
    · simp [get_cons, hk]
    · simp [get_cons, hk, ih, Ne.symm hk]

theorem get_isSome_iff {m : HashMap K V} {k : K} : (get m k).isSome ↔ k ∈ keys m := by
  rw [← not_iff_not, Option.not_isSome_iff_eq_none, get_eq_none_iff]

theorem mem_of_get {m : HashMap K V} {k : K} {v : V} (h : get m k = some v) : (k, v) ∈ m := by
  induction m with
  | nil => cases h
  | cons e t ih =>
    obtain ⟨k', v'⟩ := e
    rw [get_cons] at h
    split at h
    · cases h; subst k'; exact List.mem_cons_self _ _
    · exact List.mem_cons_of_mem _ (ih h)

theorem get_of_mem {m : HashMap K V} (hn : (keys m).Nodup) {k : K} {v : V} (h : (k, v) ∈ m) :
    get m k = some v := by
  induction m with
  | nil => cases h
  | cons e t ih =>
    obtain ⟨k', v'⟩ := e
    simp only [keys_cons, List.nodup_cons] at hn
    rw [get_cons]
    rcases List.mem_cons.1 h with h | h
    · cases h; simp
    · have : k' ≠ k := fun e => hn.1 (e ▸ List.mem_map_of_mem Prod.fst h)
      rw [if_neg this]; exact ih hn.2 h

theorem amount_eq_zero_of_not_mem {m : HashMap K UInt64} {k : K} (h : k ∉ keys m) :
    amount m k = 0 := by
  simp [amount, get_eq_none_iff.2 h]

theorem amount_cons (k k' : K) (v : UInt64) (t : HashMap K UInt64) :
    amount ((k', v) :: t) k = if k' = k then v.toNat else amount t k := by
  unfold amount; rw [get_cons]; split <;> rfl

/-- **`entryAdd` adds to one entry**, and leaves every other one alone. -/
theorem amount_entryAdd {m m' : HashMap K UInt64} {k : K} {v : UInt64}
    (h : entryAdd m k v = .ok m') (a : K) :
    amount m' a = amount m a + if a = k then v.toNat else 0 := by
  induction m generalizing m' with
  | nil =>
    obtain ⟨s, hs, rfl⟩ : ∃ s, addU64 0 v = .ok s ∧ [(k, s)] = m' := by
      simp only [entryAdd, bind, Except.bind] at h; split at h <;> cases h; exact ⟨_, ‹_›, rfl⟩
    have := (addU64_ok hs).1
    simp only [amount_cons, amount_nil, this]
    by_cases ha : k = a
    · simp [ha]
    · simp [ha, Ne.symm ha]
  | cons e t ih =>
    obtain ⟨k', v'⟩ := e
    unfold entryAdd at h
    split at h
    · subst k'
      simp only [bind, Except.bind] at h; split at h <;> cases h
      have := (addU64_ok ‹_›).1
      simp only [amount_cons, this]
      by_cases ha : k = a <;> simp [ha, eq_comm]
    · simp only [bind, Except.bind] at h; split at h <;> cases h
      simp only [amount_cons, ih ‹_›]
      by_cases ha : k' = a
      · subst a; simp [Ne.symm ‹¬k' = k›, ‹¬k' = k›]
      · simp [ha]

theorem keys_entryAdd {m m' : HashMap K UInt64} {k : K} {v : UInt64}
    (h : entryAdd m k v = .ok m') : keys m' = if k ∈ keys m then keys m else keys m ++ [k] := by
  induction m generalizing m' with
  | nil => simp only [entryAdd, bind, Except.bind] at h; split at h <;> cases h; simp
  | cons e t ih =>
    obtain ⟨k', v'⟩ := e
    unfold entryAdd at h
    split at h
    · subst k'
      simp only [bind, Except.bind] at h; split at h <;> cases h; simp
    · simp only [bind, Except.bind] at h; split at h <;> cases h
      simp only [keys_cons, ih ‹_›, List.mem_cons, Ne.symm ‹¬k' = k›, false_or]
      split <;> simp

theorem mem_keys_entryAdd {m m' : HashMap K UInt64} {k : K} {v : UInt64}
    (h : entryAdd m k v = .ok m') (a : K) : a ∈ keys m' ↔ a ∈ keys m ∨ a = k := by
  rw [keys_entryAdd h]; split <;> simp_all [or_iff_left_of_imp]

theorem nodup_keys_entryAdd {m m' : HashMap K UInt64} {k : K} {v : UInt64}
    (h : entryAdd m k v = .ok m') (hn : (keys m).Nodup) : (keys m').Nodup := by
  rw [keys_entryAdd h]
  split
  · exact hn
  · exact List.nodup_append.2 ⟨hn, List.nodup_singleton k, by simpa⟩

/-- `entryAdd` fails only by overflowing the entry it adds to. -/
theorem entryAdd_eq_ok_of_lt (m : HashMap K UInt64) (k : K) (v : UInt64)
    (h : amount m k + v.toNat < 2 ^ 64) : ∃ m', entryAdd m k v = .ok m' := by
  induction m with
  | nil => exact ⟨_, by simp [entryAdd, @addU64_eq_ok 0 v (by simpa using h)]; rfl⟩
  | cons e t ih =>
    obtain ⟨k', v'⟩ := e
    rw [amount_cons] at h
    unfold entryAdd
    split
    · rw [if_pos ‹_›] at h; exact ⟨_, by simp [addU64_eq_ok h]; rfl⟩
    · rw [if_neg ‹_›] at h
      obtain ⟨t', ht'⟩ := ih h
      exact ⟨_, by simp [ht']; rfl⟩

theorem get_insert (m : HashMap K V) (k a : K) (v : V) :
    get (insert m k v) a = if k = a then some v else get m a := by
  induction m with
  | nil => rfl
  | cons e t ih =>
    obtain ⟨k', v'⟩ := e
    unfold insert
    split
    · subst k'; by_cases h : k = a <;> simp [get_cons, h]
    · simp only [get_cons, ih]
      by_cases h1 : k' = a <;> by_cases h2 : k = a <;> simp_all

theorem mem_insert {m : HashMap K V} {k : K} {v : V} {e : K × V} (h : e ∈ insert m k v) :
    e = (k, v) ∨ e ∈ m := by
  induction m with
  | nil => exact .inl (List.mem_singleton.1 h)
  | cons e' t ih =>
    unfold insert at h
    split at h
    · rcases List.mem_cons.1 h with rfl | h
      exacts [.inl rfl, .inr (List.mem_cons_of_mem _ h)]
    · rcases List.mem_cons.1 h with rfl | h
      exacts [.inr (List.mem_cons_self _ _), (ih h).imp_right (List.mem_cons_of_mem _)]

theorem keys_insert (m : HashMap K V) (k : K) (v : V) :
    keys (insert m k v) = if k ∈ keys m then keys m else keys m ++ [k] := by
  induction m with
  | nil => simp [insert]
  | cons e t ih =>
    obtain ⟨k', v'⟩ := e
    unfold insert
    split
    · subst k'; simp
    · simp only [keys_cons, ih, List.mem_cons, Ne.symm ‹¬k' = k›, false_or]
      split <;> simp

theorem length_insert_le (m : HashMap K V) (k : K) (v : V) :
    (insert m k v).length ≤ m.length + 1 := by
  have := congrArg List.length (keys_insert m k v)
  simp only [keys, List.length_map] at this
  rw [this]; split <;> simp

theorem get_remove (m : HashMap K V) (k a : K) :
    get (remove m k).2 a = if a = k then none else get m a := by
  induction m with
  | nil => simp [remove]
  | cons e t ih =>
    obtain ⟨k', v'⟩ := e
    simp only [remove] at ih ⊢
    by_cases h : k' = k
    · subst h
      rw [List.filter_cons_of_neg (by simp), ih, get_cons]
      by_cases ha : a = k'
      · simp [ha]
      · simp [ha, Ne.symm ha]
    · rw [List.filter_cons_of_pos (by simpa using h), get_cons, get_cons, ih]
      by_cases ha : a = k
      · subst ha; simp [h]
      · simp [ha]

theorem amount_remove (m : HashMap K UInt64) (k a : K) :
    amount (remove m k).2 a = if a = k then 0 else amount m a := by
  unfold amount; rw [get_remove]; split <;> rfl

theorem mem_keys_remove {m : HashMap K V} {k a : K} :
    a ∈ keys (remove m k).2 ↔ a ∈ keys m ∧ a ≠ k := by
  rw [← get_isSome_iff, ← get_isSome_iff, get_remove]
  by_cases h : a = k <;> simp [h]

theorem amount_insert (m : HashMap K UInt64) (k a : K) (v : UInt64) :
    amount (insert m k v) a = if k = a then v.toNat else amount m a := by
  unfold amount; rw [get_insert]; split <;> rfl

theorem mem_keys_insert {m : HashMap K V} {k a : K} {v : V} :
    a ∈ keys (insert m k v) ↔ a ∈ keys m ∨ a = k := by
  rw [keys_insert]; split <;> simp_all [or_iff_left_of_imp]

theorem nodup_keys_insert {m : HashMap K V} (k : K) (v : V) (h : (keys m).Nodup) :
    (keys (insert m k v)).Nodup := by
  rw [keys_insert]; split
  · exact h
  · exact h.append (List.nodup_singleton k) (by simpa)

end HashMap

end BEWallet
