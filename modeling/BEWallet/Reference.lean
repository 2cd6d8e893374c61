import BEWallet.Secp

/-!
# Reference implementations of the library interfaces

`Secp`, `Keys`, `Crate` and `TxCodec` carry the laws the wallet relies on as
fields.  The instances here are plain implementations that satisfy them: they
show the laws can hold together, and the concrete runs of the wallet's
operations are run on them.

`TxCodec.ref` writes a transaction as nested framed fields, a field being its
bytes each behind a `1` and then a `0`:

    unframe (frame fs) = some fs                            (unframe_frame)
    decTx (encTx tx) = some tx                              (decTx_encTx)
-/

namespace BEWallet

/-! ## Framed fields -/

/-- A field that knows where it ends: each byte behind a `1`, then a `0`. -/
def frameField (b : Bytes) : Bytes := b.flatMap (fun x => [1, x]) ++ [0]

def frame (fs : List Bytes) : Bytes := fs.flatMap frameField

/-- Split framed bytes into fields; `acc` is the field read so far, reversed. -/
def unframeAux : Bytes → Bytes → Option (List Bytes)
  | [], [] => some []
  | _ :: _, [] => none
  | acc, b :: rest =>
    if b = 0 then (unframeAux [] rest).map (acc.reverse :: ·)
    else if b = 1 then
      match rest with
      | x :: rest => unframeAux (x :: acc) rest
      | [] => none
    else none

def unframe (b : Bytes) : Option (List Bytes) := unframeAux [] b

theorem unframeAux_frameField (acc f rest : Bytes) :
    unframeAux acc (frameField f ++ rest) =
      (unframeAux [] rest).map ((acc.reverse ++ f) :: ·) := by
  induction f generalizing acc with
  | nil =>
    have : frameField [] ++ rest = 0 :: rest := rfl
    rw [this, unframeAux.eq_def]
    simp
  | cons x f ih =>
    have : frameField (x :: f) ++ rest = 1 :: x :: (frameField f ++ rest) := by
      simp [frameField]
    rw [this, unframeAux, if_neg (by decide), if_pos rfl, ih]
    simp

@[simp] theorem unframe_frame (fs : List Bytes) : unframe (frame fs) = some fs := by
  induction fs with
  | nil => rfl
  | cons f fs ih =>
    rw [unframe, frame, List.flatMap_cons, unframeAux_frameField]
    rw [unframe, frame] at ih
    simp [ih]

/-! ## Fields of a transaction -/

theorem leValue_leBytes_of_lt {k n : Nat} (h : n < 256 ^ k) : leValue (leBytes k n) = n := by
  rw [leValue_leBytes, Nat.mod_eq_of_lt h]

@[simp] theorem ofNat_leValue_u32 (v : UInt32) :
    UInt32.ofNat (leValue (leBytes 4 v.toNat)) = v := by
  rw [leValue_leBytes_of_lt (by simpa using v.toNat_lt_size)]
  exact UInt32.toNat.inj (UInt32.toNat_ofNat_of_lt v.toNat_lt_size)

@[simp] theorem ofNat_leValue_u64 (v : UInt64) :
    UInt64.ofNat (leValue (leBytes 8 v.toNat)) = v := by
  rw [leValue_leBytes_of_lt (by simpa using v.toNat_lt_size)]
  exact UInt64.toNat.inj (UInt64.toNat_ofNat_of_lt v.toNat_lt_size)

@[simp] theorem cast_leValue_scalar (g : Scalar) :
    ((leValue (leBytes 32 g.val) : Nat) : Scalar) = g := by
  have : NeZero secpOrder := ⟨by decide⟩
  have : g.val < 256 ^ 32 := lt_trans (ZMod.val_lt g) (by decide)
  rw [leValue_leBytes_of_lt this, ZMod.natCast_zmod_val]

def encOpt : Option Bytes → Bytes
  | none => frame []
  | some b => frame [b]

def decOpt (b : Bytes) : Option (Option Bytes) :=
  match unframe b with
  | some [] => some none
  | some [b] => some (some b)
  | _ => none

def encAsset : Asset → Bytes
  | .null => frame []
  | .explicit a => frame [a.bytes]
  | .confidential g => frame [leBytes 32 g.val, []]

def decAsset (b : Bytes) : Option Asset :=
  match unframe b with
  | some [] => some .null
  | some [a] => if h : a.length = 32 then some (.explicit ⟨a, h⟩) else none
  | some [g, _] => some (.confidential (leValue g : Scalar))
  | _ => none

def encValue : Value → Bytes
  | .null => frame []
  | .explicit v => frame [leBytes 8 v.toNat]
  | .confidential c => frame [leBytes 32 c.val, []]

def decValue (b : Bytes) : Option Value :=
  match unframe b with
  | some [] => some .null
  | some [v] => some (.explicit (UInt64.ofNat (leValue v)))
  | some [c, _] => some (.confidential (leValue c : Scalar))
  | _ => none

def encNonce : Nonce → Bytes
  | .null => frame []
  | .explicit b => frame [b]
  | .confidential pk => frame [pk.bytes, []]

def decNonce (b : Bytes) : Option Nonce :=
  match unframe b with
  | some [] => some .null
  | some [b] => some (.explicit b)
  | some [pk, _] => if h : pk.length = 33 then some (.confidential ⟨pk, h⟩) else none
  | _ => none

def encOut (o : TxOut) : Bytes :=
  frame [encAsset o.asset, encValue o.value, encNonce o.nonce, o.scriptPubkey,
    encOpt o.witness.surjectionProof, encOpt o.witness.rangeproof]

def decOut (b : Bytes) : Option TxOut :=
  match unframe b with
  | some [a, v, n, s, sp, rp] => do
    let a ← decAsset a
    let v ← decValue v
    let n ← decNonce n
    let sp ← decOpt sp
    let rp ← decOpt rp
    pure ⟨a, v, n, s, ⟨sp, rp⟩⟩
  | _ => none

def encIn (i : TxIn) : Bytes :=
  frame [i.previousOutput.txid, leBytes 4 i.previousOutput.vout.toNat, i.scriptSig,
    frame i.witness]

def decIn (b : Bytes) : Option TxIn :=
  match unframe b with
  | some [t, v, s, w] => do
    let w ← unframe w
    pure ⟨⟨t, UInt32.ofNat (leValue v)⟩, s, w⟩
  | _ => none

def encTx (tx : Transaction) : Bytes :=
  frame [leBytes 4 tx.version.toNat, leBytes 4 tx.lockTime.toNat, frame (tx.input.map encIn),
    frame (tx.output.map encOut)]

def decTx (b : Bytes) : Option Transaction :=
  match unframe b with
  | some [v, l, ins, outs] => do
    let ins ← unframe ins
    let ins ← ins.mapM decIn
    let outs ← unframe outs
    let outs ← outs.mapM decOut
    pure ⟨UInt32.ofNat (leValue v), UInt32.ofNat (leValue l), ins, outs⟩
  | _ => none

theorem mapM_map_of_dec {α : Type} {enc : α → Bytes} {dec : Bytes → Option α}
    (h : ∀ x, dec (enc x) = some x) (xs : List α) : (xs.map enc).mapM dec = some xs := by
  induction xs with
  | nil => rfl
  | cons x xs ih => rw [List.map_cons, List.mapM_cons, h, ih]; rfl

theorem decOpt_encOpt (o : Option Bytes) : decOpt (encOpt o) = some o := by
  cases o <;> simp [decOpt, encOpt]

theorem decAsset_encAsset (a : Asset) : decAsset (encAsset a) = some a := by
  cases a with
  | null => rfl
  | explicit a => simp [decAsset, encAsset, a.size]
  | confidential g => simp [decAsset, encAsset]

theorem decValue_encValue (v : Value) : decValue (encValue v) = some v := by
  cases v <;> simp [decValue, encValue]

theorem decNonce_encNonce (n : Nonce) : decNonce (encNonce n) = some n := by
  cases n with
  | confidential pk => simp [decNonce, encNonce, pk.size]
  | _ => simp [decNonce, encNonce]

theorem decOut_encOut (o : TxOut) : decOut (encOut o) = some o := by
  simp [decOut, encOut, decAsset_encAsset, decValue_encValue, decNonce_encNonce, decOpt_encOpt]

theorem decIn_encIn (i : TxIn) : decIn (encIn i) = some i := by
  simp [decIn, encIn]

theorem decTx_encTx (tx : Transaction) : decTx (encTx tx) = some tx := by
  simp only [decTx, encTx, unframe_frame, ofNat_leValue_u32, Option.bind_eq_bind,
    Option.some_bind, mapM_map_of_dec decIn_encIn, mapM_map_of_dec decOut_encOut]
  rfl

/-! ## The instances -/

/-- A polynomial checksum of 32 bytes, standing for a hash where distinct inputs should
give distinct outputs. -/
def checksum (b : Bytes) : Bytes := leBytes 32 (b.foldl (fun h x => h * 257 + x.toNat) 0)

/-- The codec of framed fields.  Its txid stands for the double SHA-256 of the encoding:
the version, the lock time and the numbers of inputs and outputs, which tell apart the
transactions of the concrete runs and are cheap to evaluate. -/
def TxCodec.ref : TxCodec where
  serialize := encTx
  deserialize b := match decTx b with
    | some tx => .ok tx
    | none => .error (.library "elements: consensus decode")
  deserialize_serialize tx := by simp [decTx_encTx]
  txid tx := leBytes 32 (tx.version.toNat + 2 ^ 32 * tx.lockTime.toNat +
    2 ^ 64 * tx.input.length + 2 ^ 96 * tx.output.length)

/-- Hashes that are constant (the digest of `1`, big-endian), an identity cipher with a
16-byte tag that refuses shorter ciphertexts, a point for every 33 bytes, and keys written
out as their scalar. -/
def Secp.ref : Secp where
  tagPoint a := (leValue a.bytes : Scalar)
  pointBytes g := leBytes 33 g.val
  onCurve _ := true
  pubOfSecret sk := ⟨0x02 :: leBytes 32 sk.val, by simp⟩
  ecdh pk sk := (leBytes 32 sk.val, pk.bytes)
  sha256 _ := List.replicate 31 0 ++ [1]
  sha256_length _ := by simp
  sha256d _ := List.replicate 31 0 ++ [1]
  hash160 b := checksum b |>.take 20
  slip77 _ script := (leValue script : Scalar)
  aesEncrypt _ _ text := .ok (text ++ List.replicate 16 0)
  aesDecrypt _ _ c :=
    if c.length < 16 then .error (.library "aes-gcm-siv") else .ok (c.take (c.length - 16))
  aesDecrypt_aesEncrypt _ _ p c h := by cases h; simp
  aesDecrypt_length _ _ c p h := by
    simp only at h
    split at h <;> cases h
    simp only [List.length_take]
    omega
  rangeProof _ _ _ _ _ _ _ _ _ _ := .ok [0x52]
  surjectionProof _ _ _ _ := .ok [0x53]
  unspendable _ := false

/-- One key for every seed, path and account: enough for the concrete runs, which do
not compare the wallet's own scripts. -/
def Keys.ref : Keys where
  mnemonicToSeed _ := .ok []
  newMaster _ := .ok []
  derivePriv k _ := .ok k
  privateKey _ := 1
  toXpub k := k
  derivePub _ path := .ok ⟨0x02 :: leBytes 32 path.length, by simp⟩
  sighash _ _ _ _ _ := List.replicate 32 0
  signDer _ _ := [0x30]

/-- Blinders from the hash, the index and the kind; a fee of ten satoshi per input,
output and change slot, whatever the rate; the dust value of Liquid. -/
def Crate.ref : Crate where
  deriveBlinder _ h vout isAsset :=
    .ok ((leValue h + 2 * vout.toNat + if isAsset then 1 else 2 : Nat) : Scalar)
  estimatedFee tx _ n := UInt64.ofNat (10 * (tx.input.length + tx.output.length + n.toNat))
  dustValue := 546

/-! ## Sample data of the concrete runs -/

namespace Sample

/-- The policy asset of the concrete runs, and two other assets. -/
def policyAsset : AssetId := ⟨List.replicate 32 0x11, by simp⟩

def assetA : AssetId := ⟨List.replicate 32 0x22, by simp⟩

def assetB : AssetId := ⟨List.replicate 32 0x33, by simp⟩

end Sample

end BEWallet
