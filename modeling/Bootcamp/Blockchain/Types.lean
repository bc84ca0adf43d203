import Bootcamp.Lib.Fallible
import Bootcamp.Lib.LittleEndian
import Mathlib.Data.List.Lex
import Mathlib.Order.Basic

/-! Hashes, OpenSSL as the programs see it, the ways a program dies, and the
typed loads that the buffer parsers make. -/
namespace Bootcamp

open LittleEndian (encode decode)

abbrev Bytes := List UInt8

/-- SHA256_DIGEST_LENGTH bytes. -/
structure HashResult where
  bytes : Bytes
  size_eq : bytes.length = 32
  deriving DecidableEq

namespace HashResult

attribute [simp] size_eq

@[ext] theorem ext {a b : HashResult} (h : a.bytes = b.bytes) : a = b := by
  cases a; cases b; simpa using h

/-- The constructor's fill with 0. -/
def zero : HashResult := ⟨List.replicate 32 0, by simp⟩

instance : Inhabited HashResult := ⟨zero⟩

/-- The hash that holds a number. -/
def ofNat (n : Nat) : HashResult := ⟨encode 32 n, by simp⟩

theorem ofNat_inj {m n : Nat} (hm : m < 2 ^ 256) (hn : n < 2 ^ 256) (h : ofNat m = ofNat n) :
    m = n :=
  LittleEndian.encode_injective (w := 32) (by omega) (by omega) (congrArg bytes h)

theorem ofNat_ne_zero {n : Nat} (hn : n < 2 ^ 256) (h : n ≠ 0) : ofNat n ≠ zero :=
  fun heq => h (ofNat_inj hn (by decide) (heq.trans (by decide)))

/-- `operator<`: the first byte that differs decides. -/
def digits (h : HashResult) : List Nat := h.bytes.map UInt8.toNat

theorem digits_injective : Function.Injective digits := by
  intro a b h
  apply ext
  exact List.map_injective_iff.mpr (fun _ _ => UInt8.toNat_inj.mp) h

instance : LinearOrder HashResult := LinearOrder.lift' digits digits_injective

end HashResult

/-- What ends a program before its last line. No program here catches an
exception, and none is built with `NDEBUG`. `returned` only ends a function: it
is a `return` out of a loop, and the function turns it into its result. -/
inductive Abort
  | exception
  | assertion
  | outOfBounds
  | nullPointer
  | diverges
  | badAlloc
  | returned
  deriving DecidableEq, Repr

/-- OpenSSL. A decoded key is a function of the DER bytes it comes from, so
it is named by them: `d2i_RSA_PUBKEY` says whether the result is non-NULL.
Allocations, `EVP_DigestVerifyInit` and `EVP_DigestVerifyUpdate` succeed. -/
structure Crypto where
  sha256 : Bytes → HashResult
  d2i_RSA_PUBKEY : Bytes → Bool
  EVP_DigestVerifyFinal : Bytes → Bytes → Bytes → Int

/-- A toy to run the model on concrete input: the hash of a message is one more
than the number in its last 32 bytes, every key decodes, every signature is good. -/
def Crypto.toy : Crypto where
  sha256 bs := .ofNat (decode (bs.drop (bs.length - 32)) + 1)
  d2i_RSA_PUBKEY _ := true
  EVP_DigestVerifyFinal _ _ _ := 1

/-- `rsa_public_key_t`'s DER constructor, then `verify`. -/
def Crypto.verify (c : Crypto) (der blk sign : Bytes) : Except Abort Bool :=
  if c.d2i_RSA_PUBKEY der then
    let authStatus := c.EVP_DigestVerifyFinal der blk sign
    if authStatus = 1 ∨ authStatus = 0 then .ok (authStatus = 1) else .error .assertion
  else .error .exception

/-! ## Loads

The argument is the memory from the pointer up to the end of the buffer; the
result carries the advanced pointer. -/

def load (n : Nat) (data : Bytes) : Except Abort (Bytes × Bytes) :=
  if n ≤ data.length then .ok (data.take n, data.drop n) else .error .outOfBounds

def loadHash (data : Bytes) : Except Abort (HashResult × Bytes) :=
  if h : 32 ≤ data.length then .ok (⟨data.take 32, by simp [h]⟩, data.drop 32)
  else .error .outOfBounds

def loadUInt32 (data : Bytes) : Except Abort (UInt32 × Bytes) := do
  let (bs, data) ← load 4 data
  return (UInt32.ofNat (decode bs), data)

/-- The `int` with the bits of `n`: two's complement. -/
def asInt (n : UInt32) : Int := (n.toNat : Int).bmod (2 ^ 32)

def loadInt (data : Bytes) : Except Abort (Int × Bytes) := do
  let (n, data) ← loadUInt32 data
  return (asInt n, data)

def loadUInt64 (data : Bytes) : Except Abort (UInt64 × Bytes) := do
  let (bs, data) ← load 8 data
  return (UInt64.ofNat (decode bs), data)

/-- The bytes of an `int` or `uint32_t` holding `n`. -/
def bytes32 (n : Nat) : Bytes := encode 4 n

def bytes64 (n : UInt64) : Bytes := encode 8 n.toNat

@[simp] theorem length_bytes32 (n : Nat) : (bytes32 n).length = 4 := by simp [bytes32]

@[simp] theorem length_bytes64 (n : UInt64) : (bytes64 n).length = 8 := by simp [bytes64]

theorem load_append {n : Nat} {bs : Bytes} (rest : Bytes) (h : bs.length = n) :
    load n (bs ++ rest) = .ok (bs, rest) := by
  subst h; simp [load]

theorem load_eq_ok {n : Nat} {data bs rest : Bytes} :
    load n data = .ok (bs, rest) ↔ data = bs ++ rest ∧ bs.length = n := by
  constructor
  · intro h
    unfold load at h
    split_ifs at h with hn
    obtain ⟨rfl, rfl⟩ : data.take n = bs ∧ data.drop n = rest := by simpa using h
    exact ⟨(List.take_append_drop n data).symm, by simp [hn]⟩
  · rintro ⟨rfl, h⟩
    exact load_append rest h

@[simp] theorem loadHash_append (h : HashResult) (rest : Bytes) :
    loadHash (h.bytes ++ rest) = .ok (h, rest) := by
  have hlen : 32 ≤ (h.bytes ++ rest).length := by simp
  have hhead : (⟨(h.bytes ++ rest).take 32, by simp⟩ : HashResult) = h :=
    HashResult.ext (List.take_left' h.size_eq)
  rw [loadHash, dif_pos hlen, hhead, List.drop_left' h.size_eq]

theorem loadHash_eq_ok {data rest : Bytes} {h : HashResult} :
    loadHash data = .ok (h, rest) ↔ data = h.bytes ++ rest := by
  constructor
  · intro hl
    unfold loadHash at hl
    split_ifs at hl with hlen
    obtain ⟨rfl, rfl⟩ : _ = h ∧ data.drop 32 = rest := by simpa using hl
    exact (List.take_append_drop 32 data).symm
  · rintro rfl
    exact loadHash_append h rest

theorem loadUInt32_append (n : Nat) (rest : Bytes) :
    loadUInt32 (bytes32 n ++ rest) = .ok (UInt32.ofNat n, rest) := by
  have hn : UInt32.ofNat (decode (bytes32 n)) = UInt32.ofNat n := by
    apply UInt32.toNat_inj.mp
    simp [bytes32, LittleEndian.decode_encode]
  simp only [loadUInt32, load_append rest (length_bytes32 n), Except.ok_bind, Except.pure_eq_ok,
    hn]

theorem loadUInt32_eq_ok {data rest : Bytes} {n : UInt32} :
    loadUInt32 data = .ok (n, rest) ↔ data = bytes32 n.toNat ++ rest := by
  constructor
  · intro h
    obtain ⟨⟨bs, rest'⟩, hl, hr⟩ := Except.bind_eq_ok.mp h
    obtain ⟨rfl, hlen⟩ := load_eq_ok.mp hl
    obtain ⟨rfl, rfl⟩ : UInt32.ofNat (decode bs) = n ∧ rest' = rest := by simpa using hr
    have hlt : decode bs < 2 ^ 32 := by simpa [hlen] using LittleEndian.decode_lt bs
    rw [UInt32.toNat_ofNat_of_lt' hlt, bytes32, LittleEndian.encode_decode_of_length hlen]
  · rintro rfl
    rw [loadUInt32_append, UInt32.ofNat_toNat]

theorem loadInt_append {n : Nat} (rest : Bytes) (h : n < 2 ^ 31) :
    loadInt (bytes32 n ++ rest) = .ok ((n : Int), rest) := by
  have hn : (UInt32.ofNat n).toNat = n := UInt32.toNat_ofNat_of_lt' (by simp only [UInt32.size]; omega)
  have hmod : ((n : Int)).bmod (2 ^ 32) = n := Int.bmod_eq_of_le (by omega) (by omega)
  have hint : asInt (UInt32.ofNat n) = n := by
    unfold asInt
    rw [hn, hmod]
  simp only [loadInt, loadUInt32_append, Except.ok_bind, Except.pure_eq_ok, hint]

@[simp] theorem loadUInt64_append (n : UInt64) (rest : Bytes) :
    loadUInt64 (bytes64 n ++ rest) = .ok (n, rest) := by
  have hn : decode (bytes64 n) = n.toNat := LittleEndian.decode_encode_of_lt n.toNat_lt
  simp only [loadUInt64, load_append rest (length_bytes64 n), Except.ok_bind, Except.pure_eq_ok,
    hn, UInt64.ofNat_toNat]

theorem loadUInt64_eq_ok {data rest : Bytes} {n : UInt64} :
    loadUInt64 data = .ok (n, rest) ↔ data = bytes64 n ++ rest := by
  constructor
  · intro h
    obtain ⟨⟨bs, rest'⟩, hl, hr⟩ := Except.bind_eq_ok.mp h
    obtain ⟨rfl, hlen⟩ := load_eq_ok.mp hl
    obtain ⟨rfl, rfl⟩ : UInt64.ofNat (decode bs) = n ∧ rest' = rest := by simpa using hr
    have hlt : decode bs < 2 ^ 64 := by simpa [hlen] using LittleEndian.decode_lt bs
    rw [bytes64, UInt64.toNat_ofNat_of_lt' hlt, LittleEndian.encode_decode_of_length hlen]
  · rintro rfl
    exact loadUInt64_append n rest

end Bootcamp
