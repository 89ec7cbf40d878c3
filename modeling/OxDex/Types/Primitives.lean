import Mathlib.Data.List.Lex
import Mathlib.Tactic

/-!
# Types — Primitives

Byte strings of fixed length, the third-party functions the node calls, the error type and
`Address` (`oxdex-types`: `error.rs`, `address.rs`).

The crates `sha2`, `bs58`, `hex` and `ed25519-dalek` are not part of the repository.  What the node
uses of them is a record of functions, `Primitives`, and everything that calls them takes one.
-/

namespace OxDex

/-- `[u8; n]`. -/
structure Bytes (n : Nat) where
  toList : List UInt8
  length_eq : toList.length = n
  deriving DecidableEq

/-- `[b; n]`. -/
def Bytes.replicate (n : Nat) (b : UInt8) : Bytes n := ⟨List.replicate n b, List.length_replicate⟩

/-- The `n` low bytes of a number, the most significant first. -/
def Bytes.ofNat (n v : Nat) : Bytes n :=
  ⟨(List.range n).map fun k => UInt8.ofNat (v / 256 ^ (n - 1 - k)), by simp⟩

theorem Bytes.toList_injective {n : Nat} : Function.Injective (Bytes.toList (n := n)) := by
  rintro ⟨a, _⟩ ⟨b, _⟩ rfl
  rfl

/-- What the node calls of the crates it depends on. -/
structure Primitives where
  /-- `sha2::Sha256` over a byte string. -/
  sha256 : List UInt8 → Bytes 32
  /-- `bs58::encode(..).into_string()`. -/
  bs58Encode : List UInt8 → String
  /-- `bs58::decode(..).into_vec()`, the error as displayed. -/
  bs58Decode : String → Except String (List UInt8)
  /-- `hex::encode`. -/
  hexEncode : List UInt8 → String
  /-- `hex::decode`, the error as displayed. -/
  hexDecode : String → Except String (List UInt8)
  /-- `VerifyingKey::from_bytes`, the error as displayed. -/
  verifyingKey : Bytes 32 → Except String Unit
  /-- `VerifyingKey::verify` of a message and a signature, the error as displayed. -/
  verify : Bytes 32 → Bytes 32 → Bytes 64 → Except String Unit

/-- `OxDexError`. -/
inductive OxDexError where
  | invalidAddress (msg : String)
  | invalidOrder (msg : String)
  | badSignature (msg : String)
  | notFound (msg : String)
  | conflict (msg : String)
  | invalidSolution (msg : String)
  | storage (msg : String)
  | network (msg : String)
  | config (msg : String)
  | internal (msg : String)
  deriving DecidableEq

namespace OxDexError

/-- The stable code of an error. -/
def code : OxDexError → String
  | .invalidAddress _ => "invalid_address"
  | .invalidOrder _ => "invalid_order"
  | .badSignature _ => "bad_signature"
  | .notFound _ => "not_found"
  | .conflict _ => "conflict"
  | .invalidSolution _ => "invalid_solution"
  | .storage _ => "storage_error"
  | .network _ => "network_error"
  | .config _ => "config_error"
  | .internal _ => "internal_error"

/-- The `Display` form of an error. -/
def display : OxDexError → String
  | .invalidAddress m => "invalid address: " ++ m
  | .invalidOrder m => "invalid order: " ++ m
  | .badSignature m => "signature verification failed: " ++ m
  | .notFound m => "not found: " ++ m
  | .conflict m => "conflict: " ++ m
  | .invalidSolution m => "invalid solution: " ++ m
  | .storage m => "storage error: " ++ m
  | .network m => "network error: " ++ m
  | .config m => "configuration error: " ++ m
  | .internal m => "internal error: " ++ m

end OxDexError

/-- A 32-byte public key. -/
structure Address where
  bytes : Bytes 32
  deriving DecidableEq

namespace Address

/-- The bytes as numbers, the most significant first. -/
def digits (a : Address) : List Nat := a.bytes.toList.map UInt8.toNat

theorem digits_injective : Function.Injective digits := by
  intro a b h
  have hb : a.bytes.toList = b.bytes.toList :=
    List.map_injective_iff.mpr (fun _ _ h => UInt8.toNat_inj.mp h) h
  cases a
  cases b
  exact congrArg Address.mk (Bytes.toList_injective hb)

/-- The derived order on `[u8; 32]`: lexicographic. -/
instance : LinearOrder Address := LinearOrder.lift' digits digits_injective

/-- `Address([b; 32])`. -/
def fill (b : UInt8) : Address := ⟨.replicate 32 b⟩

/-- `Address::zero`. -/
def zero : Address := fill 0

variable (P : Primitives)

/-- `Display`: the base58 form. -/
def display (a : Address) : String := P.bs58Encode a.bytes.toList

/-- `FromStr`. -/
def fromStr (s : String) : Except OxDexError Address :=
  match P.bs58Decode s with
  | .error e => .error (.invalidAddress ("base58 decode: " ++ e))
  | .ok bytes =>
      if h : bytes.length = 32 then .ok ⟨⟨bytes, h⟩⟩
      else .error (.invalidAddress ("expected 32 bytes, got " ++ toString bytes.length))

/-- `Display` and `FromStr` are inverse where `bs58` is. -/
theorem fromStr_display {a : Address}
    (h : P.bs58Decode (P.bs58Encode a.bytes.toList) = .ok a.bytes.toList) :
    fromStr P (a.display P) = .ok a := by
  simp only [fromStr, display, h, a.bytes.length_eq, dite_true]

end Address

end OxDex
