import Mathlib.Data.Nat.Digits.Lemmas
import OxDex.Support.Framing
import OxDex.Types.Solution

/-!
# Types — Encoding

What an order's identifier commits to.

The encoding writes ten fields one after the other, four of them as base58 strings of varying
length.  Every field is self-delimiting: the numbers have fixed widths, and a string comes behind
its length.  So the encoding determines the order (`bincode_selfDelimiting`), two different orders
are hashed from different byte strings, and one identifier for both is a collision of SHA-256, as
is a signature over the one that verifies for the other (`id_commits`).

Of `bs58` this takes that its encoding of 32 bytes is injective and, like every string, has a length
that fits into a `u64` (`Base58`).
-/

namespace OxDex
open Support

/-! ### Numbers -/

theorem length_leBytes (w n : Nat) : (leBytes w n).length = w := by simp [leBytes]

theorem leBytes_succ (w n : Nat) : leBytes (w + 1) n = UInt8.ofNat n :: leBytes w (n / 256) := by
  rw [leBytes, List.range_succ_eq_map, List.map_cons, List.map_map, leBytes, pow_zero, Nat.div_one]
  refine congrArg _ (List.map_congr_left fun k _ => ?_)
  rw [Function.comp_apply, Nat.pow_succ, Nat.mul_comm, Nat.div_div_eq_div_mul]

/-- The bytes of a number that fits determine it. -/
theorem leBytes_inj : ∀ (w : Nat) {a b : Nat}, a < 256 ^ w → b < 256 ^ w →
    leBytes w a = leBytes w b → a = b
  | 0, a, b, ha, hb, _ => by omega
  | w + 1, a, b, ha, hb, h => by
      rw [leBytes_succ, leBytes_succ] at h
      obtain ⟨h₀, h⟩ := List.cons.inj h
      have hlow : a % 256 = b % 256 := by
        have := congrArg UInt8.toNat h₀
        simpa using this
      have hhigh : a / 256 = b / 256 :=
        leBytes_inj w (Nat.div_lt_of_lt_mul (by rwa [Nat.mul_comm, ← Nat.pow_succ]))
          (Nat.div_lt_of_lt_mul (by rwa [Nat.mul_comm, ← Nat.pow_succ])) h
      omega

/-- The numbers that fit into a width, written in it. -/
theorem leBytes_selfDelimiting (w : Nat) : SelfDelimiting (leBytes w) {n | n < 256 ^ w} :=
  .of_width (fun _ _ => length_leBytes w _) fun _ ha _ hb h => leBytes_inj w ha hb h

/-- A `u64`. -/
theorem u64_selfDelimiting : SelfDelimiting (fun x : UInt64 => leBytes 8 x.toNat) .univ :=
  (leBytes_selfDelimiting 8).comp (fun _ _ _ _ h => UInt64.toNat_inj.mp h) fun x _ =>
    show x.toNat < 256 ^ 8 from x.toNat_lt

/-- An `i64`, as the `u64` of its two's complement. -/
theorem i64_selfDelimiting :
    SelfDelimiting (fun x : Int64 => leBytes 8 x.toUInt64.toNat) .univ :=
  u64_selfDelimiting.comp (fun a _ b _ h => by cases a; cases b; exact congrArg _ h)
    fun _ _ => trivial

/-- A variant, by its `u32` index. -/
theorem kind_selfDelimiting : SelfDelimiting bincodeKind .univ :=
  .of_width (w := 4) (fun k _ => by cases k <;> rfl) fun a _ b _ h => by
    cases a <;> cases b <;> first | rfl | cases h

/-- A `bool`, by one byte. -/
theorem flag_selfDelimiting :
    SelfDelimiting (fun b : Bool => [if b = true then (1 : UInt8) else 0]) .univ :=
  .of_width (w := 1) (fun _ _ => rfl) fun a _ b _ h => by
    cases a <;> cases b <;> first | rfl | cases h

/-! ### Strings -/

theorem toUTF8_injective : Function.Injective fun s : String => s.toUTF8.data.toList := by
  intro s t h
  refine String.toByteArray_inj.mp ?_
  have : s.toByteArray.data = t.toByteArray.data := Array.toList_inj.mp (by simpa using h)
  exact ByteArray.ext this

/-- A string whose length fits into a `u64`. -/
theorem string_selfDelimiting :
    SelfDelimiting bincodeStr {s | s.toUTF8.data.toList.length < 2 ^ 64} :=
  ((leBytes_selfDelimiting 8).prefixed).comp (fun _ _ _ _ h => toUTF8_injective h) fun _ h => h

/-- What is relied on of `bs58::encode`, on the 32 bytes of an address. -/
structure Base58 (P : Primitives) : Prop where
  injective : ∀ a b : Bytes 32, P.bs58Encode a.toList = P.bs58Encode b.toList → a = b
  short : ∀ a : Bytes 32, (P.bs58Encode a.toList).toUTF8.data.toList.length < 2 ^ 64

section
variable {P : Primitives} (hb : Base58 P)
include hb

/-- An address, written as its base58 string. -/
theorem address_selfDelimiting :
    SelfDelimiting (fun a : Address => bincodeStr (a.display P)) .univ :=
  string_selfDelimiting.comp
    (fun a _ b _ h => by cases a; cases b; exact congrArg _ (hb.injective _ _ h))
    fun a _ => hb.short a.bytes

/-- **The encoding of an order determines the order.** -/
theorem bincode_selfDelimiting : SelfDelimiting (Order.bincode P) .univ := by
  have address := address_selfDelimiting hb
  have u64 := u64_selfDelimiting
  have fields := address.append <| address.append <| address.append <| u64.append <| u64.append <|
    i64_selfDelimiting.append <| u64.append <| kind_selfDelimiting.append <|
    flag_selfDelimiting.append address
  intro a _ b _ x y h
  obtain ⟨he, hx⟩ := fields
    (a.owner, a.sellMint, a.buyMint, a.sellAmount, a.buyAmount, a.validTo, a.nonce, a.kind,
      a.partialFill, a.receiver) (by simp)
    (b.owner, b.sellMint, b.buyMint, b.sellAmount, b.buyAmount, b.validTo, b.nonce, b.kind,
      b.partialFill, b.receiver) (by simp) x y
    (by simpa only [Order.bincode, List.append_assoc] using h)
  refine ⟨?_, hx⟩
  cases a
  cases b
  simpa using he

/-- **What is hashed determines the order.** -/
theorem preimage_injective {o o' : Order}
    (h : Order.domainTag ++ o.bincode P = Order.domainTag ++ o'.bincode P) : o = o' :=
  (bincode_selfDelimiting hb).injOn trivial trivial (List.append_cancel_left h)

end

/-- Two byte strings with one digest. -/
def Collision (P : Primitives) (x y : List UInt8) : Prop := x ≠ y ∧ P.sha256 x = P.sha256 y

/-- **The identifier commits to the whole order.**  Different orders are hashed from different byte
strings; so if they have one identifier, or a signature that is good for the one's identifier only
verifies for the other, then SHA-256 collides on these. -/
theorem id_commits {P : Primitives} (hb : Base58 P) {o o' : Order} (h : o ≠ o') :
    Order.domainTag ++ o.bincode P ≠ Order.domainTag ++ o'.bincode P ∧
      (o.id P = o'.id P →
        Collision P (Order.domainTag ++ o.bincode P) (Order.domainTag ++ o'.bincode P)) ∧
      ∀ signature : Bytes 64,
        (∀ message, P.verify o'.owner.bytes message signature = .ok () →
          message = (o.id P).bytes) →
        (SignedOrder.mk o' signature).verify P = .ok () →
        Collision P (Order.domainTag ++ o.bincode P) (Order.domainTag ++ o'.bincode P) := by
  have hne : Order.domainTag ++ o.bincode P ≠ Order.domainTag ++ o'.bincode P :=
    fun he => h (preimage_injective hb he)
  refine ⟨hne, fun hid => ⟨hne, congrArg OrderId.bytes hid⟩, fun signature hs hv => ⟨hne, ?_⟩⟩
  have accepted : P.verify o'.owner.bytes (o'.id P).bytes signature = .ok () := by
    simp only [SignedOrder.verify] at hv
    split at hv
    · cases hv
    · split at hv
      · cases hv
      · next hok => exact hok
  exact (hs _ accepted).symm

/-! ### base58

What `bs58` computes, to show that it is as `Base58` says. -/

namespace Sample

def alphabet : List Char :=
  "123456789ABCDEFGHJKLMNPQRSTUVWXYZabcdefghijkmnopqrstuvwxyz".toList

def base58Char (d : Nat) : Char := alphabet.getD d '1'

/-- The number a byte string writes, the most significant byte first. -/
def byteValue (b : List UInt8) : Nat := Nat.ofDigits 256 (b.reverse.map UInt8.toNat)

/-- The characters: a `1` for each leading zero byte, then the digits of the number. -/
def base58Chars (b : List UInt8) : List Char :=
  (b.takeWhile fun x => x = 0).map (fun _ => '1') ++
    (Nat.digits 58 (byteValue b)).reverse.map base58Char

def base58Encode (b : List UInt8) : String := .ofList (base58Chars b)

/-- The traders' data, with base58 computed. -/
def primitives58 : Primitives := { primitives with bs58Encode := base58Encode }

example : ∀ e ∈ base58, base58Encode e.1.bytes.toList = e.2 := by decide +kernel

theorem idxOf_base58Char : ∀ d < 58, alphabet.idxOf (base58Char d) = d := by decide +kernel

/-- The number is read back from the characters. -/
theorem byteValue_eq (b : List UInt8) :
    Nat.ofDigits 58 ((base58Chars b).reverse.map alphabet.idxOf) = byteValue b := by
  have digits : ((Nat.digits 58 (byteValue b)).map base58Char).map alphabet.idxOf =
      Nat.digits 58 (byteValue b) := by
    rw [List.map_map]
    refine (List.map_congr_left fun d hd => ?_).trans (List.map_id _)
    exact idxOf_base58Char d (Nat.digits_lt_base (by decide) hd)
  have zeros : ((b.takeWhile fun x => x = 0).map fun _ => '1').reverse.map alphabet.idxOf =
      List.replicate (b.takeWhile fun x => x = 0).length 0 := by
    rw [List.map_const', List.reverse_replicate, List.map_replicate]
    rfl
  rw [base58Chars, List.reverse_append, List.map_append, ← List.map_reverse, List.reverse_reverse,
    digits, zeros, Nat.ofDigits_append_replicate_zero, Nat.ofDigits_digits]

theorem byteValue_lt (a : Bytes 32) : byteValue a.toList < 256 ^ 32 := by
  have h := Nat.ofDigits_lt_base_pow_length (b := 256) (l := a.toList.reverse.map UInt8.toNat)
    (by decide) fun x hx => by
      obtain ⟨y, -, rfl⟩ := List.mem_map.mp hx
      exact y.toNat_lt
  rwa [List.length_map, List.length_reverse, a.length_eq] at h

/-- The number determines the 32 bytes. -/
theorem byteValue_inj {a b : Bytes 32} (h : byteValue a.toList = byteValue b.toList) : a = b := by
  have lt : ∀ (a : Bytes 32), ∀ x ∈ a.toList.reverse.map UInt8.toNat, x < 256 := by
    intro a x hx
    obtain ⟨y, -, rfl⟩ := List.mem_map.mp hx
    exact y.toNat_lt
  have hl := Nat.ofDigits_inj_of_len_eq (b := 256) (by decide)
    (by simp only [List.length_map, List.length_reverse, a.length_eq, b.length_eq]) (lt a) (lt b) h
  have hr := List.map_injective_iff.mpr (fun _ _ h => UInt8.toNat_inj.mp h) hl
  exact Bytes.toList_injective (List.reverse_injective hr)

/-- A string of `n` characters has at most `4 * n` bytes. -/
theorem toUTF8_ofList_length (l : List Char) :
    (String.ofList l).toUTF8.data.toList.length ≤ 4 * l.length := by
  have key : ∀ l : List Char, l.utf8Encode.size ≤ 4 * l.length := by
    intro l
    induction l with
    | nil => simp
    | cons c l ih =>
        rw [List.utf8Encode_cons, ByteArray.size_append, List.length_cons]
        have hc : ([c].utf8Encode).size ≤ 4 := by
          rw [List.utf8Encode_singleton, List.size_toByteArray, String.length_utf8EncodeChar]
          exact c.utf8Size_le_four
        omega
  simpa using key l

/-- 32 bytes are written in at most 76 characters. -/
theorem base58Chars_length (a : Bytes 32) : (base58Chars a.toList).length ≤ 76 := by
  have hz : (a.toList.takeWhile fun x => x = 0).length ≤ 32 :=
    (List.takeWhile_prefix _).length_le.trans a.length_eq.le
  have hd : (Nat.digits 58 (byteValue a.toList)).length ≤ 44 :=
    (Nat.digits_length_le_iff (by decide) _).mpr ((byteValue_lt a).trans (by norm_num))
  rw [base58Chars, List.length_append, List.length_map, List.length_map, List.length_reverse]
  omega

/-- **base58 is injective** on 32 bytes, and short. -/
theorem base58_faithful : Base58 primitives58 where
  injective := by
    intro a b h
    have hl : base58Chars a.toList = base58Chars b.toList := String.ofList_injective h
    refine byteValue_inj ?_
    rw [← byteValue_eq, ← byteValue_eq, hl]
  short := by
    intro a
    have h₁ := toUTF8_ofList_length (base58Chars a.toList)
    have h₂ := base58Chars_length a
    exact lt_of_le_of_lt (h₁.trans (Nat.mul_le_mul_left 4 h₂)) (by norm_num)

end Sample

section
open Sample

/-- alice's 150 and bob's 200. -/
theorem id_commits_two :
    Order.domainTag ++ alice150.bincode primitives58 ≠
      Order.domainTag ++ bob200.bincode primitives58 :=
  (id_commits base58_faithful (show alice150 ≠ bob200 by decide)).1

end

end OxDex
