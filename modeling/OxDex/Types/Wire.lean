import OxDex.Support.Json
import OxDex.Types.Encoding

/-!
# Types — Wire

The JSON of signed orders, as `serde` derives it (`oxdex-types`: `order.rs`, `address.rs`;
`oxdex-intent-pool`: `handlers.rs`), and that of solutions (`solution.rs`, `price.rs`).

An address is its base58 string, a signature its hex string, a kind its name in lower case, and a
number a number.  `SubmitBody` is what `POST /v1/orders` takes.

`serde_faithful`: a document that carries the JSON of a signed order, whatever the order of its
fields and whatever other fields there are, at the top and in the order, is read as that signed
order, and the body of a submission likewise.  A client may use any JSON library then, and a store
may keep the document as it likes.

Of `bs58` and `hex` this takes that they read back what they write (`Encodings`).
-/

namespace OxDex
open Support

/-- What is relied on of `bs58` and `hex`: decoding inverts encoding. -/
structure Encodings (P : Primitives) : Prop where
  bs58 : ∀ a : Bytes 32, P.bs58Decode (P.bs58Encode a.toList) = .ok a.toList
  hex : ∀ b : List UInt8, P.hexDecode (P.hexEncode b) = .ok b

/-! ### Signed orders -/

/-- A `u64`. -/
def u64Serde : Codec UInt64 :=
  .int (fun x => x.toNat) (fun n => UInt64.ofNat n.toNat) 0 (2 ^ 64 - 1)

/-- An `i64`. -/
def i64Serde : Codec Int64 := .int Int64.toInt Int64.ofInt (-2 ^ 63) (2 ^ 63 - 1)

/-- `OrderKind`, with `rename_all = "lowercase"`. -/
def OrderKind.name : OrderKind → String
  | .sell => "sell"
  | .buy => "buy"

def OrderKind.ofName (s : String) : Option OrderKind :=
  if s = "sell" then some .sell else if s = "buy" then some .buy else none

def OrderKind.serde : Codec OrderKind := .variant name ofName

/-- `Serialize` and `Deserialize` for `OrderId`: an array of bytes. -/
def OrderId.serde : Codec OrderId :=
  (Codec.list (.int (fun b : UInt8 => b.toNat) (fun n => UInt8.ofNat n.toNat) 0 255)).via
    (fun id => id.bytes.toList) fun v => if h : v.length = 32 then some ⟨⟨v, h⟩⟩ else none

section
variable (P : Primitives)

/-- `Serialize` and `Deserialize` for `Address`. -/
def Address.serde : Codec Address :=
  Codec.str.via (display P) fun s => (fromStr P s).toOption

/-- `serde_bytes_array`: 64 bytes as hex. -/
def signatureSerde : Codec (Bytes 64) :=
  Codec.str.via (fun v => P.hexEncode v.toList) fun s =>
    match P.hexDecode s with
    | .ok v => if h : v.length = 64 then some ⟨v, h⟩ else none
    | .error _ => none

/-- The fields of `Order`. -/
def Order.record : Record (Address × Address × Address × UInt64 × UInt64 × Int64 × UInt64 ×
    OrderKind × Bool × Address) :=
  (Record.field "owner" (Address.serde P)).pair <|
  (Record.field "sell_mint" (Address.serde P)).pair <|
  (Record.field "buy_mint" (Address.serde P)).pair <|
  (Record.field "sell_amount" u64Serde).pair <|
  (Record.field "buy_amount" u64Serde).pair <|
  (Record.field "valid_to" i64Serde).pair <|
  (Record.field "nonce" u64Serde).pair <|
  (Record.field "kind" OrderKind.serde).pair <|
  (Record.field "partial_fill" Codec.bool).pair <|
  Record.field "receiver" (Address.serde P)

/-- `Serialize` and `Deserialize` for `Order`. -/
def Order.serde : Codec Order :=
  (record P).codec.via
    (fun o => (o.owner, o.sellMint, o.buyMint, o.sellAmount, o.buyAmount, o.validTo, o.nonce,
      o.kind, o.partialFill, o.receiver))
    fun (owner, sellMint, buyMint, sellAmount, buyAmount, validTo, nonce, kind, partialFill,
      receiver) =>
        some ⟨owner, sellMint, buyMint, sellAmount, buyAmount, validTo, nonce, kind, partialFill,
          receiver⟩

/-- `Serialize` and `Deserialize` for `SignedOrder`. -/
def SignedOrder.serde : Codec SignedOrder :=
  ((Record.field "order" (Order.serde P)).pair
    (Record.field "signature" (signatureSerde P))).codec.via
      (fun s => (s.order, s.signature)) fun (order, signature) => some ⟨order, signature⟩

/-- `SubmitBody`. -/
def SubmitBody.serde : Codec SignedOrder := (Record.field "signed" (SignedOrder.serde P)).codec

end

/-! ### Solutions

A solution is only written. -/

section
variable (P : Primitives) (uuidString : Bytes 16 → String)

/-- `Serialize` for `Price`. -/
def Price.toJson (p : Price) : Json := .obj [("num", .int p.num), ("den", .int p.den)]

/-- `Serialize` for `ClearingPrice`. -/
def ClearingPrice.toJson (c : ClearingPrice) : Json :=
  .obj [("mint", .str (c.mint.display P)), ("price", c.price.toJson)]

/-- `Serialize` for `TradeExecution`. -/
def TradeExecution.toJson (t : TradeExecution) : Json :=
  .obj [("order_id", OrderId.serde.enc t.orderId), ("executed_sell", .int t.executedSell.toNat),
    ("executed_buy", .int t.executedBuy.toNat)]

/-- `Serialize` for `Solution`, with the string of its batch's UUID. -/
def Solution.toJson (s : Solution) : Json :=
  .obj [("batch_id", .str (uuidString s.batchId.uuid)), ("solver", .str (s.solver.display P)),
    ("clearing_prices", .arr (s.clearingPrices.map (ClearingPrice.toJson P))),
    ("trades", .arr (s.trades.map TradeExecution.toJson)), ("score", .int s.score)]

end

/-! ### What is read -/

/-- A `u64` is read from the number it is written as. -/
theorem u64Serde_faithful : u64Serde.Faithful :=
  Codec.int_faithful (fun x => ⟨Int.natCast_nonneg _, by have := x.toNat_lt; omega⟩) fun x => by
    rw [Int.toNat_natCast, UInt64.ofNat_toNat]

/-- So is an `i64`. -/
theorem i64Serde_faithful : i64Serde.Faithful :=
  Codec.int_faithful (fun x => ⟨x.le_toInt, by have := x.toInt_lt; omega⟩) Int64.ofInt_toInt

theorem OrderKind.serde_faithful : OrderKind.serde.Faithful :=
  Codec.variant_faithful fun k => by cases k <;> rfl

/-- No two fields of an order have one name. -/
theorem Order.names_nodup (P : Primitives) : (Order.record P).names.Nodup :=
  show ["owner", "sell_mint", "buy_mint", "sell_amount", "buy_amount", "valid_to", "nonce", "kind",
    "partial_fill", "receiver"].Nodup by decide

theorem SignedOrder.names_nodup : ["order", "signature"].Nodup := by decide

section
variable {P : Primitives} (h : Encodings P)
include h

/-- An address is read from its base58 string. -/
theorem Address.serde_faithful : (Address.serde P).Faithful :=
  Codec.str_faithful.via fun a => by
    rw [fromStr_display P (h.bs58 a.bytes)]
    rfl

/-- A signature is read from its hex string. -/
theorem signatureSerde_faithful : (signatureSerde P).Faithful :=
  Codec.str_faithful.via fun v => by
    simp only [h.hex, v.length_eq, dite_true]

/-- **The fields of an order are read from those it is written with.** -/
theorem Order.record_faithful : (Order.record P).Faithful := by
  have address := Address.serde_faithful h
  have u64 := u64Serde_faithful
  exact (address.field _).pair <| (address.field _).pair <| (address.field _).pair <|
    (u64.field _).pair <| (u64.field _).pair <| (i64Serde_faithful.field _).pair <|
    (u64.field _).pair <| (OrderKind.serde_faithful.field _).pair <|
    (Codec.bool_faithful.field _).pair (address.field _)

theorem Order.serde_faithful : (Order.serde P).Faithful :=
  ((Order.record_faithful h).codec (Order.names_nodup P)).via fun _ => rfl

/-- A signed order is read from every document that carries it. -/
theorem SignedOrder.serde_faithful : (SignedOrder.serde P).Faithful :=
  (((Order.serde_faithful h).field _).pair ((signatureSerde_faithful h).field _)
    |>.codec SignedOrder.names_nodup).via fun _ => rfl

/-- So is the body of a submission. -/
theorem SubmitBody.serde_faithful : (SubmitBody.serde P).Faithful :=
  ((SignedOrder.serde_faithful h).field _).codec (List.nodup_singleton _)

end

/-! ### base58 and hex

What the two crates compute, to show that they are as `Encodings` says. -/

namespace Sample

/-- The bytes: a zero for each leading `1`, then the digits of the number. -/
def base58Bytes (cs : List Char) : List UInt8 :=
  (cs.takeWhile fun c => c = '1').map (fun _ => 0) ++
    (Nat.digits 256 (Nat.ofDigits 58 (cs.reverse.map alphabet.idxOf))).reverse.map UInt8.ofNat

def base58Decode (s : String) : Except String (List UInt8) :=
  if s.toList.all fun c => c ∈ alphabet then .ok (base58Bytes s.toList)
  else .error "provided string contained invalid character"

/-- The value of a hex digit. -/
def hexDigit (c : Char) : Option Nat :=
  let k := "0123456789abcdef".toList.idxOf c.toLower
  if k < 16 then some k else none

/-- The bytes of pairs of hex digits. -/
def hexBytes : List Char → Except String (List UInt8)
  | [] => .ok []
  | [_] => .error "Odd number of digits"
  | c :: d :: cs =>
      match hexDigit c, hexDigit d with
      | some x, some y => (hexBytes cs).map fun bs => UInt8.ofNat (16 * x + y) :: bs
      | _, _ => .error "Invalid character"

/-- The traders' data, with base58 and hex computed. -/
def primitivesWire : Primitives :=
  { primitives58 with
    bs58Decode := base58Decode
    hexEncode := encodings.hexEncode
    hexDecode := fun s => hexBytes s.toList }

theorem base58Char_mem : ∀ d < 58, base58Char d ∈ alphabet := by decide +kernel

theorem base58Char_ne_one : ∀ d < 58, d ≠ 0 → base58Char d ≠ '1' := by decide +kernel

/-- What is written is in the alphabet. -/
theorem base58Chars_mem (b : List UInt8) : ∀ c ∈ base58Chars b, c ∈ alphabet := by
  intro c hc
  rcases List.mem_append.mp hc with hc | hc
  · obtain ⟨x, -, rfl⟩ := List.mem_map.mp hc
    decide
  · obtain ⟨d, hd, rfl⟩ := List.mem_map.mp hc
    exact base58Char_mem d (Nat.digits_lt_base (by decide) (List.mem_reverse.mp hd))

/-- The leading `1`s stand for the leading zeros, and nothing else. -/
theorem takeWhile_base58Chars (b : List UInt8) :
    (base58Chars b).takeWhile (fun c => c = '1') =
      (b.takeWhile fun x => x = 0).map fun _ => '1' := by
  have hones : ∀ c ∈ (b.takeWhile fun x => x = 0).map (fun _ => '1'), decide (c = '1') = true := by
    intro c hc
    obtain ⟨x, -, rfl⟩ := List.mem_map.mp hc
    rfl
  rw [base58Chars, List.takeWhile_append_of_pos hones]
  refine List.append_right_eq_self.mpr ?_
  -- the first digit of a number is not zero
  cases hd : (Nat.digits 58 (byteValue b)).reverse with
  | nil => rfl
  | cons d ds =>
      have hne : Nat.digits 58 (byteValue b) ≠ [] := by
        rintro h
        rw [h] at hd
        cases hd
      have hlast : (Nat.digits 58 (byteValue b)).getLast hne = d := by
        rw [← List.head_reverse (by simpa using hne)]
        simp only [hd, List.head_cons]
      have hv : byteValue b ≠ 0 := fun h => hne (by rw [h, Nat.digits_zero])
      have hd0 : d ≠ 0 := hlast ▸ Nat.getLast_digit_ne_zero 58 hv
      have hlt : d < 58 := Nat.digits_lt_base (by decide) (hlast ▸ List.getLast_mem hne)
      rw [List.map_cons, List.takeWhile_cons_of_neg]
      exact fun h => base58Char_ne_one d hlt hd0 (of_decide_eq_true h)

/-- A byte string is its leading zeros and the digits of its number. -/
theorem bytes_eq (b : List UInt8) : (b.takeWhile fun x => x = 0).map (fun _ => (0 : UInt8)) ++
    (Nat.digits 256 (byteValue b)).reverse.map UInt8.ofNat = b := by
  induction b with
  | nil => rfl
  | cons x b ih =>
      by_cases hx : x = 0
      · subst hx
        have hv : byteValue (0 :: b) = byteValue b := by
          simp [byteValue, Nat.ofDigits_append]
        rw [hv, List.takeWhile_cons_of_pos (by rfl), List.map_cons, List.cons_append, ih]
      · rw [List.takeWhile_cons_of_neg (by simpa using hx), List.map_nil, List.nil_append,
          byteValue, Nat.digits_ofDigits 256 (by decide)]
        · rw [← List.map_reverse, List.reverse_reverse, List.map_map]
          exact (List.map_congr_left fun y _ => UInt8.ofNat_toNat).trans (List.map_id _)
        · intro d hd
          obtain ⟨y, -, rfl⟩ := List.mem_map.mp hd
          exact y.toNat_lt
        · intro h
          simpa [← UInt8.toNat_inj] using hx

/-- **base58 is read back.** -/
theorem base58Decode_encode (b : List UInt8) : base58Decode (base58Encode b) = .ok b := by
  have hall : (base58Encode b).toList.all (fun c => c ∈ alphabet) = true := by
    rw [List.all_eq_true]
    intro c hc
    rw [base58Encode, String.toList_ofList] at hc
    exact decide_eq_true (base58Chars_mem b c hc)
  rw [base58Decode, if_pos hall, base58Encode, String.toList_ofList, base58Bytes, byteValue_eq,
    takeWhile_base58Chars, List.map_map]
  exact congrArg _ (bytes_eq b)

theorem hexDigit_digitChar : ∀ k < 16, hexDigit (Nat.digitChar k) = some k := by decide +kernel

/-- **Hex is read back.** -/
theorem hexBytes_encode : ∀ b : List UInt8,
    hexBytes (b.flatMap fun x => [Nat.digitChar (x.toNat / 16), Nat.digitChar (x.toNat % 16)]) =
      .ok b
  | [] => rfl
  | x :: b => by
      have hhi : x.toNat / 16 < 16 := by have := x.toNat_lt; omega
      have hlo : x.toNat % 16 < 16 := Nat.mod_lt _ (by decide)
      rw [List.flatMap_cons]
      simp only [List.cons_append, List.nil_append, hexBytes, hexDigit_digitChar _ hhi,
        hexDigit_digitChar _ hlo, hexBytes_encode b, Nat.div_add_mod]
      exact congrArg (fun y => Except.ok (y :: b)) UInt8.ofNat_toNat

/-- **The two crates are as relied on.** -/
theorem primitivesWire_encodings : Encodings primitivesWire where
  bs58 := fun a => base58Decode_encode a.toList
  hex := fun b => by
    show hexBytes (encodings.hexEncode b).toList = .ok b
    rw [encodings, String.toList_ofList, hexBytes_encode]

end Sample

end OxDex
