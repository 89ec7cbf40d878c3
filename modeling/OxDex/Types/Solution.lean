import OxDex.Types.Order

/-!
# Types — Solution

A batch of orders and a solver's settlement of it (`oxdex-types`: `batch.rs`, `solution.rs`), and
two traders whose orders later modules run on.
-/

namespace OxDex

/-- `BatchId`: a UUID. -/
structure BatchId where
  uuid : Bytes 16
  deriving DecidableEq

/-- `Batch`. -/
structure Batch where
  id : BatchId
  sealedAt : Int64
  orders : List SignedOrder
  deriving DecidableEq

/-- `ClearingPrice`: the uniform price of one token. -/
structure ClearingPrice where
  mint : Address
  price : Price
  deriving DecidableEq

/-- `TradeExecution`: what one order sold and what it got. -/
structure TradeExecution where
  orderId : OrderId
  executedSell : UInt64
  executedBuy : UInt64
  deriving DecidableEq

/-- `Solution`.  The score is a `u128`. -/
@[ext] structure Solution where
  batchId : BatchId
  solver : Address
  clearingPrices : List ClearingPrice
  trades : List TradeExecution
  score : Nat
  deriving DecidableEq

namespace Solution

/-- `Solution::price_of`: the first price listed for `mint`. -/
def priceOf (s : Solution) (mint : Address) : Option Price :=
  (s.clearingPrices.find? fun c => c.mint = mint).map ClearingPrice.price

/-- The orders the trades name. -/
def orderIds (s : Solution) : List OrderId := s.trades.map TradeExecution.orderId

end Solution

/-- The identifiers of a batch's orders. -/
def Batch.orderIds (P : Primitives) (b : Batch) : List OrderId := b.orders.map fun s => s.order.id P

/-- No two different orders of a list have one identifier: what SHA-256 is relied on for. -/
def NoCollision (P : Primitives) (orders : List SignedOrder) : Prop :=
  ∀ s ∈ orders, ∀ t ∈ orders, s.order.id P = t.order.id P → s.order = t.order

theorem NoCollision.order_eq {P : Primitives} {orders : List SignedOrder} (h : NoCollision P orders)
    {s : SignedOrder} (hs : s ∈ orders) {o : Order} (ho : ∃ t ∈ orders, t.order = o)
    (hid : s.order.id P = o.id P) : s.order = o := by
  obtain ⟨t, ht, rfl⟩ := ho
  exact h s hs t ht hid

/-! ### Two traders

Keys, orders and signatures to run the model on, and the record of what the crates compute on them.
The orders are the ones the tests of the matching engine build. -/

namespace Sample

def alice : Address :=
  ⟨.ofNat 32 0x8a88e3dd7409f195fd52db2d3cba5d72ca6709bf1d94121bf3748801b40f6f5c⟩

def bob : Address :=
  ⟨.ofNat 32 0x8139770ea87d175f56a35466c34c7ecccb8d8a91b4ee37a25df60f5b8fc9b394⟩

def mintA : Address := .fill 10

def mintB : Address := .fill 20

def mintC : Address := .fill 30

def order (owner sellMint buyMint : Address) (sellAmount buyAmount : UInt64) (validTo : Int64) :
    Order where
  owner := owner
  sellMint := sellMint
  buyMint := buyMint
  sellAmount := sellAmount
  buyAmount := buyAmount
  validTo := validTo
  nonce := 0
  kind := .sell
  partialFill := true
  receiver := owner

/-- Sells 100 A for at least 150 B. -/
def alice150 : Order := order alice mintA mintB 100 150 Int64.maxValue

/-- Sells 100 A for at least 200 B. -/
def alice200 : Order := order alice mintA mintB 100 200 Int64.maxValue

/-- Sells 200 B for at least 100 A. -/
def bob200 : Order := order bob mintB mintA 200 100 Int64.maxValue

/-- Sells 2 B for at least 1 A. -/
def bob2 : Order := order bob mintB mintA 2 1 Int64.maxValue

/-- Sells 100 A for at least 200 C. -/
def aliceC : Order := order alice mintA mintC 100 200 Int64.maxValue

/-- Sells 200 C for at least 100 A. -/
def bobC : Order := order bob mintC mintA 200 100 Int64.maxValue

/-- Sells 500 B for at least 200 A. -/
def bob500 : Order := order bob mintB mintA 500 200 Int64.maxValue

/-- As `alice150`, but only up to the second 100. -/
def aliceSoon : Order := order alice mintA mintB 100 150 100

def base58 : List (Address × String) :=
  [(alice, "AKnL4NNf3DGWZJS6cPknBuEGnVsV4A4m5tgebLHaRSZ9"),
    (bob, "9hSR6S7WPtxmTojgo6GG3k4yDPecgJY292j7xrsUGWBu"),
    (mintA, "gBxS1f6uyyGPuW5MzGBukidSb71jdsCb5fZaoSzULE5"),
    (mintB, "2MNus2KCpxwXnp19iyXNpWSFtBD2UGjQBAL8AbtywfT9"),
    (mintC, "32ZsJ2yJjwuoBiWE5xnZjG9tKmK3CubbmEzgkQLyQzgD")]

/-- The encodings, without the digests. -/
def encodings : Primitives where
  sha256 := fun _ => .replicate 32 0
  bs58Encode := fun b => ((base58.find? fun e => e.1.bytes.toList = b).map Prod.snd).getD ""
  bs58Decode := fun s =>
    match base58.find? fun e => e.2 = s with
    | some e => .ok e.1.bytes.toList
    | none => .error "provided string contained invalid character"
  hexEncode := fun b => String.ofList (b.flatMap fun x =>
    [Nat.digitChar (x.toNat / 16), Nat.digitChar (x.toNat % 16)])
  hexDecode := fun _ => .error "Odd number of digits"
  verifyingKey := fun _ => .ok ()
  verify := fun _ _ _ => .error "signature error"

/-- The digests of the orders and the owners' signatures of them. -/
def signed : List (Order × Bytes 32 × Bytes 64) :=
  [(alice150, .ofNat 32 0x92d9649dcf37e0281a61b78475dea0d36708acf589a7a731ca20225ea189c84f,
      .ofNat 64 (0x93a9b70417cc1e298b85cc7b0ad543e85c6c044f96f9310264b3a8b323fd9fce * 2 ^ 256 +
        0x55731d52f0e739acd973895f6263791340bb895d7b28aa7ba922a230f22de809)),
    (alice200, .ofNat 32 0x1902590ca16b7f1ea85610d1b34a555eb2355cdd952f0709d50b108dc6d190e6,
      .ofNat 64 (0xca1f4ea907fd81d5e515611223e5bb306742a712827247a17fc683687ce6e828 * 2 ^ 256 +
        0x24c21e27ce3befe8ae2d81510887f925b3e7b110acf1e5c86dd68e29ee7dcd01)),
    (bob200, .ofNat 32 0x685effb19635a26488f3ea1eee4c96f71ca9c3a924145c39b28a31637a26de3e,
      .ofNat 64 (0x9275f237e1fb41fda998ddcba2aa0912b303e640af3862a662c32b6ec1c1517d * 2 ^ 256 +
        0xb17b1e7e2fb5782fd92df3c1eac5be5873f98f6a7c92b30ed52751b7c5316e0a)),
    (bob2, .ofNat 32 0xa4fd40b0894c71b84951f5edecfe9a7cfd59843c3cb8d3ba61e07c00cf83d279,
      .ofNat 64 (0xc575e0c21b90e6d76310c4dc30ce3346be6a34b289fe824a73fea6629d2eb5c1 * 2 ^ 256 +
        0xa9b88bacc7f6337993feec1ecf113bc2879096daa9e48a3ae8bef12991c1ad09)),
    (aliceC, .ofNat 32 0xbb0c851046e3d3bfe66b8898162050cad543711157017656d4af67611bf3b73f,
      .ofNat 64 (0xcd7d60158493a0a056918839c5b37b2f4d09b7f426e633d24b418e5af7700a8f * 2 ^ 256 +
        0x1f21626f6cd76a7571ecd5e2cab99d3a002f71d01d1dbfb64d47b3f34adef40b)),
    (bobC, .ofNat 32 0xf156ee25e99312582d43976f4fc79e828e3b4f542dd0ec25b93d1e873024ef32,
      .ofNat 64 (0x10ed5e3a8c2f9e612e942b1d7dee807666f6e9f89f739ace6613e0a970c64e7d * 2 ^ 256 +
        0x48cb76a4b1cad5a4a732fdd133ee58b9ce11d1b5dfc4d14921c2999967ce4406)),
    (aliceSoon, .ofNat 32 0x9431cd597cec7b5d91a7f6a97ff6dbecb578836692a91f7c1af07c948f6210c5,
      .ofNat 64 (0x6e9a3c5bb9019846d29ce600a0e40688eacd594426efad65e2e60116d846b650 * 2 ^ 256 +
        0xc2292b84bf981040982b5efb3eaa7d0a525a853539ce60dacfc2223993d9cc0c))]

/-- What the crates compute on the traders' data. -/
def primitives : Primitives :=
  { encodings with
    sha256 := fun m =>
      ((signed.find? fun e => Order.domainTag ++ e.1.bincode encodings = m).map fun e =>
        e.2.1).getD (.replicate 32 0)
    hexDecode := fun s =>
      match signed.find? fun e => encodings.hexEncode e.2.1.toList = s with
      | some e => .ok e.2.1.toList
      | none => .error "Invalid string length"
    verify := fun key message signature =>
      if signed.any fun e => e.1.owner.bytes = key ∧ e.2.1 = message ∧ e.2.2 = signature then
        .ok ()
      else .error "signature error" }

/-- The same, with the digests of further orders. -/
def primitivesWith (digests : List (Order × Bytes 32)) : Primitives :=
  { primitives with
    sha256 := fun m =>
      ((digests.find? fun e => Order.domainTag ++ e.1.bincode encodings = m).map Prod.snd).getD
        (primitives.sha256 m) }

/-- An order with its owner's signature. -/
def sign (o : Order) : SignedOrder :=
  ⟨o, ((signed.find? fun e => e.1 = o).map fun e => e.2.2).getD (.replicate 64 0)⟩

end Sample

end OxDex
