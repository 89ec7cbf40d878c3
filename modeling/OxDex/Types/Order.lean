import OxDex.Types.Price

/-!
# Types — Order

The order a user signs, its identifier and its checks (`oxdex-types`: `order.rs`).

The identifier is SHA-256 of a domain tag followed by the bincode of the order: fixed-width
little-endian integers, strings prefixed by their length, enum variants by their index, addresses
as their base58 strings.
-/

namespace OxDex

/-- `OrderId`. -/
structure OrderId where
  bytes : Bytes 32
  deriving DecidableEq

/-- `OrderId::to_hex`, which is also its `Display` form. -/
def OrderId.toHex (P : Primitives) (id : OrderId) : String := P.hexEncode id.bytes.toList

/-- `OrderKind`: exact-in or exact-out. -/
inductive OrderKind where
  | sell
  | buy
  deriving DecidableEq

/-- `OrderStatus`: the lifecycle state of a stored order. -/
inductive OrderStatus where
  /-- In the open book, eligible for the next batch. -/
  | opened
  /-- Picked up by an auction. -/
  | auctioned
  | filled
  | partiallyFilled
  | cancelled
  /-- Reached `valid_to` without being filled. -/
  | expired
  deriving DecidableEq

namespace OrderStatus

/-- The text of a status in the `status` column. -/
def asStr : OrderStatus → String
  | .opened => "open"
  | .auctioned => "auctioned"
  | .filled => "filled"
  | .partiallyFilled => "partially_filled"
  | .cancelled => "cancelled"
  | .expired => "expired"

/-- The status of a text. -/
def fromDb (s : String) : Option OrderStatus :=
  if s = "open" then some .opened
  else if s = "auctioned" then some .auctioned
  else if s = "filled" then some .filled
  else if s = "partially_filled" then some .partiallyFilled
  else if s = "cancelled" then some .cancelled
  else if s = "expired" then some .expired
  else none

/-- `from_db` inverts `as_str`. -/
@[simp] theorem fromDb_asStr (s : OrderStatus) : fromDb s.asStr = some s := by
  cases s <;> decide

theorem asStr_injective : Function.Injective asStr := by
  intro s t h
  have := congrArg fromDb h
  rwa [fromDb_asStr, fromDb_asStr, Option.some.injEq] at this

end OrderStatus

/-- `Order`. -/
structure Order where
  owner : Address
  sellMint : Address
  buyMint : Address
  sellAmount : UInt64
  buyAmount : UInt64
  /-- Unix seconds after which the order is no longer valid. -/
  validTo : Int64
  nonce : UInt64
  kind : OrderKind
  partialFill : Bool
  receiver : Address
  deriving DecidableEq

/-! ### bincode -/

/-- The `w` low bytes of `n`, the least significant first. -/
def leBytes (w n : Nat) : List UInt8 := (List.range w).map fun k => UInt8.ofNat (n / 256 ^ k)

/-- A string: its length as a `u64`, then its bytes. -/
def bincodeStr (s : String) : List UInt8 :=
  leBytes 8 s.toUTF8.data.toList.length ++ s.toUTF8.data.toList

/-- An enum: the index of the variant as a `u32`. -/
def bincodeKind : OrderKind → List UInt8
  | .sell => leBytes 4 0
  | .buy => leBytes 4 1

namespace Order

/-- Prefixed to an order's encoding before it is hashed. -/
def domainTag : List UInt8 := "oxdex/order/v1".toUTF8.data.toList

variable (P : Primitives)

/-- `bincode::serialize`. -/
def bincode (o : Order) : List UInt8 :=
  bincodeStr (o.owner.display P) ++ bincodeStr (o.sellMint.display P) ++
    bincodeStr (o.buyMint.display P) ++ leBytes 8 o.sellAmount.toNat ++
    leBytes 8 o.buyAmount.toNat ++ leBytes 8 o.validTo.toUInt64.toNat ++
    leBytes 8 o.nonce.toNat ++ bincodeKind o.kind ++ [if o.partialFill then 1 else 0] ++
    bincodeStr (o.receiver.display P)

/-- `Order::id`. -/
def id (o : Order) : OrderId := ⟨P.sha256 (domainTag ++ o.bincode P)⟩

/-- `Order::validate`. -/
def validate (o : Order) (now : Int64) : Except OxDexError Unit :=
  if o.sellMint = o.buyMint then .error (.invalidOrder "sell and buy mints are equal")
  else if o.sellAmount = 0 then .error (.invalidOrder "sell_amount must be > 0")
  else if o.buyAmount = 0 then .error (.invalidOrder "buy_amount must be > 0")
  else if o.validTo ≤ now then
    .error (.invalidOrder ("order already expired (valid_to=" ++ toString o.validTo ++ ", now=" ++
      toString now ++ ")"))
  else .ok ()

/-- `Order::limit_price`. -/
def limitPrice (o : Order) : Price where
  num := o.buyAmount.toNat
  den := max o.sellAmount.toNat 1
  num_le := (toNat_le_u64Max _).trans u64Max_le_u128Max
  den_le := max_le ((toNat_le_u64Max _).trans u64Max_le_u128Max) (by decide)
  den_pos := lt_max_of_lt_right Nat.one_pos

@[simp] theorem limitPrice_num (o : Order) : o.limitPrice.num = o.buyAmount.toNat := rfl

theorem limitPrice_isU64 (o : Order) : o.limitPrice.IsU64 :=
  ⟨toNat_le_u64Max _, max_le (toNat_le_u64Max _) (by decide)⟩

/-- The checks of `validate` that do not read the clock. -/
structure WellFormed (o : Order) : Prop where
  mints : o.sellMint ≠ o.buyMint
  sell_pos : 0 < o.sellAmount.toNat
  buy_pos : 0 < o.buyAmount.toNat

theorem toNat_pos_iff {x : UInt64} : 0 < x.toNat ↔ x ≠ 0 := by
  rw [Nat.pos_iff_ne_zero, Ne, Ne, ← UInt64.toNat_inj]
  rfl

/-- **What `validate` accepts.** -/
theorem validate_eq_ok_iff {o : Order} {now : Int64} :
    o.validate now = .ok () ↔ o.WellFormed ∧ now < o.validTo := by
  unfold validate
  constructor
  · intro h
    split at h
    · cases h
    · next h₁ =>
      split at h
      · cases h
      · next h₂ =>
        split at h
        · cases h
        · next h₃ =>
          split at h
          · cases h
          · next h₄ =>
            exact ⟨⟨h₁, toNat_pos_iff.mpr h₂, toNat_pos_iff.mpr h₃⟩, Int64.not_le.mp h₄⟩
  · rintro ⟨⟨h₁, h₂, h₃⟩, h₄⟩
    rw [if_neg h₁, if_neg (toNat_pos_iff.mp h₂), if_neg (toNat_pos_iff.mp h₃),
      if_neg (Int64.not_le.mpr h₄)]

theorem WellFormed.limitPrice_den {o : Order} (h : o.WellFormed) :
    o.limitPrice.den = o.sellAmount.toNat :=
  max_eq_left h.sell_pos

/-- `x` sells what `y` buys and buys what `y` sells. -/
def Opposite (x y : Order) : Prop := x.sellMint = y.buyMint ∧ x.buyMint = y.sellMint

instance (x y : Order) : Decidable (x.Opposite y) := inferInstanceAs (Decidable (_ ∧ _))

end Order

/-- `SignedOrder`: an order and a signature over its identifier. -/
structure SignedOrder where
  order : Order
  signature : Bytes 64
  deriving DecidableEq

/-- `SignedOrder::verify`. -/
def SignedOrder.verify (P : Primitives) (s : SignedOrder) : Except OxDexError Unit :=
  match P.verifyingKey s.order.owner.bytes with
  | .error e => .error (.badSignature ("bad pubkey: " ++ e))
  | .ok () =>
      match P.verify s.order.owner.bytes (s.order.id P).bytes s.signature with
      | .error e => .error (.badSignature e)
      | .ok () => .ok ()

end OxDex
