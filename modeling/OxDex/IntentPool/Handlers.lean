import OxDex.Storage.Repository

/-!
# Intent pool — Handlers

The HTTP API (`oxdex-intent-pool`: `handlers.rs`, `errors.rs`, `app.rs`), over any repository.

A request is what its handler is given once the router and the extractors are through: a decoded
body, a path segment, query strings, headers.  `serve` runs the handler of a request.

`Request.effect` is what a request means for the order book, and `serve_book` says that serving it
does that, over every repository that keeps the book.
-/

namespace OxDex

/-- `StatusCode` of an error. -/
def OxDexError.statusCode : OxDexError → Nat
  | .invalidAddress _ | .invalidOrder _ | .badSignature _ | .invalidSolution _ => 400
  | .notFound _ => 404
  | .conflict _ => 409
  | .storage _ | .network _ => 503
  | .config _ | .internal _ => 500

/-- What a handler answers. -/
inductive Response where
  /-- `200` with a text body. -/
  | text (body : String)
  /-- `201` with a `SubmitResponse`. -/
  | created (id : OrderId) (status : String)
  /-- `200` with one record. -/
  | record (r : OrderRecord)
  /-- `200` with a list of records. -/
  | records (rs : List OrderRecord)
  /-- `204`. -/
  | noContent
  /-- An error's status code, with an `ApiErrorBody`. -/
  | error (status : Nat) (code : String) (message : String)
  deriving DecidableEq

/-- `ApiError::error_response`. -/
def apiError (e : OxDexError) : Response := .error e.statusCode e.code e.display

/-- The headers of a request: lower-case names, raw values. -/
abbrev Headers := List (String × List UInt8)

/-- `HeaderMap::get`: the first value. -/
def Headers.get (hs : Headers) (name : String) : Option (List UInt8) :=
  (hs.find? fun h => h.1 = name).map Prod.snd

/-- `HeaderValue::to_str`: visible ASCII only. -/
def headerToStr (value : List UInt8) : Option String :=
  if value.all fun b => (32 ≤ b ∧ b < 127) ∨ b = 9 then
    some (String.ofList (value.map fun b => Char.ofNat b.toNat))
  else none

/-- A request, as its handler sees it. -/
inductive Request where
  | healthz
  | readyz
  | submit (signed : SignedOrder)
  | get (path : String)
  | list (sellMint buyMint : Option String)
  | cancel (path : String) (headers : Headers)

/-- The readings of the clock a request takes: in seconds, and in nanoseconds. -/
structure Clock where
  secs : Int64
  nanos : Nat

section
variable (P : Primitives)

/-- `parse_order_id`. -/
def parseOrderId (s : String) : Except OxDexError OrderId :=
  match P.hexDecode s with
  | .error e => .error (.invalidOrder ("bad hex id: " ++ e))
  | .ok bytes =>
      if h : bytes.length = 32 then .ok ⟨⟨bytes, h⟩⟩
      else .error (.invalidOrder "id must be 32 bytes")

/-- The pair `list_orders` filters by. -/
def parsePair : Option String → Option String → Except OxDexError (Option (Address × Address))
  | some s, some b => do
      let s ← Address.fromStr P s
      let b ← Address.fromStr P b
      return some (s, b)
  | none, none => return none
  | _, _ => .error (.invalidOrder "must specify both sell_mint and buy_mint, or neither")

/-- What `cancel_order` reads off a request: the identifier in the path, the owner in `X-Owner`. -/
def cancelArgs (path : String) (headers : Headers) : Except OxDexError (OrderId × Address) := do
  let id ← parseOrderId P path
  let ownerStr ← match (headers.get "x-owner").bind headerToStr with
    | some s => pure s
    | none => .error (.invalidOrder "missing X-Owner")
  let owner ← Address.fromStr P ownerStr
  return (id, owner)

variable {σ : Type} (R : OrderRepository σ)

/-- `readyz`. -/
def readyz (st : σ) : Response :=
  match R.listOpen none st with
  | .error e => apiError (e.toOxDexError P)
  | .ok _ => .text "ready"

/-- `submit_order`. -/
def submitOrder (clock : Clock) (signed : SignedOrder) (st : σ) : Response × σ :=
  match signed.order.validate clock.secs with
  | .error e => (apiError e, st)
  | .ok () =>
      match signed.verify P with
      | .error e => (apiError e, st)
      | .ok () =>
          match R.insert clock.nanos signed st with
          | (.error e, st) => (apiError (e.toOxDexError P), st)
          | (.ok rec, st) => (.created rec.id rec.status.asStr, st)

/-- `get_order`. -/
def getOrder (path : String) (st : σ) : Response :=
  match parseOrderId P path with
  | .error e => apiError e
  | .ok id =>
      match R.get id st with
      | .error e => apiError (e.toOxDexError P)
      | .ok rec => .record rec

/-- `list_orders`. -/
def listOrders (sellMint buyMint : Option String) (st : σ) : Response :=
  match parsePair P sellMint buyMint with
  | .error e => apiError e
  | .ok pair =>
      match R.listOpen pair st with
      | .error e => apiError (e.toOxDexError P)
      | .ok recs => .records recs

/-- `cancel_order`. -/
def cancelOrder (clock : Clock) (path : String) (headers : Headers) (st : σ) : Response × σ :=
  match cancelArgs P path headers with
  | .error e => (apiError e, st)
  | .ok (id, owner) =>
      match R.cancel clock.nanos id owner st with
      | (.error e, st) => (apiError (e.toOxDexError P), st)
      | (.ok true, st) => (.noContent, st)
      | (.ok false, st) => (apiError (.conflict "not cancellable"), st)

/-- Run the handler of a request. -/
def serve (clock : Clock) : Request → σ → Response × σ
  | .healthz, st => (.text "ok", st)
  | .readyz, st => (readyz P R st, st)
  | .submit signed, st => submitOrder P R clock signed st
  | .get path, st => (getOrder P R path st, st)
  | .list sellMint buyMint, st => (listOrders P R sellMint buyMint st, st)
  | .cancel path headers, st => cancelOrder P R clock path headers st

/-- Serve a sequence of requests, each with its readings of the clock. -/
def serveAll : List (Clock × Request) → σ → σ
  | [], st => st
  | (clock, req) :: reqs, st => serveAll reqs (serve P R clock req st).2

end

/-! ### What a request does to the book -/

/-- The effect of a request on the book: a checked order is submitted, a well-formed `DELETE`
cancels, and nothing else changes it. -/
def Request.effect (P : Primitives) (clock : Clock) : Request → OrderBook → OrderBook
  | .submit s, b =>
      if s.order.validate clock.secs = .ok () ∧ s.verify P = .ok () then b.submit P s else b
  | .cancel path headers, b =>
      match cancelArgs P path headers with
      | .ok (id, owner) => b.cancel id owner
      | .error _ => b
  | _, b => b

/-- The effect of a sequence of requests. -/
def Request.effects (P : Primitives) : List (Clock × Request) → OrderBook → OrderBook
  | [], b => b
  | (clock, req) :: reqs, b => Request.effects P reqs (req.effect P clock b)

section
variable {P : Primitives} {σ : Type} {R : OrderRepository σ} {Sound : σ → Prop}
  {book : σ → OrderBook}

/-- **Serving a request changes the book as the request's effect does.** -/
theorem serve_book (hR : Implements P R Sound book) {st : σ} (hs : Sound st) (clock : Clock)
    (req : Request) : Sound (serve P R clock req st).2 ∧
      book (serve P R clock req st).2 = req.effect P clock (book st) := by
  cases req with
  | healthz => exact ⟨hs, rfl⟩
  | readyz => exact ⟨hs, rfl⟩
  | get path => exact ⟨hs, rfl⟩
  | list sellMint buyMint => exact ⟨hs, rfl⟩
  | submit s =>
      have hi := hR.insert clock.nanos s st hs
      obtain ⟨res, st', hst⟩ : ∃ res st', R.insert clock.nanos s st = (res, st') := ⟨_, _, rfl⟩
      rw [hst] at hi
      simp only [serve, submitOrder, Request.effect]
      cases hv : s.order.validate clock.secs with
      | error e => exact ⟨hs, (if_neg (fun h => by cases h.1)).symm⟩
      | ok _ =>
          cases hsig : s.verify P with
          | error e => exact ⟨hs, (if_neg (fun h => by cases h.2)).symm⟩
          | ok _ =>
              rw [if_pos ⟨rfl, rfl⟩]
              cases res with
              | error e => simp only [hst]; exact hi
              | ok rec => simp only [hst]; exact hi
  | cancel path headers =>
      simp only [serve, cancelOrder, Request.effect]
      cases hargs : cancelArgs P path headers with
      | error e => exact ⟨hs, rfl⟩
      | ok args =>
          obtain ⟨id, owner⟩ := args
          have hc := hR.cancel clock.nanos id owner st hs
          obtain ⟨res, st', hst⟩ : ∃ res st', R.cancel clock.nanos id owner st = (res, st') :=
            ⟨_, _, rfl⟩
          rw [hst] at hc
          rcases res with e | _ | _ <;> simp only [hst] <;> exact ⟨hc.1, hc.2.1⟩

/-- **The same for a sequence of requests.** -/
theorem serveAll_book (hR : Implements P R Sound book) :
    ∀ (reqs : List (Clock × Request)) {st : σ}, Sound st → Sound (serveAll P R reqs st) ∧
      book (serveAll P R reqs st) = Request.effects P reqs (book st)
  | [], _, hs => ⟨hs, rfl⟩
  | (clock, req) :: reqs, _, hs => by
      have h := serve_book hR hs clock req
      have ih := serveAll_book hR reqs h.1
      rw [h.2] at ih
      exact ih

end

end OxDex
