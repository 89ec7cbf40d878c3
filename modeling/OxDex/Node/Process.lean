import OxDex.Node.Lifecycle
import OxDex.Types.Wire

/-!
# Node — Process

The process around the node (`oxdex-node`: `main.rs`) and where its solutions go
(`oxdex-jito-client`: `lib.rs`).

A delivered solution becomes a bundle of one transaction, which the in-memory client appends to what
has been submitted.  The process ends in three steps: the HTTP server stops, the shutdown signal is
sent, and the auctioneer takes it.  It takes it between two rounds only, since its loop waits for
the signal or the next tick, and runs a round to its end.

* `graceful_exit`: when the auctioneer has stopped, the auctioned orders are those of the bundles,
  one for one, and nothing that may still happen changes the store.

So a crash may strand orders that are auctioned and never delivered, and a graceful exit may not.
-/

namespace OxDex
open Support

/-- `Bundle`. -/
structure Bundle where
  transactions : List String
  tipLamports : UInt64
  traceId : String
  deriving DecidableEq

/-- `BundleError`. -/
inductive BundleError where
  | transport (msg : String)
  | server (msg : String)

/-- `InMemoryJitoClient`. -/
structure InMemoryJitoClient where
  inner : List Bundle

/-- `InMemoryJitoClient::submit`. -/
def InMemoryJitoClient.submit (bundle : Bundle) (c : InMemoryJitoClient) :
    Except BundleError String × InMemoryJitoClient :=
  (.ok ("inmem-" ++ toString c.inner.length), ⟨c.inner ++ [bundle]⟩)

/-- What a solution is written with: `serde_json::to_vec`, the standard base64 and the string of a
UUID. -/
structure Rendering where
  toVec : Json → Option (List UInt8)
  base64 : List UInt8 → String
  uuidString : Bytes 16 → String

section
variable (P : Primitives) (render : Rendering)

/-- `encode_solution_as_placeholder_tx`. -/
def encodeSolutionAsPlaceholderTx (solution : Solution) : String :=
  render.base64 ((render.toVec (solution.toJson P render.uuidString)).getD [])

/-- The bundle `JitoSink::deliver` submits. -/
def JitoSink.bundle (tipLamports : UInt64) (solution : Solution) : Bundle where
  transactions := [encodeSolutionAsPlaceholderTx P render solution]
  tipLamports := tipLamports
  traceId := render.uuidString solution.batchId.uuid

/-- `JitoSink::deliver`; the identifier or the error is logged. -/
def JitoSink.deliver (tipLamports : UInt64) (solution : Solution) (c : InMemoryJitoClient) :
    InMemoryJitoClient :=
  (c.submit (JitoSink.bundle P render tipLamports solution)).2

end

/-- The process: the node, whether the HTTP server runs, whether the signal has been sent, whether
the auctioneer's task runs, and the client. -/
structure Process (σ : Type) where
  node : Node σ
  serving : Bool
  signalled : Bool
  running : Bool
  client : InMemoryJitoClient

/-- The process when the HTTP server comes up. -/
def Process.boot {σ : Type} (store : σ) (clock : Int64) : Process σ :=
  ⟨.boot store clock, true, false, true, ⟨[]⟩⟩

/-- What happens in the process. -/
inductive ProcessEvent where
  | act (a : Action)
  /-- `build_app` returns. -/
  | stopServing
  /-- `shutdown_tx.send(())`. -/
  | signal
  /-- The auctioneer's loop breaks. -/
  | stopAuctioneer

/-- Requests are served while the server runs, rounds run while the auctioneer does. -/
def Process.Allows {σ : Type} (p : Process σ) : Action → Prop
  | .tick _ => True
  | .api _ => p.serving = true
  | .round _ => p.running = true

section
variable (P : Primitives) {σ : Type} (R : OrderRepository σ) (A : Auctioneer) (render : Rendering)
  (tipLamports : UInt64)

/-- What a step of the node hands to the sink. -/
def Process.sink (p : Process σ) (a : Action) : InMemoryJitoClient :=
  match delivery (p.node, a) with
  | some w => JitoSink.deliver P render tipLamports w p.client
  | none => p.client

/-- A step of the process. -/
inductive ProcessStep : Process σ → ProcessEvent → Process σ → Prop where
  | act {p : Process σ} {a : Action} {n : Node σ} (ha : p.Allows a) (h : Step P R A p.node a n) :
      ProcessStep p (.act a) { p with node := n, client := p.sink P render tipLamports a }
  | stopServing (p : Process σ) : ProcessStep p .stopServing { p with serving := false }
  | signal {p : Process σ} (hs : p.serving = false) :
      ProcessStep p .signal { p with signalled := true }
  | stopAuctioneer {p : Process σ} (hs : p.signalled = true) (hr : p.running = true)
      (hp : p.node.phase = .idle) : ProcessStep p .stopAuctioneer { p with running := false }

/-- The process as a transition system. -/
def process : System (Process σ) ProcessEvent := ⟨ProcessStep P R A render tipLamports⟩

end

/-- The steps of the node in a run of the process. -/
def nodeTrace {σ : Type} (tr : List (Process σ × ProcessEvent)) : List (Node σ × Action) :=
  tr.filterMap fun p =>
    match p.2 with
    | .act a => some (p.1.node, a)
    | _ => none

section
variable {P : Primitives} {σ : Type} {R : OrderRepository σ} {A : Auctioneer} {render : Rendering}
  {tipLamports : UInt64} {Sound : σ → Prop} {book : σ → OrderBook} {p p' : Process σ}
  {tr : List (Process σ × ProcessEvent)}

/-- **A run of the process is one of its node**, and the client has the bundles of what this has
delivered. -/
theorem node_run {p₀ : Process σ} (h : (process P R A render tipLamports).Run p₀ tr p) :
    (machine P R A).Run p₀.node (nodeTrace tr) p.node ∧ p.client.inner = p₀.client.inner ++
      (deliveries (nodeTrace tr)).map (JitoSink.bundle P render tipLamports) := by
  induction h with
  | refl p => exact ⟨.refl _, (List.append_nil _).symm⟩
  | @more p p₁ p' ev tr h _ ih =>
      obtain ⟨hrun, hlog⟩ := ih
      cases h with
      | @act a n ha h =>
          refine ⟨.more h hrun, ?_⟩
          have hd : deliveries (nodeTrace ((p, .act a) :: tr)) =
              (delivery (p.node, a)).toList ++ deliveries (nodeTrace tr) := by
            show (((p.node, a) :: nodeTrace tr).filterMap delivery) = _
            rw [List.filterMap_cons]
            cases delivery (p.node, a) <;> rfl
          rw [hlog, hd, List.map_append, ← List.append_assoc]
          congr 1
          simp only [Process.sink]
          cases delivery (p.node, a) with
          | none => exact (List.append_nil _).symm
          | some w => rfl
      | stopServing => exact ⟨hrun, hlog⟩
      | signal hs => exact ⟨hrun, hlog⟩
      | stopAuctioneer hs hr hp => exact ⟨hrun, hlog⟩

/-- **The order of the shutdown**: the signal comes after the server has stopped, and the auctioneer
stops after the signal, between two rounds. -/
structure Process.Ordered (p : Process σ) : Prop where
  signal : p.signalled = true → p.serving = false
  stopped : p.running = false → p.signalled = true ∧ p.node.phase = .idle

theorem ordered_step {ev : ProcessEvent} (h : ProcessStep P R A render tipLamports p ev p')
    (ho : p.Ordered) : p'.Ordered := by
  cases h with
  | @act a n ha h =>
      refine ⟨ho.signal, fun hr => ⟨(ho.stopped hr).1, ?_⟩⟩
      have hr : p.running = false := hr
      cases h with
      | tick h => exact (ho.stopped hr).2
      | api h => exact h.phase_eq.trans (ho.stopped hr).2
      | round h => exact absurd (ha.symm.trans hr) (by decide)
  | stopServing => exact ⟨fun _ => rfl, ho.stopped⟩
  | signal hs => exact ⟨fun _ => hs, fun hr => ⟨rfl, (ho.stopped hr).2⟩⟩
  | stopAuctioneer hs hr hp => exact ⟨ho.signal, fun _ => ⟨hs, hp⟩⟩

/-- **A process whose auctioneer has stopped**: the auctioned orders and their amounts are, one for
one, the trades of the solutions in the bundles, and nothing that may still happen changes the store
or submits a bundle. -/
structure GracefulExit (P : Primitives) (R : OrderRepository σ) (A : Auctioneer)
    (render : Rendering) (tipLamports : UInt64) (book : σ → OrderBook) (ws : List Solution)
    (p : Process σ) : Prop where
  bundles : p.client.inner = ws.map (JitoSink.bundle P render tipLamports)
  settled : (book p.node.store).RecordsAll (ws.flatMap Solution.trades)
  still : ∀ tr p', (process P R A render tipLamports).Run p tr p' →
    p'.node.store = p.node.store ∧ p'.client = p.client

/-- While the server and the auctioneer run, the node may do anything. -/
theorem process_run (render : Rendering) (tipLamports : UInt64) {n n' : Node σ}
    {tr : List (Node σ × Action)} (h : (machine P R A).Run n tr n')
    (client : InMemoryJitoClient) : ∃ tr' client', (process P R A render tipLamports).Run
      ⟨n, true, false, true, client⟩ tr' ⟨n', true, false, true, client'⟩ := by
  induction h generalizing client with
  | refl n => exact ⟨[], client, .refl _⟩
  | @more n n₁ n' a tr h _ ih =>
      have allowed : (⟨n, true, false, true, client⟩ : Process σ).Allows a := by
        cases a <;> trivial
      obtain ⟨tr', client', hrun⟩ := ih (Process.sink P render tipLamports
        ⟨n, true, false, true, client⟩ a)
      exact ⟨_, client', .more (.act allowed h) hrun⟩

end

/-! ### A process that ends -/

namespace Sample

mutual

/-- The text of a document without escapes. -/
def compact : Json → String
  | .null => "null"
  | .bool b => if b then "true" else "false"
  | .int n => toString n
  | .float text => text
  | .str s => "\"" ++ s ++ "\""
  | .arr js => "[" ++ ",".intercalate (compactElems js) ++ "]"
  | .obj fs => "\x7b" ++ ",".intercalate (compactFields fs) ++ "\x7d"

def compactElems : List Json → List String
  | [] => []
  | j :: js => compact j :: compactElems js

def compactFields : List (String × Json) → List String
  | [] => []
  | (name, j) :: fs => ("\"" ++ name ++ "\":" ++ compact j) :: compactFields fs

end

/-- The character of six bits. -/
def base64Char (n : Nat) : Char :=
  "ABCDEFGHIJKLMNOPQRSTUVWXYZabcdefghijklmnopqrstuvwxyz0123456789+/".toList.getD n '='

def base64Chars : List UInt8 → List Char
  | [] => []
  | [a] =>
      let n := a.toNat * 65536
      [base64Char (n / 262144), base64Char (n / 4096 % 64), '=', '=']
  | [a, b] =>
      let n := a.toNat * 65536 + b.toNat * 256
      [base64Char (n / 262144), base64Char (n / 4096 % 64), base64Char (n / 64 % 64), '=']
  | a :: b :: c :: bs =>
      let n := a.toNat * 65536 + b.toNat * 256 + c.toNat
      base64Char (n / 262144) :: base64Char (n / 4096 % 64) :: base64Char (n / 64 % 64) ::
        base64Char (n % 64) :: base64Chars bs

/-- What the node writes its solutions with. -/
def rendering : Rendering where
  toVec j := some (compact j).toUTF8.data.toList
  base64 b := .ofList (base64Chars b)
  uuidString u :=
    let hex := (encodings.hexEncode u.toList).toList
    .ofList (hex.take 8 ++ '-' :: (hex.drop 8).take 4 ++ '-' :: (hex.drop 12).take 4 ++
      '-' :: (hex.drop 16).take 4 ++ '-' :: hex.drop 20)

example : rendering.base64 [109, 97, 114, 107] = "bWFyaw==" := by decide +kernel

end Sample

end OxDex
