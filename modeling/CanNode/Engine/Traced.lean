import CanNode.Engine.Basic

/-!
# Traced engines

A traced engine behaves as the engine it wraps and records the calls that change it, in order,
with what was answered.
-/

namespace CanNode

inductive EngineCall where
  | configure (config : NodeConfig)
  | accept (frame : ReceivedFrame) (outcome : AcceptOutcome)
  | subscribe (topic : Topic) (params : SessionParams)
      (answer : Except EngineError Unit)
  | unsubscribe (topic : Topic) (closed : Bool)
  | push (deadline : Micros) (metadata : Metadata) (payload : Bytes)
      (answer : Except EngineError Nat)
  | pop (answer : Option QueuedFrame)

/-- An engine with the calls that were made of it, oldest first. -/
structure Traced (σ : Type) where
  engine : σ
  calls : List EngineCall := []

namespace Traced

def record {σ : Type} (traced : Traced σ) (engine : σ) (call : EngineCall) : Traced σ :=
  { engine, calls := traced.calls ++ [call] }

instance {σ : Type} [Engine σ] : Engine (Traced σ) where
  configure config traced :=
    traced.record (Engine.configure config traced.engine) (.configure config)
  accept frame traced heap := do
    let (outcome, engine, heap) ← Engine.accept frame traced.engine heap
    return (outcome, traced.record engine (.accept frame outcome), heap)
  subscribe topic params traced :=
    let (answer, engine) := Engine.subscribe topic params traced.engine
    (answer, traced.record engine (.subscribe topic params answer))
  unsubscribe topic traced heap := do
    let (closed, engine, heap) ← Engine.unsubscribe topic traced.engine heap
    return (closed, traced.record engine (.unsubscribe topic closed), heap)
  push deadline metadata payload traced heap := do
    let (answer, engine, heap) ←
      Engine.push deadline metadata payload traced.engine heap
    return (answer, traced.record engine (.push deadline metadata payload answer), heap)
  peek traced := Engine.peek traced.engine
  pop traced :=
    let (answer, engine) := Engine.pop traced.engine
    (answer, traced.record engine (.pop answer))
  pending traced := Engine.pending traced.engine

end Traced

end CanNode
