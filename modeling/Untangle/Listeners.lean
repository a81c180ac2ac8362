/-
  Untangle.Listeners

  Handlers that wait for events. A handler waits for an event once, however often it is
  subscribed. An event goes to the handlers that waited for it when it came up; what they
  subscribe meanwhile counts from the next event on.
-/

namespace Untangle

/-- Handlers and the events that they wait for. -/
structure Listeners (ε η : Type) where
  subscriptions : List (ε × η) := []

namespace Listeners

variable {ε η : Type} [BEq ε] [BEq η]

/-- Subscribes a handler to an event. -/
def subscribe (l : Listeners ε η) (event : ε) (handler : η) : Listeners ε η :=
  if l.subscriptions.any fun (e, h) => e == event && h == handler then l
  else ⟨l.subscriptions ++ [(event, handler)]⟩

/-- The handlers that wait for an event. -/
def waiting (l : Listeners ε η) (event : ε) : List η :=
  (l.subscriptions.filter fun (e, _) => e == event).map (·.2)

/-- Announces an event: the handlers called, and the subscriptions afterwards. Each call
    of a handler may subscribe more. -/
def emit (l : Listeners ε η) (subscribed : η → List (ε × η)) (event : ε) :
    List η × Listeners ε η :=
  let called := l.waiting event
  (called, (called.flatMap subscribed).foldl (fun l (e, h) => l.subscribe e h) l)

end Listeners

end Untangle
