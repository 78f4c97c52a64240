import CodeIndex.Path.Order
import CodeIndex.Watch.Event

/-!
# Debouncing

Bursts of events are collapsed to one event for each path, which is released when no event of the
path has come for an interval. The last event of a burst counts, but a creation behind a change or a
deletion is released as a change.
-/

namespace CodeIndex

/-- An event that waits for its release, and when the last event of its path came. -/
structure PendingEvent where
  event : FileEvent
  seen : Nat
  deriving Repr

/-- The events waiting for release, one for each path. -/
structure Debouncer where
  interval : Nat
  pending : List PendingEvent := []
  deriving Repr

namespace Debouncer

/-- The event that stands for an earlier one and a later one of the same path. -/
def merge (earlier : Option FileEvent) (later : FileEvent) : FileEvent :=
  match earlier with
  | some e => if e.kind ≠ .created ∧ later.kind = .created then ⟨.changed, later.path⟩ else later
  | none => later

/-- Takes in an event at a time. -/
def push (d : Debouncer) (event : FileEvent) (now : Nat) : Debouncer :=
  let earlier := (d.pending.find? fun p => p.event.path.same event.path).map (·.event)
  let others := d.pending.filter fun p => !p.event.path.same event.path
  { d with pending := others ++ [⟨merge earlier event, now⟩] }

/-- Whether an event has waited long enough at a time; a time before the event is no wait. -/
def isReady (d : Debouncer) (now : Nat) (p : PendingEvent) : Bool :=
  d.interval ≤ now - p.seen

/-- Releases the events that have waited long enough, in the order of their paths. -/
def drain (d : Debouncer) (now : Nat) : List FileEvent × Debouncer :=
  let ready := (d.pending.filter (d.isReady now)).map (·.event)
  (ready.mergeSort fun a b => a.path.notAfter b.path,
    { d with pending := d.pending.filter (!d.isReady now ·) })

/-- Whether no event waits. -/
def isEmpty (d : Debouncer) : Bool :=
  d.pending.isEmpty

end Debouncer

end CodeIndex
