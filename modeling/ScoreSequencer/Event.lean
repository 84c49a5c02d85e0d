import ScoreSequencer.Midi.Message
import ScoreSequencer.Time
/-!
# Timed events

An event tells an instrument to begin or to end a note at an instant. Events are
dispatched in the order of their instants; at the same instant all releases come
before all triggers, so a note that ends where another one on the same key begins
does not cut it off.
-/

namespace ScoreSequencer

/-- Whether an event begins or ends a note. -/
inductive Trigger where
  | on
  | off
deriving DecidableEq, Repr

namespace Trigger

def status : Trigger → Nat
  | on => Message.noteOnStatus
  | off => Message.noteOffStatus

def ofStatus? (status : Nat) : Option Trigger :=
  if status = Message.noteOnStatus then some on
  else if status = Message.noteOffStatus then some off
  else none

/-- The place among triggers at the same instant: releases first. -/
def rank : Trigger → Nat
  | off => 0
  | on => 1

def name : Trigger → String
  | on => "TriggerOn"
  | off => "TriggerOff"

end Trigger

/-- A trigger of a key at an instant. -/
structure Event where
  trigger : Trigger
  channel : Channel
  key : Key
  velocity : Velocity
  time : Instant
deriving DecidableEq

namespace Event

/-- The order of dispatch: by instant, then releases before triggers. -/
def order (a b : Event) : Ordering :=
  (a.time.totalOrder b.time).then (compare a.trigger.rank b.trigger.rank)

def notAfter (a b : Event) : Bool := a.order b != .gt

/-- Field by field equality, with instants compared as numbers. -/
def eqv (a b : Event) : Bool :=
  a.trigger = b.trigger && a.channel = b.channel && a.key = b.key && a.velocity = b.velocity &&
    a.time.seconds.eqv b.time.seconds

def message (e : Event) : Message :=
  match e.trigger with
  | .on => .noteOn e.channel e.key e.velocity
  | .off => .noteOff e.channel e.key e.velocity

def text (e : Event) : String :=
  e.trigger.name ++ "(channel " ++ toString e.channel.number ++ " key " ++ toString e.key.number ++
    " (" ++ e.key.pitch.text ++ ") velocity " ++ toString e.velocity.number ++ " at " ++ e.time.text ++ ")"

end Event

end ScoreSequencer
