import ScoreSequencer.Midi.Data
/-!
# Channel messages and their bytes

Every message takes three bytes: a status byte, whose high four bits tell the
kind and whose low four bits the channel, and two data bytes. Only a status byte
has its highest bit set, so a stream of messages can be read back.
-/

namespace ScoreSequencer

inductive Message where
  | noteOff (channel : Channel) (key : Key) (velocity : Velocity)
  | noteOn (channel : Channel) (key : Key) (velocity : Velocity)
  /-- Every note of the channel is released. -/
  | allNotesOff (channel : Channel)
deriving DecidableEq

namespace Message

/-- The status of a release, in the high four bits of the first byte. -/
def noteOffStatus : Nat := 8

def noteOnStatus : Nat := 9

def controlChangeStatus : Nat := 11

/-- The controller whose change to zero releases every note. -/
def allNotesOffController : Nat := 123

def channel : Message → Channel
  | noteOff c _ _ => c
  | noteOn c _ _ => c
  | allNotesOff c => c

/-! ## Encoding -/

/-- The status in the high four bits and the low four bits of the channel below it. -/
def statusByte (status : Nat) (channel : Channel) : UInt8 :=
  (UInt8.ofNat status <<< UInt8.ofNat 4) ||| (UInt8.ofNat channel.number &&& UInt8.ofNat 15)

/-- The low seven bits of a number. -/
def dataByte (n : Nat) : UInt8 := UInt8.ofNat n &&& UInt8.ofNat 127

/-- The number of bytes that the message takes. -/
def size : Message → Nat
  | noteOff _ _ _ => 3
  | noteOn _ _ _ => 3
  | allNotesOff _ => 3

/-- A buffer with three bytes written over its first three, if it has so many. -/
def overwrite? (status first second : UInt8) : List UInt8 → Option (List UInt8)
  | _ :: _ :: _ :: rest => some (status :: first :: second :: rest)
  | _ => none

/-- A buffer with the message written over its beginning, if it fits. -/
def writeTo? (m : Message) (buffer : List UInt8) : Option (List UInt8) :=
  match m with
  | noteOff c k v => overwrite? (statusByte noteOffStatus c) (dataByte k.number) (dataByte v.number) buffer
  | noteOn c k v => overwrite? (statusByte noteOnStatus c) (dataByte k.number) (dataByte v.number) buffer
  | allNotesOff c => overwrite? (statusByte controlChangeStatus c) (.ofNat allNotesOffController) 0 buffer

/-- The message in a buffer of its own. -/
def bytes (m : Message) : List UInt8 := (m.writeTo? (List.replicate m.size 0)).getD []

/-- The message of three bytes, if they are one. -/
def ofBytes? (status first second : UInt8) : Option Message :=
  let channel : Channel := ⟨status.toNat % 16, Nat.mod_lt _ (by decide)⟩
  if h : first.toNat < 128 ∧ second.toNat < 128 then
    let kind := status.toNat / 16
    if kind = noteOffStatus then some (.noteOff channel ⟨first.toNat, h.1⟩ ⟨second.toNat, h.2⟩)
    else if kind = noteOnStatus then some (.noteOn channel ⟨first.toNat, h.1⟩ ⟨second.toNat, h.2⟩)
    else if kind = controlChangeStatus ∧ first.toNat = allNotesOffController ∧ second = 0 then
      some (.allNotesOff channel)
    else none
  else none

/-! ## Streams -/

/-- The bytes of some messages, one message after the other. -/
def stream (messages : List Message) : List UInt8 := messages.flatMap bytes

/-- A byte with its highest bit set. -/
def isStatus (b : UInt8) : Bool := 128 ≤ b.toNat

/-- A stream cut in front of every status byte. -/
def frames (stream : List UInt8) : List (List UInt8) := stream.splitBy fun _ b => !isStatus b

/-- The message of a frame, if it is one. -/
def ofFrame? : List UInt8 → Option Message
  | [status, first, second] => ofBytes? status first second
  | _ => none

/-- The messages of a stream, if each of its frames is one. -/
def readStream? (stream : List UInt8) : Option (List Message) := (frames stream).mapM ofFrame?

/-! ## Texts -/

/-- A constructor's name with its fields in braces. -/
def braced (name fields : String) : String := name ++ " \x7b " ++ fields ++ " \x7d"

/-- The message with its fields named, as it is logged. -/
def text : Message → String
  | noteOff c k v => braced "NoteOff" (note c k v)
  | noteOn c k v => braced "NoteOn" (note c k v)
  | allNotesOff c => braced "AllNotesOff" ("channel: Channel(" ++ toString c.number ++ ")")
where
  note (c : Channel) (k : Key) (v : Velocity) : String :=
    "channel: Channel(" ++ toString c.number ++ "), key: Key(" ++ toString k.number ++
      "), velocity: Velocity(" ++ toString v.number ++ ")"

/-- The two lower case hexadecimal digits of a byte. -/
def hexByte (b : UInt8) : String :=
  String.ofList [Nat.digitChar (b.toNat / 16), Nat.digitChar (b.toNat % 16)]

/-- The bytes of a message as they are logged. -/
def hexText (m : Message) : String := "[" ++ ", ".intercalate (m.bytes.map hexByte) ++ "]"

end Message

end ScoreSequencer
