import Mathlib
import ScoreSequencer.Event
/-!
# Streams of messages

A status byte holds its kind in four bits and its channel in four, and a data byte
holds seven bits. The masks lose nothing, since the bounds are part of the types, so
three bytes are read back to the one message that has them (`ofBytes?_eq_some`). Only
the first of the three has its highest bit set, so a stream can be cut into messages
wherever such a byte stands (`frames_stream`).

`stream_faithful` says so of all streams, of the triggers that their status bytes stand
for, and of the buffers that messages are written to.
-/

namespace ScoreSequencer.Message

/-! ## The three bytes of a message -/

section Bytes

variable (c : Channel) (k : Key) (v : Velocity)

@[simp] theorem bytes_noteOff :
    (noteOff c k v).bytes = [statusByte noteOffStatus c, dataByte k.number, dataByte v.number] := rfl

@[simp] theorem bytes_noteOn :
    (noteOn c k v).bytes = [statusByte noteOnStatus c, dataByte k.number, dataByte v.number] := rfl

@[simp] theorem bytes_allNotesOff :
    (allNotesOff c).bytes = [statusByte controlChangeStatus c, .ofNat allNotesOffController, 0] := rfl

end Bytes

theorem dataByte_eq_iff {n : Nat} (h : n < 128) {b : UInt8} : dataByte n = b ↔ b.toNat = n := by
  have hmask : (dataByte n).toNat = n := by
    rw [dataByte, UInt8.toNat_and, UInt8.toNat_ofNat', UInt8.toNat_ofNat']
    exact (Nat.and_two_pow_sub_one_eq_mod _ 7).trans (by omega)
  rw [← UInt8.toNat_inj, hmask, eq_comm]

theorem toNat_statusByte {status : Nat} (h : status < 16) (c : Channel) :
    (statusByte status c).toNat = status * 16 + c.number := by
  have hc := c.number_lt
  have hlow : c.number &&& 15 = c.number :=
    (Nat.and_two_pow_sub_one_eq_mod _ 4).trans (Nat.mod_eq_of_lt hc)
  rw [statusByte, UInt8.toNat_or, UInt8.toNat_and, UInt8.toNat_shiftLeft]
  simp only [UInt8.toNat_ofNat', Nat.reducePow, Nat.reduceMod, Nat.mod_eq_of_lt (show status < 256 by omega),
    Nat.mod_eq_of_lt (show c.number < 256 by omega), hlow]
  rw [Nat.mod_eq_of_lt (by rw [Nat.shiftLeft_eq]; omega), ← Nat.shiftLeft_add_eq_or_of_lt hc, Nat.shiftLeft_eq]

theorem statusByte_eq_iff {status : Nat} (h : status < 16) {c : Channel} {b : UInt8} :
    statusByte status c = b ↔ b.toNat / 16 = status ∧ b.toNat % 16 = c.number := by
  have hc := c.number_lt
  rw [← UInt8.toNat_inj, toNat_statusByte h]
  omega

/-- A message's bytes are read back to that message and no others are. -/
theorem ofBytes?_eq_some {status first second : UInt8} {m : Message} :
    ofBytes? status first second = some m ↔ m.bytes = [status, first, second] := by
  have hoff : noteOffStatus < 16 := by decide
  have hon : noteOnStatus < 16 := by decide
  have hall : controlChangeStatus < 16 := by decide
  constructor
  · intro h
    unfold ofBytes? at h
    split at h
    · rename_i hdata
      dsimp only at h
      split at h
      · rename_i hkind
        cases h
        simp [statusByte_eq_iff hoff, dataByte_eq_iff hdata.1, dataByte_eq_iff hdata.2, hkind]
      split at h
      · rename_i hkind
        cases h
        simp [statusByte_eq_iff hon, dataByte_eq_iff hdata.1, dataByte_eq_iff hdata.2, hkind]
      split at h
      · rename_i hcontrol
        obtain ⟨hkind, hfirst, rfl⟩ := hcontrol
        cases h
        simp [statusByte_eq_iff hall, hkind, ← hfirst]
      · cases h
    · cases h
  · intro h
    cases m with
    | noteOff c k v | noteOn c k v =>
      simp only [bytes_noteOff, bytes_noteOn, List.cons.injEq, statusByte_eq_iff hoff, statusByte_eq_iff hon,
        dataByte_eq_iff k.number_lt, dataByte_eq_iff v.number_lt, and_true] at h
      obtain ⟨⟨hkind, hchannel⟩, hfirst, hsecond⟩ := h
      simp [ofBytes?, hkind, hchannel, hfirst, hsecond, k.number_lt, v.number_lt, noteOffStatus, noteOnStatus]
    | allNotesOff c =>
      simp only [bytes_allNotesOff, List.cons.injEq, statusByte_eq_iff hall, and_true] at h
      obtain ⟨⟨hkind, hchannel⟩, rfl, rfl⟩ := h
      simp [ofBytes?, hkind, hchannel, noteOffStatus, noteOnStatus, controlChangeStatus, allNotesOffController]

/-- A message is one status byte and two data bytes. -/
theorem exists_bytes (m : Message) : ∃ status first second : UInt8, m.bytes = [status, first, second] ∧
    isStatus status = true ∧ isStatus first = false ∧ isStatus second = false := by
  have hdata : ∀ n < 128, isStatus (dataByte n) = false := by
    intro n hn
    simp [isStatus, (dataByte_eq_iff hn).1 rfl, hn]
  have hstatus : ∀ s, 8 ≤ s → s < 16 → ∀ c, isStatus (statusByte s c) = true := by
    intro s hs hs' c
    simp only [isStatus, toNat_statusByte hs', decide_eq_true_eq]
    omega
  cases m with
  | noteOff c k v | noteOn c k v =>
    exact ⟨_, _, _, rfl, hstatus _ (by decide) (by decide) c, hdata _ k.number_lt, hdata _ v.number_lt⟩
  | allNotesOff c => exact ⟨_, _, _, rfl, hstatus _ (by decide) (by decide) c, by decide, by decide⟩

theorem length_bytes (m : Message) : m.bytes.length = 3 := by
  obtain ⟨_, _, _, hm, -⟩ := exists_bytes m
  rw [hm]
  rfl

/-! ## Streams -/

theorem stream_cons (m : Message) (messages : List Message) : stream (m :: messages) = m.bytes ++ stream messages :=
  List.flatMap_cons

theorem isStatus_of_head {messages : List Message} {b : UInt8} (h : b ∈ (stream messages).head?) :
    isStatus b = true := by
  cases messages with
  | nil => cases h
  | cons m messages =>
    obtain ⟨status, first, second, hm, hstatus, -⟩ := exists_bytes m
    rw [stream_cons, hm] at h
    cases h
    exact hstatus

/-- Cutting a stream in front of its status bytes gives the messages one by one. -/
theorem frames_stream (messages : List Message) : frames (stream messages) = messages.map bytes := by
  induction messages with
  | nil => rfl
  | cons m messages ih =>
    obtain ⟨status, first, second, hm, -, hfirst, hsecond⟩ := exists_bytes m
    have hone : frames m.bytes = [m.bytes] := by
      refine List.splitBy_of_isChain (by simp [hm]) ?_
      simp [hm, hfirst, hsecond]
    calc frames (stream (m :: messages))
      _ = frames (m.bytes ++ stream messages) := by rw [stream_cons]
      _ = frames m.bytes ++ frames (stream messages) :=
        List.splitBy_append fun _ _ b hb => by simp [isStatus_of_head hb]
      _ = (m :: messages).map bytes := by rw [hone, ih]; rfl

theorem ofFrame?_eq_some {frame : List UInt8} {m : Message} : ofFrame? frame = some m ↔ frame = m.bytes := by
  obtain ⟨_, _, _, hm, -⟩ := exists_bytes m
  unfold ofFrame?
  split
  · rw [ofBytes?_eq_some, eq_comm]
  · rename_i hframe
    refine ⟨nofun, ?_⟩
    rintro rfl
    exact absurd hm (hframe _ _ _)

theorem mapM_ofFrame?_eq_some {frames : List (List UInt8)} {messages : List Message} :
    frames.mapM ofFrame? = some messages ↔ frames = messages.map bytes := by
  induction frames generalizing messages with
  | nil => cases messages <;> simp
  | cons frame frames ih =>
    rw [List.mapM_cons]
    simp only [Option.bind_eq_bind, Option.bind_eq_some_iff, ofFrame?_eq_some, ih]
    cases messages <;> simp

/-- What is read from a stream is exactly what was written to it. -/
theorem readStream?_eq_some {bs : List UInt8} {messages : List Message} :
    readStream? bs = some messages ↔ bs = stream messages := by
  rw [readStream?, mapM_ofFrame?_eq_some]
  constructor
  · intro h
    rw [stream, List.flatMap_def, ← h, frames, List.flatten_splitBy]
  · rintro rfl
    exact frames_stream messages

/-- The status bytes of a stream stand at every third place from the beginning. -/
theorem isStatus_getElem {messages : List Message} {i : Nat} {b : UInt8} (h : (stream messages)[i]? = some b) :
    isStatus b = true ↔ 3 ∣ i := by
  induction messages generalizing i with
  | nil => cases h
  | cons m messages ih =>
    obtain ⟨status, first, second, hm, hstatus, hfirst, hsecond⟩ := exists_bytes m
    rw [stream_cons, hm] at h
    match i with
    | 0 =>
      cases h
      simp [hstatus]
    | 1 =>
      cases h
      simp [hfirst]
    | 2 =>
      cases h
      simp [hsecond]
    | i + 3 =>
      rw [ih h]
      omega

/-! ## Triggers -/

/-- What a message does to a key, if it is about one. -/
def trigger? : Message → Option Trigger
  | noteOff _ _ _ => some .off
  | noteOn _ _ _ => some .on
  | allNotesOff _ => none

/-- The triggers that the high four bits of the status bytes stand for. -/
def triggers (bs : List UInt8) : List (Option Trigger) :=
  (bs.filter isStatus).map fun b => Trigger.ofStatus? (b.toNat / 16)

theorem trigger?_message (e : Event) : e.message.trigger? = some e.trigger := by
  unfold Event.message
  cases e.trigger <;> rfl

theorem ofStatus?_statusByte {m : Message} {status first second : UInt8} (h : m.bytes = [status, first, second]) :
    Trigger.ofStatus? (status.toNat / 16) = m.trigger? := by
  cases m with
  | noteOff c k v | noteOn c k v | allNotesOff c =>
    rw [((statusByte_eq_iff (by decide)).1 (List.cons.inj h).1).1]
    rfl

theorem triggers_stream (messages : List Message) : triggers (stream messages) = messages.map trigger? := by
  induction messages with
  | nil => rfl
  | cons m messages ih =>
    obtain ⟨status, first, second, hm, hstatus, hfirst, hsecond⟩ := exists_bytes m
    have hone : triggers m.bytes = [m.trigger?] := by
      simp [triggers, hm, hstatus, hfirst, hsecond, ofStatus?_statusByte hm]
    rw [stream_cons, triggers, List.filter_append, List.map_append, ← triggers, ← triggers, hone, ih]
    rfl

/-! ## Buffers -/

variable {m : Message} {buffer written : List UInt8}

theorem overwrite?_eq_some {status first second : UInt8} :
    overwrite? status first second buffer = some written ↔
      3 ≤ buffer.length ∧ written = [status, first, second] ++ buffer.drop 3 := by
  unfold overwrite?
  split
  · simp [eq_comm]
  · rename_i hshort
    refine iff_of_false nofun ?_
    rintro ⟨hlen, -⟩
    match buffer, hlen with
    | _ :: _ :: _ :: _, _ => exact hshort _ _ _ _ rfl

/-- Writing a message replaces the first three bytes by those that it has in a buffer of its own. -/
theorem writeTo?_eq_some_append :
    m.writeTo? buffer = some written ↔ 3 ≤ buffer.length ∧ written = m.bytes ++ buffer.drop 3 := by
  cases m with
  | noteOff c k v | noteOn c k v | allNotesOff c => exact overwrite?_eq_some

theorem writeTo?_eq_none : m.writeTo? buffer = none ↔ buffer.length < 3 := by
  rw [Option.eq_none_iff_forall_ne_some]
  simp only [ne_eq, writeTo?_eq_some_append, not_and, ← not_le]
  exact ⟨fun h hlen => h _ hlen rfl, fun h _ hlen => absurd hlen h⟩

/-- A buffer keeps its length and everything behind the first three bytes. -/
theorem writeTo?_eq_some : m.writeTo? buffer = some written ↔
    written.take 3 = m.bytes ∧ written.drop 3 = buffer.drop 3 ∧ written.length = buffer.length := by
  rw [writeTo?_eq_some_append]
  constructor
  · rintro ⟨hlen, rfl⟩
    refine ⟨List.take_left' (length_bytes m), List.drop_left' (length_bytes m), ?_⟩
    rw [List.length_append, length_bytes, List.length_drop]
    omega
  · rintro ⟨htake, hdrop, hlen⟩
    have hthree := congrArg List.length htake
    rw [List.length_take, length_bytes] at hthree
    exact ⟨by omega, by rw [← htake, ← hdrop, List.take_append_drop]⟩

/-- A buffer of the message's size is long enough, and the message fills it. -/
theorem writeTo?_size (m : Message) : m.size = 3 ∧ m.writeTo? (List.replicate m.size 0) = some m.bytes := by
  cases m with
  | noteOff c k v | noteOn c k v | allNotesOff c => exact ⟨rfl, rfl⟩

/-! ## Main theorem -/

/-- The status bytes of a stream stand at every third place, and cutting there reads
the messages back, so no other messages have the same stream and nothing else is read
as these. A status byte tells the trigger of an event's message, and none for the
release of a whole channel. A message fills a buffer of its size, which is three; of a longer
buffer it takes the first three bytes in the same way and keeps all others, and a shorter one
takes no message. -/
theorem stream_faithful (messages : List Message) :
    (∀ i b, (stream messages)[i]? = some b → (isStatus b = true ↔ 3 ∣ i)) ∧
    frames (stream messages) = messages.map bytes ∧
    (∀ bs, readStream? bs = some messages ↔ bs = stream messages) ∧
    (∀ others, stream messages = stream others ↔ messages = others) ∧
    triggers (stream messages) = messages.map trigger? ∧
    (∀ events : List Event, triggers (stream (events.map Event.message)) = events.map fun e => some e.trigger) ∧
    (∀ channel, triggers (allNotesOff channel).bytes = [none]) ∧
    (∀ (m : Message) (buffer : List UInt8), (m.writeTo? buffer = none ↔ buffer.length < 3) ∧
      ∀ written, m.writeTo? buffer = some written ↔
        written.take 3 = m.bytes ∧ written.drop 3 = buffer.drop 3 ∧ written.length = buffer.length) ∧
    ∀ m : Message, m.size = 3 ∧ m.writeTo? (List.replicate m.size 0) = some m.bytes := by
  refine ⟨fun i b => isStatus_getElem, frames_stream messages, fun bs => readStream?_eq_some, fun others => ?_,
    triggers_stream messages, fun events => ?_, fun channel => ?_,
    fun m buffer => ⟨writeTo?_eq_none, fun written => writeTo?_eq_some⟩, writeTo?_size⟩
  · refine ⟨fun h => ?_, fun h => h ▸ rfl⟩
    have hread := readStream?_eq_some.2 h
    rw [readStream?_eq_some.2 rfl] at hread
    exact Option.some.inj hread
  · rw [triggers_stream, List.map_map]
    exact List.map_congr_left fun e _ => trigger?_message e
  · have hone := triggers_stream [allNotesOff channel]
    rwa [stream_cons, stream, List.flatMap_nil, List.append_nil] at hone

/-- A high key is released, and then all keys of another channel. -/
def farewell : List Message := [.noteOff ⟨9, by decide⟩ ⟨96, by decide⟩ ⟨0, by decide⟩, .allNotesOff ⟨15, by decide⟩]

theorem stream_faithful_farewell :
    (stream farewell)[3]? = some (.ofNat 191) ∧ isStatus (.ofNat 191) = true ∧ readStream? (stream farewell) = some farewell ∧
    triggers (stream farewell) = [some .off, none] := by
  obtain ⟨hplaces, -, hread, -, htriggers, -⟩ := stream_faithful farewell
  have hthird : (stream farewell)[3]? = some (.ofNat 191) := by decide
  exact ⟨hthird, (hplaces 3 _ hthird).2 (by decide), (hread _).2 rfl, htriggers⟩

end ScoreSequencer.Message
